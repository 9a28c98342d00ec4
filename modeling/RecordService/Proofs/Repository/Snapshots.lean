import RecordService.Proofs.Repository.Rereads
import RecordService.Proofs.Store.Replacements

/-! # Snapshots of the catalog

Plans, finds and deletions look at the catalog once, and so do creations and updates up to their commit: no replacement
disturbs them. The record that was written is then read back by a find of its own, under the catalog in force by that
time (`Repository.ReadsBack`). -/

namespace RecordService

theorem Step.isLook_of_isFetch {step : Step} (h : step.isFetch) : step.isLook = false := by
  cases step with
  | query | ended => rfl
  | catalog | change | begin | commit | rollback | invalidate => cases h

theorem Step.isLook_of_isWork {step : Step} (h : step.isWork) : step.isLook = false := by
  cases step with
  | query | change => rfl
  | catalog | begin | commit | rollback | invalidate | ended => cases h

theorem FindPlan.run_unaware (plan : FindPlan) : plan.run.OnlyAsks (·.isLook = false) :=
  plan.run_fetches.mono fun _ => Step.isLook_of_isFetch

namespace Repository

open Operation

variable (r : Repository) {β γ σ : Type}

/-! ### Operations that read once -/

theorem lookUp_readsOnce : r.lookUp.ReadsOnce := by
  refine ⟨_, rfl, fun catalog => ?_⟩
  split
  · exact .pure _
  · exact .throw _

theorem explain_readsOnce (request : FindRequest) : (r.explain request).ReadsOnce :=
  ⟨_, rfl, fun _ => .ofExcept _⟩

theorem find_readsOnce (request : FindRequest) : (r.find request).ReadsOnce :=
  (r.explain_readsOnce request).bind FindPlan.run_unaware

theorem findOne_readsOnce (id : Json) : (r.findOne id).ReadsOnce :=
  r.lookUp_readsOnce.bind fun _ => .bind (.ofExcept _) fun plan => .bind plan.run_unaware fun _ => .pure _

theorem reread_readsOnce (table : Table) (id : Json) (text : String) : (r.reread table id text).ReadsOnce := by
  refine (r.findOne_readsOnce id).bind fun record => ?_
  cases record with
  | some record => exact .pure _
  | none => exact .throw _

/-! ### Mutations -/

/-- A mutation of prepared work, without what follows it. -/
def written (prepare : Preparation β) : Operation (Table × β) := do
  let (catalog, table) ← r.lookUp
  let work ← Operation.ofExcept (prepare catalog table)
  let value ← Operation.transaction work
  r.invalidate table
  return (table, value)

theorem mutate_eq (prepare : Preparation β) (reread : Table → β → Operation γ) :
    r.mutate prepare reread = r.written prepare >>= fun (table, value) => reread table value := by
  unfold mutate written
  simp only [bind_assoc, pure_bind]

theorem invalidate_unaware (table : Table) : (r.invalidate table).OnlyAsks (·.isLook = false) := by
  unfold invalidate
  split
  · exact .ask rfl
  · exact .pure _

theorem written_readsOnce {prepare : Preparation β}
    (hworks : ∀ catalog table work, prepare catalog table = .ok work → work.OnlyAsks (·.isWork)) :
    (r.written prepare).ReadsOnce := by
  refine r.lookUp_readsOnce.bind fun (catalog, table) => ?_
  dsimp only
  rw [ofExcept_bind]
  cases hprepare : prepare catalog table with
  | error e => exact .throw e
  | ok work =>
    have hwork := (hworks catalog table work hprepare).mono fun _ => Step.isLook_of_isWork
    exact .bind (hwork.transaction rfl rfl rfl) fun _ => .bind (r.invalidate_unaware table) fun _ => .pure _

theorem delete_readsOnce (id : Json) : (r.delete id).ReadsOnce := by
  rw [r.delete_mutates id, r.mutate_eq]
  exact (r.written_readsOnce (removal_works id)).bind fun _ => .pure _

variable (prepare : Preparation β) (reread : Table → β → Operation γ)
  (answer : (step : Step) → σ → step.Answer × σ) (s : Replacing σ)

/-- Up to its commit, and where it fails by then, a mutation is not disturbed by replacements. Its record is read back
under the catalog that is in force after that (`now`), so it is disturbed exactly if that shows something else than the
first catalog would. -/
structure ReadsBack (op : Operation γ) : Prop where
  written : (r.written prepare).Undisturbed answer s
  failed : ∀ e, (r.written prepare).result (Replacing.answer answer) s = .error e →
    op.Undisturbed answer s ∧ op.result (Replacing.answer answer) s = .error e
  readBack : ∀ table value, (r.written prepare).result (Replacing.answer answer) s = .ok (table, value) →
    ∀ now, now = (r.written prepare).after (Replacing.answer answer) s →
      let back (catalog : Catalog) := (reread table value).shown (holding catalog answer) now.store
      op.shown (Replacing.answer answer) s =
        (((r.written prepare).shown (Replacing.answer answer) s).1 ++ (back now.current).1, (back now.current).2) ∧
      (op.Undisturbed answer s ↔ back now.current = back s.current)

variable {prepare reread} in
theorem mutate_readsBack
    (hworks : ∀ catalog table work, prepare catalog table = .ok work → work.OnlyAsks (·.isWork))
    (hreads : ∀ table value, (reread table value).ReadsOnce) :
    r.ReadsBack prepare reread answer s (r.mutate prepare reread) := by
  have hwritten := r.written_readsOnce hworks
  obtain ⟨hsame, hstore⟩ := hwritten.shown_store_eq answer s
  have hresult : (r.written prepare).result (Replacing.answer answer) s =
      (r.written prepare).result (holding s.current answer) s.store := congrArg Prod.snd hsame
  rw [r.mutate_eq]
  have hlooks := hwritten.looksFirst.bind fun p => reread p.1 p.2
  refine ⟨hwritten.undisturbed answer s, fun e hfails => ⟨?_, result_bind_error hfails⟩, ?_⟩
  · refine (hlooks.undisturbed_iff answer s).mpr ?_
    rw [shown_bind_error hfails, shown_bind_error (hresult.symm.trans hfails), hsame]
  · rintro table value hdone now rfl
    have hreplacing := (shown_bind_ok (f := fun p => reread p.1 p.2) hdone).trans
      (by rw [((hreads table value).shown_store_eq answer _).1])
    have hholding := shown_bind_ok (f := fun p => reread p.1 p.2) (hresult.symm.trans hdone)
    rw [← hstore, ← hsame] at hholding
    refine ⟨hreplacing, (hlooks.undisturbed_iff answer s).trans ?_⟩
    -- what was written is shown by both
    rw [hreplacing, hholding]
    simp only [Prod.ext_iff, List.append_cancel_left_eq]

/-- Whatever catalogs are installed between their steps, plans, finds and deletions show what they would show if the
catalog they find first stayed. So do creations and updates that fail before their commit; all others show what they
wrote under the first catalog, and then what reading the record back shows under the catalog in force by then. -/
theorem snapshots_kept (request : FindRequest) (id payload : Json) :
    (r.explain request).Undisturbed answer s ∧ (r.find request).Undisturbed answer s ∧
    (r.findOne id).Undisturbed answer s ∧ (r.delete id).Undisturbed answer s ∧
    r.ReadsBack (r.insertion payload) r.rereadNew answer s (r.create payload) ∧
    r.ReadsBack (r.amendment id payload) (r.rereadOld id) answer s (r.update id payload) := by
  refine ⟨(r.explain_readsOnce request).undisturbed answer s, (r.find_readsOnce request).undisturbed answer s,
    (r.findOne_readsOnce id).undisturbed answer s, (r.delete_readsOnce id).undisturbed answer s, ?_, ?_⟩
  · rw [r.create_mutates payload]
    exact r.mutate_readsBack answer s (r.insertion_works payload) fun _ _ => r.reread_readsOnce ..
  · rw [r.update_mutates id payload]
    exact r.mutate_readsBack answer s (r.amendment_works id payload) fun _ _ => r.reread_readsOnce ..

/-- The session of an update of a user that can be read back. -/
def renamed : Session :=
  .start .staff .standard [.success ⟨["id", "name", "roleId"], [[.int 1, .text "Ann", .int 2]]⟩ ⟨1, none⟩,
    .success .empty ⟨1, none⟩,
    .success ⟨["id", "name", "roleId", "role"], [[.int 1, .text "Bo", .int 2, .int 2]]⟩ ⟨1, none⟩]

/-- A user gets a new name. After the commit, and before the user is read back, an empty catalog is installed: the update
fails, as if there were no such table, though it has been made. Had the catalog stayed, it would not have failed. -/
theorem snapshot_lost_users :
    let s : Replacing Session := ⟨renamed, .start .staff, List.replicate 6 [] ++ [[.empty]]⟩
    let op := (standard "users").update (.int 1) (.obj [("name", .str "Bo")])
    ⟨.commit, .ok ()⟩ ∈ op.events (Replacing.answer Session.answer) s ∧
    op.result (Replacing.answer Session.answer) s = .error (.compile (.unknownTable "users")) ∧
    (∃ user, op.result (holding .staff Session.answer) s.store = .ok user) ∧
    ¬op.Undisturbed Session.answer s := by
  intro s op
  have hcommit : ⟨.commit, .ok ()⟩ ∈ op.events (Replacing.answer Session.answer) s :=
    Event.commit_mem_iff.mpr (by decide +kernel)
  have hfailed : (op.result (Replacing.answer Session.answer) s).map (fun _ => ()) =
      .error (.compile (.unknownTable "users")) := by
    decide +kernel
  have hmade : (op.result (holding .staff Session.answer) s.store).map (fun _ => ()) = .ok () := by
    decide +kernel
  have hfails := map_eq_error.mp hfailed
  obtain ⟨user, huser, -⟩ := map_eq_ok.mp hmade
  have hlooks : op.LooksFirst := (standard "users").lookUp_readsOnce.looksFirst.bind _
  refine ⟨hcommit, hfails, ⟨user, huser⟩, fun hundisturbed => ?_⟩
  have hcurrent : s.current = .staff := rfl
  have hresult := hlooks.result_eq hundisturbed
  rw [hcurrent, hfails, huser] at hresult
  cases hresult

end Repository
end RecordService
