import RecordService.Handler.Capabilities
import RecordService.Proofs.Text.Splitting
import RecordService.Script.Callee

/-! # Call paths are read exactly

A path stands for a target in one of three spellings (`CallTarget.Spelled`), and is read as a target just if it stands
for it (`CallTarget.ofPath?_eq_some_iff`). So a call comes back as the table and method, or the helper, that the script
means (`CallTarget.paths_exact`), and what stands for nothing is refused before anything is reached. A name with a dot,
or an empty one, has no path of its own. -/

namespace RecordService

/-- The names of the method in a path. -/
def RecordMethod.spellings : RecordMethod → List String
  | .find => ["find"]
  | .findOne => ["find_one", "findOne"]
  | .create => ["create"]
  | .update => ["update"]
  | .delete => ["delete"]

theorem RecordMethod.ofName?_eq_some_iff {name : String} {method : RecordMethod} :
    ofName? name = some method ↔ name ∈ method.spellings := by
  constructor
  · intro h
    unfold ofName? at h
    split at h <;> cases h <;> decide
  · intro h
    cases method with
    | findOne =>
      simp only [spellings, List.mem_cons, List.not_mem_nil, or_false] at h
      rcases h with rfl | rfl <;> rfl
    | find | create | update | delete =>
      rw [List.mem_singleton.mp h]
      rfl

theorem RecordMethod.dotless {name : String} {method : RecordMethod} (h : name ∈ method.spellings) :
    '.' ∉ name.toList := by
  have hall : ∀ method : RecordMethod, ∀ name ∈ method.spellings, '.' ∉ name.toList := by
    intro method
    cases method <;> decide
  exact hall method name h

theorem RecordMethod.name_mem_spellings (method : RecordMethod) : method.name ∈ method.spellings := by
  cases method <;> decide

namespace CallTarget

/-- The path stands for the target. -/
inductive Spelled : String → CallTarget → Prop
  | records {table name : String} {method : RecordMethod} (hne : table ≠ "") (hdot : '.' ∉ table.toList)
      (hname : name ∈ method.spellings) : Spelled s!"repos.{table}.{name}" (.records table method)
  | helper {name : String} (hne : name ≠ "") (hdot : '.' ∉ name.toList) : Spelled s!"helpers.{name}" (.helper name)
  | failure {status : UInt16} (hstatus : status ∈ [400, 401, 403]) :
      Spelled s!"errors.throw{status}" (.failure status)

variable {path name : String} {target : CallTarget}

theorem failureOf?_eq_some_iff : failureOf? name = some target ↔
    ∃ status ∈ ([400, 401, 403] : List UInt16), name = s!"throw{status}" ∧ target = .failure status := by
  constructor
  · intro h
    unfold failureOf? at h
    split at h
    · exact ⟨400, by decide, rfl, (Option.some.inj h).symm⟩
    · exact ⟨401, by decide, rfl, (Option.some.inj h).symm⟩
    · exact ⟨403, by decide, rfl, (Option.some.inj h).symm⟩
    · cases h
  · rintro ⟨status, hstatus, rfl, rfl⟩
    simp only [List.mem_cons, List.not_mem_nil, or_false] at hstatus
    rcases hstatus with rfl | rfl | rfl <;> rfl

theorem failure_dotless {status : UInt16} (h : status ∈ [400, 401, 403]) : '.' ∉ s!"throw{status}".toList := by
  simp only [List.mem_cons, List.not_mem_nil, or_false] at h
  rcases h with rfl | rfl | rfl <;> decide

/-- What is read from a path, by its parts. -/
theorem ofPath?_cases (h : ofPath? path = some target) :
    (∃ table name method, Text.parts '.' path = ["repos", table, name] ∧ table ≠ "" ∧
        RecordMethod.ofName? name = some method ∧ target = .records table method) ∨
      (∃ name, Text.parts '.' path = ["helpers", name] ∧ name ≠ "" ∧ target = .helper name) ∨
      ∃ name, Text.parts '.' path = ["errors", name] ∧ failureOf? name = some target := by
  unfold ofPath? at h
  split at h
  · rename_i table name hparts
    split at h
    · cases h
    · rename_i hne
      obtain ⟨method, hmethod, rfl⟩ := Option.map_eq_some_iff.mp h
      exact Or.inl ⟨table, name, method, hparts, by simpa using hne, hmethod, rfl⟩
  · rename_i name hparts
    split at h
    · cases h
    · rename_i hne
      cases h
      exact Or.inr (Or.inl ⟨name, hparts, by simpa using hne, rfl⟩)
  · rename_i name hparts
    exact Or.inr (Or.inr ⟨name, hparts, h⟩)
  · cases h

theorem parts_two {a b : String} : Text.parts '.' path = [a, b] ↔
    '.' ∉ a.toList ∧ '.' ∉ b.toList ∧ path = a ++ "." ++ b := by
  rw [Text.parts_eq_iff]
  simp [String.intercalate_cons_cons, and_assoc]

theorem parts_three {a b c : String} : Text.parts '.' path = [a, b, c] ↔
    '.' ∉ a.toList ∧ '.' ∉ b.toList ∧ '.' ∉ c.toList ∧ path = a ++ "." ++ b ++ "." ++ c := by
  rw [Text.parts_eq_iff]
  simp [String.intercalate_cons_cons, and_assoc, String.append_assoc]

/-- A path is read as what it stands for. -/
theorem ofPath?_eq_some_iff : ofPath? path = some target ↔ Spelled path target := by
  constructor
  · intro h
    rcases ofPath?_cases h with ⟨table, name, method, hparts, hne, hmethod, rfl⟩ | ⟨name, hparts, hne, rfl⟩ |
      ⟨name, hparts, hfailure⟩
    · obtain ⟨-, hdot, -, rfl⟩ := parts_three.mp hparts
      exact .records hne hdot (RecordMethod.ofName?_eq_some_iff.mp hmethod)
    · obtain ⟨-, hdot, rfl⟩ := parts_two.mp hparts
      exact .helper hne hdot
    · obtain ⟨-, -, rfl⟩ := parts_two.mp hparts
      obtain ⟨status, hstatus, rfl, rfl⟩ := failureOf?_eq_some_iff.mp hfailure
      exact .failure hstatus
  · intro h
    cases h with
    | @records table name method hne hdot hname =>
      have hparts : Text.parts '.' s!"repos.{table}.{name}" = ["repos", table, name] :=
        parts_three.mpr ⟨by decide, hdot, RecordMethod.dotless hname, rfl⟩
      simp [ofPath?, hparts, hne, RecordMethod.ofName?_eq_some_iff.mpr hname]
    | @helper name hne hdot =>
      have hparts : Text.parts '.' s!"helpers.{name}" = ["helpers", name] := parts_two.mpr ⟨by decide, hdot, rfl⟩
      simp [ofPath?, hparts, hne]
    | @failure status hstatus =>
      have hparts : Text.parts '.' s!"errors.throw{status}" = ["errors", s!"throw{status}"] :=
        parts_two.mpr ⟨by decide, failure_dotless hstatus, rfl⟩
      simp [ofPath?, hparts, failureOf?_eq_some_iff.mpr ⟨status, hstatus, rfl, rfl⟩]

/-- The path of a method leads back to it, if its table has a name without dots. -/
theorem ofPath?_recordPath {table : String} (hne : table ≠ "") (hdot : '.' ∉ table.toList) (method : RecordMethod) :
    ofPath? (recordPath table method) = some (.records table method) :=
  ofPath?_eq_some_iff.mpr (.records hne hdot method.name_mem_spellings)

theorem ofPath?_helperPath (hne : name ≠ "") (hdot : '.' ∉ name.toList) :
    ofPath? (helperPath name) = some (.helper name) :=
  ofPath?_eq_some_iff.mpr (.helper hne hdot)

end CallTarget

/-! ### Calls of scripts -/

namespace Script.Callee

open CallTarget

variable {context : ScriptContext} {args : List Value} {table function name sent : String}

/-- A script calls a method by its path. -/
theorem path_records (h : path context args (.records table function) = .ok sent) :
    ∃ method, methodOf? function args.length = some method ∧ sent = recordPath table method := by
  simp only [path] at h
  split at h
  · rename_i method hmethod
    split at hmethod
    · exact ⟨method, hmethod, (Except.ok.inj h).symm⟩
    · cases hmethod
  · cases h

/-- A script calls a helper by its path. -/
theorem path_helper (h : path context args (.helper name) = .ok sent) : sent = helperPath name := by
  simp only [path] at h
  split at h
  · exact (Except.ok.inj h).symm
  · cases h

end Script.Callee

/-- A path that stands for nothing is refused. No step of a program is performed, and neither the registry nor the
helpers matter. -/
theorem Capabilities.invoke_of_none {path : String} (h : CallTarget.ofPath? path = none) (c : Capabilities)
    (context : ScriptContext) (args : List Json) :
    c.invoke context path args = .done (some (.error (.withStatus 400 s!"unknown capability '{path}'"))) := by
  rw [invoke, h]
  rfl

/-- A path is read as a target just if it stands for it: as a method of the records of a table, or a helper, whose name
is not empty and has no dot, or as one of the three errors. The path by which a script calls a method or a helper of
such a name leads back to it. A path that stands for nothing is answered with status 400, and the answer comes at once
and is the same whatever the registry and the helpers are. -/
theorem CallTarget.paths_exact :
    (∀ path target, ofPath? path = some target ↔ Spelled path target) ∧
      (∀ (context : ScriptContext) (args : List Script.Value) (table function path : String),
        table ≠ "" → '.' ∉ table.toList → Script.Callee.path context args (.records table function) = .ok path →
          ∃ method, Script.methodOf? function args.length = some method ∧ path = recordPath table method ∧
            ofPath? path = some (.records table method)) ∧
      (∀ (context : ScriptContext) (args : List Script.Value) (name path : String),
        name ≠ "" → '.' ∉ name.toList → Script.Callee.path context args (.helper name) = .ok path →
          path = helperPath name ∧ ofPath? path = some (.helper name)) ∧
      (∀ (table : String) (method : RecordMethod), table ≠ "" → '.' ∉ table.toList →
        ofPath? (recordPath table method) = some (.records table method)) ∧
      (∀ name : String, name ≠ "" → '.' ∉ name.toList → ofPath? (helperPath name) = some (.helper name)) ∧
      ∀ path : String, (∀ target, ¬Spelled path target) → ∀ (c : Capabilities) (context : ScriptContext)
        (args : List Json), c.invoke context path args =
          .done (some (.error (.withStatus 400 s!"unknown capability '{path}'"))) := by
  refine ⟨fun _ _ => ofPath?_eq_some_iff, fun context args table function path hne hdot hpath => ?_,
    fun context args name path hne hdot hpath => ?_, fun table method hne hdot => ofPath?_recordPath hne hdot method,
    fun name => ofPath?_helperPath, fun path hnone c context args => ?_⟩
  · obtain ⟨method, hmethod, rfl⟩ := Script.Callee.path_records hpath
    exact ⟨method, hmethod, rfl, ofPath?_recordPath hne hdot method⟩
  · obtain rfl := Script.Callee.path_helper hpath
    exact ⟨rfl, ofPath?_helperPath hne hdot⟩
  · refine c.invoke_of_none (Option.eq_none_iff_forall_ne_some.mpr fun target htarget => ?_) context args
    exact hnone target (ofPath?_eq_some_iff.mp htarget)

theorem CallTarget.paths_exact_posts :
    let context : ScriptContext := { ScriptContext.empty with tables := ["posts"], helpers := ["slugify"] }
    "posts" ≠ "" ∧ '.' ∉ "posts".toList ∧
      Script.Callee.path context [.int 1] (.records "posts" "find_one") = .ok "repos.posts.find_one" ∧
      ofPath? "repos.posts.find_one" = some (.records "posts" .findOne) ∧
      ofPath? "repos.posts.findOne" = some (.records "posts" .findOne) ∧
      Script.Callee.path context [.text "A b"] (.helper "slugify") = .ok "helpers.slugify" ∧
      ofPath? "helpers.slugify" = some (.helper "slugify") ∧
      (∀ target, ¬Spelled "repos.posts.find.all" target) ∧
      (Capabilities.standard ⟨.standard, false⟩ "").invoke context "repos.posts.find.all" [] =
        .done (some (.error ⟨"unknown capability 'repos.posts.find.all'", some 400⟩)) := by
  intro context
  obtain ⟨hiff, hrecords, hhelper, -, -, hrefused⟩ := paths_exact
  have hdot : '.' ∉ "posts".toList := by decide
  have hcall : Script.Callee.path context [.int 1] (.records "posts" "find_one") = .ok "repos.posts.find_one" := rfl
  have hhelp : Script.Callee.path context [.text "A b"] (.helper "slugify") = .ok "helpers.slugify" := rfl
  have hnone : ∀ target, ¬Spelled "repos.posts.find.all" target := by
    intro target htarget
    have hparts : Text.parts '.' "repos.posts.find.all" = ["repos", "posts", "find", "all"] :=
      Text.parts_eq_iff.mpr ⟨by simp, by decide, rfl⟩
    have hread : ofPath? "repos.posts.find.all" = none := by simp [ofPath?, hparts]
    rw [(hiff _ _).mpr htarget] at hread
    cases hread
  have hspelled : Spelled "repos.posts.findOne" (.records "posts" .findOne) :=
    @Spelled.records "posts" "findOne" .findOne (by decide) hdot (by decide)
  obtain ⟨method, hmethod, -, hread⟩ := hrecords context [.int 1] "posts" "find_one" _ (by decide) hdot hcall
  cases hmethod
  obtain ⟨-, hslugify⟩ := hhelper context _ "slugify" _ (by decide) (by decide) hhelp
  exact ⟨by decide, hdot, hcall, hread, (hiff _ _).mpr hspelled, hhelp, hslugify, hnone, hrefused _ hnone _ context []⟩

/-- A catalog may have a table without a name, and a script calls its methods, but their paths stand for nothing. -/
theorem CallTarget.not_paths_exact_unnamed :
    let context : ScriptContext := { ScriptContext.empty with tables := [""] }
    Catalog.fault? [Table.start ""] = none ∧ '.' ∉ "".toList ∧
      Script.Callee.path context [] (.records "" "find") = .ok (recordPath "" .find) ∧
      ofPath? (recordPath "" .find) ≠ some (.records "" .find) := by
  intro context
  have hparts : Text.parts '.' (recordPath "" .find) = ["repos", "", "find"] :=
    parts_three.mpr ⟨by decide, by decide, by decide, rfl⟩
  exact ⟨by decide, by decide, rfl, by simp [ofPath?, hparts]⟩

end RecordService
