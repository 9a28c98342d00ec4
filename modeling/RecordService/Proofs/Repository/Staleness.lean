import RecordService.Proofs.Repository.Protected

/-! # Scopes that become stale

A mutation writes its own table and the tables that hold the links of its relations. When it commits, the scope of its
own table goes to the next generation; all other scopes stay in theirs, those of the other tables that were written
included. -/

namespace RecordService

/-! ### Tables that are written -/

/-- The table itself, or one that holds the links of a relation of it. -/
def Catalog.Reaches (catalog : Catalog) (table : Table) (name : String) : Prop :=
  name = table.name ∨ ∃ relation ∈ table.relations, ∃ target, catalog.target? relation = some target ∧
    name = (relation.links target).table

namespace LinkSet

variable {l : LinkSet} {owner : Table} {row : Row} {events : List Event} {c : Change}

theorem Applied.table_of_mem (h : l.Applied owner row events) {reply : Except Error Outcome}
    (hc : ⟨.change c, reply⟩ ∈ events) : c.table = l.table.table := by
  cases h with
  | kept => cases List.mem_singleton.mp hc
  | moved _ _ _ _ _ hlooks hchanges =>
    rcases List.mem_append.mp hc with hc | hc
    · rcases List.mem_cons.mp hc with habsurd | hc
      · cases habsurd
      · exact absurd hc hlooks.not_mem_change
    · exact Change.table_of_linkTable? (linkTable?_of_mem_changes (hchanges.mem_change hc))

end LinkSet

namespace Repository

variable {catalog : Catalog} {table : Table} {changes : Changes} {key : Cell} {row : Row} {entries : Entries}
  {events : List Event} {c : Change} {reply : Except Error Outcome}

theorem reaches_of_applied (hdeclared : changes.Declared catalog table entries)
    (h : Event.Each (·.Applied table row) changes.links events) (hc : ⟨.change c, reply⟩ ∈ events) :
    catalog.Reaches table c.table := by
  obtain ⟨l, hl, part, happlied, hmem⟩ := h.item_of_mem hc
  obtain ⟨hrelation, htarget, -⟩ := hdeclared.links l hl
  exact Or.inr ⟨l.relation, hrelation, l.target, htarget, happlied.table_of_mem hmem⟩

theorem Inserts.reaches (h : Inserts table changes key events) (hdeclared : changes.Declared catalog table entries)
    (hc : ⟨.change c, reply⟩ ∈ events) : catalog.Reaches table c.table := by
  obtain ⟨checks, outcome, after, rfl, hchecks, -, hafter⟩ := h.parts
  rcases List.mem_append.mp hc with hc | hc
  · exact absurd hc hchecks.not_mem_change
  rcases List.mem_cons.mp hc with hc | hc
  · cases hc
    exact Or.inl rfl
  rcases hafter with ⟨-, rfl⟩ | ⟨row, load, applied, rfl, ⟨rows, -, rfl⟩, happlied⟩
  · cases hc
  · rcases List.mem_cons.mp hc with habsurd | hc
    · cases habsurd
    · exact reaches_of_applied hdeclared happlied hc

theorem Amends.reaches (h : Amends table changes key row events) (hdeclared : changes.Declared catalog table entries)
    (hc : ⟨.change c, reply⟩ ∈ events) : catalog.Reaches table c.table := by
  obtain ⟨load, checks, applied, written, rfl, ⟨rows, -, rfl⟩, hchecks, happlied, hwritten⟩ := h.parts
  simp only [List.mem_append, List.mem_singleton] at hc
  rcases hc with ((habsurd | hc) | hc) | hc
  · cases habsurd
  · exact absurd hc hchecks.not_mem_change
  · exact reaches_of_applied hdeclared happlied hc
  · have hupdate := hwritten.mem_change hc
    split at hupdate
    · cases hupdate
    · obtain rfl := List.mem_singleton.mp hupdate
      exact Or.inl rfl

theorem Removes.reaches (h : Removes table key row events) (htable : table ∈ catalog.tables)
    (hc : ⟨.change c, reply⟩ ∈ events) : catalog.Reaches table c.table := by
  obtain ⟨load, written, rfl, ⟨rows, -, rfl⟩, hwritten⟩ := h.parts
  rcases List.mem_cons.mp hc with habsurd | hc
  · cases habsurd
  rcases List.mem_append.mp (hwritten.mem_change hc) with hlinks | hown
  · obtain ⟨relation, hrelation, hjunction⟩ := List.mem_filterMap.mp hlinks
    obtain ⟨j, hj, rfl⟩ := Option.map_eq_some_iff.mp hjunction
    obtain ⟨target, htarget⟩ := Option.isSome_iff_exists.mp (Catalog.target?_isSome htable hrelation)
    refine Or.inr ⟨relation, hrelation, target, htarget, ?_⟩
    rw [Relation.links, hj]
    rfl
  · obtain rfl := List.mem_singleton.mp hown
    exact Or.inl rfl

/-! ### Generations -/

variable {r : Repository} {α : Type}

/-- A run of a session that writes to tables that its own table reaches, and makes the scope of its own table stale. -/
structure Invalidates (r : Repository) (op : Operation α) (s : Session) (table : Table) : Prop where
  found : s.source.current.table? r.table = some table
  reaches : ∀ c reply, ⟨.change c, reply⟩ ∈ op.events Session.answer s → s.source.current.Reaches table c.table
  generation : ∀ scope, (s.run op).2.cache.generation scope =
    s.cache.generation scope + if table.cacheScope = some scope then 1 else 0

theorem Commits.invalidates {op : Operation α} {s : Session} {body after : List Event} (hcached : r.cached = true)
    (h : r.Commits catalog table body after (op.events Session.answer s))
    (hreaches : ∀ c reply, ⟨.change c, reply⟩ ∈ body → catalog.Reaches table c.table) :
    r.Invalidates op s table := by
  obtain rfl := Program.catalog_of_mem _ _ _ h.mem_catalog
  refine ⟨h.found, fun c reply hc => hreaches c reply (h.mem_change.mp hc), fun scope => ?_⟩
  rw [(s.run_spec op).2.2, h.stale, hcached, if_pos rfl]
  cases hscope : table.cacheScope with
  | none => rfl
  | some own =>
    simp only [Option.toList_some, List.foldl_cons, List.foldl_nil, ScopedCache.generation_invalidate,
      Option.some.injEq, eq_comm]

/-- With a cache, and whatever the store replies, a mutation that commits makes the scope of its own table stale, and no
other one. So of the tables that it wrote, those that have that scope are not served from before, and only those. -/
theorem own_scope_invalidated (r : Repository) (hcached : r.cached = true) (s : Session) (id payload : Json) :
    (⟨.commit, .ok ()⟩ ∈ (r.create payload).events Session.answer s → ∃ table, r.Invalidates (r.create payload) s table) ∧
    (⟨.commit, .ok ()⟩ ∈ (r.update id payload).events Session.answer s →
      ∃ table, r.Invalidates (r.update id payload) s table) ∧
    (⟨.commit, .ok ()⟩ ∈ (r.delete id).events Session.answer s → ∃ table, r.Invalidates (r.delete id) s table) := by
  refine ⟨fun hcommit => ?_, fun hcommit => ?_, fun hcommit => ?_⟩
  · obtain ⟨catalog, table, changes, key, body, after, hcommits, hchanges, hinserts, -⟩ :=
      create_commits (Operation.runs_result Session.answer (r.create payload) s) hcommit
    obtain ⟨entries, -, hdeclared⟩ := Changes.Declared.of_payload hchanges
    exact ⟨table, hcommits.invalidates hcached fun c reply hc => hinserts.reaches hdeclared hc⟩
  · obtain ⟨catalog, table, changes, row, body, after, hcommits, hchanges, hamends, -⟩ :=
      update_commits (Operation.runs_result Session.answer (r.update id payload) s) hcommit
    obtain ⟨entries, -, hdeclared⟩ := Changes.Declared.of_payload hchanges
    exact ⟨table, hcommits.invalidates hcached fun c reply hc => hamends.reaches hdeclared hc⟩
  · obtain ⟨catalog, table, row, body, after, hcommits, hremoves⟩ :=
      delete_commits (Operation.runs_result Session.answer (r.delete id) s) hcommit
    have htable := Catalog.mem_of_table? hcommits.found
    exact ⟨table, hcommits.invalidates hcached fun c reply hc => hremoves.reaches htable hc⟩

/-- The users of a role change, and the scope of the role becomes stale. -/
theorem own_scope_invalidated_staff :
    let session := loading ["id", "name", "isSystem"] [.int 2, .text "Guest", .int 0] [.int 1]
    let op := (standard "roles").update (.int 2) (.obj [("users", .arr [.int 2])])
    (standard "roles").cached = true ∧ (standard "roles").Invalidates op session .roles ∧
    (session.run op).2.cache.generation "access" = session.cache.generation "access" + 1 := by
  intro session op
  have hcommit : (op.events Session.answer session).any Event.isCommit = true := by decide +kernel
  obtain ⟨-, hupdate, -⟩ := own_scope_invalidated (standard "roles") rfl session (.int 2)
    (.obj [("users", .arr [.int 2])])
  have hupdate : ∃ table, (standard "roles").Invalidates op session table := hupdate (Event.commit_mem_iff.mpr hcommit)
  obtain ⟨table, hinvalidates⟩ := hupdate
  have hroles : session.source.current.table? "roles" = some .roles := by decide +kernel
  obtain rfl := Option.some.inj (hroles.symm.trans hinvalidates.found)
  have hscope : Table.roles.cacheScope = some "access" := rfl
  have haccess := hinvalidates.generation "access"
  rw [if_pos hscope] at haccess
  exact ⟨rfl, hinvalidates, haccess⟩

/-- The users of a role change, and the scope of the users does not become stale. -/
theorem not_written_scope_invalidated_users :
    let session := loading ["id", "name", "isSystem"] [.int 2, .text "Guest", .int 0] [.int 1]
    let op := (standard "roles").update (.int 2) (.obj [("users", .arr [.int 2])])
    ⟨.commit, .ok ()⟩ ∈ op.events Session.answer session ∧
    (∃ c reply, ⟨.change c, reply⟩ ∈ op.events Session.answer session ∧ c.table = Table.users.name) ∧
    Catalog.staff.table? "users" = some .users ∧ Table.users.cacheScope = some "people" ∧
    (session.run op).2.cache.generation "people" = session.cache.generation "people" := by
  intro session op
  have hrelease :
      .release ⟨"users", "roleId", "id"⟩ [.int 1] ∈ (op.events Session.answer session).filterMap Event.change? := by
    decide +kernel
  obtain ⟨reply, hmem⟩ := Event.change_mem_iff.mpr hrelease
  exact ⟨Event.commit_mem_iff.mpr (by decide +kernel), ⟨_, reply, hmem, rfl⟩, by decide +kernel, rfl, by decide +kernel⟩

end Repository
end RecordService
