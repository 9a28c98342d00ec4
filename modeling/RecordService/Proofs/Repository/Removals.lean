import RecordService.Proofs.Plan.Stages
import RecordService.Proofs.Repository.Protected
import RecordService.Proofs.Sql.Joined

/-! # The links of removed records

A row of a junction refers to two records. When a record is removed, the rows that refer to it by the relations of its
own table are deleted first, and no other row is. So none that refers to it is left if each junction that leads to its
table is also declared from there (`Catalog.Mirrors`); what only other tables declare stays. -/

namespace RecordService

/-! ### What deletions leave -/

/-- Whether a change deletes a row of a table, for a store that takes some cells for equal. -/
def Change.deletes (equal : Cell → Cell → Bool) (name : String) (row : TableRow) : Change → Bool
  | .delete table column value => table == name && equal (row column) value
  | .unlink links parent targets =>
    links.table == name && equal (row links.parentKey) parent && targets.any (equal (row links.targetKey))
  | .insert _ _ | .update _ _ _ _ | .link _ _ _ | .claim _ _ _ | .release _ _ => false

/-- A database without the rows that a change deletes. -/
def Database.without (db : Database) (c : Change) : Database :=
  { db with rows := fun name => (db.rows name).filter fun row => !c.deletes db.equal name row }

theorem Database.mem_without {db : Database} {c : Change} {name : String} {row : TableRow} :
    row ∈ (db.without c).rows name ↔ row ∈ db.rows name ∧ c.deletes db.equal name row = false := by
  simp [without]

theorem Database.mem_foldl_without {changes : List Change} {db : Database} {name : String} {row : TableRow} :
    row ∈ (changes.foldl without db).rows name ↔
      row ∈ db.rows name ∧ ∀ c ∈ changes, c.deletes db.equal name row = false := by
  induction changes generalizing db with
  | nil => simp
  | cons c rest ih =>
    rw [List.foldl_cons, ih, mem_without, List.forall_mem_cons, and_assoc]
    rfl

/-! ### Rows that refer to a record -/

namespace Table

variable (t : Table) (db : Database) (record : Row) (name : String) (link : TableRow)

/-- A row of a junction refers to a record by a relation of the record's own table. -/
def IsSource : Prop :=
  ∃ r ∈ t.relations, ∃ j ∈ r.junction, j.table = name ∧ db.equal (link j.sourceKey) (record.cell r.joinKey) = true

/-- A row of a junction refers to a record by a relation of any table to the record's table. -/
def IsTarget (catalog : Catalog) : Prop :=
  ∃ other ∈ catalog.tables, ∃ r ∈ other.relations, ∃ j ∈ r.junction, catalog.target? r = some t ∧ j.table = name ∧
    db.equal (link j.targetKey) (record.cell r.inverseJoinKey) = true

/-- The changes by which the rows that refer to a record by relations of its own table are deleted. -/
def unlinking : List Change :=
  t.relations.filterMap fun r => r.junction.map fun j => .delete j.table j.sourceKey (record.cell r.joinKey)

variable {t db record name link}

theorem mem_unlinking {c : Change} :
    c ∈ t.unlinking record ↔
      ∃ r ∈ t.relations, ∃ j ∈ r.junction, c = .delete j.table j.sourceKey (record.cell r.joinKey) := by
  simp only [unlinking, List.mem_filterMap, Option.map_eq_some_iff, Option.mem_def, @eq_comm _ c]

/-- They delete exactly those rows. -/
theorem mem_unlinked :
    link ∈ ((t.unlinking record).foldl Database.without db).rows name ↔
      link ∈ db.rows name ∧ ¬t.IsSource db record name link := by
  rw [Database.mem_foldl_without]
  refine and_congr_right fun _ => ⟨?_, ?_⟩
  · rintro hkept ⟨r, hr, j, hj, rfl, hequal⟩
    have hdeletes := hkept _ (mem_unlinking.mpr ⟨r, hr, j, hj, rfl⟩)
    simp [Change.deletes, hequal] at hdeletes
  · intro hother c hc
    obtain ⟨r, hr, j, hj, rfl⟩ := mem_unlinking.mp hc
    by_contra hdeletes
    simp only [Change.deletes, Bool.not_eq_false, Bool.and_eq_true, beq_iff_eq] at hdeletes
    exact hother ⟨r, hr, j, hj, hdeletes⟩

end Table

/-- Each junction through which a table is reached is one of the table's own, with the keys exchanged. -/
def Catalog.Mirrors (catalog : Catalog) (t : Table) : Prop :=
  ∀ other ∈ catalog.tables, ∀ r ∈ other.relations, ∀ j ∈ r.junction, catalog.target? r = some t →
    ∃ own ∈ t.relations, ∃ j' ∈ own.junction,
      j'.table = j.table ∧ j'.sourceKey = j.targetKey ∧ own.joinKey = r.inverseJoinKey

instance (catalog : Catalog) (t : Table) : Decidable (catalog.Mirrors t) := by
  unfold Catalog.Mirrors
  infer_instance

theorem Table.IsTarget.isSource {catalog : Catalog} {t : Table} {db : Database} {record : Row} {name : String}
    {link : TableRow} (hmirrors : catalog.Mirrors t) (h : t.IsTarget db record name link catalog) :
    t.IsSource db record name link := by
  obtain ⟨other, hother, r, hr, j, hj, htarget, rfl, hequal⟩ := h
  obtain ⟨own, hown, j', hj', htable, hkey, hjoin⟩ := hmirrors other hother r hr j hj htarget
  exact ⟨own, hown, j', hj', htable, by rw [hkey, hjoin, hequal]⟩

namespace Repository

theorem Removes.loaded {table : Table} {key : Cell} {row : Row} {events : List Event}
    (h : Removes table key row events) : row ∈ events.filterMap Event.loaded? := by
  obtain ⟨load, written, rfl, hload, -⟩ := h.parts
  rw [List.filterMap_append, hload.loaded]
  exact List.mem_append_left _ (List.mem_singleton_self row)

variable (r : Repository) {σ : Type}

/-- Whatever answers its steps, a deletion that commits has deleted, before the record itself, exactly the rows that
refer to the record by junctions of its own table. None that refers to it on either side is left then, if all junctions
that lead to the table are declared from there too. -/
theorem own_links_removed (answer : (step : Step) → σ → step.Answer × σ) (state : σ) (id : Json)
    (hcommit : ⟨.commit, .ok ()⟩ ∈ (r.delete id).events answer state) :
    ∃ catalog table record body after, r.Commits catalog table body after ((r.delete id).events answer state) ∧
      Removes table (Cell.coerce id table.primaryType) record body ∧
      body.filterMap Event.change? =
        table.unlinking record ++ [.delete table.name table.primaryKey (Cell.coerce id table.primaryType)] ∧
      ∀ db : Database,
        (∀ name link, link ∈ ((table.unlinking record).foldl Database.without db).rows name ↔
          link ∈ db.rows name ∧ ¬table.IsSource db record name link) ∧
        (catalog.Mirrors table → ∀ name, ∀ link ∈ ((table.unlinking record).foldl Database.without db).rows name,
          ¬table.IsSource db record name link ∧ ¬table.IsTarget db record name link catalog) := by
  obtain ⟨catalog, table, record, body, after, hcommits, hremoves⟩ :=
    delete_commits (Operation.runs_result answer (r.delete id) state) hcommit
  obtain ⟨load, written, rfl, hload, hwritten⟩ := hremoves.parts
  refine ⟨catalog, table, record, _, after, hcommits, hremoves, ?_, fun db => ⟨fun name link => Table.mem_unlinked, ?_⟩⟩
  · have hnone : load.filterMap Event.change? = [] := hload.filterMap_eq_nil fun _ => rfl
    rw [List.filterMap_append, hnone, List.nil_append]
    exact hwritten.filterMap_change?
  · intro hmirrors name link hlink
    obtain ⟨-, hother⟩ := Table.mem_unlinked.mp hlink
    exact ⟨hother, fun htarget => hother (htarget.isSource hmirrors)⟩

end Repository

/-! ### Posts and tags -/

/-- Tags, which show their posts as these show their tags. -/
def Table.tags : Table :=
  { Table.start "tags" with relations := [.through "posts" "posts" "posts_tags" "tagId" "postId"] }

def Catalog.tagged : Catalog where
  tables := [{ Table.start "posts" with relations := [.through "tags" "tags" "posts_tags" "postId" "tagId"] }, .tags]
  sound := by decide +kernel

/-- The link between a post and a tag. -/
def TableRow.tagging (post tag : Int) : TableRow :=
  fun column => if column = "postId" then .int post else if column = "tagId" then .int tag else .null

def Database.taggings (links : List TableRow) : Database where
  rows name := if name = "posts_tags" then links else []
  equal a b := a == b

namespace Repository

/-- A tag that two posts have is removed, and its links with it. -/
theorem own_links_removed_tagged :
    let session := Session.start .tagged .standard [.success ⟨["id"], [[.int 1]]⟩ ⟨1, none⟩]
    let db := Database.taggings [.tagging 1 1, .tagging 2 1, .tagging 2 2]
    let record := [("id", .int 1)]
    ⟨.commit, .ok ()⟩ ∈ ((standard "tags").delete (.int 1)).events Session.answer session ∧
    Catalog.tagged.table? "tags" = some .tags ∧ Catalog.tagged.Mirrors .tags ∧
    ∀ name, ∀ link ∈ ((Table.tags.unlinking record).foldl Database.without db).rows name,
      ¬Table.tags.IsSource db record name link ∧ ¬Table.tags.IsTarget db record name link .tagged := by
  intro session db record
  have hcommit : (((standard "tags").delete (.int 1)).events Session.answer session).any Event.isCommit = true := by
    decide +kernel
  have htags : Catalog.tagged.table? "tags" = some .tags := by decide +kernel
  have hmirrors : Catalog.tagged.Mirrors .tags := by decide +kernel
  have hloaded : (((standard "tags").delete (.int 1)).events Session.answer session).filterMap Event.loaded? =
      [record] := by
    decide +kernel
  obtain ⟨catalog, table, stored, body, after, hcommits, hremoves, -, hleft⟩ :=
    (standard "tags").own_links_removed Session.answer session (.int 1) (Event.commit_mem_iff.mpr hcommit)
  obtain rfl := Program.catalog_of_mem _ _ _ hcommits.mem_catalog
  obtain rfl := Option.some.inj (htags.symm.trans hcommits.found)
  have hstored := hcommits.mem_filterMap hremoves.loaded
  rw [hloaded, List.mem_singleton] at hstored
  subst hstored
  exact ⟨Event.commit_mem_iff.mpr hcommit, htags, hmirrors, (hleft db).2 hmirrors⟩

/-- A tag is removed, and a link to it stays: only the posts declare their junction. -/
theorem link_left_blog :
    let session := Session.start .blog .standard [.success ⟨["id", "label"], [[.int 1, .text "new"]]⟩ ⟨1, none⟩]
    let events := ((standard "tags").delete (.int 1)).events Session.answer session
    let db := Database.taggings [.tagging 1 1]
    let record := [("id", .int 1), ("label", .text "new")]
    ∃ tags, Catalog.blog.table? "tags" = some tags ∧ ⟨.commit, .ok ()⟩ ∈ events ∧
      events.filterMap Event.loaded? = [record] ∧ tags.IsTarget db record "posts_tags" (.tagging 1 1) .blog ∧
      .tagging 1 1 ∈ ((events.filterMap Event.change?).foldl Database.without db).rows "posts_tags" := by
  intro session events db record
  have htags : Catalog.blog.table? "tags" = some ((Table.start "tags").addColumn "label" .text false) := by
    decide +kernel
  have hchanges : events.filterMap Event.change? = [.delete "tags" "id" (.int 1)] := by decide +kernel
  refine ⟨_, htags, Event.commit_mem_iff.mpr (by decide +kernel), by decide +kernel, ?_, ?_⟩
  · refine ⟨_, List.mem_cons_self, .through "tags" "tags" "posts_tags" "postId" "tagId", ?_, _, rfl, htags, rfl, ?_⟩
    · exact List.mem_cons_of_mem _ (List.mem_singleton_self _)
    · decide
  · rw [hchanges, Database.mem_foldl_without]
    refine ⟨List.mem_singleton_self _, fun c hc => ?_⟩
    obtain rfl := List.mem_singleton.mp hc
    rfl

end Repository
end RecordService
