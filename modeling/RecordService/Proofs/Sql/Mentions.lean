import RecordService.Proofs.Sql.Placeholders
import RecordService.Store.Statement

/-! # What statements mention

Read from left to right, outside of literals, a text mentions names, which stand in double quotes, and placeholders, in
some order (`Sql.mentions?`). A text that a reader may pass on its own `Mentions` what it mentions wherever it stands; a
quoted name is no such text, since a quote that follows would be read as part of it. So names are read together with
what follows them. Insertions and updates mention the table, then columns and placeholders, one for each value. -/

namespace RecordService
namespace Sql

/-- What a text may mention. -/
inductive Mention where
  | name (text : String)
  | placeholder
deriving DecidableEq, Repr

/-- What the rest of a text mentions, after the characters, the last first, of a name that has begun. Nothing if a
quoted part does not end. -/
def mentionsFrom : Region → List Char → List Char → Option (List Mention)
  | .code, _, [] => some []
  | .code, _, '"' :: rest => mentionsFrom .name [] rest
  | .code, _, '\x27' :: rest => mentionsFrom .literal [] rest
  | .code, _, '?' :: rest => (mentionsFrom .code [] rest).map (.placeholder :: ·)
  | .code, _, _ :: rest => mentionsFrom .code [] rest
  | .name, begun, '"' :: '"' :: rest => mentionsFrom .name ('"' :: begun) rest
  | .name, begun, '"' :: rest => (mentionsFrom .code [] rest).map (.name (String.ofList begun.reverse) :: ·)
  | .name, begun, c :: rest => mentionsFrom .name (c :: begun) rest
  | .name, _, [] => none
  | .literal, _, '\x27' :: '\x27' :: rest => mentionsFrom .literal [] rest
  | .literal, _, '\x27' :: rest => mentionsFrom .code [] rest
  | .literal, _, _ :: rest => mentionsFrom .literal [] rest
  | .literal, _, [] => none

/-- The names and placeholders of a text in order. -/
def mentions? (sql : String) : Option (List Mention) :=
  mentionsFrom .code [] sql.toList

/-! ### Texts on their own -/

/-- Whatever follows the text, this is what it mentions. -/
def Mentions (text : String) (mentions : List Mention) : Prop :=
  ∀ rest, mentionsFrom .code [] (text.toList ++ rest) = (mentionsFrom .code [] rest).map (mentions ++ ·)

namespace Mentions

variable {a b : String} {m n : List Mention}

theorem mentions? (h : Mentions a m) : mentions? a = some m := by
  have hend := h []
  have hnothing : mentionsFrom .code [] [] = some [] := rfl
  rw [List.append_nil, hnothing, Option.map_some, List.append_nil] at hend
  exact hend

theorem append (ha : Mentions a m) (hb : Mentions b n) : Mentions (a ++ b) (m ++ n) := by
  intro rest
  rw [String.toList_append, List.append_assoc, ha, hb, Option.map_map]
  simp only [Function.comp_def, List.append_assoc]

theorem empty : Mentions "" [] := by
  intro rest
  simp

theorem placeholder : Mentions "?" [.placeholder] := by
  intro rest
  rfl

/-- A text without quotes and question marks, given by its characters. -/
theorem plain {cs : List Char} (h : ∀ c ∈ cs, c ≠ '"' ∧ c ≠ '\x27' ∧ c ≠ '?') : Mentions (String.ofList cs) [] := by
  intro rest
  rw [String.toList_ofList]
  induction cs with
  | nil => simp
  | cons c more ih =>
    obtain ⟨hname, hliteral, hplaceholder⟩ := h c List.mem_cons_self
    simpa [mentionsFrom, hname, hliteral, hplaceholder] using ih fun x hx => h x (List.mem_cons_of_mem _ hx)

theorem plain_append (ha : Mentions a []) (hb : Mentions b n) : Mentions (a ++ b) n :=
  ha.append hb

theorem append_plain (ha : Mentions a m) (hb : Mentions b []) : Mentions (a ++ b) m := by
  simpa using ha.append hb

/-- Texts of their own with a separator that mentions nothing. -/
theorem intercalate {sep : String} (hsep : Mentions sep []) {α : Type} {text : α → String} {mentions : α → List Mention}
    {l : List α} (h : ∀ x ∈ l, Mentions (text x) (mentions x)) :
    Mentions (String.intercalate sep (l.map text)) (l.flatMap mentions) := by
  induction l with
  | nil => exact empty
  | cons x rest ih =>
    have hx := h x List.mem_cons_self
    have hrest := ih fun y hy => h y (List.mem_cons_of_mem _ hy)
    cases rest with
    | nil => simpa using hx
    | cons y more =>
      rw [List.map_cons, String.intercalate_cons_of_ne_nil (by simp), List.flatMap_cons]
      exact (hx.append_plain hsep).append hrest

/-! ### Names -/

/-- A name ends at the first quote that is not doubled. -/
theorem mentionsFrom_escaped {after : List Char} (hafter : after.head? ≠ some '"') (cs begun : List Char) :
    mentionsFrom .name begun (cs.flatMap (fun c => if c = '"' then ['"', '"'] else [c]) ++ '"' :: after) =
      (mentionsFrom .code [] after).map (.name (String.ofList (begun.reverse ++ cs)) :: ·) := by
  induction cs generalizing begun with
  | nil =>
    cases after with
    | nil => simp [mentionsFrom]
    | cons c rest =>
      have hc : c ≠ '"' := fun heq => hafter (congrArg some heq)
      simp [mentionsFrom, hc]
  | cons c rest ih =>
    by_cases hc : c = '"'
    · subst hc
      simpa [mentionsFrom] using ih ('"' :: begun)
    · simpa [mentionsFrom, hc] using ih (c :: begun)

theorem mentionsFrom_quoteName {after : List Char} (hafter : after.head? ≠ some '"') (name : String) :
    mentionsFrom .code [] ((quoteName name).toList ++ after) = (mentionsFrom .code [] after).map (.name name :: ·) := by
  have hopen (cs : List Char) : mentionsFrom .code [] ('"' :: cs) = mentionsFrom .name [] cs := rfl
  simpa [quoteName, hopen] using mentionsFrom_escaped hafter name.toList []

/-- A name in quotes, followed by anything but a quote. -/
theorem name_append (hb : Mentions b n) (name : String) {c : Char} (hbegin : b.toList.head? = some c)
    (hc : c ≠ '"') : Mentions (quoteName name ++ b) (.name name :: n) := by
  intro rest
  have hafter : (b.toList ++ rest).head? ≠ some '"' := by
    rw [List.head?_append, hbegin]
    simpa using hc
  have hname := mentionsFrom_quoteName hafter name
  rw [hb, Option.map_map] at hname
  rw [String.toList_append, List.append_assoc]
  exact hname

/-- Names in quotes with commas between them, followed by anything but a quote. -/
theorem names_append {α : Type} (hb : Mentions b n) (name : α → String) {c : Char} (hbegin : b.toList.head? = some c)
    (hc : c ≠ '"') : ∀ l : List α,
      Mentions (String.intercalate ", " (l.map fun x => quoteName (name x)) ++ b) (l.map (fun x => .name (name x)) ++ n)
  | [] => by simpa using hb
  | [x] => by simpa using hb.name_append (name x) hbegin hc
  | x :: y :: more => by
    have hmore := names_append hb name hbegin hc (y :: more)
    have hcomma : Mentions ", " [] := plain (by simp)
    rw [List.map_cons, String.intercalate_cons_of_ne_nil (by simp), String.append_assoc, String.append_assoc]
    exact (hcomma.plain_append hmore).name_append (name x) (by simp) (by decide : ',' ≠ '"')

end Mentions

theorem mentions?_quoteName (name : String) : mentions? (quoteName name) = some [.name name] := by
  have h := @Mentions.mentionsFrom_quoteName [] nofun name
  rwa [List.append_nil] at h

/-- A column is read back from its text. -/
theorem mentions?_column (c : ColumnRef) : mentions? c.text = some [.name c.tableAlias, .name c.column] := by
  have hdot : ('.' :: (quoteName c.column).toList).head? ≠ some '"' := by simp
  have halias := Mentions.mentionsFrom_quoteName hdot c.tableAlias
  have hcolumn : mentionsFrom .code [] ('.' :: (quoteName c.column).toList) = some [.name c.column] := by
    rw [mentionsFrom]
    · exact mentions?_quoteName c.column
    all_goals decide
  rw [hcolumn] at halias
  rw [mentions?, ColumnRef.text, String.toList_append, String.toList_append, List.append_assoc]
  exact halias

theorem quoteName_injective : Function.Injective quoteName := by
  intro a b h
  have hmentions := congrArg mentions? h
  rw [mentions?_quoteName, mentions?_quoteName] at hmentions
  cases hmentions
  rfl

theorem ColumnRef.text_injective : Function.Injective ColumnRef.text := by
  rintro ⟨a, x⟩ ⟨b, y⟩ h
  have hmentions := congrArg mentions? h
  rw [mentions?_column, mentions?_column] at hmentions
  cases hmentions
  rfl

theorem mentions_placeholders (cells : List Cell) :
    Mentions (placeholders cells) (List.replicate cells.length .placeholder) := by
  have hcomma : Mentions ", " [] := .plain (by simp)
  rw [← List.map_const', List.map_eq_flatMap]
  exact hcomma.intercalate fun _ _ => .placeholder

end Sql

/-! ### Insertions and updates -/

namespace Change

open Sql

/-- An insertion mentions the table, the columns, and a placeholder for each of the values, which are bound in order. -/
theorem mentions_insert (table : String) (values : List (String × Cell)) :
    mentions? (insert table values).statement.sql =
        some (.name table :: (values.map fun v => .name v.1) ++ List.replicate values.length .placeholder) ∧
      (insert table values).statement.params = values.map (·.2) := by
  have hinto : Mentions "INSERT INTO " [] := .plain (by simp)
  cases values with
  | nil =>
    -- without values no columns are listed
    have hdefaults : Mentions " DEFAULT VALUES" [] := .plain (by simp)
    have hsql : (insert table []).statement.sql = "INSERT INTO " ++ quoteName table ++ " DEFAULT VALUES" := rfl
    have htable := hinto.plain_append (hdefaults.name_append table (by simp) (by decide : ' ' ≠ '"'))
    rw [← String.append_assoc, ← hsql] at htable
    exact ⟨htable.mentions?, rfl⟩
  | cons first rest =>
    have hopen : Mentions " (" [] := .plain (by simp)
    have hmiddle : Mentions ") VALUES (" [] := .plain (by simp)
    have hclose : Mentions ")" [] := .plain (by simp)
    have hcells := hmiddle.plain_append ((mentions_placeholders ((first :: rest).map (·.2))).append_plain hclose)
    have hnames := hcells.names_append (·.1) (by simp) (by decide : ')' ≠ '"') (first :: rest)
    have htable := hinto.plain_append ((hopen.plain_append hnames).name_append table (by simp) (by decide : ' ' ≠ '"'))
    have hsql : (insert table (first :: rest)).statement.sql = "INSERT INTO " ++ quoteName table ++ " (" ++
        String.intercalate ", " ((first :: rest).map fun v => quoteName v.1) ++ ") VALUES (" ++
          placeholders ((first :: rest).map (·.2)) ++ ")" := rfl
    simp only [← String.append_assoc] at htable
    rw [← hsql, List.length_map] at htable
    exact ⟨htable.mentions?, rfl⟩

/-- An update mentions the table, each column with a placeholder for its value, and the column of the key with another,
and binds the key last. -/
theorem mentions_update (table primaryKey : String) (values : List (String × Cell)) (key : Cell) :
    mentions? (update table values primaryKey key).statement.sql =
        some (.name table :: values.flatMap (fun v => [.name v.1, .placeholder]) ++ [.name primaryKey, .placeholder]) ∧
      (update table values primaryKey key).statement.params = values.map (·.2) ++ [key] := by
  have hupdate : Mentions "UPDATE " [] := .plain (by simp)
  have hset : Mentions " SET " [] := .plain (by simp)
  have hwhere : Mentions " WHERE " [] := .plain (by simp)
  have hcomma : Mentions ", " [] := .plain (by simp)
  have hspaced : Mentions " = " [] := .plain (by simp)
  have hequals : Mentions " = ?" [.placeholder] := by
    have hjoined : " = " ++ "?" = " = ?" := by decide
    rw [← hjoined]
    exact hspaced.plain_append .placeholder
  have hassign (name : String) : Mentions (quoteName name ++ " = ?") [.name name, .placeholder] :=
    hequals.name_append name (by simp) (by decide : ' ' ≠ '"')
  have hvalues := hcomma.intercalate (l := values) fun v _ => hassign v.1
  have hkey := hvalues.append (hwhere.plain_append (hassign primaryKey))
  have htable := hupdate.plain_append ((hset.plain_append hkey).name_append table (by simp) (by decide : ' ' ≠ '"'))
  have hsql : (update table values primaryKey key).statement.sql = "UPDATE " ++ quoteName table ++ " SET " ++
      String.intercalate ", " (values.map fun v => quoteName v.1 ++ " = ?") ++ " WHERE " ++ quoteName primaryKey ++
        " = ?" := rfl
  simp only [← String.append_assoc] at htable
  rw [← hsql] at htable
  exact ⟨htable.mentions?, rfl⟩

end Change
end RecordService
