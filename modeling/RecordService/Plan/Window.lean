/-! # Pages

A page is a window of the ordered records: so many from so far on. Counts are of 64 bits, and a page too far away
starts at the largest one. -/

namespace RecordService

structure Window where
  /-- The most records of a page; without it all records are on one page. -/
  limit : Option Nat
  /-- The records before the page. -/
  skip : Nat
deriving DecidableEq, Repr

namespace Window

/-- The largest count. -/
def maxCount : Nat :=
  UInt64.size - 1

/-- The window of a page, from one on; page zero is page one. A limit of zero is no limit. -/
def ofPage (page limit : Option Nat) (defaultLimit : Nat) : Window :=
  match limit.getD defaultLimit with
  | 0 => ⟨none, 0⟩
  | n => ⟨some n, min ((max (page.getD 1) 1 - 1) * n) maxCount⟩

/-- The limit and the offset, if there is a limit. -/
def clause (w : Window) : String :=
  match w.limit with
  | some n => s!" LIMIT {n} OFFSET {w.skip}"
  | none => ""

end Window
end RecordService
