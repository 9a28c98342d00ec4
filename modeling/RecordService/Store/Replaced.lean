import RecordService.Catalog.Source
import RecordService.Store.Program

/-! # Catalogs replaced between steps

While an operation runs, others may replace the catalog, any number of times before each of its steps. `Replacing.answer`
answers the steps of the operation in such company, `holding` answers them as if one catalog stayed; what is asked of
the store is answered alike in both. -/

namespace RecordService

structure Replacing (σ : Type) where
  store : σ
  source : CatalogSource
  /-- For each of the coming steps, the catalogs that are installed before it. -/
  due : List (List Catalog)

namespace Replacing

variable {σ : Type}

/-- Installs the catalogs that are due. -/
def advance (s : Replacing σ) : Replacing σ :=
  { s with source := (s.due.headD []).foldl CatalogSource.replace s.source, due := s.due.tail }

/-- The catalog in force when the next step is made. -/
def current (s : Replacing σ) : Catalog :=
  s.advance.source.current

/-- A look at the catalog finds the one in force; all else is the store's to answer. -/
def answer (answer : (step : Step) → σ → step.Answer × σ) (step : Step) (s : Replacing σ) :
    step.Answer × Replacing σ :=
  match step with
  | .catalog => (s.current, s.advance)
  | step =>
    let (reply, store) := answer step s.store
    (reply, { s.advance with store })

end Replacing

/-- The answers where one catalog stays. -/
def holding {σ : Type} (catalog : Catalog) (answer : (step : Step) → σ → step.Answer × σ) (step : Step) (s : σ) :
    step.Answer × σ :=
  match step with
  | .catalog => (catalog, s)
  | step => answer step s

end RecordService
