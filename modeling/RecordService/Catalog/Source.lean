import RecordService.Catalog.Basic

/-! # Replacing the catalog

A source holds the catalog in force and counts its replacements. A request takes the catalog as it stands and keeps
it; a later replacement is a new value and changes nothing for those who hold the old one. -/

namespace RecordService

structure CatalogSource where
  current : Catalog
  /-- The number of replacements so far. -/
  generation : Nat

namespace CatalogSource

def start (c : Catalog) : CatalogSource :=
  ⟨c, 0⟩

def replace (s : CatalogSource) (c : Catalog) : CatalogSource :=
  ⟨c, s.generation + 1⟩

end CatalogSource
end RecordService
