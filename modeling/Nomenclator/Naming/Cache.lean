import Nomenclator.Naming.RenameTable

/-!
# The cache of rename tables

Tables are kept by the fingerprint of the catalog they were read off, their direction and
the generation of the cache. Invalidation drops all tables and starts a new generation, so
a table that was read off before a failure is never handed out after it. The counter of
generations has 64 bits.

A call consists of four steps, which the sequential operation `getOrInsert` runs one after
the other: read the generation (`keyFor`), look up (`find?`), run the resolver, and store
what it gave unless another table got there first (`insertOrGet`). Every stored table
carries a serial number, by which callers can tell whether they were given the same one.
-/

namespace Nomenclator.Naming

/-- Under what a table is kept. -/
structure CacheKey where
  catalog : String
  direction : Direction
  generation : Nat
  deriving DecidableEq, Repr

/-- A table that may be shared by several callers. -/
structure Shared where
  serial : Nat
  table : RenameTable
  deriving DecidableEq

/-- The tables of the current generation. -/
structure Cache where
  generation : Nat := 0
  entries : List (CacheKey × Shared) := []
  issued : Nat := 0
  deriving DecidableEq

namespace Cache

/-- The number of values of the generation counter, which starts over after the last of them. -/
def counterSize : Nat := UInt64.size

/-- The key of a catalog and a direction in the current generation. -/
def keyFor (cache : Cache) (catalog : String) (direction : Direction) : CacheKey :=
  { catalog, direction, generation := cache.generation }

/-- The table kept under a key. -/
def find? (cache : Cache) (key : CacheKey) : Option Shared :=
  (cache.entries.find? fun entry => entry.1 == key).map Prod.snd

/-- Keeps a table under a key with a fresh serial number, unless there is one already. Gives
    the table that is kept afterwards. -/
def insertOrGet (cache : Cache) (key : CacheKey) (table : RenameTable) : Shared × Cache :=
  match cache.find? key with
  | some known => (known, cache)
  | none =>
    let fresh : Shared := { serial := cache.issued, table }
    (fresh,
      { cache with entries := cache.entries ++ [(key, fresh)], issued := cache.issued + 1 })

/-- The table kept for a catalog and a direction; without one, the resolver is run, and what
    it gives is kept. A failed resolver leaves the cache as it was. The log is that of the
    resolver, if it ran. -/
def getOrInsert (cache : Cache) (catalog : String) (direction : Direction)
    (resolver : Unit → Except Error RenameTable × Log) : Except Error Shared × Cache × Log :=
  let key := cache.keyFor catalog direction
  match cache.find? key with
  | some known => (.ok known, cache, [])
  | none =>
    match resolver () with
    | (.ok table, log) =>
      let (shared, cache) := cache.insertOrGet key table
      (.ok shared, cache, log)
    | (.error e, log) => (.error e, cache, log)

/-- Reads a table off a catalog and reports it. -/
def readOff (catalog : Catalog) (direction : Direction) : Except Error RenameTable × Log :=
  match RenameTable.ofCatalog catalog direction with
  | .ok table => (.ok table, [table.resolvedRecord])
  | .error e => (.error e, [])

/-- The record that a table is about to be read off. -/
def loadingRecord (direction : Direction) : LogRecord :=
  let text := direction.text
  { level := .info, message := s!":loading {text} mappings" }

/-- The table of a catalog for a direction. -/
def resolve (cache : Cache) (catalog : Catalog) (direction : Direction) :
    Except Error Shared × Cache × Log :=
  cache.getOrInsert catalog.fingerprint direction fun _ =>
    let (result, log) := readOff catalog direction
    (result, loadingRecord direction :: log)

/-- Drops all tables and starts a new generation. -/
def invalidate (cache : Cache) : Cache × Log :=
  let generation := (cache.generation + 1) % counterSize
  ({ cache with generation, entries := [] },
    [{ level := .debug, message := s!"Mapping cache invalidated, generation {generation}" }])

/-- The number of tables kept. -/
def size (cache : Cache) : Nat := cache.entries.length

end Cache

end Nomenclator.Naming
