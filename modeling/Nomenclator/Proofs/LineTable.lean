import Nomenclator.LineTable
import Nomenclator.Proofs.SortedMap

/-! # Line tables — classes come in any order

    A table grows class by class.  The rows of a class that is new to it are taken
    as they are, so while no class comes twice the table holds exactly what was
    inserted, and the order of the classes does not show (`insertEach_eq`). -/

namespace Nomenclator.LineTable

/-- Inserts the rows of classes, one class after the other. -/
def insertEach (table : LineTable) (classes : List (String × LineRows)) : LineTable :=
  classes.foldl (fun table e => table.insert e.1 e.2) table

/-- A class that is new to the table gets the given rows. -/
theorem insert_of_new {table : LineTable} {name : String} (h : table.classes.get? name = none)
    (rows : LineRows) : table.insert name rows = { classes := table.classes.insert name rows } := by
  have hrows : (table.rowsOf name).insertAll rows.toList = rows := by
    rw [rowsOf, h]
    exact SortedMap.ofList_toList rows
  rw [LineTable.insert, hrows]

/-- While no class comes twice, a table takes over what it is given. -/
theorem insertEach_of_nodup {table : LineTable} {classes : List (String × LineRows)}
    (hnodup : (classes.map Prod.fst).Nodup)
    (hnew : ∀ e ∈ classes, table.classes.get? e.1 = none) :
    table.insertEach classes = { classes := table.classes.insertAll classes } := by
  induction classes generalizing table with
  | nil => rfl
  | cons head rest ih =>
      obtain ⟨name, rows⟩ := head
      obtain ⟨hname, hrest⟩ := List.nodup_cons.1 hnodup
      show (table.insert name rows).insertEach rest = _
      rw [insert_of_new (hnew _ List.mem_cons_self), ih hrest]
      · rfl
      · intro e he
        have hne : e.1 ≠ name := fun heq => hname (List.mem_map.2 ⟨e, he, heq⟩)
        rw [SortedMap.get?_insert, if_neg hne]
        exact hnew e (List.mem_cons_of_mem _ he)

/-- **A table does not show in which order its classes came.** -/
theorem insertEach_eq {classes others : List (String × LineRows)} (hperm : classes.Perm others)
    (hnodup : (others.map Prod.fst).Nodup) :
    insertEach {} classes = { classes := .ofList others } := by
  have hclasses : (classes.map Prod.fst).Nodup := (hperm.map Prod.fst).nodup_iff.2 hnodup
  rw [insertEach_of_nodup hclasses fun _ _ => rfl]
  exact congrArg LineTable.mk (SortedMap.ofList_congr hperm hclasses)

end Nomenclator.LineTable
