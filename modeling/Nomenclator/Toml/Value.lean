import Nomenclator.Toml.Moment

/-!
# Configuration documents — values, and how tables grow

A document is a tree of tables. A table remembers how it came to be, because this decides
who may add to it:

* `header` — opened by its own header; it can be opened only once;
* `implied` — named on the way to a header; its own header may still follow;
* `dotted` — named on the way to a key; further dotted keys may add to it;
* `inline` — written as a value; complete.

Growing a tree fails (`none`) where an entry would be defined twice.
-/

namespace Nomenclator.Toml

/-- How a table came to be. -/
inductive Origin where
  | header
  | implied
  | dotted
  | inline
  deriving DecidableEq, Repr

/-- A value. What a number with a fraction or an exponent stands for is not kept: nothing here
    is configured by one. -/
inductive Value where
  | text (s : String)
  | integer (i : Int)
  | boolean (b : Bool)
  | float
  | moment (m : Moment)
  | array (items : List Value)
  | table (origin : Origin) (entries : List (String × Value))
  | tables (items : List (List (String × Value)))
  deriving Repr

/-- The entries of a table, in order of definition. -/
abbrev Entries := List (String × Value)

/-- The entry of a key. -/
def find? (entries : Entries) (key : String) : Option Value :=
  (entries.find? fun e => e.1 == key).map Prod.snd

/-- Replaces the entry of a key that is there, or adds it at the end. -/
def put (entries : Entries) (key : String) (value : Value) : Entries :=
  if entries.any (fun e => e.1 == key) then
    entries.map fun e => if e.1 == key then (key, value) else e
  else entries ++ [(key, value)]

/-- Adds a value under a dotted key. The table that holds the last part has to be one that
    dotted keys made, or the table in which the key stands. -/
def insertKey : (key : List String) → Value → Entries → Option Entries
  | [], _, _ => none
  | [part], value, entries =>
    if (find? entries part).isSome then none else some (entries ++ [(part, value)])
  | part :: next :: later, value, entries =>
    match find? entries part with
    | none => do
      let inner ← insertKey (next :: later) value []
      return entries ++ [(part, .table .dotted inner)]
    | some (.table .dotted inner) => do
      let inner ← insertKey (next :: later) value inner
      return put entries part (.table .dotted inner)
    | some (.table .implied inner) =>
      if later.isEmpty then none
      else do
        let inner ← insertKey (next :: later) value inner
        return put entries part (.table .implied inner)
    | some (.tables items) =>
      if later.isEmpty then none
      else do
        let last ← items.getLast?
        let inner ← insertKey (next :: later) value last
        return put entries part (.tables (items.dropLast ++ [inner]))
    | some _ => none

/-- Changes the table at a path; tables that are missing on the way are implied. -/
def changeAt (change : Entries → Option Entries) : (path : List String) → Entries → Option Entries
  | [], entries => change entries
  | part :: later, entries =>
    match find? entries part with
    | none => do
      let inner ← changeAt change later []
      return entries ++ [(part, .table .implied inner)]
    | some (.table .inline _) => none
    | some (.table origin inner) => do
      let inner ← changeAt change later inner
      return put entries part (.table origin inner)
    | some (.tables items) => do
      let last ← items.getLast?
      let inner ← changeAt change later last
      return put entries part (.tables (items.dropLast ++ [inner]))
    | some _ => none

/-- Opens the table of a header. -/
def openTable (key : String) (entries : Entries) : Option Entries :=
  match find? entries key with
  | none => some (entries ++ [(key, .table .header [])])
  | some (.table .implied inner) => some (put entries key (.table .header inner))
  | some _ => none

/-- Opens one more table of a list of tables. -/
def openItem (key : String) (entries : Entries) : Option Entries :=
  match find? entries key with
  | none => some (entries ++ [(key, .tables [[]])])
  | some (.tables items) => some (put entries key (.tables (items ++ [[]])))
  | some _ => none

end Nomenclator.Toml
