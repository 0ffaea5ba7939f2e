/-!
The tables of a TOML document, and how keys and headers extend them. A table can be opened by one
header only, and dotted keys extend only what dotted keys have made.
-/

namespace Schemata.Toml

/-- How a table has come to be. -/
inductive Origin where
  | header
  | implied
  | dotted
  | inline
  deriving DecidableEq, Repr

/-- A value. What is neither a string nor a collection is kept as it is written. -/
inductive Item where
  | text (value : String)
  | plain (spelling : String)
  | list (items : List Item)
  | table (origin : Origin) (members : List (String × Item))
  | tables (elements : List (List (String × Item)))
  deriving Repr

abbrev Members := List (String × Item)

namespace Members

/-- Gives a key that is there another value. -/
def replace (members : Members) (key : String) (item : Item) : Members :=
  List.map (fun member => if member.1 = key then (key, item) else member) members

/-- A member under a key that is not there yet. -/
def insert? (members : Members) (key : String) (item : Item) : Option Members :=
  match List.lookup key members with
  | some _ => none
  | none => some (members ++ [(key, item)])

/-- Puts a value under dotted keys. The tables on the way are made or extended, but not one that a
header has opened or that is complete in itself. -/
def assign? : List String → Item → Members → Option Members
  | [], _, _ => none
  | [key], item, members => insert? members key item
  | key :: next :: rest, item, members =>
    match List.lookup key members with
    | none => do
      let inner ← assign? (next :: rest) item []
      return members ++ [(key, .table .dotted inner)]
    | some (.table .dotted inner) => do
      let inner ← assign? (next :: rest) item inner
      return replace members key (.table .dotted inner)
    | some (.table .implied inner) => do
      if rest.isEmpty then none
      else return replace members key (.table .implied (← assign? (next :: rest) item inner))
    | some (.tables elements) => do
      if rest.isEmpty then none
      else
        let last ← assign? (next :: rest) item (← elements.getLast?)
        return replace members key (.tables (elements.dropLast ++ [last]))
    | some _ => none

/-- Changes the table that a header names. Tables on the way are made as needed, and of an array of
tables the last one counts. -/
def modify? (change : Members → Option Members) : List String → Members → Option Members
  | [], members => change members
  | key :: rest, members =>
    match List.lookup key members with
    | none => do return members ++ [(key, .table .implied (← modify? change rest []))]
    | some (.table .inline _) => none
    | some (.table origin inner) => do
      return replace members key (.table origin (← modify? change rest inner))
    | some (.tables elements) => do
      let last ← modify? change rest (← elements.getLast?)
      return replace members key (.tables (elements.dropLast ++ [last]))
    | some _ => none

/-- Opens a table under a key; one that is only implied so far may be opened. -/
def openTable? (key : String) (members : Members) : Option Members :=
  match List.lookup key members with
  | none => some (members ++ [(key, .table .header [])])
  | some (.table .implied inner) => some (replace members key (.table .header inner))
  | some _ => none

/-- Opens one more element of an array of tables. -/
def openElement? (key : String) (members : Members) : Option Members :=
  match List.lookup key members with
  | none => some (members ++ [(key, .tables [[]])])
  | some (.tables elements) => some (replace members key (.tables (elements ++ [[]])))
  | some _ => none

/-- Opens what a header names. -/
def openAt? (opening : String → Members → Option Members) (path : List String)
    (members : Members) : Option Members := do
  modify? (opening (← path.getLast?)) path.dropLast members

end Members

end Schemata.Toml
