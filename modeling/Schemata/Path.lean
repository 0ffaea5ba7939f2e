import Schemata.Text.Split

/-!
Paths of files. Two spellings of a path are the same if their parts are: empty pieces and dots in
the middle do not count, a dot at the start does.
-/

namespace Schemata

inductive PathPart where
  | root
  | here
  | parent
  | name (text : String)
  deriving DecidableEq, Repr

namespace PathPart

/-- What a piece between slashes stands for, if it counts. -/
def ofPiece? (piece : String) : Option PathPart :=
  if piece = "" ∨ piece = "." then none
  else if piece = ".." then some parent
  else some (name piece)

/-- The root comes first and names last; names are in the order of their characters. -/
def le : PathPart → PathPart → Bool
  | name a, name b => decide (a ≤ b)
  | root, _ | _, name _ => true
  | here, root => false
  | here, _ => true
  | parent, parent => true
  | _, _ => false

end PathPart

/-- How a part is written between slashes; before the slash of the root there is nothing. -/
def PathPart.text : PathPart → String
  | root => ""
  | here => "."
  | parent => ".."
  | name text => text

namespace Path

def parts (path : String) : List PathPart :=
  match splitText '/' path with
  | [] | [""] => []
  | "" :: rest => .root :: rest.filterMap PathPart.ofPiece?
  | "." :: rest => .here :: rest.filterMap PathPart.ofPiece?
  | pieces => pieces.filterMap PathPart.ofPiece?

def ofParts : List PathPart → String
  | [.root] => "/"
  | parts => "/".intercalate (parts.map PathPart.text)

/-- The paths that a path leads through, the longest first. -/
def ancestors (path : String) : List String :=
  let all := parts path
  ((List.range all.length).drop 1).reverse.map fun n => ofParts (all.take n)

/-- The pieces between slashes. Slashes at the end do not count. -/
def pieces (path : String) : List String :=
  ((splitText '/' path).reverse.dropWhile (· == "")).reverse

def same (a b : String) : Bool :=
  parts a == parts b

/-- The order part by part. -/
def partsLe : List PathPart → List PathPart → Bool
  | [], _ => true
  | _ :: _, [] => false
  | a :: as, b :: bs => if a = b then partsLe as bs else a.le b

def le (a b : String) : Bool :=
  partsLe (parts a) (parts b)

def isAbsolute (path : String) : Bool :=
  path.toList.head? == some '/'

/-- A path below another one. -/
def join (base path : String) : String :=
  if isAbsolute path then path
  else
    match base.toList.getLast? with
    | none | some '/' => base ++ path
    | some _ => base ++ "/" ++ path

end Path

end Schemata
