import Schemata.Grammar.Schema
import Schemata.Path

/-!
Source files that are read as one text. Each file is followed by a line feed, so that a comment at
its end cannot run into the next one. A span of the combined text is found again in the file where
it starts.
-/

namespace Schemata

structure SourceFile where
  path : String
  text : String
  deriving DecidableEq, Repr

/-- A file and the byte at which its text starts in the combined text. -/
structure PlacedFile extends SourceFile where
  offset : Nat
  deriving DecidableEq, Repr

def PlacedFile.length (f : PlacedFile) : Nat :=
  f.text.utf8ByteSize

/-- Gives each file its offset, the first one `offset`. -/
def placeFrom (offset : Nat) : List SourceFile → List PlacedFile
  | [] => []
  | f :: fs => ⟨f, offset⟩ :: placeFrom (offset + f.text.utf8ByteSize + 1) fs

/-- Something said about a part of one file. -/
structure Located (α : Type) where
  span : Span
  item : α
  deriving DecidableEq, Repr

/-- What has been said about one file. -/
structure FileGroup (α : Type) where
  path : String
  items : List (Located α)
  deriving DecidableEq, Repr

structure SourceSet where
  files : List SourceFile := []
  deriving DecidableEq, Repr

namespace SourceSet

def text (s : SourceSet) : String :=
  String.join (s.files.map fun f => f.text ++ "\n")

def placed (s : SourceSet) : List PlacedFile :=
  placeFrom 0 s.files

/-- The file that holds the start of a span, and the part of the span that lies in it. -/
def locate? (s : SourceSet) (span : Span) : Option (PlacedFile × Span) := do
  let f ← s.placed.reverse.find? fun f => f.offset ≤ span.start
  return (f, ⟨span.start - f.offset, min span.stop (f.offset + f.length) - f.offset⟩)

/-- Puts an item into the group of its path, which it opens if there is none. -/
def addToGroup {α : Type} (path : String) (item : Located α) :
    List (FileGroup α) → List (FileGroup α)
  | [] => [⟨path, [item]⟩]
  | g :: gs =>
    if Path.same g.path path then { g with items := g.items ++ [item] } :: gs
    else g :: addToGroup path item gs

/-- Mistakes by the file they point into, in the order of their first mistakes. -/
def mistakesByFile (s : SourceSet) (mistakes : List Mistake) : List (FileGroup Mistake) :=
  mistakes.foldl (fun groups m =>
    match s.locate? m.span with
    | some (f, span) => addToGroup f.path ⟨span, m⟩ groups
    | none => groups) []

def parse (s : SourceSet) : Except (List Mistake) Schema :=
  Schema.parse s.text

end SourceSet

end Schemata
