import Schemata.Dialect

/-!
Hints: annotations of a table, column, index or view, for all dialects or for one.
-/

namespace Schemata

inductive HintTarget where
  | table
  | column
  | index
  | view
  deriving DecidableEq, Repr

def HintTarget.all : List HintTarget :=
  [table, column, index, view]

def HintTarget.text : HintTarget → String
  | table => "table"
  | column => "column"
  | index => "index"
  | view => "view"

inductive HintKey where
  | columnType
  | enumeration
  | truncate
  | emptyAsNull
  | tablespace
  | options
  deriving DecidableEq, Repr

namespace HintKey

def all : List HintKey :=
  [columnType, enumeration, truncate, emptyAsNull, tablespace, options]

def keyword : HintKey → String
  | columnType => "COLUMN_TYPE"
  | enumeration => "ENUMERATION"
  | truncate => "TRUNCATE"
  | emptyAsNull => "EMPTY_AS_NULL"
  | tablespace => "TABLESPACE"
  | options => "OPTIONS"

def ofKeyword? (keyword : String) : Option HintKey :=
  all.find? fun k => k.keyword == keyword

def takesValue : HintKey → Bool
  | truncate | emptyAsNull => false
  | _ => true

def allowedOn : HintKey → HintTarget → Bool
  | columnType, target | enumeration, target | truncate, target | emptyAsNull, target =>
    target == .column
  | tablespace, target => target == .table || target == .index
  | options, target => target == .table || target == .view

end HintKey

inductive Hint where
  | columnType (native : String)
  | enumeration (name : String)
  | truncateOnWrite
  | emptyAsNull
  | tablespace (name : String)
  | options (text : String)
  deriving DecidableEq, Repr

namespace Hint

def ofParts? : HintKey → Option String → Option Hint
  | .columnType, value => value.map columnType
  | .enumeration, value => value.map enumeration
  | .truncate, _ => some truncateOnWrite
  | .emptyAsNull, _ => some emptyAsNull
  | .tablespace, value => value.map tablespace
  | .options, value => value.map options

def key : Hint → HintKey
  | columnType _ => .columnType
  | enumeration _ => .enumeration
  | truncateOnWrite => .truncate
  | emptyAsNull => .emptyAsNull
  | tablespace _ => .tablespace
  | options _ => .options

def value? : Hint → Option String
  | columnType v | enumeration v | tablespace v | options v => some v
  | truncateOnWrite | emptyAsNull => none

end Hint

inductive HintScope where
  | all
  | dialect (d : Dialect)
  deriving DecidableEq, Repr

def HintScope.appliesTo : HintScope → Dialect → Bool
  | all, _ => true
  | dialect own, d => own == d

def HintScope.text : HintScope → String
  | all => "ALL"
  | dialect d => d.keyword

structure ScopedHint where
  scope : HintScope
  hint : Hint
  deriving DecidableEq, Repr

/-- The hints of one artifact, in the order in which they are written. -/
abbrev Hints := List ScopedHint

namespace Hints

/-- A hint for all dialects gives way to one with the same key for `d` alone. -/
def isShadowed (hints : Hints) (d : Dialect) (entry : ScopedHint) : Bool :=
  entry.scope == .all &&
    List.any hints fun other => other.scope == .dialect d && other.hint.key == entry.hint.key

/-- The hints that count for the dialect. -/
def forDialect (hints : Hints) (d : Dialect) : List Hint :=
  ((List.filter (fun entry => entry.scope.appliesTo d) hints).filter
    fun entry => !isShadowed hints d entry).map (·.hint)

def valueOf? (hints : Hints) (d : Dialect) (key : HintKey) : Option String :=
  ((forDialect hints d).find? fun h => h.key == key).bind Hint.value?

def columnType? (hints : Hints) (d : Dialect) : Option String :=
  valueOf? hints d .columnType

def tablespace? (hints : Hints) (d : Dialect) : Option String :=
  valueOf? hints d .tablespace

def options? (hints : Hints) (d : Dialect) : Option String :=
  valueOf? hints d .options

/-- The first enumeration named, whatever dialect it is for. -/
def enumeration? (hints : Hints) : Option String :=
  List.findSome? (fun entry => match entry.hint with
    | .enumeration name => some name
    | _ => none) hints

def truncatesOnWrite (hints : Hints) : Bool :=
  List.any hints fun entry => entry.hint == .truncateOnWrite

def readsEmptyAsNull (hints : Hints) : Bool :=
  List.any hints fun entry => entry.hint == .emptyAsNull

end Hints

end Schemata
