import Schemata.Name
import Schemata.Text.Quoted

/-!
Tokens of the schema language and where they stand in a text. Places are counted in bytes.
-/

namespace Schemata

/-- A stretch of the source, from the byte at `start` up to the one before `stop`. -/
structure Span where
  start : Nat
  stop : Nat
  deriving DecidableEq, Repr

namespace Span

def length (s : Span) : Nat :=
  s.stop - s.start

def isEmpty (s : Span) : Bool :=
  s.stop ≤ s.start

/-- The smallest span that covers both. -/
def cover (s t : Span) : Span :=
  ⟨min s.start t.start, max s.stop t.stop⟩

def text (s : Span) : String :=
  toString s.start ++ ".." ++ toString s.stop

end Span

inductive Keyword where
  | create
  | table
  | view
  | statement
  | as
  | select
  | from
  | where
  | join
  | left
  | inner
  | outer
  | on
  | union
  | all
  | insert
  | into
  | values
  | update
  | set
  | delete
  | not
  | null
  | default
  | primary
  | key
  | unique
  | references
  | foreign
  | constraint
  | index
  | comment
  | dbms
  | hints
  | cascade
  | no
  | action
  | restrict
  | currentTimestamp
  | case
  | when
  | then
  | else
  | end
  | and
  | or
  | is
  | like
  | bit
  | integer
  | bigInt
  | float
  | decimal
  | number
  | char
  | varchar
  | clob
  | date
  | time
  | dateTime
  | blob
  deriving DecidableEq, Repr

namespace Keyword

/-- Every keyword. -/
def every : List Keyword :=
  [.create, .table, .view, .statement, .as, .select, .from, .where, .join, .left, .inner,
   .outer, .on, .union, .all, .insert, .into, .values, .update, .set, .delete, .not, .null,
   .default, .primary, .key, .unique, .references, .foreign, .constraint, .index, .comment,
   .dbms, .hints, .cascade, .no, .action, .restrict, .currentTimestamp, .case, .when, .then,
   .else, .end, .and, .or, .is, .like, .bit, .integer, .bigInt, .float, .decimal, .number,
   .char, .varchar, .clob, .date, .time, .dateTime, .blob]

def text : Keyword → String
  | .create => "CREATE"
  | .table => "TABLE"
  | .view => "VIEW"
  | .statement => "STATEMENT"
  | .as => "AS"
  | .select => "SELECT"
  | .from => "FROM"
  | .where => "WHERE"
  | .join => "JOIN"
  | .left => "LEFT"
  | .inner => "INNER"
  | .outer => "OUTER"
  | .on => "ON"
  | .union => "UNION"
  | .all => "ALL"
  | .insert => "INSERT"
  | .into => "INTO"
  | .values => "VALUES"
  | .update => "UPDATE"
  | .set => "SET"
  | .delete => "DELETE"
  | .not => "NOT"
  | .null => "NULL"
  | .default => "DEFAULT"
  | .primary => "PRIMARY"
  | .key => "KEY"
  | .unique => "UNIQUE"
  | .references => "REFERENCES"
  | .foreign => "FOREIGN"
  | .constraint => "CONSTRAINT"
  | .index => "INDEX"
  | .comment => "COMMENT"
  | .dbms => "DBMS"
  | .hints => "HINTS"
  | .cascade => "CASCADE"
  | .no => "NO"
  | .action => "ACTION"
  | .restrict => "RESTRICT"
  | .currentTimestamp => "CURRENT_TIMESTAMP"
  | .case => "CASE"
  | .when => "WHEN"
  | .then => "THEN"
  | .else => "ELSE"
  | .end => "END"
  | .and => "AND"
  | .or => "OR"
  | .is => "IS"
  | .like => "LIKE"
  | .bit => "BIT"
  | .integer => "INTEGER"
  | .bigInt => "BIGINT"
  | .float => "FLOAT"
  | .decimal => "DECIMAL"
  | .number => "NUMBER"
  | .char => "CHAR"
  | .varchar => "VARCHAR"
  | .clob => "CLOB"
  | .date => "DATE"
  | .time => "TIME"
  | .dateTime => "DATETIME"
  | .blob => "BLOB"

theorem mem_every (k : Keyword) : k ∈ every := by
  cases k <;> decide

/-- The keyword spelled by a word; case matters. -/
def ofText? (word : String) : Option Keyword :=
  every.find? fun k => k.text == word

end Keyword

/-- Punctuation and operators; `!=` is a second spelling of `<>`. -/
inductive Symbol where
  | lparen
  | rparen
  | comma
  | semicolon
  | dot
  | eq
  | notEq
  | bangEq
  | lt
  | ltEq
  | gt
  | gtEq
  | plus
  | minus
  | star
  | slash
  | concat
  deriving DecidableEq, Repr

def Symbol.text : Symbol → String
  | .lparen => "("
  | .rparen => ")"
  | .comma => ","
  | .semicolon => ";"
  | .dot => "."
  | .eq => "="
  | .notEq => "<>"
  | .bangEq => "!="
  | .lt => "<"
  | .ltEq => "<="
  | .gt => ">"
  | .gtEq => ">="
  | .plus => "+"
  | .minus => "-"
  | .star => "*"
  | .slash => "/"
  | .concat => "||"

/-- A token with what its text says: the word of a name, the value of a string, the digits of a
number. -/
inductive Token where
  | keyword (k : Keyword)
  | symbol (s : Symbol)
  | string (value : String)
  | integer (digits : String)
  | decimal (digits : String)
  | parameter (name : String)
  | quotedName (name : String)
  | name (name : String)
  deriving DecidableEq, Repr

namespace Token

/-- The token as it stands in a source text. -/
def text : Token → String
  | keyword k => k.text
  | symbol s => s.text
  | string value => quoteText value
  | integer digits | decimal digits => digits
  | parameter word => ":" ++ word
  | quotedName word => "\"" ++ word ++ "\""
  | name word => word

/-- The kind of the token, as messages name it; both spellings of `<>` are one kind. -/
def description : Token → String
  | keyword k => "'" ++ k.text ++ "'"
  | symbol .bangEq => "'<>'"
  | symbol s => "'" ++ s.text ++ "'"
  | string _ => "string literal"
  | integer _ => "integer literal"
  | decimal _ => "decimal literal"
  | parameter _ => "parameter"
  | quotedName _ => "quoted identifier"
  | name _ => "identifier"

/-- The token as a message shows it when something else was expected. -/
def found (t : Token) : String :=
  match t with
  | keyword _ | symbol _ => t.description
  | _ => t.description ++ " '" ++ t.text ++ "'"

def isName : Token → Bool
  | name _ | quotedName _ => true
  | _ => false

/-- The word of a name, quoted or not. -/
def nameWord? : Token → Option String
  | name word | quotedName word => some word
  | _ => none

end Token

/-- A token and its place. -/
structure Lexeme where
  token : Token
  span : Span
  deriving DecidableEq, Repr

end Schemata
