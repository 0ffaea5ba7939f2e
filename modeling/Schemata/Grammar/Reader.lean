import Schemata.Mistake

/-!
Readers take a construct off the front of a token list. A plain `Reader` stops at its first
mistake; a `Recovering` one may also record mistakes and go on.
-/

namespace Schemata

/-- A mistake at a token, or with no place of its own at the end of the input. -/
structure Refusal where
  fault : Fault
  place : Option Span
  deriving DecidableEq, Repr

/-- The mistake, in an input that ends at byte `stop`. -/
def Refusal.locate (stop : Nat) (r : Refusal) : Mistake :=
  ⟨r.fault, r.place.getD ⟨stop, stop⟩⟩

abbrev Reader := StateT (List Lexeme) (Except Refusal)

namespace Reader

def refuse {α : Type} (fault : Fault) (place : Span) : Reader α :=
  fun _ => .error ⟨fault, some place⟩

def refuseEnd {α : Type} (expected : String) : Reader α :=
  fun _ => .error ⟨.unexpectedEnd expected, none⟩

def refuseLexeme {α : Type} (expected : String) (found : Lexeme) : Reader α :=
  refuse (.unexpectedToken expected found.token.found) found.span

/-- A mistake at the next token, which stays where it is. -/
def refuseHere {α : Type} (expected : String) : Reader α := fun ts =>
  match ts with
  | [] => refuseEnd expected ts
  | l :: _ => refuseLexeme expected l ts

def peek? : Reader (Option Token) :=
  fun ts => .ok (ts.head?.map (·.token), ts)

def isAt (t : Token) : Reader Bool :=
  return (← peek?) = some t

/-- The next token, whatever it is. -/
def next (expected : String) : Reader Lexeme := fun ts =>
  match ts with
  | [] => refuseEnd expected ts
  | l :: rest => .ok (l, rest)

/-- Steps over the next token if it is `t`, and says whether it was. -/
def eat (t : Token) : Reader Bool := fun ts =>
  match ts with
  | [] => .ok (false, [])
  | l :: rest => if l.token = t then .ok (true, rest) else .ok (false, l :: rest)

def eatKeyword (k : Keyword) : Reader Bool :=
  eat (.keyword k)

def eatSymbol (s : Symbol) : Reader Bool :=
  eat (.symbol s)

def expect (t : Token) : Reader Lexeme := do
  let l ← next t.description
  if l.token = t then return l else refuseLexeme t.description l

def expectKeyword (k : Keyword) : Reader Unit :=
  discard (expect (.keyword k))

def expectSymbol (s : Symbol) : Reader Unit :=
  discard (expect (.symbol s))

/-- A name, quoted or not, with its place. -/
def expectName (what : String) : Reader (String × Span) := do
  let l ← next what
  match l.token.nameWord? with
  | some word => return (word, l.span)
  | none => refuseLexeme what l

def expectString : Reader String := do
  let l ← next "string literal"
  match l.token with
  | .string value => return value
  | _ => refuseLexeme "string literal" l

/-- The number that decimal digits write. -/
def digitsValue (digits : String) : Nat :=
  digits.toList.foldl (fun n c => 10 * n + (c.toNat - '0'.toNat)) 0

/-- Precisions, scales and lengths are below two to the thirty-second. -/
def expectCount : Reader Nat := do
  let l ← next "integer literal"
  match l.token with
  | .integer digits =>
    if digitsValue digits < 0x100000000 then return digitsValue digits
    else refuse (.invalidInteger digits) l.span
  | _ => refuseLexeme "integer literal" l

/-- Further items, each after a separator. -/
def moreItems {α : Type} (sep : Symbol) (item : Reader α) (ts : List Lexeme) :
    Except Refusal (List α × List Lexeme) :=
  match ts with
  | [] => .ok ([], [])
  | l :: rest =>
    if l.token = .symbol sep then
      match item rest with
      | .error e => .error e
      | .ok (a, rest') =>
        if rest'.length ≤ rest.length then
          match moreItems sep item rest' with
          | .error e => .error e
          | .ok (as, last) => .ok (a :: as, last)
        else .ok ([a], rest')
    else .ok ([], l :: rest)
termination_by ts.length
decreasing_by simp only [List.length_cons]; omega

/-- One or more items with a separator between any two. -/
def sepBy1 {α : Type} (sep : Symbol) (item : Reader α) : Reader (List α) := do
  let first ← item
  let others ← moreItems sep item
  return first :: others

/-- Names in parentheses, at least one. -/
def columnList : Reader (List String) := do
  expectSymbol .lparen
  let columns ← sepBy1 .comma (Prod.fst <$> expectName "column name")
  expectSymbol .rparen
  return columns

end Reader

/-- What a recovering reader leaves: the mistakes that it recorded, in order, and its result. -/
structure Outcome (α : Type) where
  recorded : List Refusal
  result : Except Refusal (α × List Lexeme)

def Recovering (α : Type) : Type :=
  List Lexeme → Outcome α

namespace Recovering

instance : Monad Recovering where
  pure a := fun ts => ⟨[], .ok (a, ts)⟩
  bind r f := fun ts =>
    match r ts with
    | ⟨recorded, .error e⟩ => ⟨recorded, .error e⟩
    | ⟨recorded, .ok (a, rest)⟩ =>
      let later := f a rest
      ⟨recorded ++ later.recorded, later.result⟩

instance : MonadLift Reader Recovering where
  monadLift r := fun ts => ⟨[], r ts⟩

/-- Notes a mistake and goes on. -/
def record (fault : Fault) (place : Span) : Recovering Unit :=
  fun ts => ⟨[⟨fault, some place⟩], .ok ((), ts)⟩

/-- Also says whether the reader recorded nothing. -/
def noting {α : Type} (r : Recovering α) : Recovering (α × Bool) := fun ts =>
  match r ts with
  | ⟨recorded, .error e⟩ => ⟨recorded, .error e⟩
  | ⟨recorded, .ok (a, rest)⟩ => ⟨recorded, .ok ((a, recorded.isEmpty), rest)⟩

end Recovering

/-- The tokens from the next separator, semicolon, `CREATE` or closing parenthesis on; inside
parentheses of its own a skipped construct may hold all but `CREATE`. -/
def skipToSeparator (sep : Symbol) : Nat → List Lexeme → List Lexeme
  | _, [] => []
  | depth, l :: ts =>
    match l.token, depth with
    | .keyword .create, _ => l :: ts
    | .symbol .lparen, depth => skipToSeparator sep (depth + 1) ts
    | .symbol .rparen, 0 => l :: ts
    | .symbol .rparen, depth + 1 => skipToSeparator sep depth ts
    | .symbol s, 0 => if s = sep ∨ s = .semicolon then l :: ts else skipToSeparator sep 0 ts
    | _, depth => skipToSeparator sep depth ts

theorem length_skipToSeparator_le (sep : Symbol) (depth : Nat) (ts : List Lexeme) :
    (skipToSeparator sep depth ts).length ≤ ts.length := by
  fun_induction skipToSeparator sep depth ts <;> simp_all <;> omega

/-- The tokens after the next semicolon outside parentheses, or from the next `CREATE` on. -/
def skipStatementRest : Nat → List Lexeme → List Lexeme
  | _, [] => []
  | depth, l :: ts =>
    match l.token, depth with
    | .keyword .create, _ => l :: ts
    | .symbol .semicolon, 0 => ts
    | .symbol .lparen, depth => skipStatementRest (depth + 1) ts
    | .symbol .rparen, depth => skipStatementRest (depth - 1) ts
    | _, depth => skipStatementRest depth ts

theorem length_skipStatementRest_le (depth : Nat) (ts : List Lexeme) :
    (skipStatementRest depth ts).length ≤ ts.length := by
  fun_induction skipStatementRest depth ts <;> simp_all <;> omega

namespace Recovering

/-- Reads an item into `acc`. One that cannot be read is recorded and skipped. -/
def itemOrSkip {σ : Type} (sep : Symbol) (item : σ → Recovering σ) (acc : σ)
    (ts : List Lexeme) : List Refusal × σ × List Lexeme :=
  match item acc ts with
  | ⟨recorded, .ok (acc', rest)⟩ => (recorded, acc', rest)
  | ⟨recorded, .error e⟩ => (recorded ++ [e], acc, skipToSeparator sep 0 ts)

/-- Items with a separator between any two, gathered into `acc`; those that cannot be read are
recorded and left out. -/
def gather {σ : Type} (sep : Symbol) (item : σ → Recovering σ) (acc : σ)
    (ts : List Lexeme) : List Refusal × σ × List Lexeme :=
  match itemOrSkip sep item acc ts with
  | (recorded, acc', l :: rest) =>
    if l.token = .symbol sep then
      if rest.length < ts.length then
        let (more, last, left) := gather sep item acc' rest
        (recorded ++ more, last, left)
      else (recorded, acc', rest)
    else (recorded, acc', l :: rest)
  | (recorded, acc', []) => (recorded, acc', [])
termination_by ts.length

/-- One or more items with a comma between any two. -/
def sepBy1 {σ : Type} (item : σ → Recovering σ) (acc : σ) : Recovering σ := fun ts =>
  let (recorded, last, left) := gather .comma item acc ts
  ⟨recorded, .ok (last, left)⟩

end Recovering

end Schemata
