import Schemata.Proofs.WellFormed

/-! The tokens that an artifact is written with. Each printed text is read as the tokens listed
here, so that what follows may forget about characters and gaps. -/
namespace Schemata

def BinaryOp.token : BinaryOp → Token
  | or => .keyword .or
  | and => .keyword .and
  | eq => .symbol .eq
  | notEq => .symbol .notEq
  | lt => .symbol .lt
  | ltEq => .symbol .ltEq
  | gt => .symbol .gt
  | gtEq => .symbol .gtEq
  | like => .keyword .like
  | plus => .symbol .plus
  | minus => .symbol .minus
  | concat => .symbol .concat
  | multiply => .symbol .star
  | divide => .symbol .slash

/-- A sign is a token of its own. -/
def Literal.tokens : Literal → List Token
  | null => [.keyword .null]
  | integer value =>
    if value < 0 then [.symbol .minus, .integer (toString value.natAbs)]
    else [.integer (toString value.natAbs)]
  | decimal text =>
    match text.toList with
    | '-' :: digits => [.symbol .minus, .decimal (String.ofList digits)]
    | _ => [.decimal text]
  | string value => [.string value]

def wrapped (wanted : Bool) (ts : List Token) : List Token :=
  if wanted then [Token.symbol .lparen] ++ (ts ++ [Token.symbol .rparen]) else ts

def optionalTokens {α : Type} (lead : List Token) (tokens : α → List Token) :
    Option α → List Token
  | none => []
  | some a => lead ++ tokens a

def commaTokens (items : List (List Token)) : List Token :=
  separated [.symbol .comma] items

def nameTokens (names : List String) : List Token :=
  commaTokens (names.map fun n => [nameToken n])

namespace Expr

mutual

def tokens : Expr → List Token
  | literal value => value.tokens
  | column qualifier name =>
    optionalTokens [] (fun q => [nameToken q, .symbol .dot]) qualifier ++ [nameToken name]
  | parameter name => [.parameter name]
  | call name args =>
    [Token.name name] ++ ([Token.symbol .lparen] ++
      (commaTokens (tokensAll args) ++ [Token.symbol .rparen]))
  | caseWhen operand branches otherwise =>
    [Token.keyword .case] ++ (tokensOption [] operand ++ (tokensBranches branches ++
      (tokensOption [.keyword .else] otherwise ++ [Token.keyword .end])))
  | binary op left right =>
    wrapped (left.precedence < op.precedence) (tokens left) ++
      ([op.token] ++ wrapped (right.precedence ≤ op.precedence) (tokens right))
  | unary op operand =>
    [match op with | .not => .keyword .not | .neg => .symbol .minus] ++
      wrapped (operand.precedence < op.precedence) (tokens operand)
  | isNull operand negated =>
    wrapped (operand.precedence ≤ 4) (tokens operand) ++
      if negated then [.keyword .is, .keyword .not, .keyword .null]
      else [.keyword .is, .keyword .null]

def tokensAll : List Expr → List (List Token)
  | [] => []
  | e :: es => tokens e :: tokensAll es

def tokensOption (lead : List Token) : Option Expr → List Token
  | none => []
  | some e => lead ++ tokens e

def tokensBranches : List (Expr × Expr) → List Token
  | [] => []
  | (a, b) :: rest =>
    [Token.keyword .when] ++ (tokens a ++
      ([Token.keyword .then] ++ (tokens b ++ tokensBranches rest)))

end

theorem tokensAll_eq_map (es : List Expr) : tokensAll es = es.map tokens := by
  induction es with
  | nil => rfl
  | cons e es ih => rw [tokensAll, ih, List.map_cons]

theorem tokensOption_eq (lead : List Token) (o : Option Expr) :
    tokensOption lead o = optionalTokens lead tokens o := by
  cases o <;> rfl

theorem renderOption_eq (s : Style) (lead : String) (o : Option Expr) :
    renderOption s lead o = optionalText lead (render s) o := by
  cases o <;> rfl

end Expr

section Combining

theorem Trails.optional {α : Type} {lead : String} {leads : List Token} {text : α → String}
    {tokens : α → List Token} {o : Option α} (h : plainTokens? [] lead.toList = some leads)
    (hs : Separates lead.toList) (ha : ∀ a ∈ o, Lexes (text a) (tokens a)) :
    Trails (optionalText lead text o) (optionalTokens leads tokens o) := by
  cases o with
  | none => exact empty
  | some a => exact .chunk (ha a rfl) h hs

namespace Lexes

theorem parenthesize {a : String} {ts : List Token} (wanted : Bool) (h : Lexes a ts) :
    Lexes (parenthesize wanted a) (wrapped wanted ts) := by
  cases wanted with
  | false => exact h
  | true =>
    rw [Schemata.parenthesize, if_pos rfl, String.append_assoc]
    exact (h.trail (.plain rfl (by decide))).chunk rfl (by decide)

theorem commaSeparated {α : Type} {l : List α} {text : α → String} {tokens : α → List Token}
    (h : ∀ x ∈ l, Lexes (text x) (tokens x)) :
    Lexes (commaSeparated (l.map text)) (commaTokens (l.map tokens)) :=
  Lexes.intercalate rfl (by decide) h

theorem names {names : List String} (h : ∀ n ∈ names, isIdentifier n = true) :
    Lexes (nameList names) (nameTokens names) :=
  commaSeparated fun n hn => lexes_name (h n hn)

end Lexes

end Combining

theorem lexes_op (op : BinaryOp) : Lexes op.symbol [op.token] := by
  have htext : op.token.text = op.symbol := by cases op <;> rfl
  have hvalid : op.token.Valid := by cases op <;> trivial
  exact htext ▸ lexes_token hvalid

theorem IsDecimal.head_ne {cs : List Char} (h : IsDecimal cs) : cs.head? ≠ some '-' := by
  obtain ⟨whole, part, rfl, ⟨hne, hd⟩, -⟩ := h
  cases whole with
  | nil => exact absurd rfl hne
  | cons c whole =>
    intro hc
    cases hc
    exact absurd (hd '-' List.mem_cons_self) (by decide)

theorem lexes_string (value : String) : Lexes (quoteText value) [.string value] :=
  lexes_token (t := .string value) trivial

theorem Literal.tokens_decimal {text : String} (h : IsDecimal text.toList) :
    (decimal text).tokens = [.decimal text] := by
  rw [tokens]
  split
  · rename_i hl
    exact absurd (by rw [hl]; rfl) h.head_ne
  · rfl

theorem Literal.tokens_signed (digits : String) :
    (decimal ("-" ++ digits)).tokens = [.symbol .minus, .decimal digits] := by
  simp [tokens]

theorem Literal.text_negative {value : Int} (h : value < 0) :
    (integer value).text = "-" ++ toString value.natAbs := by
  change value.repr = _
  rw [Int.repr_eq_if, if_neg (by omega), show (-value).toNat = value.natAbs by omega]
  rfl

theorem Literal.text_nonnegative {value : Int} (h : 0 ≤ value) :
    (integer value).text = toString value.natAbs := by
  change value.repr = _
  rw [Int.repr_eq_if, if_pos h, show value.toNat = value.natAbs by omega]
  rfl

theorem toString_head_ne (n : Nat) : (toString n).toList.head? ≠ some '-' := by
  intro hc
  exact absurd ((isDigits_toString n).2 '-' (List.mem_of_mem_head? hc)) (by decide)

theorem lexes_literal {v : Literal} (h : v.WellFormed) : Lexes v.text v.tokens := by
  cases v with
  | null => exact .plain rfl
  | integer value =>
    by_cases hneg : value < 0
    · rw [Literal.text_negative hneg, Literal.tokens, if_pos hneg]
      exact (lexes_nat value.natAbs).minus (toString_head_ne value.natAbs)
    · rw [Literal.text_nonnegative (by omega), Literal.tokens, if_neg hneg]
      exact lexes_nat value.natAbs
  | decimal text =>
    obtain ⟨digits, hd, rfl | rfl⟩ := h
    · rw [Literal.tokens_decimal hd]
      exact lexes_token (t := .decimal text) hd
    · rw [Literal.tokens_signed]
      exact (lexes_token (t := .decimal digits) hd).minus hd.head_ne
  | string value => exact lexes_string value

/-- A name may be followed by whatever is no part of a name. -/
theorem tokensOf_name {name : String} (h : isIdentifier name = true) {rest : List Char}
    (hr : ∀ c, rest.head? = some c → isNameChar c = false) :
    tokensOf ((nameText name).toList ++ rest) = some (nameToken name) :: tokensOf rest := by
  have hw := isIdentifier_iff.mp h
  have hvalid := nameToken_valid h
  unfold nameText nameToken at *
  split
  · simpa using tokensOf_quotedName hw rest
  · rename_i hreserved
    rw [if_neg hreserved] at hvalid
    refine (tokensOf_word hw hr).trans ?_
    simp [wordToken, hvalid.2]

theorem lexes_column {qualifier : Option String} {name : String}
    (hq : ∀ q ∈ qualifier, isIdentifier q = true) (hn : isIdentifier name = true) :
    Lexes (Style.schema.column qualifier name) (Expr.column qualifier name).tokens := by
  cases qualifier with
  | none => exact lexes_name hn
  | some q =>
    intro rest hr
    have htext : (Style.schema.column (some q) name).toList ++ rest =
        (nameText q).toList ++ '.' :: ((nameText name).toList ++ rest) := by
      simp [Style.schema, Style.ofIdentifier]
    have hopen : EndsOpen (nameText name).toList → Bounded rest := fun ho => hr (by
      simpa [Style.schema, Style.ofIdentifier] using
        EndsOpen.append_left ho ((nameText q).toList ++ ['.']))
    rw [htext, tokensOf_name (hq q rfl) (fun c hc => by cases hc; decide),
      tokensOf_mark rfl, lexes_name hn rest hopen]
    rfl

theorem lexes_branches {bs : List (Expr × Expr)}
    (h : ∀ b ∈ bs, Lexes (b.1.render .schema) b.1.tokens ∧ Lexes (b.2.render .schema) b.2.tokens) :
    Trails (Expr.renderBranches .schema bs) (Expr.tokensBranches bs) := by
  induction bs with
  | nil => exact .empty
  | cons b bs ih =>
    obtain ⟨x, y⟩ := b
    rw [List.forall_mem_cons] at h
    rw [Expr.renderBranches, Expr.tokensBranches]
    simp only [String.append_assoc]
    exact .chunk (h.1.1.trail (.chunk (h.1.2.trail (ih h.2)) rfl (by decide))) rfl (by decide)

theorem render_binary (op : BinaryOp) (left right : Expr) :
    (Expr.binary op left right).render .schema =
      parenthesize (left.precedence < op.precedence) (left.render .schema) ++
        (" " ++ (op.symbol ++ (" " ++
          parenthesize (right.precedence ≤ op.precedence) (right.render .schema)))) := by
  cases op with
  | concat =>
    have hsign : " || " = " " ++ "||" ++ " " := rfl
    simp only [Expr.render, Style.schema, Style.ofIdentifier, hsign, BinaryOp.symbol,
      String.append_assoc]
  | _ => simp only [Expr.render, String.append_assoc]

theorem lexes_expr {e : Expr} (h : e.WellFormed) : Lexes (e.render .schema) e.tokens := by
  induction e with
  | literal value => exact lexes_literal (Expr.wellFormed_literal.mp h)
  | column qualifier name =>
    obtain ⟨hq, hn⟩ := Expr.wellFormed_column.mp h
    exact lexes_column hq hn
  | parameter name =>
    exact lexes_token (t := .parameter name) (Expr.wellFormed_parameter.mp h)
  | call name args ih =>
    obtain ⟨hname, hargs⟩ := Expr.wellFormed_call.mp h
    have hall := Lexes.commaSeparated fun e he => ih e he (hargs e he)
    rw [Expr.render, Expr.renderAll_eq_map, Expr.tokens, Expr.tokensAll_eq_map,
      String.append_assoc, String.append_assoc]
    refine (lexes_token hname).trail ?_
    exact .chunk (hall.trail (.plain rfl (by decide))) rfl (by decide)
  | caseWhen operand branches otherwise ihOperand ihBranches ihOtherwise =>
    obtain ⟨-, hoperand, hbranches, hotherwise⟩ := Expr.wellFormed_caseWhen.mp h
    have hbs := lexes_branches fun b hb =>
      ⟨(ihBranches b hb).1 (hbranches b hb).1, (ihBranches b hb).2 (hbranches b hb).2⟩
    have hoperand : Trails (optionalText " " (Expr.render .schema) operand)
        (optionalTokens [] Expr.tokens operand) :=
      .optional rfl (by decide) fun e he => ihOperand e he (hoperand e he)
    have hotherwise : Trails (optionalText " ELSE " (Expr.render .schema) otherwise)
        (optionalTokens [.keyword .else] Expr.tokens otherwise) :=
      .optional rfl (by decide) fun e he => ihOtherwise e he (hotherwise e he)
    rw [Expr.render, Expr.tokens, Expr.renderOption_eq, Expr.renderOption_eq,
      Expr.tokensOption_eq, Expr.tokensOption_eq]
    simp only [String.append_assoc]
    exact Lexes.trail (.plain rfl)
      (hoperand.append (hbs.append (hotherwise.append (.plain rfl (by decide)))))
  | binary op left right ihLeft ihRight =>
    obtain ⟨hl, hr⟩ := Expr.wellFormed_binary.mp h
    rw [render_binary, Expr.tokens]
    refine ((ihLeft hl).parenthesize _).trail (.blank ?_ rfl (by decide))
    refine (lexes_op op).trail (.blank ?_ rfl (by decide))
    exact (ihRight hr).parenthesize _
  | unary op operand ih =>
    have hinner := (ih (Expr.wellFormed_unary.mp h)).parenthesize
      (operand.precedence < op.precedence)
    cases op with
    | not =>
      rw [Expr.render, Expr.tokens]
      exact hinner.chunk rfl (by decide)
    | neg =>
      rw [Expr.render, Expr.tokens]
      split
      · have hspaced : Lexes (" " ++ _) _ := hinner.blank rfl (by decide)
        rw [show "- " = "-" ++ " " from rfl, String.append_assoc]
        exact hspaced.minus (by simp)
      · rename_i hhead
        exact hinner.minus hhead
  | isNull operand negated ih =>
    have hinner := (ih (Expr.wellFormed_isNull.mp h)).parenthesize (operand.precedence ≤ 4)
    rw [Expr.render, Expr.tokens]
    cases negated with
    | false => exact hinner.trail (.plain rfl (by decide))
    | true => exact hinner.trail (.plain rfl (by decide))

def filterTokens : Option Expr → List Token :=
  optionalTokens [.keyword .where] Expr.tokens

def assignmentTokens (a : String × Expr) : List Token :=
  [nameToken a.1] ++ ([Token.symbol .eq] ++ a.2.tokens)

def Dml.tokens : Dml → List Token
  | insert table columns values =>
    [Token.keyword .insert, .keyword .into] ++ ([nameToken table] ++ ([Token.symbol .lparen] ++
      (nameTokens columns ++ ([Token.symbol .rparen, .keyword .values, .symbol .lparen] ++
        (commaTokens (values.map Expr.tokens) ++ [Token.symbol .rparen])))))
  | update table assignments filter =>
    [Token.keyword .update] ++ ([nameToken table] ++ ([Token.keyword .set] ++
      (commaTokens (assignments.map assignmentTokens) ++ filterTokens filter)))
  | delete table filter =>
    [Token.keyword .delete, .keyword .from] ++ ([nameToken table] ++ filterTokens filter)

def DmlStatement.tokens (d : DmlStatement) : List Token :=
  [Token.keyword .create, .keyword .statement] ++ ([nameToken d.name] ++ ([Token.keyword .as] ++
    (d.body.tokens ++ [Token.symbol .semicolon])))

theorem lexes_filter {filter : Option Expr} (h : ∀ e ∈ filter, e.WellFormed) :
    Trails (Expr.renderOption .schema " WHERE " filter) (filterTokens filter) := by
  rw [Expr.renderOption_eq]
  exact .optional rfl (by decide) fun e he => lexes_expr (h e he)

theorem lexes_assignment {a : String × Expr} (hn : isIdentifier a.1 = true)
    (he : a.2.WellFormed) : Lexes (Dml.assignmentText .schema a) (assignmentTokens a) := by
  rw [Dml.assignmentText, String.append_assoc]
  exact (lexes_name hn).trail (.chunk (lexes_expr he) rfl (by decide))

theorem lexes_dml {d : Dml} (h : d.WellFormed) : Lexes (d.render .schema) d.tokens := by
  obtain ⟨htable, hcolumns, hexprs, -⟩ := h
  cases d with
  | insert table columns values =>
    have hvalues : Lexes (commaSeparated (values.map (Expr.render .schema)))
        (commaTokens (values.map Expr.tokens)) :=
      .commaSeparated fun e he => lexes_expr (hexprs e he)
    unfold Dml.render Dml.tokens
    simp only [String.append_assoc]
    refine .chunk ((lexes_name htable).trail (.chunk ?_ rfl (by decide))) rfl (by decide)
    exact (Lexes.names hcolumns).trail
      (.chunk (hvalues.trail (.plain rfl (by decide))) rfl (by decide))
  | update table assignments filter =>
    have hassign : ∀ a ∈ assignments, Lexes (Dml.assignmentText .schema a) (assignmentTokens a) :=
      fun a ha => lexes_assignment (hcolumns a.1 (List.mem_map.mpr ⟨a, ha, rfl⟩))
        (hexprs a.2 (List.mem_append_left _ (List.mem_map.mpr ⟨a, ha, rfl⟩)))
    have hfilter := lexes_filter fun e he =>
      hexprs e (List.mem_append_right _ (Option.mem_toList.mpr he))
    unfold Dml.render Dml.tokens
    simp only [String.append_assoc]
    refine .chunk ((lexes_name htable).trail (.chunk ?_ rfl (by decide))) rfl (by decide)
    exact (Lexes.commaSeparated hassign).trail hfilter
  | delete table filter =>
    have hfilter := lexes_filter fun e he => hexprs e (Option.mem_toList.mpr he)
    unfold Dml.render Dml.tokens
    simp only [String.append_assoc]
    exact .chunk ((lexes_name htable).trail hfilter) rfl (by decide)

theorem lexes_statement {d : DmlStatement} (h : d.WellFormed) : Lexes d.print d.tokens := by
  unfold DmlStatement.print DmlStatement.tokens
  simp only [String.append_assoc]
  refine .chunk ((lexes_name h.name).trail (.chunk ?_ rfl (by decide))) rfl (by decide)
  exact (lexes_dml h.body).trail (.plain rfl (by decide))

section Views

def TableRef.tokens (t : TableRef) : List Token :=
  [nameToken t.table] ++ optionalTokens [] (fun n => [nameToken n]) t.otherName

def JoinKind.tokens : JoinKind → List Token
  | inner => [.keyword .join]
  | left => [.keyword .left, .keyword .join]

def Join.tokens (j : Join) : List Token :=
  j.kind.tokens ++ (j.table.tokens ++ ([Token.keyword .on] ++ j.on.tokens))

def Select.tokens (s : Select) : List Token :=
  [Token.keyword .select] ++ (commaTokens (s.items.map Expr.tokens) ++ ([Token.keyword .from] ++
    (s.source.tokens ++ (s.joins.flatMap Join.tokens ++ filterTokens s.filter))))

def UnionKind.tokens : UnionKind → List Token
  | distinct => [.keyword .union]
  | all => [.keyword .union, .keyword .all]

def unionTokens (u : UnionKind × Select) : List Token :=
  u.1.tokens ++ u.2.tokens

def Query.tokens (q : Query) : List Token :=
  q.first.tokens ++ q.unions.flatMap unionTokens

theorem lexes_tableRef {t : TableRef} (h : t.WellFormed) :
    Lexes (t.render .schema) t.tokens := by
  obtain ⟨table, otherName⟩ := t
  cases otherName with
  | none => exact lexes_name h.table
  | some other =>
    unfold TableRef.render TableRef.tokens
    simp only [String.append_assoc]
    exact (lexes_name h.table).trail (.blank (lexes_name (h.otherName other rfl)) rfl (by decide))

theorem lexes_join {j : Join} (ht : j.table.WellFormed) (he : j.on.WellFormed) :
    Trails (Select.joinText .schema j) j.tokens := by
  have hkind : Lexes j.kind.text j.kind.tokens := by cases j.kind <;> exact .plain rfl
  have hon : Trails (" ON " ++ j.on.render .schema) ([Token.keyword .on] ++ j.on.tokens) :=
    .chunk (lexes_expr he) rfl (by decide)
  unfold Select.joinText Join.tokens
  simp only [String.append_assoc]
  refine .blank (hkind.trail (.blank ?_ rfl (by decide))) rfl (by decide)
  exact (lexes_tableRef ht).trail hon

theorem lexes_select {s : Select} (h : s.WellFormed) : Lexes (s.render .schema) s.tokens := by
  obtain ⟨-, htables, hexprs⟩ := h
  have hitems : ∀ e ∈ s.items, Lexes (e.render .schema) e.tokens := fun e he =>
    lexes_expr (hexprs e (List.mem_append_left _ (List.mem_append_left _ he)))
  have hjoins : ∀ j ∈ s.joins, Trails (Select.joinText .schema j) j.tokens := fun j hj =>
    lexes_join (htables j.table (List.mem_cons_of_mem _ (List.mem_map_of_mem hj)))
      (hexprs j.on (List.mem_append_left _ (List.mem_append_right _ (List.mem_map_of_mem hj))))
  have hfilter := lexes_filter fun e he =>
    hexprs e (List.mem_append_right _ (Option.mem_toList.mpr he))
  unfold Select.render Select.tokens
  simp only [String.append_assoc]
  refine .chunk ((Lexes.commaSeparated hitems).trail (.chunk ?_ rfl (by decide))) rfl (by decide)
  exact (lexes_tableRef (htables s.source List.mem_cons_self)).trail
    ((Trails.join hjoins).append hfilter)

end Views

section Hinted

def HintScope.token : HintScope → Token
  | all => .keyword .all
  | dialect d => .name d.keyword

def ScopedHint.tokens (entry : ScopedHint) : List Token :=
  [entry.scope.token] ++ ([Token.name entry.hint.key.keyword] ++
    optionalTokens [.symbol .eq] (fun v => [.string v]) entry.hint.value?)

def hintTokens (hints : Hints) : List Token :=
  if hints.isEmpty then []
  else [Token.keyword .dbms, .keyword .hints, .symbol .lparen] ++
    (commaTokens (hints.map ScopedHint.tokens) ++ [Token.symbol .rparen])

def commentTokens : Option String → List Token :=
  optionalTokens [.keyword .comment] fun text => [.string text]

theorem lexes_hint (entry : ScopedHint) : Lexes entry.text entry.tokens := by
  have hscope : Lexes entry.scope.text [entry.scope.token] := by
    cases entry.scope with
    | all => exact .plain rfl
    | dialect d => cases d <;> exact .plain rfl
  have hkey : Lexes entry.hint.key.keyword [.name entry.hint.key.keyword] := by
    cases entry.hint.key <;> exact .plain rfl
  unfold ScopedHint.text ScopedHint.tokens
  simp only [String.append_assoc]
  refine hscope.trail (.blank ?_ rfl (by decide))
  exact hkey.trail (.optional rfl (by decide) fun v _ => lexes_string v)

/-- A hint block follows on a gap. -/
theorem lexes_hints {lead : String} (hlead : plainTokens? [] lead.toList = some [])
    (hs : Separates lead.toList) (hints : Hints) :
    Trails (hintsText lead hints) (hintTokens hints) := by
  unfold hintsText hintTokens
  split
  · exact .empty
  · simp only [String.append_assoc]
    have hall : Lexes (commaSeparated (hints.map ScopedHint.text))
        (commaTokens (hints.map ScopedHint.tokens)) := .commaSeparated fun e _ => lexes_hint e
    exact .blank (.chunk (hall.trail (.plain rfl (by decide))) rfl (by decide)) hlead hs

end Hinted

section Tables

def sizeTokens (precision : Nat) (scale : Option Nat) : List Token :=
  [Token.symbol .lparen] ++ ([Token.integer (toString precision)] ++
    (optionalTokens [.symbol .comma] (fun s : Nat => [.integer (toString s)]) scale ++
      [Token.symbol .rparen]))

def DataType.tokens : DataType → List Token
  | bit => [.keyword .bit]
  | integer => [.keyword .integer]
  | bigInt => [.keyword .bigInt]
  | float => [.keyword .float]
  | decimal precision scale => [Token.keyword .decimal] ++ sizeTokens precision (some scale)
  | number none _ => [.keyword .number]
  | number (some precision) scale => [Token.keyword .number] ++ sizeTokens precision scale
  | char length => [Token.keyword .char] ++ sizeTokens length none
  | varchar length => [Token.keyword .varchar] ++ sizeTokens length none
  | clob => [.keyword .clob]
  | date => [.keyword .date]
  | time => [.keyword .time]
  | dateTime => [.keyword .dateTime]
  | blob => [.keyword .blob]

theorem lexes_size {name : String} {k : Keyword} (hname : Lexes name [.keyword k])
    (precision : Nat) (scale : Option Nat) :
    Lexes (DataType.numericText name (some precision) scale)
      ([Token.keyword k] ++ sizeTokens precision scale) := by
  cases scale with
  | none =>
    simp only [DataType.numericText, String.append_assoc]
    refine hname.trail (.chunk ?_ rfl (by decide))
    exact (lexes_nat precision).trail (.plain rfl (by decide))
  | some scale =>
    have htokens : sizeTokens precision (some scale) = [Token.symbol .lparen] ++
        ([Token.integer (toString precision)] ++ ([Token.symbol .comma] ++
          ([Token.integer (toString scale)] ++ [Token.symbol .rparen]))) := rfl
    rw [htokens]
    simp only [DataType.numericText, String.append_assoc]
    refine hname.trail (.chunk ?_ rfl (by decide))
    refine (lexes_nat precision).trail (.chunk ?_ rfl (by decide))
    exact (lexes_nat scale).trail (.plain rfl (by decide))

theorem lexes_dataType (t : DataType) : Lexes t.text t.tokens := by
  cases t with
  | decimal precision scale => exact lexes_size (.plain rfl) precision (some scale)
  | number precision scale =>
    cases precision with
    | none =>
      change Lexes "NUMBER" [.keyword .number]
      exact .plain rfl
    | some precision => exact lexes_size (.plain rfl) precision scale
  | char length =>
    have htext : "CHAR(" = "CHAR" ++ "(" := rfl
    rw [DataType.text, htext]
    exact lexes_size (.plain rfl) length none
  | varchar length =>
    have htext : "VARCHAR(" = "VARCHAR" ++ "(" := rfl
    rw [DataType.text, htext]
    exact lexes_size (.plain rfl) length none
  | _ => exact .plain rfl

def DefaultValue.tokens : DefaultValue → List Token
  | literal value => value.tokens
  | currentTimestamp => [.keyword .currentTimestamp]

def ReferentialAction.tokens : ReferentialAction → List Token
  | cascade => [.keyword .cascade]
  | setNull => [.keyword .set, .keyword .null]
  | noAction => [.keyword .no, .keyword .action]
  | restrict => [.keyword .restrict]

def Reference.tokens (r : Reference) : List Token :=
  [Token.keyword .references] ++ ([nameToken r.table] ++ ([Token.symbol .lparen] ++
    ([nameToken r.column] ++ ([Token.symbol .rparen] ++
      (optionalTokens [.keyword .on, .keyword .delete] ReferentialAction.tokens r.onDelete ++
        optionalTokens [.keyword .on, .keyword .update] ReferentialAction.tokens r.onUpdate)))))

theorem lexes_action (a : ReferentialAction) : Lexes a.text a.tokens := by
  cases a <;> exact .plain rfl

theorem lexes_reference {r : Reference} (h : r.WellFormed) : Lexes r.print r.tokens := by
  unfold Reference.print Reference.tokens
  simp only [String.append_assoc]
  refine .chunk ((lexes_name h.table).trail (.chunk ?_ rfl (by decide))) rfl (by decide)
  refine (lexes_name h.column).trail (.chunk ?_ rfl (by decide))
  exact Trails.lexes (.append (.optional rfl (by decide) fun a _ => lexes_action a)
    (.optional rfl (by decide) fun a _ => lexes_action a))

def nullTokens (nullable : Bool) : List Token :=
  if nullable then [] else [.keyword .not, .keyword .null]

def Column.tokens (c : Column) : List Token :=
  [nameToken c.name] ++ (c.dataType.tokens ++ (nullTokens c.nullable ++
    (optionalTokens [.keyword .default] DefaultValue.tokens c.default ++
      (optionalTokens [] Reference.tokens c.reference ++
        (commentTokens c.comment ++ hintTokens c.hints)))))

theorem lexes_default {d : DefaultValue} (h : d.WellFormed) : Lexes d.text d.tokens := by
  cases d with
  | literal value => exact lexes_literal h
  | currentTimestamp => exact .plain rfl

theorem lexes_column_definition {c : Column} (h : c.WellFormed) : Lexes c.print c.tokens := by
  have hnull : Trails (if c.nullable then "" else " NOT NULL") (nullTokens c.nullable) := by
    cases c.nullable with
    | true => exact .empty
    | false => exact .plain rfl (by decide)
  unfold Column.print Column.tokens
  simp only [String.append_assoc]
  refine (lexes_name h.name).trail (.blank ?_ rfl (by decide))
  refine (lexes_dataType c.dataType).trail (hnull.append (.append ?_ (.append ?_ (.append ?_ ?_))))
  · exact .optional rfl (by decide) fun d hd => lexes_default (h.default d hd)
  · exact .optional rfl (by decide) fun r hr => lexes_reference (h.reference r hr)
  · exact .optional rfl (by decide) fun text _ => lexes_string text
  · exact lexes_hints rfl (by decide) c.hints

/-- What stands between the parentheses of a table. -/
inductive TableElement where
  | column (c : Column)
  | primaryKey (k : PrimaryKey)
  | unique (u : UniqueConstraint)
  | foreignKey (f : ForeignKey)
  | index (i : Index)

namespace TableElement

def print : TableElement → String
  | column c => c.print
  | primaryKey k => k.print
  | unique u => u.print
  | foreignKey f => f.print
  | index i => i.print

def tokens : TableElement → List Token
  | column c => c.tokens
  | primaryKey k =>
    [Token.keyword .constraint] ++ ([nameToken k.name] ++
      ([Token.keyword .primary, .keyword .key, .symbol .lparen] ++
        (nameTokens k.columns ++ [Token.symbol .rparen])))
  | unique u =>
    [Token.keyword .constraint] ++ ([nameToken u.name] ++
      ([Token.keyword .unique, .symbol .lparen] ++
        (nameTokens u.columns ++ [Token.symbol .rparen])))
  | foreignKey f =>
    [Token.keyword .constraint] ++ ([nameToken f.name] ++
      ([Token.keyword .foreign, .keyword .key, .symbol .lparen] ++ ([nameToken f.column] ++
        ([Token.symbol .rparen] ++ f.reference.tokens))))
  | index i =>
    [Token.keyword .index] ++ ([nameToken i.name] ++ ([Token.symbol .lparen] ++
      (nameTokens i.columns ++ ([Token.symbol .rparen] ++ hintTokens i.hints))))

/-- All names are identifiers, and so are the columns of a key. -/
def WellFormed : TableElement → Prop
  | column c => c.WellFormed
  | primaryKey k => isIdentifier k.name = true ∧ k.columns ≠ [] ∧
      ∀ c ∈ k.columns, isIdentifier c = true
  | unique u => isIdentifier u.name = true ∧ u.columns ≠ [] ∧
      ∀ c ∈ u.columns, isIdentifier c = true
  | foreignKey f =>
    isIdentifier f.name = true ∧ isIdentifier f.column = true ∧ f.reference.WellFormed
  | index i => isIdentifier i.name = true ∧ i.columns ≠ [] ∧
      (∀ c ∈ i.columns, isIdentifier c = true) ∧ i.hints.AllowedOn .index

end TableElement

theorem lexes_element {x : TableElement} (h : x.WellFormed) : Lexes x.print x.tokens := by
  cases x with
  | column c => exact lexes_column_definition h
  | primaryKey k =>
    obtain ⟨hname, -, hcolumns⟩ := h
    unfold TableElement.print TableElement.tokens PrimaryKey.print
    simp only [String.append_assoc]
    refine .chunk ((lexes_name hname).trail (.chunk ?_ rfl (by decide))) rfl (by decide)
    exact (Lexes.names hcolumns).trail (.plain rfl (by decide))
  | unique u =>
    obtain ⟨hname, -, hcolumns⟩ := h
    unfold TableElement.print TableElement.tokens UniqueConstraint.print
    simp only [String.append_assoc]
    refine .chunk ((lexes_name hname).trail (.chunk ?_ rfl (by decide))) rfl (by decide)
    exact (Lexes.names hcolumns).trail (.plain rfl (by decide))
  | foreignKey f =>
    obtain ⟨hname, hcolumn, hreference⟩ := h
    unfold TableElement.print TableElement.tokens ForeignKey.print
    simp only [String.append_assoc]
    refine .chunk ((lexes_name hname).trail (.chunk ?_ rfl (by decide))) rfl (by decide)
    exact (lexes_name hcolumn).trail (.chunk (lexes_reference hreference) rfl (by decide))
  | index i =>
    obtain ⟨hname, -, hcolumns, -⟩ := h
    unfold TableElement.print TableElement.tokens Index.print
    simp only [String.append_assoc]
    refine .chunk ((lexes_name hname).trail (.chunk ?_ rfl (by decide))) rfl (by decide)
    refine (Lexes.names hcolumns).trail (.append (.plain rfl (by decide)) ?_)
    exact lexes_hints rfl (by decide) i.hints

namespace Table

/-- The elements in the order in which they are printed. -/
def elements (t : Table) : List TableElement :=
  t.columns.map TableElement.column ++ [TableElement.primaryKey t.primaryKey] ++
    t.uniques.map TableElement.unique ++ t.declaredForeignKeys.map TableElement.foreignKey ++
    t.indexes.map TableElement.index

theorem printedElements_eq (t : Table) : t.printedElements = t.elements.map TableElement.print := by
  simp [printedElements, elements, TableElement.print, Function.comp_def]

theorem WellFormed.elements {t : Table} (h : t.WellFormed) : ∀ x ∈ t.elements, x.WellFormed := by
  have hnames := h.valid.names
  simp only [constraintNames, List.forall_mem_cons, List.forall_mem_append,
    List.forall_mem_map] at hnames
  obtain ⟨hprimary, ⟨⟨huniques, hindexes⟩, hdeclared⟩, -⟩ := hnames
  simp only [Table.elements, List.forall_mem_append, List.forall_mem_map,
    List.forall_mem_singleton]
  refine ⟨⟨⟨⟨h.columns, ?_⟩, fun u hu => ?_⟩, fun f hf => ?_⟩, fun i hi => ?_⟩
  · exact ⟨hprimary, h.valid.primaryKey.1, h.listed h.valid.primaryKey⟩
  · exact ⟨huniques u hu, (h.valid.uniques u hu).1, h.listed (h.valid.uniques u hu)⟩
  · obtain ⟨c, hc, hname⟩ := List.mem_map.mp (h.valid.declared f hf)
    exact ⟨hdeclared f hf, hname ▸ (h.columns c hc).name, h.declared f hf⟩
  · have hlists := h.valid.indexes i hi
    exact ⟨hindexes i hi, hlists.1, h.listed hlists, h.indexes i hi⟩

def triggerTokens (t : Table) : List Token :=
  if t.onDelete.isEmpty then []
  else [Token.keyword .on, .keyword .delete, .symbol .lparen] ++
    (t.onDelete.flatMap (fun d => d.tokens ++ [Token.symbol .semicolon]) ++ [Token.symbol .rparen])

def tokens (t : Table) : List Token :=
  [Token.keyword .create, .keyword .table] ++ ([nameToken t.name] ++ ([Token.symbol .lparen] ++
    (commaTokens (t.elements.map TableElement.tokens) ++ ([Token.symbol .rparen] ++
      (commentTokens t.comment ++ (t.triggerTokens ++
        (hintTokens t.hints ++ [Token.symbol .semicolon])))))))

end Table

theorem lexes_trigger {t : Table} (h : ∀ d ∈ t.onDelete, d.WellFormed) :
    Trails t.printedTrigger t.triggerTokens := by
  unfold Table.printedTrigger Table.triggerTokens
  split
  · exact .empty
  · have hjoin : Trails
        (String.join (t.onDelete.map fun d => "    " ++ d.render .schema ++ ";\n"))
        (t.onDelete.flatMap fun d => d.tokens ++ [Token.symbol .semicolon]) := by
      refine .join fun d hd => ?_
      rw [String.append_assoc]
      exact .blank ((lexes_dml (h d hd)).trail (.plain rfl (by decide))) rfl (by decide)
    rw [String.append_assoc]
    exact .chunk (hjoin.lexes.trail (.plain rfl (by decide))) rfl (by decide)

theorem lexes_table {t : Table} (h : t.WellFormed) : Lexes t.print t.tokens := by
  have helements : Lexes (String.intercalate ",\n" (t.printedElements.map ("    " ++ ·)))
      (commaTokens (t.elements.map TableElement.tokens)) := by
    rw [t.printedElements_eq, List.map_map]
    refine .intercalate rfl (by decide) fun x hx => ?_
    exact (lexes_element (h.elements x hx)).blank rfl (by decide)
  unfold Table.print Table.tokens
  simp only [String.append_assoc]
  refine .chunk ((lexes_name h.valid.name).trail (.chunk ?_ rfl (by decide))) rfl (by decide)
  refine helements.trail
    (.append (.plain rfl (by decide)) (.append ?_ (.append ?_ (.append ?_ ?_))))
  · exact .optional rfl (by decide) fun text _ => lexes_string text
  · exact lexes_trigger h.onDelete
  · exact lexes_hints rfl (by decide) t.hints
  · exact .plain rfl (by decide)

end Tables

def View.tokens (v : View) : List Token :=
  [Token.keyword .create, .keyword .view] ++ ([nameToken v.name] ++ ([Token.symbol .lparen] ++
    (nameTokens v.columns ++ ([Token.symbol .rparen, .keyword .as] ++
      (v.query.tokens ++ (commentTokens v.comment ++
        (hintTokens v.hints ++ [Token.symbol .semicolon])))))))

theorem lexes_view {v : View} (h : v.WellFormed) : Lexes v.print v.tokens := by
  have hunions : Trails (String.join (v.query.unions.map fun u =>
      "\n    " ++ (u.1.text ++ ("\n    " ++ u.2.render .schema))))
      (v.query.unions.flatMap unionTokens) := by
    refine .join fun u hu => ?_
    have hkind : Lexes u.1.text u.1.tokens := by cases u.1 <;> exact .plain rfl
    have hs := lexes_select (h.selects u.2 (List.mem_cons_of_mem _ (List.mem_map.mpr ⟨u, hu, rfl⟩)))
    exact .blank (hkind.trail (.blank hs rfl (by decide))) rfl (by decide)
  unfold View.print View.tokens Query.tokens
  simp only [String.append_assoc, List.append_assoc]
  refine .chunk ((lexes_name h.valid.name).trail (.chunk ?_ rfl (by decide))) rfl (by decide)
  refine (Lexes.names h.valid.columns).trail (.chunk ?_ rfl (by decide))
  refine (lexes_select (h.selects _ List.mem_cons_self)).trail
    (hunions.append (.append ?_ (.append ?_ ?_)))
  · exact .optional rfl (by decide) fun text _ => lexes_string text
  · exact lexes_hints rfl (by decide) v.hints
  · exact .plain rfl (by decide)

/-- What a schema is made of. -/
inductive Artifact where
  | table (t : Table)
  | view (v : View)
  | statement (d : DmlStatement)

namespace Artifact

def print : Artifact → String
  | table t => t.print
  | view v => v.print
  | statement d => d.print

def tokens : Artifact → List Token
  | table t => t.tokens
  | view v => v.tokens
  | statement d => d.tokens

def WellFormed : Artifact → Prop
  | table t => t.WellFormed
  | view v => v.WellFormed
  | statement d => d.WellFormed

end Artifact

namespace Schema

/-- The artifacts in the order in which they are printed. -/
def artifacts (s : Schema) : List Artifact :=
  s.tables.map .table ++ s.views.map .view ++ s.statements.map .statement

def tokens (s : Schema) : List Token :=
  s.artifacts.flatMap Artifact.tokens

theorem WellFormed.artifacts {s : Schema} (h : s.WellFormed) :
    ∀ a ∈ s.artifacts, a.WellFormed := by
  simp only [Schema.artifacts, List.forall_mem_append, List.forall_mem_map]
  exact ⟨⟨h.tables, h.views⟩, h.statements⟩

end Schema

theorem lexes_artifact {a : Artifact} (h : a.WellFormed) : Lexes a.print a.tokens := by
  cases a with
  | table t => exact lexes_table h
  | view v => exact lexes_view h
  | statement d => exact lexes_statement h

theorem separated_nil (items : List (List Token)) : separated [] items = items.flatten := by
  cases items with
  | nil => rfl
  | cons item items => simp [separated, List.flatMap_id']

/-- The printed schema is read as the tokens of its artifacts, one after the other. -/
theorem Schema.print_eq_intercalate (s : Schema) :
    s.print = String.intercalate "\n" (s.artifacts.map Artifact.print) := by
  simp [print, artifacts, Artifact.print, Function.comp_def]

theorem lexes_schema {s : Schema} (h : s.WellFormed) : Lexes s.print s.tokens := by
  have htokens : s.tokens = separated [] (s.artifacts.map Artifact.tokens) := by
    rw [separated_nil, Schema.tokens, List.flatMap_def]
  rw [s.print_eq_intercalate, htokens]
  exact .intercalate rfl (by decide) fun a ha => lexes_artifact (h.artifacts a ha)

end Schemata
