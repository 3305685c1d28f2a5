import ObjLang.Proofs.Tree.Grammar

/-!
# ObjLang.Proofs.Tree.Reread.Expr — reading the tokens of an expression

The tokens of a written expression are a phrase of the grammar: all that is not one token is in
brackets, so they are an operand of every level.
-/

namespace ObjLang

open Token (separated bracketed)

/-! ### Ends of expressions -/

namespace Token

/-- A token that the tokens of an expression start with. -/
def Leads : Token → Prop
  | .int n => n ≤ Parser.maxLiteral
  | .name _ => True
  | .symbol s => s = .leftParen ∨ s = .minus
  | .keyword k => k = .trueKw ∨ k = .falseKw ∨ k = .noneKw
  | _ => False

/-- A token that stands behind a whole expression. -/
def closes : Token → Bool
  | .symbol .rightParen | .symbol .comma | .symbol .colon | .symbol .equal | .newline => true
  | _ => false

theorem endsExpr_of_closes {t : Token} (ht : t.closes = true) : Parser.EndsExpr t := by
  unfold closes at ht
  split at ht <;> first | exact ⟨⟨⟨⟨nofun, nofun⟩, rfl⟩, rfl⟩, rfl⟩ | cases ht

end Token

theorem Literal.tokens_of_nonneg {n : Int32} (hn : 0 ≤ n.toInt) :
    (Literal.number n).tokens = [.int n.toInt.toNat] :=
  if_neg (Int.not_lt.2 hn)

theorem Literal.tokens_minValue :
    (Literal.number Int32.minValue).tokens = [.symbol .minus, .int (Parser.maxLiteral + 1)] := by
  decide

theorem toNat_le_maxLiteral (n : Int32) : n.toInt.toNat ≤ Parser.maxLiteral := by
  have hlt := n.toInt_lt
  unfold Parser.maxLiteral
  omega

theorem ofNat_toNat {n : Int32} (hn : 0 ≤ n.toInt) : Int32.ofNat n.toInt.toNat = n := by
  rw [← Int32.ofInt_eq_ofNat, Int.toNat_of_nonneg hn, Int32.ofInt_toInt]

theorem Expr.Written.leads {e : Expr} (h : e.Written) : ∃ t ts, e.tokens = t :: ts ∧ t.Leads := by
  cases h with
  | @literal _ v hv =>
    cases v with
    | number n =>
      obtain hn | rfl := hv n rfl
      · exact ⟨_, _, Literal.tokens_of_nonneg hn, toNat_le_maxLiteral n⟩
      · exact ⟨_, _, Literal.tokens_minValue, .inr rfl⟩
    | bool b => cases b <;> exact ⟨_, _, rfl, by simp [Token.Leads]⟩
    | none => exact ⟨_, _, rfl, by simp [Token.Leads]⟩
  | name hx => exact ⟨_, _, rfl, trivial⟩
  | unary _ => exact ⟨_, _, rfl, .inl rfl⟩
  | binary _ _ => exact ⟨_, _, rfl, .inl rfl⟩
  | call _ _ => exact ⟨_, _, rfl, trivial⟩
  | field _ _ => exact ⟨_, _, rfl, .inl rfl⟩
  | method _ _ _ => exact ⟨_, _, rfl, .inl rfl⟩

/-- What an expression starts with. -/
theorem Parser.reads_peek_written {e : Expr} (hw : e.Written) (s : List Token) :
    Reads peek (e.tokens ++ s) (e.tokens ++ s) Token.Leads := by
  obtain ⟨t, ts, hts, ht⟩ := hw.leads
  rw [hts]
  exact (reads_peek t _).imp fun _ hv => hv ▸ ht

/-! ### Written expressions in the grammar -/

namespace Derives

variable {ts : List Token} {e : Expr}

theorem toSum (h : Derives .factor ts e) : Derives .sum ts e := .ofTerm (.ofFactor h)

theorem toExpr (h : Derives .factor ts e) : Derives .expr ts e := .ofComparison (.ofSum h.toSum)

theorem toFactor (h : Derives .atom ts e) : Derives .factor ts e := .ofAccess (.ofAtom h)

end Derives

theorem Literal.Plain.derives {v : Literal} (hv : v.Plain) (span : Span) :
    Derives .factor v.tokens (Expr.literal { span } v).bare := by
  cases v with
  | number n =>
    obtain hn | rfl := hv n rfl
    · have hint := Derives.int (Nat.lt_succ_of_le (toNat_le_maxLiteral n))
      rw [ofNat_toNat hn] at hint
      rw [Literal.tokens_of_nonneg hn]
      exact hint.toFactor
    · rw [Literal.tokens_minValue]
      exact .smallest
  | bool b =>
    cases b
    · exact (Derives.bool false).toFactor
    · exact (Derives.bool true).toFactor
  | none => exact Derives.none.toFactor

theorem derives_unary {op : UnaryOp} {ts : List Token} {e : Expr} (h : Derives .factor ts e) :
    Derives .expr (op.token :: ts) (.unary { span := default } op e) := by
  cases op with
  | neg => exact (Derives.sign h).toExpr
  | not => exact .negation h.toExpr

theorem derives_binary {op : BinaryOp} {ls rs : List Token} {l r : Expr}
    (hl : Derives .factor ls l) (hr : Derives .factor rs r) :
    Derives .expr (ls ++ op.token :: rs) (.binary { span := default } op l r) := by
  have hlevel : op.precedence = .comparison ∨ op.precedence = .sum ∨ op.precedence = .term := by
    cases op <;> decide
  obtain hop | hop | hop := hlevel
  · exact .ofComparison (.comparison hop hl.toSum hr.toSum)
  · exact .ofComparison (.ofSum (.sum hop hl.toSum (.ofFactor hr)))
  · exact .ofComparison (.ofSum (.ofTerm (.term hop (.ofFactor hl) hr)))

/-- The tokens of a written expression are a phrase that is this expression. -/
theorem Expr.Written.derives {e : Expr} (h : e.Written) : Derives .factor e.tokens e.bare := by
  induction h with
  | literal hv => exact hv.derives _
  | @name _ x _ => exact (Derives.name x).toFactor
  | unary _ ih => exact (Derives.brackets (derives_unary ih)).toFactor
  | binary _ _ ihl ihr => exact (Derives.brackets (derives_binary ihl ihr)).toFactor
  | @call _ f args _ _ ih =>
    have hargs : ∀ a ∈ args.map fun a => (a.tokens, a.bare), Derives .expr a.1 a.2 := by
      simpa using fun a ha => (ih a ha).toExpr
    have hcall := Derives.call (x := f.name) hargs
    simp only [List.map_map, Function.comp_def] at hcall
    rw [Expr.tokens, Expr.bare, Expr.listTokens_eq, Expr.listBare_eq]
    exact hcall.toFactor
  | field _ _ ih => exact .ofAccess (.field (.ofAtom (.brackets ih.toExpr)))
  | @method _ object m args _ _ _ ih ihargs =>
    have hargs : ∀ a ∈ args.map fun a => (a.tokens, a.bare), Derives .expr a.1 a.2 := by
      simpa using fun a ha => (ihargs a ha).toExpr
    have hmethod := Derives.method (x := m.name) (.ofAtom (.brackets ih.toExpr)) hargs
    simp only [List.map_map, Function.comp_def] at hmethod
    rw [Expr.tokens, Expr.bare, Expr.listTokens_eq, Expr.listBare_eq]
    exact .ofAccess hmethod

/-- The tokens of an expression are read as the expression. -/
theorem Expr.Written.reads {e : Expr} (h : e.Written) {t : Token} {ts : List Token}
    (ht : t.closes = true) :
    Parser.Reads Parser.expr (e.tokens ++ t :: ts) (t :: ts) (·.bare = e.bare) :=
  h.derives.toExpr.reads (Token.endsExpr_of_closes ht)

end ObjLang
