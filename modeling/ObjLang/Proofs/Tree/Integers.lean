import ObjLang.Proofs.Tree.Grammar

/-!
# ObjLang.Proofs.Tree.Integers — integers at the limits of words

An integer without a sign is read up to `2147483647`, behind a minus up to `2147483648`.  The tree has
exactly the integer that is written; a larger one is refused at its place.  This holds for the first
value of a variable and for an operand of any level.
-/

namespace ObjLang

/-! ### Integers in trees -/

/-- The largest magnitude of an integer. -/
def intLimit (negative : Bool) : Nat := if negative then 2147483648 else 2147483647

/-- The integer with a magnitude and a sign. -/
def signedInt (negative : Bool) (n : Nat) : Int := if negative then -n else n

/-- The tokens of an integer. -/
def intTokens (negative : Bool) (n : Nat) : List Token :=
  if negative then [.symbol .minus, .int n] else [.int n]

/-- A first value whose word, which code puts into the variable, is an integer. -/
def Literal.IsInt (l : Literal) (z : Int) : Prop := l.ty = .int ∧ l.word.toInt = z

/-- An expression that is written as an integer: a literal, or a literal that is not negative behind a
sign. -/
inductive Expr.IsInt : Expr → Int → Prop
  | number (i : ExprInfo) (v : Int32) : Expr.IsInt (.literal i (.number v)) v.toInt
  | negative (i j : ExprInfo) (v : Int32) (h : 0 ≤ v.toInt) :
    Expr.IsInt (.unary i .neg (.literal j (.number v))) (-v.toInt)

theorem toInt_ofNat {n : Nat} (h : n ≤ 2147483647) : (Int32.ofNat n).toInt = n :=
  Int32.toInt_ofNat_of_lt (by omega)

namespace Parser

variable {α β : Type}

/-! ### Failing at a place -/

/-- Where the tokens ahead are `before`, the parser fails at the place of the one with number `i`. -/
def Refuses (p : Parser α) (before : List Token) (i : Nat) (cause : ParseError.Cause) : Prop :=
  ∀ c : Cursor, c.tokens = before →
    ∃ l, (c.current :: c.ahead)[i]? = some l ∧ p c = .error ⟨cause, l.span⟩

namespace Refuses

variable {s : List Token} {t : Token} {i : Nat} {cause : ParseError.Cause}

theorem bind {p : Parser α} (h : Refuses p s i cause) (f : α → Parser β) :
    Refuses (p >>= f) s i cause := by
  intro c hc
  obtain ⟨l, hl, herror⟩ := h c hc
  exact ⟨l, hl, bind_eq_error.2 (.inl herror)⟩

theorem get {f : Cursor → Parser β} (h : ∀ c : Cursor, c.tokens = s → Refuses (f c) s i cause) :
    Refuses (MonadState.get >>= f) s i cause :=
  fun c hc => h c hc c hc

theorem peek {f : Token → Parser β} (h : Refuses (f t) (t :: s) i cause) :
    Refuses (Parser.peek >>= f) (t :: s) i cause := by
  refine .get fun c hc => ?_
  rw [current_eq hc]
  exact h

theorem advance {f : Span → Parser β} (ht : t ≠ .eof) (hs : s ≠ [])
    (h : ∀ span, Refuses (f span) s i cause) :
    Refuses (Parser.advance >>= f) (t :: s) (i + 1) cause := by
  intro c hc
  obtain ⟨hcurrent, hahead⟩ := List.cons.inj hc
  have hnext : c.next.current :: c.next.ahead = c.ahead := by
    unfold Cursor.next
    rw [if_neg (by rw [hcurrent]; exact ht)]
    cases hcs : c.ahead with
    | nil =>
      rw [hcs, List.map_nil] at hahead
      exact absurd hahead.symm hs
    | cons l ls => rfl
  obtain ⟨l, hl, herror⟩ := h c.current.span c.next (by rw [Cursor.tokens, hnext, hahead])
  exact ⟨l, by rwa [hnext] at hl, herror⟩

theorem eat {f : Bool → Parser β} (ht : t ≠ .eof) (hs : s ≠ []) (h : Refuses (f true) s i cause) :
    Refuses (Parser.eat t >>= f) (t :: s) (i + 1) cause := by
  rw [Parser.eat, bind_assoc]
  refine .peek ?_
  rw [if_pos rfl, bind_assoc]
  exact .advance ht hs fun _ => h

theorem eat_of_ne {f : Bool → Parser β} {u : Token} (hne : u ≠ t)
    (h : Refuses (f false) (u :: s) i cause) : Refuses (Parser.eat t >>= f) (u :: s) i cause := by
  rw [Parser.eat, bind_assoc]
  refine .peek ?_
  rw [if_neg hne]
  exact h

end Refuses

variable {n k : Nat} {t : Token} {us : List Token}

theorem toInt_ofInt {z : Int} (h : -2147483648 ≤ z ∧ z ≤ 2147483647) : (Int32.ofInt z).toInt = z := by
  exact Int32.toInt_ofInt_of_le h.1 (by omega)

/-! ### The first value of a variable -/

theorem signedInt_bounds {negative : Bool} :
    Int32.minValue.toInt ≤ signedInt negative n ∧ signedInt negative n ≤ Int32.maxValue.toInt ↔
      n ≤ intLimit negative := by
  rw [show Int32.minValue.toInt = -2147483648 from rfl, show Int32.maxValue.toInt = 2147483647 from rfl]
  cases negative with
  | false =>
    simp only [signedInt, intLimit, Bool.false_eq_true, if_false]
    omega
  | true =>
    simp only [signedInt, intLimit, if_true]
    omega

/-- The integer that a variable starts with, behind its sign. -/
def initInt (negative : Bool) (n : Nat) (span : Span) : Parser Literal := do
  let _ ← advance
  if Int32.minValue.toInt ≤ signedInt negative n ∧ signedInt negative n ≤ Int32.maxValue.toInt then
    return .number (Int32.ofInt (signedInt negative n))
  else
    failAt span (.wideInt (signedInt negative n))

theorem reads_initInt {negative : Bool} (hn : n ≤ intLimit negative) (span : Span) :
    Reads (initInt negative n span) (.int n :: t :: us) (t :: us)
      (·.IsInt (signedInt negative n)) := by
  have hbounds := signedInt_bounds.2 hn
  refine (reads_advance (by simp) (by simp)).bind fun _ _ => ?_
  rw [if_pos hbounds]
  exact .pure ⟨rfl, toInt_ofInt hbounds⟩

theorem refuses_initInt {negative : Bool} (hn : intLimit negative < n) :
    Refuses (here >>= initInt negative n) (.int n :: t :: us) 0
      (.wideInt (signedInt negative n)) := by
  intro c hc
  have hbounds := mt signedInt_bounds.1 (Nat.not_le.2 hn)
  refine ⟨c.current, rfl, bind_eq_error.2 (.inr ⟨c.current.span, c, rfl, bind_eq_error.2 (.inr
    ⟨c.current.span, c.next, rfl, ?_⟩)⟩)⟩
  rw [if_neg hbounds]
  rfl

theorem reads_literalInit_int {negative : Bool} (hn : n ≤ intLimit negative) :
    Reads literalInit (intTokens negative n ++ t :: us) (t :: us)
      (·.IsInt (signedInt negative n)) := by
  cases negative with
  | false =>
    refine .eat_of_ne (by simp) (.peek ((reads_here _).bind fun span _ => ?_))
    exact reads_initInt hn span
  | true =>
    refine .eat (by simp) (by simp) (.peek ((reads_here _).bind fun span _ => ?_))
    exact reads_initInt hn span

theorem refuses_literalInit_int {negative : Bool} (hn : intLimit negative < n) :
    Refuses literalInit (intTokens negative n ++ t :: us) negative.toNat
      (.wideInt (signedInt negative n)) := by
  cases negative with
  | false => exact .eat_of_ne (by simp) (.peek (refuses_initInt hn))
  | true => exact .eat (by simp) (by simp) (.peek (refuses_initInt hn))

/-! ### Operands -/

/-- The reader of the phrases of a level, where brackets are at most `k` deep. -/
def readerOf (k : Nat) : Precedence → Parser Expr
  | .expr => exprUpTo (k + 1)
  | .comparison => compared (sumOf k)
  | .sum => sumOf k
  | .term => termOf k
  | .factor => factorOf k
  | .access => accesses (exprUpTo k)
  | .atom => atom (exprUpTo k)

/-- A token that does not go on with a phrase of a level. -/
def EndsLevel : Precedence → Token → Prop
  | .expr, t | .comparison, t => EndsExpr t
  | .sum, t => EndsSum t
  | .term, t => EndsTerm t
  | .factor, t | .access, t => EndsFactor t
  | .atom, _ => True

/-- The levels at which an integer can stand: signs are no part of accesses. -/
def TakesInt (negative : Bool) (level : Precedence) : Prop :=
  negative = true → level ≠ .access ∧ level ≠ .atom

section

variable {negative : Bool} {inner operand : Parser Expr} {z : Int} {ts : List Token}

theorem reads_atom_int (hn : n ≤ maxLiteral) : Reads (atom inner) (.int n :: t :: us) (t :: us)
    fun e => ∃ i v, e = .literal i (.number v) ∧ v.toInt = n := by
  refine .peek ((reads_advance (by simp) (by simp)).bind fun span _ => ?_)
  rw [if_pos hn]
  exact .pure ⟨{ span }, Int32.ofNat n, rfl, toInt_ofNat hn⟩

theorem refuses_atom_int (hn : maxLiteral < n) :
    Refuses (atom inner) (.int n :: t :: us) 0 (.wideInt n) := by
  refine .peek fun c hc => ⟨c.current, rfl, bind_eq_error.2 (.inr ⟨c.current.span, c.next, rfl, ?_⟩)⟩
  rw [if_neg (Nat.not_le.2 hn)]
  rfl

theorem reads_accesses_int (hn : n ≤ maxLiteral) (ht : EndsFactor t) :
    Reads (accesses inner) (.int n :: t :: us) (t :: us)
      fun e => ∃ i v, e = .literal i (.number v) ∧ v.toInt = n := by
  refine (reads_atom_int hn).bind fun a ha => ?_
  refine (reads_foldMore_none (reads_access?_none ht.1 a)).bind fun b hb => .peek ?_
  rw [if_neg ht.2]
  exact .pure (hb ▸ ha)

theorem refuses_accesses_int (hn : maxLiteral < n) :
    Refuses (accesses inner) (.int n :: t :: us) 0 (.wideInt n) :=
  (refuses_atom_int hn).bind _

theorem isInt_of_literal {e : Expr} {z : Int} (h : ∃ i v, e = .literal i (.number v) ∧ v.toInt = z) :
    e.IsInt z := by
  obtain ⟨i, v, rfl, rfl⟩ := h
  exact .number i v

theorem reads_factorOf (hn : n ≤ intLimit negative) (ht : EndsFactor t) :
    Reads (factorOf k) (intTokens negative n ++ t :: us) (t :: us)
      (·.IsInt (signedInt negative n)) := by
  refine .get fun c hc => ?_
  cases negative with
  | false =>
    refine .peek ?_
    rw [if_neg (by simp)]
    exact (reads_accesses_int hn ht).imp fun _ => isInt_of_literal
  | true =>
    refine .peek ?_
    rw [if_pos rfl]
    refine (reads_advance (by simp) (by simp)).bind fun start _ => .peek ?_
    by_cases hmin : n = maxLiteral + 1
    · subst hmin
      rw [if_pos rfl]
      exact (reads_advance (by simp) (by simp)).bind fun stop _ =>
        .pure (.number { span := start.merge stop } Int32.minValue)
    · have hle : n ≤ maxLiteral := Nat.le_of_lt_succ (Nat.lt_of_le_of_ne hn hmin)
      have hoperand : Reads (signsUpTo (accesses (exprUpTo k)) (c.left + 1)) (.int n :: t :: us)
          (t :: us) fun e => ∃ i v, e = .literal i (.number v) ∧ v.toInt = n := by
        refine .peek ?_
        rw [if_neg (by simp)]
        exact reads_accesses_int hle ht
      rw [if_neg (by simpa using hmin)]
      refine hoperand.bind fun a ha => .pure ?_
      obtain ⟨j, v, rfl, hv⟩ := ha
      have hint := Expr.IsInt.negative { span := start.merge j.span } j v (by rw [hv]; omega)
      rwa [hv] at hint

theorem refuses_factorOf (hn : intLimit negative < n) :
    Refuses (factorOf k) (intTokens negative n ++ t :: us) negative.toNat (.wideInt n) := by
  refine .get fun c hc => ?_
  cases negative with
  | false =>
    refine .peek ?_
    rw [if_neg (by simp)]
    exact refuses_accesses_int hn
  | true =>
    refine .peek ?_
    rw [if_pos rfl]
    refine .advance (by simp) (by simp) fun start => .peek ?_
    have hmin : n ≠ maxLiteral + 1 := Nat.ne_of_gt hn
    have hlt : maxLiteral < n := Nat.lt_trans (Nat.lt_succ_self _) hn
    rw [if_neg (by simpa using hmin)]
    refine Refuses.bind ?_ _
    refine .peek ?_
    rw [if_neg (by simp)]
    exact refuses_accesses_int hlt

theorem reads_leftChain {op? : Token → Option BinaryOp} {Q : Expr → Prop}
    (h : Reads operand ts (t :: us) Q) (ht : op? t = none) :
    Reads (leftChain op? operand) ts (t :: us) Q :=
  h.bind fun a ha => (reads_foldMore_none (reads_joins_none ht a)).imp fun _ hb => hb ▸ ha

theorem reads_compared {Q : Expr → Prop} (h : Reads operand ts (t :: us) Q)
    (ht : comparison? t = none) : Reads (compared operand) ts (t :: us) Q := by
  refine h.bind fun a ha => .peek ?_
  rw [ht]
  exact .pure ha

theorem intTokens_ne_not (negative : Bool) (n : Nat) (rest : List Token) : ∃ u vs, intTokens negative n ++ rest = u :: vs ∧
    u ≠ .keyword .notKw := by
  cases negative with
  | false => exact ⟨_, _, rfl, by simp⟩
  | true => exact ⟨_, _, rfl, by simp⟩

/-- An integer within the limits is read as an operand of any level. -/
theorem reads_int {level : Precedence} (hlevel : TakesInt negative level)
    (hn : n ≤ intLimit negative) (ht : EndsLevel level t) :
    Reads (readerOf k level) (intTokens negative n ++ t :: us) (t :: us)
      (·.IsInt (signedInt negative n)) := by
  have hsum (h : EndsSum t) : Reads (sumOf k) (intTokens negative n ++ t :: us) (t :: us)
      (·.IsInt (signedInt negative n)) :=
    reads_leftChain (reads_leftChain (reads_factorOf hn h.1.1) h.1.2) h.2
  cases level with
  | expr =>
    rw [readerOf, exprUpTo_succ]
    refine .get fun c hc => ?_
    have hcompared := reads_compared (hsum ht.1) ht.2
    obtain ⟨u, vs, hts, hu⟩ := intTokens_ne_not negative n (t :: us)
    rw [hts] at hcompared ⊢
    refine .peek ?_
    rw [if_neg hu]
    exact hcompared
  | comparison => exact reads_compared (hsum ht.1) ht.2
  | sum => exact hsum ht
  | term => exact reads_leftChain (reads_factorOf hn ht.1) ht.2
  | factor => exact reads_factorOf hn ht
  | access =>
    obtain rfl : negative = false := Bool.eq_false_iff.2 fun h => (hlevel h).1 rfl
    exact (reads_accesses_int hn ht).imp fun _ => isInt_of_literal
  | atom =>
    obtain rfl : negative = false := Bool.eq_false_iff.2 fun h => (hlevel h).2 rfl
    exact (reads_atom_int hn).imp fun _ => isInt_of_literal

/-- A larger integer is refused at its place. -/
theorem refuses_int {level : Precedence} (hlevel : TakesInt negative level)
    (hn : intLimit negative < n) :
    Refuses (readerOf k level) (intTokens negative n ++ t :: us) negative.toNat (.wideInt n) := by
  have hsum : Refuses (sumOf k) (intTokens negative n ++ t :: us) negative.toNat (.wideInt n) :=
    ((refuses_factorOf hn).bind _).bind _
  cases level with
  | expr =>
    rw [readerOf, exprUpTo_succ]
    refine .get fun c hc => ?_
    obtain ⟨u, vs, hts, hu⟩ := intTokens_ne_not negative n (t :: us)
    rw [hts] at hsum ⊢
    refine .peek ?_
    rw [if_neg hu]
    exact hsum.bind _
  | comparison => exact hsum.bind _
  | sum => exact hsum
  | term => exact (refuses_factorOf hn).bind _
  | factor => exact refuses_factorOf hn
  | access =>
    obtain rfl : negative = false := Bool.eq_false_iff.2 fun h => (hlevel h).1 rfl
    exact refuses_accesses_int hn
  | atom =>
    obtain rfl : negative = false := Bool.eq_false_iff.2 fun h => (hlevel h).2 rfl
    exact refuses_atom_int hn

end

end Parser

end ObjLang
