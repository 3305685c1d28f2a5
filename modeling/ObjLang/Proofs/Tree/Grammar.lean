import Mathlib.Algebra.Group.Nat.Defs
import ObjLang.Proofs.Tree.Reread

/-!
# ObjLang.Proofs.Tree.Grammar — the grammar of expressions

The grammar is a relation between a level of precedence, a list of tokens and a tree without places.
It says nothing of how the tokens are read: chains of `+` and `*` are given by left recursion, and every
phrase of a level is also one of all looser levels.

What is derived is read: in front of any token that does not go on with the phrase, the reader of the
level takes exactly the tokens of the phrase and gives its tree.
-/

namespace ObjLang

open Token (separated bracketed)

/-! ### The grammar -/

/-- The levels of precedence, loosest first. -/
inductive Precedence where
  | expr
  | comparison
  | sum
  | term
  | factor
  | access
  | atom
deriving DecidableEq

/-- The level of the phrases that an operator makes. -/
def BinaryOp.precedence : BinaryOp → Precedence
  | .eq | .ne | .lt | .gt | .le | .ge | .is => .comparison
  | .add | .sub => .sum
  | .mul | .floorDiv | .mod => .term

/-- The expression that a list of tokens is, as a phrase of a level. -/
inductive Derives : Precedence → List Token → Expr → Prop
  -- `not` stands before an expression, which may start with `not` again
  | negation {ts : List Token} {e : Expr} (he : Derives .expr ts e) :
    Derives .expr (UnaryOp.not.token :: ts) (.unary { span := default } .not e)
  | ofComparison {ts : List Token} {e : Expr} (he : Derives .comparison ts e) : Derives .expr ts e
  -- one comparison of two sums
  | comparison {op : BinaryOp} {ls rs : List Token} {l r : Expr} (hop : op.precedence = .comparison)
    (hl : Derives .sum ls l) (hr : Derives .sum rs r) :
    Derives .comparison (ls ++ op.token :: rs) (.binary { span := default } op l r)
  | ofSum {ts : List Token} {e : Expr} (he : Derives .sum ts e) : Derives .comparison ts e
  -- sums and products are chained to the left
  | sum {op : BinaryOp} {ls rs : List Token} {l r : Expr} (hop : op.precedence = .sum)
    (hl : Derives .sum ls l) (hr : Derives .term rs r) :
    Derives .sum (ls ++ op.token :: rs) (.binary { span := default } op l r)
  | ofTerm {ts : List Token} {e : Expr} (he : Derives .term ts e) : Derives .sum ts e
  | term {op : BinaryOp} {ls rs : List Token} {l r : Expr} (hop : op.precedence = .term)
    (hl : Derives .term ls l) (hr : Derives .factor rs r) :
    Derives .term (ls ++ op.token :: rs) (.binary { span := default } op l r)
  | ofFactor {ts : List Token} {e : Expr} (he : Derives .factor ts e) : Derives .term ts e
  -- signs, and the one literal that needs its sign
  | sign {ts : List Token} {e : Expr} (he : Derives .factor ts e) :
    Derives .factor (UnaryOp.neg.token :: ts) (.unary { span := default } .neg e)
  | smallest : Derives .factor [.symbol .minus, .int (2 ^ 31)]
    (.literal { span := default } (.number Int32.minValue))
  | ofAccess {ts : List Token} {e : Expr} (he : Derives .access ts e) : Derives .factor ts e
  -- fields and methods of an object
  | field {ts : List Token} {o : Expr} {x : String} (ho : Derives .access ts o) :
    Derives .access (ts ++ [.symbol .dot, .name x]) (.field { span := default } o ⟨x, default⟩)
  | method {ts : List Token} {o : Expr} {x : String} {args : List (List Token × Expr)}
    (ho : Derives .access ts o) (hargs : ∀ a ∈ args, Derives .expr a.1 a.2) :
    Derives .access (ts ++ .symbol .dot :: .name x :: bracketed (separated (args.map Prod.fst)))
      (.method { span := default } o ⟨x, default⟩ (args.map Prod.snd))
  | ofAtom {ts : List Token} {e : Expr} (he : Derives .atom ts e) : Derives .access ts e
  | int {n : Nat} (hn : n < 2 ^ 31) :
    Derives .atom [.int n] (.literal { span := default } (.number (Int32.ofNat n)))
  | bool (b : Bool) : Derives .atom [.keyword (if b then .trueKw else .falseKw)]
    (.literal { span := default } (.bool b))
  | none : Derives .atom [.keyword .noneKw] (.literal { span := default } .none)
  | name (x : String) : Derives .atom [.name x] (.name { span := default } x none)
  -- only a plain name can be called
  | call {x : String} {args : List (List Token × Expr)}
    (hargs : ∀ a ∈ args, Derives .expr a.1 a.2) :
    Derives .atom (.name x :: bracketed (separated (args.map Prod.fst)))
      (.call { span := default } ⟨x, default⟩ (args.map Prod.snd) none)
  | brackets {ts : List Token} {e : Expr} (he : Derives .expr ts e) : Derives .atom (bracketed ts) e

/-! ### First tokens -/

/-- A token that phrases of a level start with. -/
def Token.Begins (level : Precedence) : Token → Prop
  | .int n => n < 2 ^ 31
  | .name _ | .symbol .leftParen => True
  | .keyword k => k = .trueKw ∨ k = .falseKw ∨ k = .noneKw ∨ (k = .notKw ∧ level = .expr)
  | .symbol .minus => level ≠ .access ∧ level ≠ .atom
  | _ => False

/-- What starts a phrase starts one of any level that is not tighter than signs. -/
theorem Token.Begins.loosen {l₁ l₂ : Precedence} {t : Token} (h : t.Begins l₁) (h₁ : l₁ ≠ .expr)
    (h₂ : l₂ ≠ .access ∧ l₂ ≠ .atom) : t.Begins l₂ := by
  unfold Token.Begins at h ⊢
  split
  · exact h
  · trivial
  · trivial
  · obtain h | h | h | ⟨-, h⟩ := h
    · exact .inl h
    · exact .inr (.inl h)
    · exact .inr (.inr (.inl h))
    · exact absurd h h₁
  · exact h₂
  · simp_all

/-- Every phrase starts with a token of its level. -/
theorem Derives.begins {level : Precedence} {ts : List Token} {e : Expr} (h : Derives level ts e) :
    ∃ t us, ts = t :: us ∧ t.Begins level := by
  induction h with
  | negation => exact ⟨_, _, rfl, .inr (.inr (.inr ⟨rfl, rfl⟩))⟩
  | sign => exact ⟨_, _, rfl, nofun, nofun⟩
  | smallest => exact ⟨_, _, rfl, nofun, nofun⟩
  | ofComparison _ ih | ofSum _ ih | ofTerm _ ih | ofFactor _ ih | ofAccess _ ih =>
    obtain ⟨t, us, hts, ht⟩ := ih
    exact ⟨t, us, hts, ht.loosen nofun ⟨nofun, nofun⟩⟩
  | ofAtom _ ih =>
    obtain ⟨t, us, hts, ht⟩ := ih
    refine ⟨t, us, hts, ?_⟩
    unfold Token.Begins at ht ⊢
    split <;> simp_all
  | comparison _ _ _ ih _ =>
    obtain ⟨t, us, rfl, ht⟩ := ih
    exact ⟨t, _, rfl, ht.loosen nofun ⟨nofun, nofun⟩⟩
  | sum _ _ _ ih _ | term _ _ _ ih _ | field _ ih | method _ _ ih _ =>
    obtain ⟨t, us, rfl, ht⟩ := ih
    exact ⟨t, _, rfl, ht⟩
  | int hn => exact ⟨_, _, rfl, hn⟩
  | bool b =>
    cases b
    · exact ⟨_, _, rfl, .inr (.inl rfl)⟩
    · exact ⟨_, _, rfl, .inl rfl⟩
  | none => exact ⟨_, _, rfl, .inr (.inr (.inl rfl))⟩
  | name => exact ⟨_, _, rfl, trivial⟩
  | call => exact ⟨_, _, rfl, trivial⟩
  | brackets => exact ⟨_, _, rfl, trivial⟩

theorem Derives.length_pos {level : Precedence} {ts : List Token} {e : Expr} (h : Derives level ts e) :
    0 < ts.length := by
  obtain ⟨t, us, rfl, -⟩ := h.begins
  exact Nat.zero_lt_succ _

namespace Parser

/-! ### The readers of the levels -/

/-- An operand with its signs, where brackets are at most `n` deep. -/
def factorOf (n : Nat) : Parser Expr := do
  signsUpTo (accesses (exprUpTo n)) ((← get).left + 2)

/-- A product of such operands. -/
def termOf (n : Nat) : Parser Expr := leftChain multiplicative? (factorOf n)

/-- A sum of such products. -/
def sumOf (n : Nat) : Parser Expr := leftChain additive? (termOf n)

theorem exprUpTo_succ (n : Nat) :
    exprUpTo (n + 1) = (get >>= fun c => negatedUpTo (compared (sumOf n)) (c.left + 2)) := rfl

theorem binaryOp_token_ne (op : BinaryOp) :
    op.token ≠ .symbol .dot ∧ op.token ≠ .symbol .leftParen ∧ op.token ≠ .eof := by
  cases op <;> decide

/-! ### Chains -/

section

variable {α : Type} {more : α → Parser (Option α)}

/-- A repetition that has ended does not need its bound. -/
theorem foldMoreUpTo_le {m n : Nat} (hmn : m ≤ n) {a : α} {c : Cursor} {r : α × Cursor}
    (h : foldMoreUpTo more m a c = .ok r) : foldMoreUpTo more n a c = .ok r := by
  induction m generalizing n a c with
  | zero =>
    obtain ⟨span, c', -, hthrow⟩ := bind_eq_ok.1 h
    exact (throw_eq_ok.1 hthrow).elim
  | succ m ih =>
    obtain ⟨n, rfl⟩ := Nat.exists_eq_add_of_le' (Nat.le_trans (Nat.le_add_left 1 m) hmn)
    obtain ⟨o, c', hstep, hrest⟩ := bind_eq_ok.1 h
    refine bind_eq_ok.2 ⟨o, c', hstep, ?_⟩
    cases o with
    | none => exact hrest
    | some b => exact ih (Nat.le_of_succ_le_succ hmn) hrest

/-- A repetition goes one step and on from there. -/
theorem reads_foldMore {a : α} {s t u : List Token} {Q R : α → Prop}
    (h : Reads (more a) s t fun o => ∃ b, o = some b ∧ Q b) (hts : t.length < s.length)
    (hmore : ∀ b, Q b → Reads (foldMore more b) t u R) : Reads (foldMore more a) s u R := by
  intro c hc
  obtain ⟨o, c₁, hstep, hc₁, b, rfl, hb⟩ := h c hc
  obtain ⟨r, c₂, hrest, hc₂, hr⟩ := hmore b hb c₁ hc₁
  obtain ⟨c', c'', hget, hfold⟩ := bind_eq_ok.1 hrest
  obtain ⟨rfl, rfl⟩ := Prod.mk.inj (get_eq_ok.1 hget)
  have hleft := left_eq hc
  have hleft₁ := left_eq hc₁
  refine ⟨r, c₂, bind_eq_ok.2 ⟨c, c, rfl, bind_eq_ok.2 ⟨_, _, hstep, ?_⟩⟩, hc₂, hr⟩
  exact foldMoreUpTo_le (by omega) hfold

end

/-- One more operator and operand on the right of a chain. -/
def joins (op? : Token → Option BinaryOp) (operand : Parser Expr) (left : Expr) :
    Parser (Option Expr) := do
  match op? (← peek) with
  | some op =>
    let _ ← advance
    return some (joined op left (← operand))
  | none => return none

theorem leftChain_eq (op? : Token → Option BinaryOp) (operand : Parser Expr) :
    leftChain op? operand = operand >>= foldMore (joins op? operand) := rfl

section

variable {op? : Token → Option BinaryOp} {operand : Parser Expr} {op : BinaryOp} {l r : Expr}
  {t : Token} {rs us vs : List Token} {Q : Expr → Prop}

theorem reads_joins_none (ht : op? t = none) (e : Expr) :
    Reads (joins op? operand e) (t :: us) (t :: us) (· = none) := by
  refine .peek ?_
  rw [ht]
  exact .pure rfl

theorem reads_joins {a : Expr} (ha : a.bare = l) (hop : op? op.token = some op) (hrs : rs ≠ [])
    (hr : Reads operand (rs ++ us) us (·.bare = r)) :
    Reads (joins op? operand a) (op.token :: (rs ++ us)) us
      fun o => ∃ b, o = some b ∧ b.bare = .binary { span := default } op l r := by
  refine .peek ?_
  rw [hop]
  have hne : rs ++ us ≠ [] := List.append_ne_nil_of_left_ne_nil hrs us
  refine (reads_advance (binaryOp_token_ne op).2.2 hne).bind fun _ _ => hr.bind fun b hb => .pure ⟨_, rfl, ?_⟩
  rw [joined, Expr.bare, ha, hb]
  rfl

/-- A chain that is read up to an operator is read with the operand behind it. -/
theorem reads_chain (hop : op? op.token = some op) (hrs : rs ≠ [])
    (hr : Reads operand (rs ++ us) us (·.bare = r))
    (hmore : ∀ a, a.bare = .binary { span := default } op l r →
      Reads (foldMore (joins op? operand) a) us vs Q) (a : Expr) (ha : a.bare = l) :
    Reads (foldMore (joins op? operand) a) (op.token :: (rs ++ us)) vs Q := by
  refine reads_foldMore (reads_joins ha hop hrs hr) ?_ hmore
  rw [List.length_cons, List.length_append]
  omega

end

/-! ### What is derived is read -/

/-- A token that does not go on with a phrase of accesses. -/
def EndsFactor (t : Token) : Prop := t ≠ .symbol .dot ∧ t ≠ .symbol .leftParen

/-- A token that does not go on with a product. -/
def EndsTerm (t : Token) : Prop := EndsFactor t ∧ multiplicative? t = none

/-- A token that does not go on with a sum. -/
def EndsSum (t : Token) : Prop := EndsTerm t ∧ additive? t = none

/-- A token that does not go on with an expression. -/
def EndsExpr (t : Token) : Prop := EndsSum t ∧ comparison? t = none

theorem endsExpr_comma : EndsExpr (.symbol .comma) :=
  ⟨⟨⟨⟨by decide, by decide⟩, rfl⟩, rfl⟩, rfl⟩

theorem endsExpr_rightParen : EndsExpr (.symbol .rightParen) :=
  ⟨⟨⟨⟨by decide, by decide⟩, rfl⟩, rfl⟩, rfl⟩

/-- The reader of a level takes the tokens of a phrase, in front of a token that ends it.  A chain is
read up to any place where it goes on as wanted. -/
def IsRead : Precedence → List Token → Expr → Prop
  | .expr, ts, e => ∀ n m t us, ts.length ≤ n → ts.length ≤ m → EndsExpr t →
    Reads (negatedUpTo (compared (sumOf n)) m) (ts ++ t :: us) (t :: us) (·.bare = e)
  | .comparison, ts, e => ∀ n t us, ts.length ≤ n → EndsExpr t →
    Reads (compared (sumOf n)) (ts ++ t :: us) (t :: us) (·.bare = e)
  | .sum, ts, e => ∀ n t us vs Q, ts.length ≤ n → EndsTerm t →
    (∀ a, a.bare = e → Reads (foldMore (joins additive? (termOf n)) a) (t :: us) vs Q) →
    Reads (sumOf n) (ts ++ t :: us) vs Q
  | .term, ts, e => ∀ n t us vs Q, ts.length ≤ n → EndsFactor t →
    (∀ a, a.bare = e → Reads (foldMore (joins multiplicative? (factorOf n)) a) (t :: us) vs Q) →
    Reads (termOf n) (ts ++ t :: us) vs Q
  | .factor, ts, e => ∀ n m t us, ts.length ≤ n → ts.length ≤ m → EndsFactor t →
    Reads (signsUpTo (accesses (exprUpTo n)) m) (ts ++ t :: us) (t :: us) (·.bare = e)
  | .access, ts, e => ∀ n t us vs Q, ts.length ≤ n → t ≠ .symbol .leftParen →
    (∀ a, a.bare = e → Reads (foldMore (access? (exprUpTo n)) a) (t :: us) vs Q) →
    Reads (atom (exprUpTo n) >>= foldMore (access? (exprUpTo n))) (ts ++ t :: us) vs Q
  | .atom, ts, e => ∀ n t us, ts.length ≤ n → t ≠ .symbol .leftParen →
    Reads (atom (exprUpTo n)) (ts ++ t :: us) (t :: us) (·.bare = e)

namespace IsRead

variable {level : Precedence} {ts : List Token} {e : Expr} {t : Token} {us : List Token}

theorem expr (h : IsRead .expr ts e) {n : Nat} (hn : ts.length < n) (ht : EndsExpr t) :
    Reads (exprUpTo n) (ts ++ t :: us) (t :: us) (·.bare = e) := by
  obtain ⟨n, rfl⟩ := Nat.exists_eq_add_of_le' (Nat.succ_le_of_lt (Nat.zero_lt_of_lt hn))
  rw [exprUpTo_succ]
  refine Reads.get fun c hc => h n _ t us (Nat.le_of_lt_succ hn) ?_ ht
  have hleft := left_eq hc
  rw [List.length_append, List.length_cons] at hleft
  omega

theorem term (h : IsRead .term ts e) {n : Nat} (hn : ts.length ≤ n) (ht : EndsTerm t) :
    Reads (termOf n) (ts ++ t :: us) (t :: us) (·.bare = e) :=
  h n t us _ _ hn ht.1 fun _ ha =>
    (reads_foldMore_none (reads_joins_none ht.2 _)).imp fun _ hb => hb ▸ ha

theorem sum (h : IsRead .sum ts e) {n : Nat} (hn : ts.length ≤ n) (ht : EndsSum t) :
    Reads (sumOf n) (ts ++ t :: us) (t :: us) (·.bare = e) :=
  h n t us _ _ hn ht.1 fun _ ha =>
    (reads_foldMore_none (reads_joins_none ht.2 _)).imp fun _ hb => hb ▸ ha

theorem factor (h : IsRead .factor ts e) {n : Nat} (hn : ts.length ≤ n) (ht : EndsFactor t) :
    Reads (factorOf n) (ts ++ t :: us) (t :: us) (·.bare = e) := by
  refine Reads.get fun c hc => h n _ t us hn ?_ ht
  have hleft := left_eq hc
  rw [List.length_append, List.length_cons] at hleft
  omega

end IsRead

section

variable {ts ls rs us : List Token} {t : Token} {e l r o : Expr} {n : Nat} {op : BinaryOp}
  {args : List (List Token × Expr)} {x : String}

theorem isRead_negation (h : IsRead .expr ts e) :
    IsRead .expr (UnaryOp.not.token :: ts) (.unary { span := default } .not e) := by
  intro n m t us hn hm ht
  obtain ⟨m, rfl⟩ := Nat.exists_eq_add_of_le' (Nat.le_trans (Nat.le_add_left 1 _) hm)
  refine .peek ?_
  rw [if_pos (by rfl)]
  have hne : ts ++ t :: us ≠ [] := by simp
  refine (reads_advance (by simp [UnaryOp.token]) hne).bind fun start _ => ?_
  refine (h n m t us (Nat.le_of_succ_le hn) (Nat.le_of_succ_le_succ hm) ht).bind fun a ha =>
    .pure ?_
  rw [signed, Expr.bare, ha]
  rfl

theorem isRead_ofComparison (hd : Derives .comparison ts e) (h : IsRead .comparison ts e) :
    IsRead .expr ts e := by
  intro n m t us hn hm ht
  have hread := h n t us hn ht
  obtain ⟨u, vs, rfl, hu⟩ := hd.begins
  obtain ⟨m, rfl⟩ := Nat.exists_eq_add_of_le' (Nat.le_trans (Nat.le_add_left 1 _) hm)
  refine .peek ?_
  rw [if_neg]
  · exact hread
  · rintro rfl
    simp [Token.Begins] at hu

/-- The level of an operator is that of the reader that looks for it. -/
theorem comparison?_token (h : op.precedence = .comparison) :
    comparison? op.token = some op ∧ EndsSum op.token := by
  cases op <;> first | exact ⟨rfl, ⟨⟨nofun, nofun⟩, rfl⟩, rfl⟩ | cases h

theorem additive?_token (h : op.precedence = .sum) :
    additive? op.token = some op ∧ EndsTerm op.token := by
  cases op <;> first | exact ⟨rfl, ⟨nofun, nofun⟩, rfl⟩ | cases h

theorem multiplicative?_token (h : op.precedence = .term) : multiplicative? op.token = some op := by
  cases op <;> first | rfl | cases h

theorem isRead_comparison (hop : op.precedence = .comparison) (hl : IsRead .sum ls l)
    (hr : IsRead .sum rs r) (hrs : 0 < rs.length) :
    IsRead .comparison (ls ++ op.token :: rs) (.binary { span := default } op l r) := by
  intro n t us hn ht
  rw [List.length_append, List.length_cons] at hn
  obtain ⟨hcmp, hends⟩ := comparison?_token hop
  rw [List.append_assoc, List.cons_append]
  refine (hl.sum (by omega) hends).bind fun a ha => .peek ?_
  rw [hcmp]
  have hne : rs ++ t :: us ≠ [] := by simp
  refine (reads_advance (binaryOp_token_ne op).2.2 hne).bind fun _ _ =>
    (hr.sum (by omega) ht.1).bind fun b hb => .peek ?_
  rw [ht.2, if_neg (by decide)]
  refine .pure ?_
  rw [joined, Expr.bare, ha, hb]
  rfl

theorem isRead_ofSum (h : IsRead .sum ts e) : IsRead .comparison ts e := by
  intro n t us hn ht
  refine (h.sum hn ht.1).bind fun a ha => .peek ?_
  rw [ht.2]
  exact .pure ha

theorem isRead_sum (hop : op.precedence = .sum) (hl : IsRead .sum ls l) (hr : IsRead .term rs r)
    (hrs : 0 < rs.length) :
    IsRead .sum (ls ++ op.token :: rs) (.binary { span := default } op l r) := by
  intro n t us vs Q hn ht hmore
  rw [List.length_append, List.length_cons] at hn
  obtain ⟨hadd, hends⟩ := additive?_token hop
  rw [List.append_assoc, List.cons_append]
  exact hl n op.token (rs ++ t :: us) vs Q (by omega) hends
    (reads_chain hadd (List.ne_nil_of_length_pos hrs) (hr.term (by omega) ht) hmore)

theorem isRead_ofTerm (h : IsRead .term ts e) : IsRead .sum ts e := by
  intro n t us vs Q hn ht hmore
  exact (h.term hn ht).bind hmore

theorem isRead_term (hop : op.precedence = .term) (hl : IsRead .term ls l) (hr : IsRead .factor rs r)
    (hrs : 0 < rs.length) :
    IsRead .term (ls ++ op.token :: rs) (.binary { span := default } op l r) := by
  intro n t us vs Q hn ht hmore
  rw [List.length_append, List.length_cons] at hn
  obtain ⟨hdot, hparen, -⟩ := binaryOp_token_ne op
  rw [List.append_assoc, List.cons_append]
  exact hl n op.token (rs ++ t :: us) vs Q (by omega) ⟨hdot, hparen⟩
    (reads_chain (multiplicative?_token hop) (List.ne_nil_of_length_pos hrs)
      (hr.factor (by omega) ht) hmore)

theorem isRead_ofFactor (h : IsRead .factor ts e) : IsRead .term ts e := by
  intro n t us vs Q hn ht hmore
  exact (h.factor hn ht).bind hmore

theorem isRead_sign (hd : Derives .factor ts e) (h : IsRead .factor ts e) :
    IsRead .factor (UnaryOp.neg.token :: ts) (.unary { span := default } .neg e) := by
  intro n m t us hn hm ht
  have hread := h n (m - 1) t us (Nat.le_of_succ_le hn) (Nat.le_sub_of_add_le hm) ht
  obtain ⟨u, vs, rfl, hu⟩ := hd.begins
  obtain ⟨m, rfl⟩ := Nat.exists_eq_add_of_le' (Nat.le_trans (Nat.le_add_left 1 _) hm)
  refine .peek ?_
  rw [if_pos (by rfl)]
  refine (reads_advance (by simp [UnaryOp.token]) (List.cons_ne_nil _ _)).bind fun start _ => .peek ?_
  rw [if_neg]
  · refine hread.bind fun a ha => .pure ?_
    rw [signed, Expr.bare, ha]
    rfl
  -- the literal behind this sign would make the smallest integer
  · rintro rfl
    exact absurd hu (Nat.lt_irrefl _)

theorem isRead_smallest : IsRead .factor [.symbol .minus, .int (2 ^ 31)]
    (.literal { span := default } (.number Int32.minValue)) := by
  intro n m t us _ hm _
  obtain ⟨m, rfl⟩ := Nat.exists_eq_add_of_le' (Nat.le_trans (Nat.le_add_left 1 _) hm)
  refine .peek ?_
  rw [if_pos (by rfl)]
  refine (reads_advance (by simp) (List.cons_ne_nil _ _)).bind fun _ _ => .peek ?_
  rw [if_pos (by rfl)]
  exact (reads_advance (by simp) (List.cons_ne_nil _ _)).bind fun _ _ => .pure rfl

theorem reads_access?_none {inner : Parser Expr} (ht : t ≠ .symbol .dot) (e : Expr) :
    Reads (access? inner e) (t :: us) (t :: us) (· = none) := by
  refine .eat_of_ne ht ?_
  exact .pure rfl

theorem isRead_ofAccess (hd : Derives .access ts e) (h : IsRead .access ts e) :
    IsRead .factor ts e := by
  intro n m t us hn hm ht
  have hread := h n t us (t :: us) (·.bare = e) hn ht.2 fun a ha =>
    (reads_foldMore_none (reads_access?_none ht.1 a)).imp fun b hb => hb ▸ ha
  obtain ⟨u, vs, rfl, hu⟩ := hd.begins
  obtain ⟨m, rfl⟩ := Nat.exists_eq_add_of_le' (Nat.le_trans (Nat.le_add_left 1 _) hm)
  refine .peek ?_
  rw [if_neg]
  · have haccesses : accesses (exprUpTo n) =
        (atom (exprUpTo n) >>= foldMore (access? (exprUpTo n))) >>= fun e => do
          if (← peek) = .symbol .leftParen then fail (.broken .calledExpression) else return e := by
      simp only [accesses, bind_assoc]
    rw [haccesses]
    refine hread.bind fun a ha => .peek ?_
    rw [if_neg ht.2]
    exact .pure ha
  · rintro rfl
    exact hu.1 rfl

theorem reads_arguments (hus : us ≠ [])
    (h : ∀ a ∈ args, Derives .expr a.1 a.2 ∧ IsRead .expr a.1 a.2)
    (hn : (separated (args.map Prod.fst)).length < n) :
    Reads (arguments (exprUpTo n)) (bracketed (separated (args.map Prod.fst)) ++ us) us
      fun as => as.map Expr.bare = args.map Prod.snd := by
  rw [bracketed, List.cons_append, List.append_assoc]
  refine (reads_symbol _ (by simp)).bind fun _ _ => ?_
  refine (reads_commaSeparated (g := Expr.bare) (h := Prod.snd) (fun a ha => ?_)
    fun a ha t ts ht => ?_).bind fun as has => (reads_symbol _ hus).bind fun _ _ => .pure has
  · obtain ⟨t, ts, hts, ht⟩ := (h a ha).1.begins
    refine ⟨t, ts, hts, ?_⟩
    rintro rfl
    exact ht
  · have hlength : a.1.length ≤ (separated (args.map Prod.fst)).length :=
      length_le_separated (List.mem_map_of_mem ha)
    refine (h a ha).2.expr (by omega) ?_
    obtain rfl | rfl := ht
    · exact endsExpr_comma
    · exact endsExpr_rightParen

theorem length_bracketed (ts : List Token) : (bracketed ts).length = ts.length + 2 := by
  rw [bracketed, List.length_cons, List.length_append, List.length_singleton]

theorem isRead_field (ho : IsRead .access ts o) :
    IsRead .access (ts ++ [.symbol .dot, .name x])
      (.field { span := default } o ⟨x, default⟩) := by
  intro n t us vs Q hn ht hmore
  rw [List.length_append] at hn
  rw [List.append_assoc]
  refine ho n (.symbol .dot) (.name x :: t :: us) vs Q (by omega) nofun fun a ha => ?_
  refine reads_foldMore ?_ (by simp) hmore
  refine .eat nofun (List.cons_ne_nil _ _) ?_
  refine (reads_ident _ (List.cons_ne_nil _ _)).bind fun part hpart => .peek ?_
  rw [if_neg ht]
  refine .pure ⟨_, rfl, ?_⟩
  rw [Expr.bare, Ident.bare, ha, hpart]
  rfl

theorem isRead_method (ho : IsRead .access ts o)
    (hargs : ∀ a ∈ args, Derives .expr a.1 a.2 ∧ IsRead .expr a.1 a.2) :
    IsRead .access (ts ++ .symbol .dot :: .name x :: bracketed (separated (args.map Prod.fst)))
      (.method { span := default } o ⟨x, default⟩ (args.map Prod.snd)) := by
  intro n t us vs Q hn ht hmore
  rw [List.length_append, List.length_cons, List.length_cons, length_bracketed] at hn
  rw [List.append_assoc]
  refine ho n (.symbol .dot) (.name x :: (bracketed (separated (args.map Prod.fst)) ++ t :: us))
    vs Q (by omega) nofun fun a ha => ?_
  refine reads_foldMore (t := t :: us) ?_ (by simp [length_bracketed]; omega) hmore
  refine .eat nofun (List.cons_ne_nil _ _) ?_
  refine (reads_ident _ (by simp)).bind fun part hpart => .peek ?_
  rw [if_pos rfl]
  refine (reads_arguments (List.cons_ne_nil _ _) hargs (by omega)).bind fun as has =>
    (reads_behind _).bind fun _ _ => .pure ⟨_, rfl, ?_⟩
  rw [Expr.bare, Ident.bare, Expr.listBare_eq, ha, hpart, has]
  rfl

theorem isRead_ofAtom (h : IsRead .atom ts e) : IsRead .access ts e := by
  intro n t us vs Q hn ht hmore
  exact (h n t us hn ht).bind hmore

theorem isRead_int {i : Nat} (hi : i < 2 ^ 31) :
    IsRead .atom [.int i] (.literal { span := default } (.number (Int32.ofNat i))) := by
  intro n t us _ _
  refine .peek ?_
  refine (reads_advance (by simp) (List.cons_ne_nil _ _)).bind fun _ _ => ?_
  rw [if_pos (show i ≤ maxLiteral from Nat.le_of_lt_succ hi)]
  exact .pure rfl

theorem isRead_bool (b : Bool) : IsRead .atom [.keyword (if b then .trueKw else .falseKw)]
    (.literal { span := default } (.bool b)) := by
  intro n t us _ _
  cases b
  all_goals
    refine .peek ?_
    exact (reads_advance (by simp) (List.cons_ne_nil _ _)).bind fun _ _ => .pure rfl

theorem isRead_none : IsRead .atom [.keyword .noneKw] (.literal { span := default } .none) := by
  intro n t us _ _
  refine .peek ?_
  exact (reads_advance (by simp) (List.cons_ne_nil _ _)).bind fun _ _ => .pure rfl

theorem isRead_name (x : String) : IsRead .atom [.name x] (.name { span := default } x none) := by
  intro n t us _ ht
  refine .peek ?_
  refine (reads_advance (by simp) (List.cons_ne_nil _ _)).bind fun _ _ => .peek ?_
  rw [if_neg ht]
  exact .pure rfl

theorem isRead_call (hargs : ∀ a ∈ args, Derives .expr a.1 a.2 ∧ IsRead .expr a.1 a.2) :
    IsRead .atom (.name x :: bracketed (separated (args.map Prod.fst)))
      (.call { span := default } ⟨x, default⟩ (args.map Prod.snd) none) := by
  intro n t us hn _
  rw [List.length_cons, length_bracketed] at hn
  refine .peek ?_
  refine (reads_advance (by simp) (by simp)).bind fun _ _ => .peek ?_
  rw [if_pos rfl]
  refine (reads_arguments (List.cons_ne_nil _ _) hargs (by omega)).bind fun as has =>
    (reads_behind _).bind fun _ _ => .pure ?_
  rw [Expr.bare, Ident.bare, Expr.listBare_eq, has]
  rfl

theorem isRead_brackets (h : IsRead .expr ts e) : IsRead .atom (bracketed ts) e := by
  intro n t us hn _
  rw [length_bracketed] at hn
  rw [bracketed, List.cons_append, List.append_assoc]
  refine .peek ?_
  refine (reads_advance (by simp) (by simp)).bind fun _ _ => ?_
  exact (h.expr (by omega) endsExpr_rightParen).bind fun a ha =>
    (reads_symbol _ (List.cons_ne_nil _ _)).bind fun _ _ => .pure ha

end

end Parser

/-- What the grammar derives is read by the reader of its level. -/
theorem Derives.isRead {level : Precedence} {ts : List Token} {e : Expr} (h : Derives level ts e) :
    Parser.IsRead level ts e := by
  induction h with
  | negation _ ih => exact Parser.isRead_negation ih
  | ofComparison he ih => exact Parser.isRead_ofComparison he ih
  | comparison hop _ hr ihl ihr => exact Parser.isRead_comparison hop ihl ihr hr.length_pos
  | ofSum _ ih => exact Parser.isRead_ofSum ih
  | sum hop _ hr ihl ihr => exact Parser.isRead_sum hop ihl ihr hr.length_pos
  | ofTerm _ ih => exact Parser.isRead_ofTerm ih
  | term hop _ hr ihl ihr => exact Parser.isRead_term hop ihl ihr hr.length_pos
  | ofFactor _ ih => exact Parser.isRead_ofFactor ih
  | sign he ih => exact Parser.isRead_sign he ih
  | smallest => exact Parser.isRead_smallest
  | ofAccess he ih => exact Parser.isRead_ofAccess he ih
  | field _ ih => exact Parser.isRead_field ih
  | method _ hargs ih ihargs => exact Parser.isRead_method ih fun a ha => ⟨hargs a ha, ihargs a ha⟩
  | ofAtom _ ih => exact Parser.isRead_ofAtom ih
  | int hn => exact Parser.isRead_int hn
  | bool b => exact Parser.isRead_bool b
  | none => exact Parser.isRead_none
  | name x => exact Parser.isRead_name x
  | call hargs ih => exact Parser.isRead_call fun a ha => ⟨hargs a ha, ih a ha⟩
  | brackets _ ih => exact Parser.isRead_brackets ih

/-- An expression of the grammar is read, in front of any token that does not go on with it. -/
theorem Derives.reads {ts : List Token} {e : Expr} (h : Derives .expr ts e) {t : Token}
    {us : List Token} (ht : Parser.EndsExpr t) :
    Parser.Reads Parser.expr (ts ++ t :: us) (t :: us) (·.bare = e) := by
  refine Parser.Reads.get fun c hc => h.isRead.expr ?_ ht
  have hleft := Parser.left_eq hc
  rw [List.length_append, List.length_cons] at hleft
  omega

end ObjLang
