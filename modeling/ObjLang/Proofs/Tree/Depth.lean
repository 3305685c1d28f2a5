import ObjLang.Proofs.Tree.Calls

/-!
# ObjLang.Proofs.Tree.Depth — how deep the calls of a parser are nested

A rule whose callees agree with others, where one token less is left or the rank is lower, agrees with
the rule of the others.  By induction on the tokens left each reader of the parser agrees with the rule
that has eight calls for each token, so the bounds that the parser takes from the tokens left are never
met.
-/

namespace ObjLang.Parser

variable {α β : Type} {n m : Nat} {t : Token}

/-! ### Shapes -/

section

variable {p p' q q' : Parser α} {f f' : α → Parser β} {K : α → Nat}

/-- Once enough tokens are read, the rest has to agree only. -/
theorem Agree.andThen (hp : Agree n p p' K) (hf : ∀ a, Agree n (f a) (f' a) fun _ => 0) :
    Agree n (p >>= f) (p' >>= f') fun _ => 0 :=
  hp.bind fun a => (hf a).weaken (Nat.sub_le n _) fun _ => Nat.sub_le 0 _

/-- The first token is read, and the rest has one token less. -/
theorem AgreeAt.first (hp : AgreeAt t n p p' fun _ => 1)
    (hf : ∀ a, Agree (n - 1) (f a) (f' a) fun _ => 0) :
    AgreeAt t n (p >>= f) (p' >>= f') fun _ => 1 :=
  hp.bind hf

theorem Agree.first (hp : Agree n p p' fun _ => 1)
    (hf : ∀ a, Agree (n - 1) (f a) (f' a) fun _ => 0) :
    Agree n (p >>= f) (p' >>= f') fun _ => 1 :=
  hp.bind hf

theorem Agree.ifEats {u : Token} (hu : u ≠ .eof) (hp : Agree (n - 1) p p' fun a => K a - 1)
    (hq : Agree n q q' K) :
    Agree n (eat u >>= fun b => if b = true then p else q)
      (eat u >>= fun b => if b = true then p' else q') K := by
  refine (agree_eat hu).bind fun b => ?_
  by_cases hb : b = true
  · subst hb
    exact hp
  · rw [if_neg hb, if_neg hb, if_neg hb]
    exact hq

theorem Agree.ifNext {u : Token} (hp : AgreeAt u n p p' K) (hq : Agree n q q' K) :
    Agree n (Parser.peek >>= fun t => if t = u then p else q)
      (Parser.peek >>= fun t => if t = u then p' else q') K :=
  .peek fun _ => .ite (fun ht => ht ▸ hp) fun _ => .ofAgree hq

end

/-! ### Lists -/

section

variable {item item' : Parser α}

theorem agree_announced {u : Token} (hu : u ≠ .eof) (h : Agree (n - 1) item item' fun _ => 0) :
    Agree n (announced u item) (announced u item') taken :=
  .ifEats hu (h.bind fun _ => .pure rfl) (.pure rfl)

theorem agree_commaSeparated (h : Agree n item item' fun _ => 1) :
    Agree n (commaSeparated item) (commaSeparated item') fun _ => 0 := by
  rw [commaSeparated_eq, commaSeparated_eq]
  exact .ifNext (.ofAgree (.pure rfl)) (h.andThen fun _ =>
    (agree_collect (agree_announced (by simp) h.later.free)).andThen fun _ => .pure rfl)

end

/-! ### Expressions -/

section

variable {inner inner' operand operand' : Parser Expr}

theorem agree_arguments (h : Agree (n - 1) inner inner' fun _ => 1) :
    Agree n (arguments inner) (arguments inner') fun _ => 1 :=
  (agree_symbol _ _).first fun _ =>
    (agree_commaSeparated h).andThen fun _ => (agree_symbol _ _).andThen fun _ => .pure rfl

theorem agree_atom (h : Agree (n - 1) inner inner' fun _ => 1) :
    Agree n (atom inner) (atom inner') fun _ => 1 := by
  refine .peek fun t => ?_
  split
  · exact (agreeAt_advance (by simp)).first fun s =>
      .ite (fun _ => .pure rfl) fun _ => .throw (by simp)
  · exact (agreeAt_advance (by simp)).first fun s => .pure rfl
  · exact (agreeAt_advance (by simp)).first fun s => .pure rfl
  · exact (agreeAt_advance (by simp)).first fun s => .pure rfl
  · exact (agreeAt_advance (by simp)).first fun s => .ifNext
      (.ofAgree ((agree_arguments h.later).andThen fun _ => agree_behind.andThen fun _ => .pure rfl))
      (.pure rfl)
  · exact (agreeAt_advance (by simp)).first fun _ => h.andThen fun _ =>
      (agree_symbol _ _).andThen fun _ => .pure rfl
  · exact .ofAgree (agree_unexpected _)

theorem agree_access? (h : Agree (n - 1) inner inner' fun _ => 1) (object : Expr) :
    Agree n (access? inner object) (access? inner' object) taken := by
  refine .ifEats (by simp) ((agree_ident _).bind fun part => .ifNext (.ofAgree ?_) (.pure rfl))
    (.pure rfl)
  exact (agree_arguments h.later).later.free.bind fun _ => agree_behind.bind fun _ => .pure rfl

theorem agree_accesses (h : Agree (n - 1) inner inner' fun _ => 1) :
    Agree n (accesses inner) (accesses inner') fun _ => 1 :=
  (agree_atom h).first fun a =>
    (agree_foldMore (fun object => agree_access? h.later object) a).andThen fun e =>
      .ifNext (.ofAgree (agree_fail (by simp))) (.pure rfl)

theorem agree_signedOf {sign sign' : Parser Expr} (hs : Agree (n - 1) sign sign' fun _ => 1)
    (h : Agree n operand operand' fun _ => 1) :
    Agree n (signedOf sign operand) (signedOf sign' operand') fun _ => 1 :=
  .ifNext ((agreeAt_advance (by simp)).first fun start => .ifNext
    (.ofAgree (agree_advance.andThen fun stop => .pure rfl)) (hs.andThen fun e => .pure rfl)) h

theorem agree_negatedOf {negation negation' : Parser Expr}
    (hs : Agree (n - 1) negation negation' fun _ => 1) (h : Agree n operand operand' fun _ => 1) :
    Agree n (negatedOf negation operand) (negatedOf negation' operand') fun _ => 1 :=
  .ifNext ((agreeAt_advance (by simp)).first fun start => hs.andThen fun e => .pure rfl) h

theorem agree_joins {op? : Token → Option BinaryOp} (hop : op? .eof = none)
    (h : Agree n operand operand' fun _ => 1) (left : Expr) :
    Agree n (joins op? operand left) (joins op? operand' left) taken := by
  refine .peek fun t => ?_
  cases ht : op? t with
  | none => exact .ofAgree (.pure rfl)
  | some op =>
    have heof : t ≠ .eof := by
      rintro rfl
      rw [hop] at ht
      cases ht
    exact (agreeAt_advance heof).bind fun _ => h.later.free.bind fun _ => .pure rfl

theorem agree_leftChain {op? : Token → Option BinaryOp} (hop : op? .eof = none)
    (h : Agree n operand operand' fun _ => 1) :
    Agree n (leftChain op? operand) (leftChain op? operand') fun _ => 1 := by
  rw [leftChain_eq, leftChain_eq]
  exact h.first fun first => agree_foldMore (agree_joins hop h.later) first

theorem agree_compared (h : Agree n operand operand' fun _ => 1) :
    Agree n (compared operand) (compared operand') fun _ => 1 := by
  refine h.first fun left => .peek fun t => ?_
  cases comparison? t with
  | none => exact .ofAgree (.pure rfl)
  | some op =>
    exact .ofAgree (agree_advance.andThen fun _ => h.later.andThen fun right => .peek fun u =>
      .ite (fun _ => .ofAgree (agree_fail (by simp))) fun _ => .ofAgree (.pure rfl))

end

/-! ### Variables -/

theorem agree_typeName : Agree n typeName typeName fun _ => 1 := by
  refine .peek fun t => ?_
  split
  · exact (agreeAt_advance (by simp)).first fun _ => .pure rfl
  · exact (agreeAt_advance (by simp)).first fun _ => .pure rfl
  · exact .ofAgree (agree_unexpected _)

theorem agree_typedName : Agree n typedName typedName fun _ => 1 :=
  (agree_ident _).first fun _ => (agree_symbol _ _).andThen fun _ =>
    agree_typeName.andThen fun _ => .pure rfl

theorem agree_literalInit : Agree n literalInit literalInit fun _ => 1 := by
  refine (agree_eat (by simp)).bind fun negative => ?_
  -- the sign need not be there, so the literal has to be a token of its own
  refine Agree.weaken (n := n) (K := fun _ => 1) ?_ (Nat.sub_le n _) fun _ => Nat.sub_le 1 _
  refine .peek fun t => .here fun s => ?_
  split
  · exact (agreeAt_advance (by simp)).first fun _ => .ite (fun _ => .pure rfl) fun _ => .throw (by simp)
  · exact (agreeAt_advance (by simp)).first fun _ => .pure rfl
  · exact (agreeAt_advance (by simp)).first fun _ => .pure rfl
  · exact (agreeAt_advance (by simp)).first fun _ => .pure rfl
  · exact .ofAgree (agree_fail (by simp))

theorem agree_varDef : Agree n varDef varDef fun _ => 1 :=
  agree_typedName.first fun _ => (agree_symbol _ _).andThen fun _ => agree_here.andThen fun _ =>
    agree_literalInit.andThen fun _ => agree_behind.andThen fun _ =>
      (agree_expect (by simp) _).andThen fun _ => .pure rfl

theorem agree_scopeDecl (kind : ScopeKind) :
    Agree n (scopeDecl kind) (scopeDecl kind) fun _ => 1 :=
  -- the first token is not looked at and can be `eof`; the name behind it cannot
  agree_advance.bind fun _ => (agree_ident _).first fun _ =>
    (agree_expect (by simp) _).andThen fun _ => .pure rfl

/-! ### Statements -/

section

variable {expr expr' : Parser Expr} {stmt stmt' : Parser Stmt} {inFunction : Bool}

theorem agree_nextStmt? (h : Agree n stmt stmt' fun _ => 1) (inBlock : Bool) :
    Agree n (nextStmt? inBlock stmt) (nextStmt? inBlock stmt') taken :=
  .get fun _ => .ite (fun _ => .ofAgree (.pure rfl)) fun _ =>
    .ite (fun _ => .ofAgree (agree_fail (by simp))) fun _ => .ofAgree (h.bind fun _ => .pure rfl)

theorem agree_block (h : Agree n stmt stmt' fun _ => 1) :
    Agree n (block stmt) (block stmt') fun _ => 1 :=
  (agree_expect (by simp) _).first fun _ => (agree_expect (by simp) _).andThen fun _ =>
    (agree_collect (agree_nextStmt? h.later true)).andThen fun _ =>
      (agree_expect (by simp) _).andThen fun _ => .pure rfl

theorem agree_branchOf (he : Agree n expr expr' fun _ => 1) (hs : Agree n stmt stmt' fun _ => 1) :
    Agree n (branchOf expr stmt) (branchOf expr' stmt') fun _ => 1 :=
  he.first fun _ => (agree_symbol _ _).andThen fun _ =>
    (agree_block hs.later).andThen fun _ => .pure rfl

theorem agree_condOf (he : Agree n expr expr' fun _ => 1)
    (hs : Agree (n - 1) stmt stmt' fun _ => 1) :
    Agree n (condOf expr stmt) (condOf expr' stmt') fun _ => 1 := by
  have hbranch := agree_branchOf he.later hs
  refine (agree_expect (by simp) _).first fun start => hbranch.andThen fun first =>
    (agree_collect (agree_announced (by simp) hbranch.later.free)).andThen fun others => ?_
  have hend : ∀ otherwise : List Stmt, Agree (n - 1)
      (behind >>= fun stop => pure (Stmt.cond first others otherwise (start.merge stop))) _
      fun _ => 0 :=
    fun otherwise => agree_behind.andThen fun _ => .pure rfl
  exact .ifEats (by simp)
    ((agree_symbol _ _).andThen fun _ => (agree_block hs.later).andThen fun otherwise =>
      (hend otherwise).later)
    (hend [])

theorem agree_loopOf (he : Agree n expr expr' fun _ => 1)
    (hs : Agree (n - 1) stmt stmt' fun _ => 1) :
    Agree n (loopOf expr stmt) (loopOf expr' stmt') fun _ => 1 :=
  (agree_expect (by simp) _).first fun _ => (agree_branchOf he.later hs).andThen fun _ =>
    agree_behind.andThen fun _ => .pure rfl

theorem agree_returnOf (he : Agree n expr expr' fun _ => 1) :
    Agree n (returnOf expr inFunction) (returnOf expr' inFunction) fun _ => 1 := by
  refine agree_advance.bind fun start => .ite (fun _ => .throw (by simp)) fun _ => ?_
  -- the first token is not looked at, so the one that counts is the newline at the end
  have hend : ∀ value : Expr, Agree n
      (expect .newline "newline after return" >>= fun _ =>
        pure (Stmt.ret value (start.merge value.span))) _ fun _ => 1 :=
    fun value => (agree_expect (by simp) _).first fun _ => .pure rfl
  exact .ifNext (.ofAgree (hend _)) (he.first fun value => (hend value).later.free)

theorem agree_simpleOf (he : Agree n expr expr' fun _ => 1) :
    Agree n (simpleOf expr) (simpleOf expr') fun _ => 1 := by
  refine he.first fun left => .ifEats (by simp) ?_
    ((agree_expect (by simp) _).andThen fun _ => .pure rfl)
  refine he.later.later.andThen fun value => ?_
  cases targetOf? left with
  | some target => exact (agree_expect (by simp) _).andThen fun _ => .pure rfl
  | none => exact .throw (by simp)

theorem agree_stmtOf (he : Agree n expr expr' fun _ => 1)
    (hs : Agree (n - 1) stmt stmt' fun _ => 1) :
    Agree n (stmtOf expr stmt inFunction) (stmtOf expr' stmt' inFunction) fun _ => 1 := by
  refine .peek fun t => ?_
  split
  · exact .ofAgree (agree_condOf he hs)
  · exact .ofAgree (agree_loopOf he hs)
  · exact (agreeAt_advance (by simp)).first fun _ => (agree_expect (by simp) _).andThen fun _ =>
      .pure rfl
  · exact .ofAgree (agree_returnOf he)
  · exact .ofAgree (agree_simpleOf he)

end

/-! ### Definitions -/

section

variable {fn fn' : Parser FunDef} {cls cls' : Parser ClassDef} {stmt stmt' : Parser Stmt}

theorem agree_nextBodyDecl? (h : Agree n fn fn' fun _ => 1) :
    Agree n (nextBodyDecl? fn) (nextBodyDecl? fn') taken := by
  refine .get fun c => ?_
  split
  · exact .ofAgree (h.bind fun _ => .pure rfl)
  · exact .ofAgree ((agree_scopeDecl _).bind fun _ => .pure rfl)
  · exact .ofAgree ((agree_scopeDecl _).bind fun _ => .pure rfl)
  · exact .ite (fun _ => .ofAgree (agree_varDef.bind fun _ => .pure rfl)) fun _ => .ofAgree (.pure rfl)

theorem agree_funBodyOf (hf : Agree n fn fn' fun _ => 1) (hs : Agree n stmt stmt' fun _ => 1)
    (start : Span) (name : Ident) (params : List TypedName) (ret : Option Ident) :
    Agree n (funBodyOf fn stmt start name params ret) (funBodyOf fn' stmt' start name params ret)
      fun _ => 0 :=
  (agree_symbol _ _).andThen fun _ => (agree_expect (by simp) _).andThen fun _ =>
    (agree_expect (by simp) _).andThen fun _ =>
      (agree_collect (agree_nextBodyDecl? hf)).andThen fun decls =>
        (agree_collect (agree_nextStmt? hs false)).andThen fun body =>
          .ite (fun _ => agree_fail (by simp)) fun _ => agree_behind.andThen fun _ =>
            (agree_expect (by simp) _).andThen fun _ => .pure rfl

theorem agree_funDefOf (hf : Agree (n - 1) fn fn' fun _ => 1)
    (hs : Agree (n - 1) stmt stmt' fun _ => 1) :
    Agree n (funDefOf fn stmt) (funDefOf fn' stmt') fun _ => 1 := by
  refine (agree_expect (by simp) _).first fun start => (agree_ident _).andThen fun name =>
    (agree_symbol _ _).andThen fun _ => (agree_commaSeparated agree_typedName).andThen fun params =>
      (agree_symbol _ _).andThen fun _ => ?_
  have hbody := agree_funBodyOf hf hs start name params
  have hresult : Agree (n - 1) (some <$> typeName) (some <$> typeName) fun _ => 0 :=
    agree_typeName.andThen fun _ => .pure rfl
  exact .ifEats (by simp) (hresult.later.andThen fun ret => (hbody ret).later) (hbody none)

theorem agree_nextClassItemOf? (h : Agree n fn fn' fun _ => 1) :
    Agree n (nextClassItemOf? fn) (nextClassItemOf? fn') taken := by
  refine .get fun c => ?_
  split
  · exact .ofAgree (.pure rfl)
  · exact .ofAgree (.pure rfl)
  · exact .ofAgree (h.bind fun _ => .pure rfl)
  · next hpass =>
    rw [hpass]
    exact (agreeAt_advance (by simp)).bind fun _ =>
      (agree_expect (by simp) _).free.bind fun _ => .pure rfl
  · exact .ite (fun _ => .ofAgree (agree_varDef.bind fun _ => .pure rfl)) fun _ =>
      .ofAgree (agree_fail (by simp))

theorem agree_classDefOf (h : Agree (n - 1) fn fn' fun _ => 1) :
    Agree n (classDefOf fn) (classDefOf fn') fun _ => 1 :=
  (agree_expect (by simp) _).first fun _ => (agree_ident _).andThen fun _ =>
    (agree_symbol _ _).andThen fun _ => (agree_ident _).andThen fun _ =>
      (agree_symbol _ _).andThen fun _ => (agree_symbol _ _).andThen fun _ =>
        (agree_expect (by simp) _).andThen fun _ => (agree_expect (by simp) _).andThen fun _ =>
          (agree_collect (agree_nextClassItemOf? h)).andThen fun _ =>
            agree_behind.andThen fun _ => (agree_expect (by simp) _).andThen fun _ => .pure rfl

theorem agree_nextTopDeclOf? (hf : Agree n fn fn' fun _ => 1) (hc : Agree n cls cls' fun _ => 1) :
    Agree n (nextTopDeclOf? fn cls) (nextTopDeclOf? fn' cls') taken := by
  refine .get fun c => ?_
  split
  · exact .ofAgree (hf.bind fun _ => .pure rfl)
  · exact .ofAgree (hc.bind fun _ => .pure rfl)
  · exact .ite (fun _ => .ofAgree (agree_varDef.bind fun _ => .pure rfl)) fun _ => .ofAgree (.pure rfl)

theorem agree_nextTopStmtOf? (h : Agree n stmt stmt' fun _ => 1) :
    Agree n (nextTopStmtOf? stmt) (nextTopStmtOf? stmt') taken :=
  .get fun _ => .ite (fun _ => .ofAgree (.pure rfl)) fun _ =>
    .ite (fun _ => .ofAgree (agree_fail (by simp))) fun _ => .ofAgree (h.bind fun _ => .pure rfl)

theorem agree_programOf (hf : Agree n fn fn' fun _ => 1) (hc : Agree n cls cls' fun _ => 1)
    (hs : Agree n stmt stmt' fun _ => 1) :
    Agree n (programOf fn cls stmt) (programOf fn' cls' stmt') fun _ => 0 :=
  agree_here.andThen fun _ => (agree_collect (agree_nextTopDeclOf? hf hc)).andThen fun _ =>
    (agree_collect (agree_nextTopStmtOf? hs)).andThen fun _ => agree_here.andThen fun _ => .pure rfl

end

/-! ### Rules -/

namespace Rule

variable {call call' : (r : Rule) → Parser r.Value} {b : Nat}

/-- A rule agrees with itself under other callees if these agree: where a token less is left, and
where as many are left if they are of lower rank. -/
theorem agree_body (r : Rule) (hlater : ∀ s : Rule, Agree (n - 1) (call s) (call' s) fun _ => s.least)
    (hlower : ∀ s : Rule, s.rank < r.rank → Agree n (call s) (call' s) fun _ => s.least) :
    Agree n (r.body call) (r.body call') fun _ => r.least := by
  cases r with
  | expr => exact agree_negatedOf (hlater .expr) (hlower .compared (by decide))
  | compared => exact agree_compared (hlower .sum (by decide))
  | sum => exact agree_leftChain rfl (hlower .term (by decide))
  | term => exact agree_leftChain rfl (hlower .factor (by decide))
  | factor => exact agree_signedOf (hlater .factor) (hlower .access (by decide))
  | access => exact agree_accesses (hlater .expr)
  | stmt inFunction =>
    exact agree_stmtOf (hlower .expr (Nat.lt_succ_self 5)) (hlater (.stmt inFunction))
  | funDef => exact agree_funDefOf (hlater .funDef) (hlater (.stmt true))
  | classDef => exact agree_classDefOf (hlater .funDef)
  | program =>
    exact agree_programOf (hlower .funDef (by decide)) (hlower .classDef (by decide))
      (hlower (.stmt false) (by decide))

end Rule

/-! ### Readers of the parser -/

theorem Rule.rank_le (r : Rule) : r.rank ≤ 7 := by
  cases r with
  | stmt inFunction => exact Nat.le_succ 6
  | _ => decide

/-- A reader agrees with a rule where at most `k` tokens are left, if the rule has eight calls for each
of them. -/
def KeepsTo (r : Rule) (k : Nat) (p : Parser r.Value) : Prop :=
  ∀ j b, j ≤ k → 8 * j + r.rank < b + 8 → Agree j p (r.within b) fun _ => r.least

section

variable {r s : Rule} {p : Parser r.Value} {q : Parser s.Value} {i j k b : Nat}

theorem KeepsTo.mono (h : KeepsTo r k p) (hi : i ≤ k) : KeepsTo r i p :=
  fun j b hj hb => h j b (Nat.le_trans hj hi) hb

/-- A call of lower rank before the next token. -/
theorem KeepsTo.lower (h : KeepsTo s k q) (hj : j < k) (hb : 8 * (j + 1) + r.rank < b + 9)
    (hrank : s.rank < r.rank) : Agree (j + 1) q (s.within b) fun _ => s.least :=
  h (j + 1) b hj (by omega)

/-- A call behind the next token. -/
theorem KeepsTo.later (h : KeepsTo s k q) (hj : j ≤ k) (hb : 8 * (j + 1) + r.rank < b + 9) :
    Agree j q (s.within b) fun _ => s.least := by
  have hrank := s.rank_le
  exact h j b hj (by omega)

theorem keepsTo_zero (r : Rule) (p : Parser r.Value) : KeepsTo r 0 p := by
  intro j b hj hb
  obtain rfl := Nat.le_zero.1 hj
  exact .zero _ _ _

/-- With a token left there is a call left. -/
theorem keepsTo_of_body (h : ∀ j b, j < k → 8 * (j + 1) + r.rank < b + 9 →
    Agree (j + 1) p (r.body (Rule.within b)) fun _ => r.least) : KeepsTo r k p := by
  intro j b hj hb
  obtain rfl | hpos := Nat.eq_zero_or_pos j
  · exact .zero _ _ _
  · obtain ⟨j, rfl⟩ := Nat.exists_eq_add_of_le' hpos
    obtain ⟨b, rfl⟩ : ∃ b', b = b' + 1 := ⟨b - 1, by omega⟩
    exact h j b hj hb

/-- A reader with a bound of its own, which is at least the number of tokens left. -/
theorem keepsTo_upTo {f : Nat → Parser r.Value}
    (h : ∀ i j, j < k → KeepsTo r j (f i) → KeepsTo r (j + 1) (f (i + 1))) (hi : k ≤ i) :
    KeepsTo r k (f i) := by
  induction i generalizing k with
  | zero =>
    obtain rfl := Nat.le_zero.1 hi
    exact keepsTo_zero _ _
  | succ i ih =>
    obtain rfl | hpos := Nat.eq_zero_or_pos k
    · exact keepsTo_zero _ _
    · obtain ⟨k, rfl⟩ := Nat.exists_eq_add_of_le' hpos
      have hrest := ih (fun i j hj => h i j (Nat.lt_succ_of_lt hj)) (Nat.le_of_succ_le_succ hi)
      exact h i k (Nat.lt_succ_self k) hrest

/-- A reader that takes its bound from the tokens left. -/
theorem keepsTo_left {f : Nat → Parser r.Value} (h : ∀ l i, l ≤ k → l ≤ i → KeepsTo r l (f i)) :
    KeepsTo r k (get >>= fun c => f (c.left + 2)) :=
  fun _ b hj hb => .left fun l i hl hi =>
    h l i (Nat.le_trans hl hj) hi l b (Nat.le_refl l) (by omega)

end

section

variable {inner operand : Parser Expr} {inFunction : Bool} {i k : Nat}

theorem keepsTo_access (h : KeepsTo .expr (k - 1) inner) : KeepsTo .access k (accesses inner) :=
  keepsTo_of_body fun _ _ hj hb => agree_accesses (h.later (Nat.le_sub_one_of_lt hj) hb)

theorem keepsTo_signsUpTo (h : KeepsTo .access k operand) (hi : k ≤ i) :
    KeepsTo .factor k (signsUpTo operand i) := by
  refine keepsTo_upTo (fun i j hj hsign => ?_) hi
  rw [signsUpTo_succ]
  exact keepsTo_of_body fun l b hl hb => agree_signedOf (hsign.later (Nat.le_of_lt_succ hl) hb)
    (h.lower (Nat.lt_of_le_of_lt (Nat.le_of_lt_succ hl) hj) hb (by decide))

theorem keepsTo_factor (h : KeepsTo .access k operand) :
    KeepsTo .factor k (get >>= fun c => signsUpTo operand (c.left + 2)) :=
  keepsTo_left fun _ _ hl hi => keepsTo_signsUpTo (h.mono hl) hi

theorem keepsTo_term (h : KeepsTo .factor k operand) :
    KeepsTo .term k (leftChain multiplicative? operand) :=
  keepsTo_of_body fun _ _ hj hb => agree_leftChain rfl (h.lower hj hb (by decide))

theorem keepsTo_sum (h : KeepsTo .term k operand) : KeepsTo .sum k (leftChain additive? operand) :=
  keepsTo_of_body fun _ _ hj hb => agree_leftChain rfl (h.lower hj hb (by decide))

theorem keepsTo_compared (h : KeepsTo .sum k operand) : KeepsTo .compared k (compared operand) :=
  keepsTo_of_body fun _ _ hj hb => agree_compared (h.lower hj hb (by decide))

theorem keepsTo_negatedUpTo (h : KeepsTo .compared k operand) (hi : k ≤ i) :
    KeepsTo .expr k (negatedUpTo operand i) := by
  refine keepsTo_upTo (fun i j hj hnot => ?_) hi
  rw [negatedUpTo_succ]
  exact keepsTo_of_body fun l b hl hb => agree_negatedOf (hnot.later (Nat.le_of_lt_succ hl) hb)
    (h.lower (Nat.lt_of_le_of_lt (Nat.le_of_lt_succ hl) hj) hb (by decide))

theorem keepsTo_exprUpTo (hi : k ≤ i) : KeepsTo .expr k (exprUpTo i) := by
  refine keepsTo_upTo (fun i j _ hinner => ?_) hi
  -- what is in brackets has a token less, and so has the bound on brackets one less
  have hfactor := keepsTo_factor (keepsTo_access (k := j + 1) hinner)
  have hcompared := keepsTo_compared (keepsTo_sum (keepsTo_term hfactor))
  rw [exprUpTo_succ]
  exact keepsTo_left fun _ _ hl hi' => keepsTo_negatedUpTo (hcompared.mono hl) hi'

theorem keepsTo_expr : KeepsTo .expr k expr := keepsTo_left fun _ _ _ hi => keepsTo_exprUpTo hi

theorem keepsTo_stmtUpTo (hi : k ≤ i) : KeepsTo (.stmt inFunction) k (stmtUpTo inFunction i) := by
  refine keepsTo_upTo (fun i j _ hblock => ?_) hi
  rw [stmtUpTo_succ]
  exact keepsTo_of_body fun l b hl hb =>
    agree_stmtOf (keepsTo_expr.lower hl hb (Nat.lt_succ_self 5))
      (hblock.later (Nat.le_of_lt_succ hl) hb)

theorem keepsTo_stmt : KeepsTo (.stmt inFunction) k (stmt inFunction) :=
  keepsTo_left fun _ _ _ hi => keepsTo_stmtUpTo hi

theorem keepsTo_funDefUpTo (hi : k ≤ i) : KeepsTo .funDef k (funDefUpTo i) := by
  refine keepsTo_upTo (fun i j _ hnested => ?_) hi
  rw [funDefUpTo_succ]
  exact keepsTo_of_body fun l b hl hb => agree_funDefOf (hnested.later (Nat.le_of_lt_succ hl) hb)
    (keepsTo_stmt.later (Nat.le_refl l) hb)

theorem keepsTo_funDef : KeepsTo .funDef k funDef :=
  keepsTo_left fun _ _ _ hi => keepsTo_funDefUpTo hi

theorem keepsTo_classDef : KeepsTo .classDef k classDef := by
  rw [classDef_eq]
  exact keepsTo_of_body fun j _ _ hb => agree_classDefOf (keepsTo_funDef.later (Nat.le_refl j) hb)

theorem keepsTo_program : KeepsTo .program k program := by
  rw [program_eq]
  exact keepsTo_of_body fun _ _ hj hb => agree_programOf (keepsTo_funDef.lower hj hb (by decide))
    (keepsTo_classDef.lower hj hb (by decide)) (keepsTo_stmt.lower hj hb (Nat.lt_succ_self 6))

end

/-- Each reader of the parser is its rule with eight calls for each token that is left. -/
theorem Rule.keepsTo_reader (r : Rule) (k : Nat) : KeepsTo r k r.reader := by
  have haccess : KeepsTo .access k (accesses Parser.expr) := keepsTo_access keepsTo_expr
  have hterm := keepsTo_term (keepsTo_factor haccess)
  have hsum := keepsTo_sum hterm
  cases r with
  | expr => exact keepsTo_expr
  | compared => exact keepsTo_compared hsum
  | sum => exact hsum
  | term => exact hterm
  | factor => exact keepsTo_factor haccess
  | access => exact haccess
  | stmt inFunction => exact keepsTo_stmt
  | funDef => exact keepsTo_funDef
  | classDef => exact keepsTo_classDef
  | program => exact keepsTo_program

namespace Rule

variable {b : Nat}

theorem agree_reader (r : Rule) (hb : 8 * n ≤ b) :
    Agree n r.reader (r.within b) fun _ => r.least := by
  have hrank := r.rank_le
  exact r.keepsTo_reader n n b (Nat.le_refl n) (by omega)

/-- A reader goes as far as its rule reads at least. -/
theorem goes (r : Rule) (n : Nat) : Agree n r.reader r.reader fun _ => r.least :=
  (r.agree_reader (Nat.le_refl _)).self

/-- Where the stream ends with `eof`, the readers call each other without a bound. -/
theorem reader_eq (r : Rule) {c : Cursor} (hc : c.Closed) : r.reader c = r.body reader c := by
  have hreader := r.agree_reader (n := c.left + 1) (Nat.le_succ _)
  have hbody := r.agree_body (n := c.left + 1)
    (fun s => s.agree_reader (Nat.mul_le_mul_left 8 (Nat.sub_le _ 1)))
    fun s _ => s.agree_reader (Nat.le_refl _)
  calc r.reader c
      = r.within (8 * (c.left + 1) + 1) c := (hreader.at_cursor hc (Nat.lt_succ_self _)).eq
    _ = r.body reader c := (hbody.at_cursor hc (Nat.lt_succ_self _)).eq.symm

end Rule

end ObjLang.Parser
