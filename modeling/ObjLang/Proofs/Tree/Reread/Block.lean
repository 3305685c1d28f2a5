import ObjLang.Proofs.Tree.Reread.Expr

/-!
# ObjLang.Proofs.Tree.Reread.Block — reading the tokens of statements and functions

The first tokens of a statement tell that no declaration stands there, so the declarations of a
function body are read up to the first statement and the statements up to the end of the block.
Behind a condition statement no further branch may follow.
-/

namespace ObjLang

open Token (separated bracketed blockOf)

/-! ### First tokens -/

namespace Token

/-- A token that the tokens of a statement start with. -/
def startsStmt : Token → Bool
  | .keyword .defKw | .keyword .classKw | .keyword .globalKw | .keyword .nonlocalKw
  | .keyword .elifKw | .keyword .elseKw => false
  | .keyword _ | .symbol _ | .int _ | .name _ => true
  | .newline | .indent | .dedent | .eof => false

/-- A stream at the start of a statement. -/
structure StartsStmt (s : List Token) : Prop where
  head : ∃ t ts, s = t :: ts ∧ t.startsStmt = true
  noVarDef : ∀ x us, s ≠ .name x :: .symbol .colon :: us

/-- A stream that can stand behind a statement. -/
def Follows (s : List Token) : Prop :=
  ∃ t ts, s = t :: ts ∧ t ≠ .keyword .elifKw ∧ t ≠ .keyword .elseKw

theorem Follows.ne_nil {s : List Token} (h : Follows s) : s ≠ [] := by
  obtain ⟨t, ts, rfl, -⟩ := h
  exact List.cons_ne_nil t ts

theorem StartsStmt.follows {s : List Token} (h : StartsStmt s) : Follows s := by
  obtain ⟨t, ts, rfl, ht⟩ := h.head
  refine ⟨t, ts, rfl, ?_, ?_⟩
  · rintro rfl
    cases ht
  · rintro rfl
    cases ht

theorem Leads.startsStmt {t : Token} (h : t.Leads) : t.startsStmt = true := by
  cases t with
  | keyword k => obtain rfl | rfl | rfl := h <;> rfl
  | symbol s => rfl
  | int n => rfl
  | name x => rfl
  | _ => exact h.elim

end Token

open Token (StartsStmt Follows)

/-- An expression behind which no colon follows is not the start of a variable definition. -/
theorem Expr.tokens_ne_varDef (e : Expr) {t : Token} {ts : List Token} (ht : t ≠ .symbol .colon)
    (x : String) (us : List Token) : e.tokens ++ t :: ts ≠ .name x :: .symbol .colon :: us := by
  intro h
  cases e with
  | literal i v =>
    cases v with
    | number n =>
      rw [Expr.tokens, Literal.tokens] at h
      split at h <;> cases h
    | bool b => cases b <;> cases h
    | none => cases h
  | name i y b => exact ht (List.cons.inj (List.cons.inj h).2).1
  | call i f args target => cases (List.cons.inj (List.cons.inj h).2).1
  | _ => cases h

theorem Expr.Written.startsStmt {e : Expr} (h : e.Written) {t : Token} {ts : List Token}
    (ht : t ≠ .symbol .colon) : StartsStmt (e.tokens ++ t :: ts) := by
  obtain ⟨u, us, hus, hu⟩ := h.leads
  exact ⟨⟨u, us ++ t :: ts, by rw [hus]; rfl, hu.startsStmt⟩, e.tokens_ne_varDef ht⟩

theorem Token.startsStmt_keyword {k : Keyword} (hk : Token.startsStmt (.keyword k) = true)
    (us : List Token) : StartsStmt (.keyword k :: us) :=
  ⟨⟨_, us, rfl, hk⟩, fun _ _ h => nomatch (List.cons.inj h).1⟩

/-- A block under its header, and what follows it. -/
theorem blockOf_append (header body us : List Token) :
    blockOf header body ++ us = header ++ .newline :: .indent :: (body ++ .dedent :: us) := by
  simp only [blockOf, List.append_assoc, List.cons_append, List.nil_append]

theorem Branch.tokens_append (test : Expr) (body : List Stmt) (word : Keyword) (us : List Token) :
    (Branch.mk test body).tokens word ++ us = .keyword word :: (test.tokens ++ .symbol .colon ::
      .newline :: .indent :: (body.flatMap Stmt.tokens ++ .dedent :: us)) := by
  rw [Branch.tokens, blockOf_append, Stmt.listTokens_eq, List.cons_append, List.append_assoc,
    List.singleton_append]

theorem Stmt.Written.startsStmt {inFunction : Bool} {s : Stmt} (h : s.Written inFunction)
    (us : List Token) : StartsStmt (s.tokens ++ us) := by
  cases h with
  | assign htarget hvalue =>
    rw [Stmt.tokens, List.append_assoc]
    exact htarget.expr.startsStmt (by simp)
  | expr hvalue =>
    rw [Stmt.tokens, List.append_assoc]
    exact hvalue.startsStmt (by simp)
  | ret _ _ => exact Token.startsStmt_keyword rfl _
  | pass => exact Token.startsStmt_keyword rfl _
  | cond _ _ _ _ _ _ _ =>
    rw [Stmt.tokens, List.append_assoc, Branch.tokens_append]
    exact Token.startsStmt_keyword rfl _
  | loop _ _ _ =>
    rw [Stmt.tokens, Branch.tokens_append]
    exact Token.startsStmt_keyword rfl _

theorem Cursor.atVarDef_of_tokens {c : Cursor} {x : String} {us : List Token}
    (h : c.tokens = .name x :: .symbol .colon :: us) : c.atVarDef = true := by
  obtain ⟨hcurrent, hahead⟩ := List.cons.inj h
  obtain ⟨l, ls, hls, hl, -⟩ := List.map_eq_cons_iff.1 hahead
  unfold Cursor.atVarDef
  rw [hcurrent, hls]
  exact beq_iff_eq.2 hl

theorem Cursor.not_atVarDef {c : Cursor} (h : ∀ x us, c.tokens ≠ .name x :: .symbol .colon :: us) :
    c.atVarDef = false := by
  unfold Cursor.atVarDef
  split
  · next x l ls hx hls =>
    refine beq_eq_false_iff_ne.2 fun hl => h x (ls.map Lexeme.token) ?_
    rw [Cursor.tokens, hls, List.map_cons, List.map_cons, hx, hl]
  · rfl

namespace Parser

/-! ### Statements -/

section

variable {stmt : Parser Stmt} {s us vs : List Token}

theorem reads_nextStmt? {Q : Stmt → Prop} (inBlock : Bool) (hs : StartsStmt s)
    (h : Reads stmt s us Q) :
    Reads (nextStmt? inBlock stmt) s us fun o => ∃ a, o = some a ∧ Q a := by
  refine Reads.get fun c hc => ?_
  have hvar := Cursor.not_atVarDef (c := c) (by rw [hc]; exact hs.noVarDef)
  obtain ⟨t, ts, rfl, ht⟩ := hs.head
  have hcurrent := current_eq hc
  have hend : c.atBlockEnd = false := by
    unfold Cursor.atBlockEnd
    rw [hcurrent]
    split <;> first | cases ht | rfl
  have hdecl : c.atDeclaration = false := by
    unfold Cursor.atDeclaration
    rw [hcurrent]
    split <;> first | cases ht | exact hvar
  rw [hend, hdecl, if_neg Bool.false_ne_true, if_neg Bool.false_ne_true]
  exact h.bind fun a ha => .pure ⟨a, rfl, ha⟩

theorem reads_nextStmt?_end (inBlock : Bool) :
    Reads (nextStmt? inBlock stmt) (.dedent :: us) (.dedent :: us) (· = none) := by
  refine Reads.get fun c hc => ?_
  have hend : c.atBlockEnd = true := by
    unfold Cursor.atBlockEnd
    rw [current_eq hc]
  rw [hend, if_pos rfl]
  exact .pure rfl

/-- A parser that reads each of some statements. -/
def ReadsEach (stmt : Parser Stmt) (body : List Stmt) : Prop :=
  ∀ s ∈ body, ∀ us, StartsStmt (s.tokens ++ us) ∧
    (Follows us → Reads stmt (s.tokens ++ us) us (·.bare = s.bare))

theorem reads_stmts {body : List Stmt} (inBlock : Bool) (h : ReadsEach stmt body) :
    Reads (collect (nextStmt? inBlock stmt)) (body.flatMap Stmt.tokens ++ .dedent :: us)
      (.dedent :: us) fun ss => ss.map Stmt.bare = body.map Stmt.bare := by
  refine reads_collect (P := Follows) (fun s hs vs _ => (h s hs vs).1.follows)
    ⟨_, _, rfl, by simp, by simp⟩ (reads_nextStmt?_end inBlock) (fun s _ => s.tokens_ne_nil)
    fun s hs vs hvs => reads_nextStmt? inBlock (h s hs vs).1 ((h s hs vs).2 hvs)

theorem reads_block {body : List Stmt} (h : ReadsEach stmt body) (hus : us ≠ []) :
    Reads (block stmt) (.newline :: .indent :: (body.flatMap Stmt.tokens ++ .dedent :: us)) us
      fun ss => ss.map Stmt.bare = body.map Stmt.bare :=
  (reads_expect _ (by simp) (List.cons_ne_nil _ _)).bind fun _ _ =>
    (reads_expect _ (by simp) (by simp)).bind fun _ _ => (reads_stmts true h).bind fun _ hss =>
      (reads_expect _ (by simp) hus).bind fun _ _ => .pure hss

theorem reads_branch {test : Expr} {body : List Stmt} (htest : test.Written)
    (h : ReadsEach stmt body) (hus : us ≠ []) :
    Reads (branch stmt) (test.tokens ++ .symbol .colon :: .newline :: .indent ::
      (body.flatMap Stmt.tokens ++ .dedent :: us)) us fun b => b.bare = (Branch.mk test body).bare := by
  refine (htest.reads rfl).bind fun t ht => (reads_symbol _ (List.cons_ne_nil _ _)).bind fun _ _ =>
    (reads_block h hus).bind fun ss hss => .pure ?_
  rw [Branch.bare, Branch.bare, Stmt.listBare_eq, Stmt.listBare_eq, ht, hss]

theorem reads_elif {others : List Branch} (htests : ∀ b ∈ others, b.test.Written)
    (h : ∀ b ∈ others, ReadsEach stmt b.body) (hus : us ≠ []) (helif : us.head? ≠ some (.keyword .elifKw)) :
    Reads (collect do if ← eat (.keyword .elifKw) then return some (← branch stmt) else return none)
      (others.flatMap (·.tokens .elifKw) ++ us) us fun bs => bs.map Branch.bare = others.map Branch.bare := by
  refine reads_collect (P := (· ≠ [])) (fun b _ vs hvs => List.append_ne_nil_of_right_ne_nil _ hvs) hus
    ?_ (fun b _ => ?_) fun b hb vs hvs => ?_
  · obtain ⟨t, ts, rfl⟩ := List.exists_cons_of_ne_nil hus
    refine .eat_of_ne (fun ht => helif (by rw [ht]; rfl)) ?_
    exact .pure rfl
  · obtain ⟨test, body⟩ := b
    exact Token.blockOf_ne_nil _ _
  · have htest := htests b hb
    have hbody := h b hb
    obtain ⟨test, body⟩ := b
    rw [Branch.tokens_append]
    refine .eat (by simp) (by simp) ?_
    exact (reads_branch htest hbody hvs).bind fun a ha => .pure ⟨a, rfl, ha⟩

theorem reads_condStmt {test : Expr} {body otherwise : List Stmt} {others : List Branch}
    (htest : test.Written) (hbody : ReadsEach stmt body)
    (htests : ∀ b ∈ others, b.test.Written) (hbodies : ∀ b ∈ others, ReadsEach stmt b.body)
    (hotherwise : ReadsEach stmt otherwise) (hus : Follows us) (span : Span) :
    Reads (condStmt stmt) ((Stmt.cond (.mk test body) others otherwise span).tokens ++ us) us
      (·.bare = (Stmt.cond (.mk test body) others otherwise span).bare) := by
  rw [Stmt.tokens, List.append_assoc, Branch.tokens_append, Branch.listTokens_eq, Stmt.listTokens_eq,
    List.append_assoc]
  have hbare : ∀ {b : Branch} {bs : List Branch} {ss : List Stmt} {place : Span},
      b.bare = (Branch.mk test body).bare → bs.map Branch.bare = others.map Branch.bare →
      ss.map Stmt.bare = otherwise.map Stmt.bare →
      (Stmt.cond b bs ss place).bare = (Stmt.cond (.mk test body) others otherwise span).bare := by
    intro b bs ss place hb hbs hss
    rw [Stmt.bare, Stmt.bare, Branch.listBare_eq, Branch.listBare_eq, Stmt.listBare_eq,
      Stmt.listBare_eq, hb, hbs, hss]
  have hne := hus.ne_nil
  refine (reads_expect _ (by simp) (by simp)).bind fun start _ =>
    (reads_branch htest hbody (by simp [hne])).bind fun first hfirst => ?_
  cases otherwise with
  | nil =>
    obtain ⟨t, ts, rfl, helif, helse⟩ := hus
    refine (reads_elif htests hbodies hne (by simpa using helif)).bind fun bs hbs =>
      .eat_of_ne helse ?_
    exact Reads.bind (Q := (· = [])) (.pure rfl) fun ss hss => (reads_behind _).bind fun _ _ =>
      .pure (hbare hfirst hbs (by rw [hss]))
  | cons s ss =>
    rw [List.isEmpty_cons, if_neg Bool.false_ne_true, blockOf_append]
    refine (reads_elif htests hbodies (by simp) (by simp)).bind fun bs hbs =>
      .eat (by simp) (by simp) ?_
    exact (reads_symbol _ (List.cons_ne_nil _ _)).bind fun _ _ => (reads_block hotherwise hne).bind
      fun ss' hss => (reads_behind _).bind fun _ _ => .pure (hbare hfirst hbs hss)

end

/-- The expression that a target looks like stands for the target. -/
theorem targetOf?_of_bare {e : Expr} {target : Target} (ht : target.Written)
    (h : e.bare = target.expr.bare) : ∃ t, targetOf? e = some t ∧ t.bare = target.bare := by
  cases ht with
  | @name x hx =>
    cases e with
    | name i y b =>
      obtain ⟨-, rfl, -⟩ := Expr.name.inj h
      exact ⟨_, rfl, rfl⟩
    | _ => cases h
  | @field object f hobject hf =>
    cases e with
    | field i o g =>
      obtain ⟨-, ho, hg⟩ := Expr.field.inj h
      exact ⟨_, rfl, by rw [Target.bare, Target.bare, ho, hg]⟩
    | _ => cases h

theorem reads_assign {target : Target} {value : Expr} {us : List Token} (ht : target.Written)
    (hv : value.Written) (hus : us ≠ []) (span : Span) :
    Reads simpleStmt ((Stmt.assign target value span).tokens ++ us) us
      (·.bare = (Stmt.assign target value span).bare) := by
  rw [Stmt.tokens, List.append_assoc, List.cons_append, List.append_assoc, List.singleton_append]
  refine (ht.expr.reads rfl).bind fun left hleft => .eat (by simp) (by simp) ?_
  obtain ⟨t, htarget, htbare⟩ := targetOf?_of_bare ht hleft
  rw [if_pos rfl, htarget]
  refine (hv.reads rfl).bind fun a ha => (reads_expect _ (by simp) hus).bind fun _ _ => .pure ?_
  rw [Stmt.bare, Stmt.bare, ha, htbare]

theorem reads_exprStmt {value : Expr} {us : List Token} (hv : value.Written) (hus : us ≠ [])
    (span : Span) :
    Reads simpleStmt ((Stmt.expr value span).tokens ++ us) us
      (·.bare = (Stmt.expr value span).bare) := by
  rw [Stmt.tokens, List.append_assoc, List.singleton_append]
  refine (hv.reads rfl).bind fun a ha => .eat_of_ne (by simp) ?_
  refine (reads_expect _ (by simp) hus).bind fun _ _ => .pure ?_
  rw [Stmt.bare, Stmt.bare, ha]

theorem reads_returnStmt {value : Expr} {us : List Token} (hv : value.Written) (hus : us ≠ [])
    (span : Span) :
    Reads (returnStmt true) ((Stmt.ret value span).tokens ++ us) us
      (·.bare = (Stmt.ret value span).bare) := by
  rw [Stmt.tokens, List.cons_append, List.append_assoc, List.singleton_append]
  refine (reads_advance (by simp) (by simp)).bind fun _ _ => (reads_peek_written hv _).bind
    fun w hw => ?_
  rw [if_neg (by rintro rfl; exact hw)]
  refine (hv.reads rfl).bind fun a ha => (reads_expect _ (by simp) hus).bind fun _ _ => .pure ?_
  rw [Stmt.bare, Stmt.bare, ha]

/-- What starts with an expression is neither of the statements that a keyword announces. -/
theorem reads_stmtUpTo_simple {inFunction : Bool} {n : Nat} {t : Token} {ts us : List Token}
    {Q : Stmt → Prop} (ht : t.Leads) (h : Reads simpleStmt (t :: ts) us Q) :
    Reads (stmtUpTo inFunction (n + 1)) (t :: ts) us Q := by
  refine .peek ?_
  split
  · simp [Token.Leads] at ht
  · simp [Token.Leads] at ht
  · simp [Token.Leads] at ht
  · simp [Token.Leads] at ht
  · exact h

end Parser

open ObjLang.Parser (Reads ReadsEach stmtUpTo)

theorem length_lt_blockOf (header body : List Token) :
    body.length < (blockOf header body).length := by
  rw [blockOf, List.length_append, List.length_cons, List.length_cons, List.length_append]
  omega

theorem Branch.length_body_lt (b : Branch) (word : Keyword) :
    (b.body.flatMap Stmt.tokens).length < (b.tokens word).length := by
  obtain ⟨test, body⟩ := b
  rw [Branch.tokens, Stmt.listTokens_eq]
  exact length_lt_blockOf _ _

/-- Each block of a condition statement is shorter than the statement. -/
theorem Stmt.length_bodies {first : Branch} {others : List Branch} {otherwise : List Stmt}
    {span : Span} {n : Nat} (h : (Stmt.cond first others otherwise span).tokens.length ≤ n + 1) :
    (first.body.flatMap Stmt.tokens).length ≤ n ∧
      (∀ b ∈ others, (b.body.flatMap Stmt.tokens).length ≤ n) ∧
      (otherwise.flatMap Stmt.tokens).length ≤ n := by
  rw [Stmt.tokens, List.length_append, List.length_append, Branch.listTokens_eq,
    Stmt.listTokens_eq] at h
  have hfirst := first.length_body_lt .ifKw
  refine ⟨by omega, fun b hb => ?_, ?_⟩
  · have hb' := b.length_body_lt .elifKw
    have hle : (b.tokens .elifKw).length ≤ (others.flatMap (·.tokens .elifKw)).length :=
      Parser.length_le_flatMap (f := fun b => b.tokens .elifKw) hb
    omega
  · cases otherwise with
    | nil => exact Nat.zero_le n
    | cons s ss =>
      rw [List.isEmpty_cons, if_neg Bool.false_ne_true] at h
      have hblock := length_lt_blockOf [.keyword .elseKw, .symbol .colon]
        ((s :: ss).flatMap Stmt.tokens)
      omega

/-- The tokens of a statement are read as the statement. -/
theorem Stmt.Written.reads_upTo {inFunction : Bool} {s : Stmt} (h : s.Written inFunction) :
    ∀ n us, s.tokens.length ≤ n → Follows us →
      Reads (stmtUpTo inFunction n) (s.tokens ++ us) us (·.bare = s.bare) := by
  have hpos : ∀ {s : Stmt} {n : Nat}, s.tokens.length ≤ n → ∃ m, n = m + 1 := fun {s n} hn =>
    Nat.exists_eq_add_of_le' (Nat.le_trans (List.length_pos_iff.2 s.tokens_ne_nil) hn)
  have heach : ∀ {body : List Stmt} {n : Nat}, (∀ s ∈ body, s.Written inFunction) →
      (∀ s ∈ body, ∀ n us, s.tokens.length ≤ n → Follows us →
        Reads (stmtUpTo inFunction n) (s.tokens ++ us) us (·.bare = s.bare)) →
      (body.flatMap Stmt.tokens).length ≤ n → ReadsEach (stmtUpTo inFunction n) body :=
    fun hbody ih hn s hs us => ⟨(hbody s hs).startsStmt us,
      ih s hs _ us (Nat.le_trans (Parser.length_le_flatMap hs) hn)⟩
  induction h with
  | @assign target value span htarget hvalue =>
    intro n us hn hus
    obtain ⟨n, rfl⟩ := hpos hn
    have hread := Parser.reads_assign htarget hvalue hus.ne_nil span
    obtain ⟨t, ts, hts, ht⟩ := htarget.expr.leads
    rw [Stmt.tokens, hts] at hread ⊢
    exact Parser.reads_stmtUpTo_simple ht hread
  | @expr value span hvalue =>
    intro n us hn hus
    obtain ⟨n, rfl⟩ := hpos hn
    have hread := Parser.reads_exprStmt hvalue hus.ne_nil span
    obtain ⟨t, ts, hts, ht⟩ := hvalue.leads
    rw [Stmt.tokens, hts] at hread ⊢
    exact Parser.reads_stmtUpTo_simple ht hread
  | @ret value span hin hvalue =>
    intro n us hn hus
    obtain ⟨n, rfl⟩ := hpos hn
    subst hin
    refine .peek ?_
    exact Parser.reads_returnStmt hvalue hus.ne_nil span
  | pass =>
    intro n us hn hus
    obtain ⟨n, rfl⟩ := hpos hn
    refine .peek ?_
    exact (Parser.reads_advance (by simp) (List.cons_ne_nil _ _)).bind fun _ _ =>
      (Parser.reads_expect _ (by simp) hus.ne_nil).bind fun _ _ => .pure rfl
  | @cond test body others otherwise span htest _ hbody htests _ hbodies hotherwise ihbody ihbodies
      ihotherwise =>
    intro n us hn hus
    obtain ⟨n, rfl⟩ := hpos hn
    obtain ⟨hfirst, hothers, helse⟩ := Stmt.length_bodies hn
    have hread := Parser.reads_condStmt htest (heach hbody ihbody hfirst) htests
      (fun b hb => heach (hbodies b hb) (ihbodies b hb) (hothers b hb))
      (heach hotherwise ihotherwise helse) hus span
    rw [Stmt.tokens, List.append_assoc, Branch.tokens_append] at hread ⊢
    refine .peek ?_
    exact hread
  | @loop test body span htest _ hbody ihbody =>
    intro n us hn hus
    obtain ⟨n, rfl⟩ := hpos hn
    have hlength := Branch.length_body_lt (.mk test body) .whileKw
    rw [Stmt.tokens] at hn
    rw [Stmt.tokens, Branch.tokens_append]
    refine .peek ?_
    refine (Parser.reads_expect _ (by simp) (by simp)).bind fun _ _ => (Parser.reads_branch htest
      (heach hbody ihbody (Nat.le_of_lt_succ (Nat.lt_of_lt_of_le hlength hn))) hus.ne_nil).bind
        fun b hb => (Parser.reads_behind _).bind fun _ _ => .pure ?_
    rw [Stmt.bare, Stmt.bare, hb]

/-- The tokens of a statement are read as the statement. -/
theorem Stmt.Written.reads {inFunction : Bool} {s : Stmt} (h : s.Written inFunction)
    {us : List Token} (hus : Follows us) :
    Reads (Parser.stmt inFunction) (s.tokens ++ us) us (·.bare = s.bare) := by
  refine Reads.get fun c hc => h.reads_upTo _ us ?_ hus
  have hleft := Parser.left_eq hc
  rw [List.length_append] at hleft
  omega

/-- Written statements are read one by one. -/
theorem readsEach_stmt {inFunction : Bool} {body : List Stmt}
    (h : ∀ s ∈ body, s.Written inFunction) : ReadsEach (Parser.stmt inFunction) body :=
  fun s hs us => ⟨(h s hs).startsStmt us, (h s hs).reads⟩

/-! ### Variables -/

namespace Parser

theorem reads_typeName {x : String} {us : List Token} (hus : us ≠ []) :
    Reads typeName (typeToken x :: us) us (·.name = x) := by
  unfold typeToken
  split
  · next hx =>
    refine .peek ?_
    exact (reads_advance (by simp) hus).bind fun _ _ => .pure hx.symm
  · refine .peek ?_
    exact (reads_advance (by simp) hus).bind fun _ _ => .pure rfl

theorem reads_typedName (t : TypedName) {us : List Token} (hus : us ≠ []) :
    Reads typedName (t.tokens ++ us) us (·.bare = t.bare) := by
  refine (reads_ident _ (List.cons_ne_nil _ _)).bind fun name hname =>
    (reads_symbol _ (List.cons_ne_nil _ _)).bind fun _ _ => (reads_typeName hus).bind fun type htype =>
      .pure ?_
  rw [TypedName.bare, TypedName.bare, Ident.bare, Ident.bare, Ident.bare, Ident.bare, hname, htype]

/-- An initial value has its sign with it. -/
theorem reads_literalInit (v : Literal) {us : List Token} (hus : us ≠ []) :
    Reads literalInit (v.tokens ++ us) us (· = v) := by
  cases v with
  | number n =>
    have hrange : Int32.minValue.toInt ≤ n.toInt ∧ n.toInt ≤ Int32.maxValue.toInt :=
      ⟨n.minValue_le_toInt, n.toInt_le⟩
    rw [Literal.tokens]
    split
    · next hneg =>
      refine .eat (by simp) (by simp) (.peek ((reads_here _).bind fun _ _ => ?_))
      have hvalue : -((-n.toInt).toNat : Int) = n.toInt := by omega
      dsimp only
      rw [if_pos rfl, hvalue, if_pos hrange, Int32.ofInt_toInt]
      exact (reads_advance (by simp) hus).bind fun _ _ => .pure rfl
    · next hpos =>
      refine .eat_of_ne (by simp) (.peek ((reads_here _).bind fun _ _ => ?_))
      have hvalue : (n.toInt.toNat : Int) = n.toInt := by omega
      dsimp only
      rw [if_neg Bool.false_ne_true, hvalue, if_pos hrange, Int32.ofInt_toInt]
      exact (reads_advance (by simp) hus).bind fun _ _ => .pure rfl
  | bool b =>
    cases b
    all_goals
      refine .eat_of_ne (by simp) (.peek ((reads_here _).bind fun _ _ => ?_))
      exact (reads_advance (by simp) hus).bind fun _ _ => .pure rfl
  | none =>
    refine .eat_of_ne (by simp) (.peek ((reads_here _).bind fun _ _ => ?_))
    exact (reads_advance (by simp) hus).bind fun _ _ => .pure rfl

theorem reads_varDef {d : VarDef} (hd : d.binding = none) {us : List Token} (hus : us ≠ []) :
    Reads varDef (d.tokens ++ us) us (·.bare = d.bare) := by
  rw [VarDef.tokens, List.append_assoc, List.cons_append, List.append_assoc, List.singleton_append]
  refine (reads_typedName d.var (List.cons_ne_nil _ _)).bind fun var hvar =>
    (reads_symbol _ (by simp)).bind fun _ _ => (reads_here _).bind fun start _ =>
      (reads_literalInit d.init (List.cons_ne_nil _ _)).bind fun init hinit =>
        (reads_behind _).bind fun _ _ => (reads_expect _ (by simp) hus).bind fun _ _ => .pure ?_
  rw [VarDef.bare, VarDef.bare, hvar, hinit, hd]

/-! ### Functions -/

namespace BodyDecl

/-- The tokens of a declaration. -/
def tokens : BodyDecl → List Token
  | scope d => d.tokens
  | var d => d.tokens
  | function d => d.tokens

/-- The declaration without places. -/
def bare : BodyDecl → BodyDecl
  | scope d => scope d.bare
  | var d => var d.bare
  | function d => function d.bare

theorem tokens_ne_nil (d : BodyDecl) : d.tokens ≠ [] := by
  cases d with
  | scope d => exact List.cons_ne_nil _ _
  | var d => exact d.tokens_ne_nil
  | function d => exact d.tokens_ne_nil

/-- The declarations of a function, in the order in which they are written. -/
def ordered (decls : List ScopeDecl) (vars : List VarDef) (nested : List FunDef) : List BodyDecl :=
  decls.map scope ++ (vars.map var ++ nested.map function)

end BodyDecl

theorem headerTokens_append (name : Ident) (params : List TypedName) (ret : Option Ident)
    (us : List Token) :
    headerTokens name params ret ++ us = .keyword .defKw :: .name name.name :: .symbol .leftParen ::
      (separated (params.map TypedName.tokens) ++ .symbol .rightParen ::
        (retTokens ret ++ .symbol .colon :: us)) := by
  simp only [headerTokens, bracketed, List.cons_append, List.append_assoc, List.nil_append]

theorem reads_params (params : List TypedName) (us : List Token) :
    Reads (commaSeparated typedName)
      (separated (params.map TypedName.tokens) ++ .symbol .rightParen :: us)
      (.symbol .rightParen :: us) fun ts => ts.map TypedName.bare = params.map TypedName.bare :=
  reads_commaSeparated (fun _ _ => ⟨_, _, rfl, by simp⟩)
    fun t _ _ _ _ => reads_typedName t (List.cons_ne_nil _ _)

theorem reads_scopeDecl {d : ScopeDecl} {us : List Token} (hus : us ≠ []) :
    Reads (scopeDecl d.kind) (d.tokens ++ us) us (·.bare = d.bare) := by
  refine (reads_advance (by simp) (List.cons_ne_nil _ _)).bind fun _ _ =>
    (reads_ident _ (List.cons_ne_nil _ _)).bind fun x hx =>
      (reads_expect _ (by simp) hus).bind fun _ _ => .pure ?_
  rw [ScopeDecl.bare, ScopeDecl.bare, Ident.bare, Ident.bare, hx]

theorem reads_nextBodyDecl? {nested : Parser FunDef} {d : BodyDecl} {us : List Token}
    (hus : us ≠ []) (hvar : ∀ v, d = .var v → v.binding = none)
    (hnested : ∀ e, d = .function e → Reads nested (e.tokens ++ us) us (·.bare = e.bare)) :
    Reads (nextBodyDecl? nested) (d.tokens ++ us) us fun o => ∃ a, o = some a ∧ a.bare = d.bare := by
  refine Reads.get fun c hc => ?_
  cases d with
  | scope d =>
    have hread := reads_scopeDecl (d := d) hus
    obtain ⟨name, kind, span⟩ := d
    rw [current_eq hc]
    cases kind
    all_goals
      exact hread.bind fun a ha => .pure ⟨_, rfl, congrArg BodyDecl.scope ha⟩
  | var d =>
    have hat := Cursor.atVarDef_of_tokens hc
    rw [current_eq hc]
    dsimp only
    rw [if_pos hat]
    exact (reads_varDef (hvar d rfl) hus).bind fun a ha => .pure ⟨_, rfl, congrArg BodyDecl.var ha⟩
  | function d =>
    have hread := hnested d rfl
    obtain ⟨name, params, ret, decls, vars, functions, body, span, id⟩ := d
    rw [current_eq hc]
    exact hread.bind fun a ha => .pure ⟨_, rfl, congrArg BodyDecl.function ha⟩

theorem reads_nextBodyDecl?_end {nested : Parser FunDef} {us : List Token} (hus : StartsStmt us) :
    Reads (nextBodyDecl? nested) us us (· = none) := by
  refine Reads.get fun c hc => ?_
  have hvar := Cursor.not_atVarDef (c := c) (by rw [hc]; exact hus.noVarDef)
  obtain ⟨t, ts, rfl, ht⟩ := hus.head
  rw [current_eq hc]
  split
  · cases ht
  · cases ht
  · cases ht
  · rw [hvar, if_neg Bool.false_ne_true]
    exact .pure rfl

theorem length_le_ordered (decls : List ScopeDecl) (vars : List VarDef) {nested : List FunDef}
    {e : FunDef} (he : e ∈ nested) :
    e.tokens.length ≤ ((BodyDecl.ordered decls vars nested).flatMap BodyDecl.tokens).length := by
  have hmem : BodyDecl.function e ∈ BodyDecl.ordered decls vars nested :=
    List.mem_append_right _ (List.mem_append_right _ (List.mem_map_of_mem he))
  exact length_le_flatMap (f := BodyDecl.tokens) hmem

theorem reads_decls {nested : Parser FunDef} {decls : List ScopeDecl} {vars : List VarDef}
    {functions : List FunDef} {us : List Token} (hus : StartsStmt us)
    (hvars : ∀ v ∈ vars, v.Written)
    (hnested : ∀ e ∈ functions, ∀ vs, vs ≠ [] → Reads nested (e.tokens ++ vs) vs (·.bare = e.bare)) :
    Reads (collect (nextBodyDecl? nested))
      ((BodyDecl.ordered decls vars functions).flatMap BodyDecl.tokens ++ us) us fun ds =>
        ds.map BodyDecl.bare = (BodyDecl.ordered decls vars functions).map BodyDecl.bare := by
  refine reads_collect (P := (· ≠ [])) (fun d _ vs hvs => List.append_ne_nil_of_right_ne_nil _ hvs)
    hus.follows.ne_nil (reads_nextBodyDecl?_end hus) (fun d _ => d.tokens_ne_nil)
    fun d hd vs hvs => reads_nextBodyDecl? hvs ?_ ?_
  · rintro v rfl
    simp only [BodyDecl.ordered, List.mem_append, List.mem_map] at hd
    obtain ⟨_, _, h⟩ | ⟨w, hw, h⟩ | ⟨_, _, h⟩ := hd
    · cases h
    · cases h
      exact (hvars v hw).binding
    · cases h
  · rintro e rfl
    simp only [BodyDecl.ordered, List.mem_append, List.mem_map] at hd
    obtain ⟨_, _, h⟩ | ⟨_, _, h⟩ | ⟨e', he, h⟩ := hd
    · cases h
    · cases h
    · cases h
      exact hnested e he vs hvs

/-- Items of one kind without places are among the items without places. -/
theorem map_filterMap_comm {α β : Type} {f : α → Option β} {g : α → α} {h : β → β}
    (hf : ∀ a, f (g a) = (f a).map h) (as : List α) :
    (as.filterMap f).map h = (as.map g).filterMap f := by
  rw [List.map_filterMap, List.filterMap_map]
  exact congrArg (List.filterMap · as) (funext fun a => (hf a).symm)

theorem filterMap_ordered (decls : List ScopeDecl) (vars : List VarDef) (nested : List FunDef) :
    (BodyDecl.ordered decls vars nested).filterMap BodyDecl.scope? = decls ∧
      (BodyDecl.ordered decls vars nested).filterMap BodyDecl.var? = vars ∧
      (BodyDecl.ordered decls vars nested).filterMap BodyDecl.function? = nested := by
  simp [BodyDecl.ordered, List.filterMap_map, Function.comp_def, BodyDecl.scope?, BodyDecl.var?,
    BodyDecl.function?]

/-- Declarations of each kind keep their order. -/
theorem filterMap_of_bare_eq {ds : List BodyDecl} {decls : List ScopeDecl} {vars : List VarDef}
    {nested : List FunDef}
    (h : ds.map BodyDecl.bare = (BodyDecl.ordered decls vars nested).map BodyDecl.bare) :
    (ds.filterMap BodyDecl.scope?).map ScopeDecl.bare = decls.map ScopeDecl.bare ∧
      (ds.filterMap BodyDecl.var?).map VarDef.bare = vars.map VarDef.bare ∧
      (ds.filterMap BodyDecl.function?).map FunDef.bare = nested.map FunDef.bare := by
  obtain ⟨hdecls, hvars, hnested⟩ := filterMap_ordered decls vars nested
  have hscope : ∀ d : BodyDecl, d.bare.scope? = d.scope?.map ScopeDecl.bare := by
    rintro (d | d | d) <;> rfl
  have hvar : ∀ d : BodyDecl, d.bare.var? = d.var?.map VarDef.bare := by
    rintro (d | d | d) <;> rfl
  have hfunction : ∀ d : BodyDecl, d.bare.function? = d.function?.map FunDef.bare := by
    rintro (d | d | d) <;> rfl
  refine ⟨?_, ?_, ?_⟩
  · rw [map_filterMap_comm hscope, h, ← map_filterMap_comm hscope, hdecls]
  · rw [map_filterMap_comm hvar, h, ← map_filterMap_comm hvar, hvars]
  · rw [map_filterMap_comm hfunction, h, ← map_filterMap_comm hfunction, hnested]

end Parser

theorem FunDef.tokens_append (d : FunDef) (us : List Token) :
    d.tokens ++ us = .keyword .defKw :: .name d.name.name :: .symbol .leftParen ::
      (separated (d.params.map TypedName.tokens) ++ .symbol .rightParen ::
        (retTokens d.ret ++ .symbol .colon :: .newline :: .indent ::
          ((Parser.BodyDecl.ordered d.decls d.vars d.nested).flatMap Parser.BodyDecl.tokens ++
            (d.body.flatMap Stmt.tokens ++ .dedent :: us)))) := by
  obtain ⟨name, params, ret, decls, vars, nested, body, span, id⟩ := d
  simp only [FunDef.tokens, FunDef.listTokens_eq, blockOf_append, Parser.headerTokens_append,
    Parser.BodyDecl.ordered, List.flatMap_append, List.flatMap_map, Parser.BodyDecl.tokens, List.append_assoc]

theorem FunDef.length_nested_lt (d : FunDef) : ∀ e ∈ d.nested, e.tokens.length < d.tokens.length := by
  intro e he
  have hle := Parser.length_le_ordered d.decls d.vars he
  have htokens := congrArg List.length (FunDef.tokens_append d [])
  simp only [List.length_append, List.length_cons, List.length_nil] at htokens
  omega

namespace Parser

theorem reads_ret {ret : Option Ident} {rest : Option Ident → Parser FunDef} {us vs : List Token}
    {Q : FunDef → Prop} (h : ∀ r, r.map Ident.bare = ret.map Ident.bare → Reads (rest r) (.symbol .colon :: us) vs Q) :
    Reads (do
        if ← eat (.symbol .arrow) then
          let r ← some <$> typeName
          rest r
        else
          rest none)
      (retTokens ret ++ .symbol .colon :: us) vs Q := by
  cases ret with
  | none =>
    refine .eat_of_ne (by simp) ?_
    exact h none rfl
  | some t =>
    refine .eat (by simp) (List.cons_ne_nil _ _) ?_
    refine Reads.bind (Q := fun r => r.map Ident.bare = some t.bare) ?_ h
    refine (reads_typeName (List.cons_ne_nil _ _)).bind fun u hu => .pure ?_
    rw [Option.map_some, Ident.bare, Ident.bare, hu]

theorem reads_funDefWith {nested : Parser FunDef} {d : FunDef} (hw : d.Written) {us : List Token}
    (hus : us ≠ [])
    (hnested : ∀ e ∈ d.nested, ∀ vs, vs ≠ [] → Reads nested (e.tokens ++ vs) vs (·.bare = e.bare)) :
    Reads (funDefWith nested) (d.tokens ++ us) us (·.bare = d.bare) := by
  obtain ⟨_, _, _, _, hvars, _, hne, hbody, hid⟩ := hw
  rw [FunDef.tokens_append]
  have hstarts : StartsStmt (d.body.flatMap Stmt.tokens ++ .dedent :: us) := by
    obtain ⟨s, ss, hss⟩ := List.exists_cons_of_ne_nil hne
    rw [hss, List.flatMap_cons, List.append_assoc]
    exact (hbody s (hss ▸ List.mem_cons_self)).startsStmt _
  refine (reads_expect _ (by simp) (List.cons_ne_nil _ _)).bind fun start _ =>
    (reads_ident _ (List.cons_ne_nil _ _)).bind fun name hname => (reads_symbol _ (by simp)).bind
      fun _ _ => (reads_params d.params _).bind fun params hparams =>
        (reads_symbol _ (by simp)).bind fun _ _ => reads_ret fun ret hret => ?_
  refine (reads_symbol _ (List.cons_ne_nil _ _)).bind fun _ _ =>
    (reads_expect _ (by simp) (List.cons_ne_nil _ _)).bind fun _ _ =>
      (reads_expect _ (by simp) (by simp)).bind fun _ _ =>
        (reads_decls hstarts hvars hnested).bind fun ds hds =>
          (reads_stmts false (readsEach_stmt hbody)).bind fun body hbodies => ?_
  have hnonempty : body.isEmpty = false := by
    cases body with
    | nil => exact absurd (List.map_eq_nil_iff.1 hbodies.symm) hne
    | cons s ss => rfl
  rw [hnonempty, if_neg Bool.false_ne_true]
  refine (reads_behind _).bind fun _ _ => (reads_expect _ (by simp) hus).bind fun _ _ => .pure ?_
  obtain ⟨hdecls, hvarsEq, hfunctions⟩ := filterMap_of_bare_eq hds
  obtain ⟨name', params', ret', decls', vars', nested', body', span', id'⟩ := d
  simp only [FunDef.bare, FunDef.listBare_eq, FunDef.mk.injEq] at *
  refine ⟨?_, hparams, hret, hdecls, hvarsEq, hfunctions, hbodies, trivial, hid.symm⟩
  rw [Ident.bare, Ident.bare, hname]

end Parser

open ObjLang.Parser (funDefUpTo)

/-- The tokens of a function definition are read as the definition. -/
theorem FunDef.Written.reads_upTo {d : FunDef} (h : d.Written) :
    ∀ n us, d.tokens.length ≤ n → us ≠ [] →
      Reads (funDefUpTo n) (d.tokens ++ us) us (·.bare = d.bare) := by
  induction h with
  | @intro d hname hparams hret hdecls hvars hnested hne hbody hid ih =>
    intro n us hn hus
    obtain ⟨n, rfl⟩ := Nat.exists_eq_add_of_le'
      (Nat.le_trans (List.length_pos_iff.2 d.tokens_ne_nil) hn)
    refine Parser.reads_funDefWith (.intro hname hparams hret hdecls hvars hnested hne hbody hid) hus
      fun e he vs hvs => ih e he n vs ?_ hvs
    exact Nat.le_of_lt_succ (Nat.lt_of_lt_of_le (d.length_nested_lt e he) hn)

theorem FunDef.Written.reads {d : FunDef} (h : d.Written) {us : List Token} (hus : us ≠ []) :
    Reads Parser.funDef (d.tokens ++ us) us (·.bare = d.bare) := by
  refine Reads.get fun c hc => h.reads_upTo _ us ?_ hus
  have hleft := Parser.left_eq hc
  rw [List.length_append] at hleft
  omega

end ObjLang
