import ObjLang.Proofs.Tree.Written

/-!
# ObjLang.Proofs.Tree.Placed — the places in the trees that are read

The reader takes the places of tokens and merges them.  So what holds of the places of tokens that stand
for text and is kept by `merge` holds of all places in a tree, and each fault is reported at such a place
or at the end of the text.
-/

namespace ObjLang

/-! ### Trees -/

section

variable (P : Span → Prop)

/-- All places in an expression have a property. -/
inductive Expr.Placed : Expr → Prop
  | literal {info : ExprInfo} {v : Literal} (h : P info.span) : Placed (.literal info v)
  | name {info : ExprInfo} {x : String} {v : Option VarId} (h : P info.span) :
    Placed (.name info x v)
  | unary {info : ExprInfo} {op : UnaryOp} {e : Expr} (h : P info.span) (he : Placed e) :
    Placed (.unary info op e)
  | binary {info : ExprInfo} {op : BinaryOp} {l r : Expr} (h : P info.span) (hl : Placed l)
    (hr : Placed r) : Placed (.binary info op l r)
  | call {info : ExprInfo} {f : Ident} {args : List Expr} {target : Option CallTarget}
    (h : P info.span) (hf : P f.span) (hargs : ∀ a ∈ args, Placed a) :
    Placed (.call info f args target)
  | field {info : ExprInfo} {object : Expr} {f : Ident} (h : P info.span) (hobject : Placed object)
    (hf : P f.span) : Placed (.field info object f)
  | method {info : ExprInfo} {object : Expr} {m : Ident} {args : List Expr} (h : P info.span)
    (hobject : Placed object) (hm : P m.span) (hargs : ∀ a ∈ args, Placed a) :
    Placed (.method info object m args)

/-- All places in an assignment target have a property. -/
inductive Target.Placed : Target → Prop
  | name {x : Ident} {v : Option VarId} (hx : P x.span) : Placed (.name x v)
  | field {object : Expr} {f : Ident} (hobject : object.Placed P) (hf : P f.span) :
    Placed (.field object f)

/-- All places in a statement have a property. -/
inductive Stmt.Placed : Stmt → Prop
  | assign {target : Target} {value : Expr} {span : Span} (h : P span) (htarget : target.Placed P)
    (hvalue : value.Placed P) : Placed (.assign target value span)
  | expr {value : Expr} {span : Span} (h : P span) (hvalue : value.Placed P) :
    Placed (.expr value span)
  | ret {value : Expr} {span : Span} (h : P span) (hvalue : value.Placed P) :
    Placed (.ret value span)
  | pass {span : Span} (h : P span) : Placed (.pass span)
  | cond {test : Expr} {body : List Stmt} {others : List Branch} {otherwise : List Stmt}
    {span : Span} (h : P span) (htest : test.Placed P) (hbody : ∀ s ∈ body, Placed s)
    (htests : ∀ b ∈ others, b.test.Placed P) (hbodies : ∀ b ∈ others, ∀ s ∈ b.body, Placed s)
    (hotherwise : ∀ s ∈ otherwise, Placed s) :
    Placed (.cond (.mk test body) others otherwise span)
  | loop {test : Expr} {body : List Stmt} {span : Span} (h : P span) (htest : test.Placed P)
    (hbody : ∀ s ∈ body, Placed s) : Placed (.loop (.mk test body) span)

/-- All places in a branch have a property. -/
structure Branch.Placed (b : Branch) : Prop where
  test : b.test.Placed P
  body : ∀ s ∈ b.body, s.Placed P

/-- Both places of a typed name have a property. -/
structure TypedName.Placed (t : TypedName) : Prop where
  name : P t.name.span
  type : P t.type.span

/-- All places in a variable definition have a property. -/
structure VarDef.Placed (d : VarDef) : Prop where
  var : d.var.Placed P
  init : P d.initSpan
  span : P d.span

/-- All places in a scope declaration have a property. -/
structure ScopeDecl.Placed (d : ScopeDecl) : Prop where
  name : P d.name.span
  span : P d.span

/-- All places in a function definition have a property. -/
inductive FunDef.Placed : FunDef → Prop
  | intro {d : FunDef} (hspan : P d.span) (hname : P d.name.span)
    (hparams : ∀ t ∈ d.params, t.Placed P) (hret : ∀ t, d.ret = some t → P t.span)
    (hdecls : ∀ s ∈ d.decls, s.Placed P) (hvars : ∀ v ∈ d.vars, v.Placed P)
    (hnested : ∀ e ∈ d.nested, Placed e) (hbody : ∀ s ∈ d.body, s.Placed P) : Placed d

/-- All places in a class definition have a property. -/
structure ClassDef.Placed (d : ClassDef) : Prop where
  span : P d.span
  name : P d.name.span
  superclass : P d.superclass.span
  fields : ∀ v ∈ d.fields, v.Placed P
  methods : ∀ m ∈ d.methods, m.Placed P

/-- All places in the definitions and the statements of a program have a property. -/
structure Program.Placed (p : Program) : Prop where
  vars : ∀ d ∈ p.vars, d.Placed P
  functions : ∀ d ∈ p.functions, d.Placed P
  classes : ∀ d ∈ p.classes, d.Placed P
  body : ∀ s ∈ p.body, s.Placed P

end

theorem Expr.Placed.span {P : Span → Prop} {e : Expr} (h : e.Placed P) : P e.span := by
  cases h <;> assumption

theorem FunDef.Placed.name {P : Span → Prop} {d : FunDef} (h : d.Placed P) : P d.name.span := by
  cases h
  assumption

theorem FunDef.Placed.span {P : Span → Prop} {d : FunDef} (h : d.Placed P) : P d.span := by
  cases h
  assumption

/-! ### Places of tokens -/

/-- A property of places that merging keeps, and the place of the tokens that close a text. -/
structure Places where
  Holds : Span → Prop
  last : Span
  merge : ∀ {s t}, Holds s → Holds t → Holds (s.merge t)
  merge_last : ∀ {s}, Holds s → Holds (s.merge last)

namespace Places

variable (S : Places)

/-- A place with the property, or the one that closes the text. -/
def Edge (s : Span) : Prop := S.Holds s ∨ s = S.last

/-- A token at its place. -/
structure Token (l : Lexeme) : Prop where
  edge : S.Edge l.span
  holds : l.token ≠ .dedent → l.token ≠ .eof → S.Holds l.span

/-- A cursor on tokens at their places. -/
structure Cursor (c : ObjLang.Cursor) : Prop where
  tokens : ∀ l ∈ c.current :: c.ahead, S.Token l
  previous : S.Edge c.previous

variable {S}

theorem Holds.merge_edge {s t : Span} (hs : S.Holds s) (ht : S.Edge t) : S.Holds (s.merge t) := by
  obtain ht | rfl := ht
  · exact S.merge hs ht
  · exact S.merge_last hs

theorem Cursor.current {c : ObjLang.Cursor} (h : S.Cursor c) : S.Token c.current :=
  h.tokens _ List.mem_cons_self

theorem Cursor.next {c : ObjLang.Cursor} (h : S.Cursor c) : S.Cursor c.next := by
  unfold ObjLang.Cursor.next
  split
  · exact h
  · split
    · exact h
    · next l ls hls =>
      refine ⟨fun m hm => h.tokens m ?_, h.current.edge⟩
      rw [hls]
      exact List.mem_cons_of_mem _ hm

end Places

namespace Parser

variable {α β : Type} {S : Places}

/-- In front of `t`, a parser that fails at a place and otherwise gives a value with a property. -/
def StaysAt (S : Places) (t : Token) (p : Parser α) (Q : α → Prop) : Prop :=
  ∀ c, S.Cursor c → c.current.token = t → (∀ e, p c = .error e → S.Edge e.span) ∧
    ∀ a c', p c = .ok (a, c') → S.Cursor c' ∧ Q a

/-- A parser that fails at a place and otherwise gives a value with a property. -/
def Stays (S : Places) (p : Parser α) (Q : α → Prop) : Prop := ∀ t, StaysAt S t p Q

section

variable {t : Token} {Q Q' : α → Prop} {R : β → Prop}

theorem StaysAt.bind {p : Parser α} {f : α → Parser β} (hp : StaysAt S t p Q)
    (hf : ∀ a, Q a → Stays S (f a) R) : StaysAt S t (p >>= f) R := by
  intro c hc ht
  obtain ⟨hfails, hgives⟩ := hp c hc ht
  refine ⟨fun e he => ?_, fun b c' h => ?_⟩
  · obtain he | ⟨a, c₁, hrun, he⟩ := bind_eq_error.1 he
    · exact hfails e he
    · obtain ⟨hc₁, ha⟩ := hgives a c₁ hrun
      exact (hf a ha _ c₁ hc₁ rfl).1 e he
  · obtain ⟨a, c₁, hrun, h⟩ := bind_eq_ok.1 h
    obtain ⟨hc₁, ha⟩ := hgives a c₁ hrun
    exact (hf a ha _ c₁ hc₁ rfl).2 b c' h

theorem Stays.bind {p : Parser α} {f : α → Parser β} (hp : Stays S p Q)
    (hf : ∀ a, Q a → Stays S (f a) R) : Stays S (p >>= f) R :=
  fun t => (hp t).bind hf

theorem Stays.pure {a : α} (h : Q a) : Stays S (Pure.pure a) Q := by
  intro t c hc ht
  refine ⟨nofun, fun b c' hrun => ?_⟩
  obtain ⟨rfl, rfl⟩ := Prod.mk.inj (pure_eq_ok.1 hrun)
  exact ⟨hc, h⟩

theorem Stays.throw {e : ParseError} (h : S.Edge e.span) :
    Stays S (MonadExcept.throw e : Parser α) Q := by
  intro t c hc ht
  refine ⟨fun e' he => ?_, fun a c' hrun => (throw_eq_ok.1 hrun).elim⟩
  cases he
  exact h

/-- A parser that starts with a look at the cursor. -/
theorem Stays.get {f : Cursor → Parser β} (hf : ∀ c, StaysAt S c.current.token (f c) R) :
    Stays S (MonadState.get >>= f) R :=
  fun _ c hc _ => hf c c hc rfl

/-- A parser that starts with a look at the current token. -/
theorem StaysAt.peek {f : Token → Parser β} (hf : StaysAt S t (f t) R) :
    StaysAt S t (Parser.peek >>= f) R := by
  rintro c hc rfl
  exact hf c hc rfl

theorem Stays.peek {f : Token → Parser β} (hf : ∀ t, StaysAt S t (f t) R) :
    Stays S (Parser.peek >>= f) R :=
  fun t => (hf t).peek

/-- A parser that starts with the place of the current token. -/
theorem StaysAt.here {f : Span → Parser β} (hf : ∀ s, S.Edge s →
    (t ≠ .dedent → t ≠ .eof → S.Holds s) → StaysAt S t (f s) R) :
    StaysAt S t (Parser.here >>= f) R := by
  rintro c hc rfl
  exact hf _ hc.current.edge hc.current.holds c hc rfl

theorem Stays.ite {b : Prop} [Decidable b] {p q : Parser α} (hp : Stays S p Q) (hq : Stays S q Q) :
    Stays S (if b then p else q) Q := by
  split
  · exact hp
  · exact hq

end

/-! ### Single tokens -/

section

variable {t : Token} {Q : α → Prop} {R : β → Prop}

theorem stays_advance : StaysAt S t advance fun s => t ≠ .dedent → t ≠ .eof → S.Holds s := by
  rintro c hc rfl
  refine ⟨fun e he => ?_, fun s c' h => ?_⟩
  · cases he
  · cases h
    exact ⟨hc.next, hc.current.holds⟩

theorem stays_behind : Stays S behind S.Edge := by
  intro t c hc ht
  refine ⟨fun e he => ?_, fun s c' h => ?_⟩
  · cases he
  · cases h
    exact ⟨hc, hc.previous⟩

theorem stays_fail (cause : ParseError.Cause) : Stays S (fail cause : Parser α) Q :=
  fun _ => .here fun _ hs _ => Stays.throw hs _

theorem stays_unexpected (what : String) : Stays S (unexpected what : Parser α) Q :=
  .peek fun _ => stays_fail _ _

/-- A parser that starts with a token that may be there. -/
theorem StaysAt.eat {u : Token} {f : Bool → Parser β} (hyes : t = u → Stays S (f true) R)
    (hno : t ≠ u → StaysAt S t (f false) R) : StaysAt S t (Parser.eat u >>= f) R := by
  unfold Parser.eat
  rw [bind_assoc]
  refine .peek ?_
  split
  · next hu =>
    rw [bind_assoc]
    refine stays_advance.bind fun _ _ => ?_
    rw [pure_bind]
    exact hyes hu
  · next hu =>
    rw [pure_bind]
    exact hno hu

theorem stays_eat (u : Token) : Stays S (eat u) fun _ => True :=
  .peek fun t => by
    split
    · exact stays_advance.bind fun _ _ => .pure trivial
    · exact Stays.pure trivial _

theorem stays_expect (u : Token) (what : String) :
    Stays S (expect u what) fun s => u ≠ .dedent → u ≠ .eof → S.Holds s :=
  .peek fun t => by
    split
    · next h =>
      subst h
      exact stays_advance
    · exact stays_unexpected _ _

theorem stays_ident (what : String) : Stays S (ident what) fun i => S.Holds i.span :=
  .peek fun t => by
    split
    · exact stays_advance.bind fun s hs => .pure (hs nofun nofun)
    · exact stays_unexpected _ _

/-! ### Repetition -/

theorem stays_collectUpTo {next : Parser (Option α)}
    (h : Stays S next fun o => ∀ a, o = some a → Q a) (n : Nat) :
    Stays S (collectUpTo next n) fun as => ∀ a ∈ as, Q a := by
  induction n with
  | zero => exact stays_fail _
  | succ n ih =>
    refine h.bind fun o ho => ?_
    cases o with
    | none => exact .pure fun a ha => absurd ha List.not_mem_nil
    | some a => exact ih.bind fun as has => .pure (List.forall_mem_cons.2 ⟨ho a rfl, has⟩)

theorem stays_collect {next : Parser (Option α)} (h : Stays S next fun o => ∀ a, o = some a → Q a) :
    Stays S (collect next) fun as => ∀ a ∈ as, Q a :=
  Stays.get fun _ => stays_collectUpTo h _ _

theorem stays_foldMore {more : α → Parser (Option α)}
    (h : ∀ a, Q a → Stays S (more a) fun o => ∀ b, o = some b → Q b) {a : α} (ha : Q a) :
    Stays S (foldMore more a) Q := by
  refine Stays.get fun c => ?_
  generalize c.left + 2 = n
  suffices hany : Stays S (foldMoreUpTo more n a) Q from hany _
  induction n generalizing a with
  | zero => exact stays_fail _
  | succ n ih =>
    refine (h a ha).bind fun o ho => ?_
    cases o with
    | none => exact .pure ha
    | some b => exact ih (ho b rfl)

/-- One step of a repetition that a token announces. -/
theorem stays_announced {u : Token} {item : Parser α} (h : Stays S item Q) :
    Stays S (do if ← eat u then return some (← item) else return none)
      fun o => ∀ a, o = some a → Q a := by
  refine (stays_eat u).bind fun b _ => ?_
  split
  · exact h.bind fun b hb => .pure fun b' hb' => Option.some.inj hb' ▸ hb
  · exact .pure fun b hb => absurd hb nofun

theorem stays_commaSeparated {item : Parser α} (h : Stays S item Q) :
    Stays S (commaSeparated item) fun as => ∀ a ∈ as, Q a := by
  refine Stays.peek fun t => ?_
  split
  · exact Stays.pure (fun a ha => absurd ha List.not_mem_nil) _
  · exact (h.bind fun a ha => (stays_collect (stays_announced h)).bind fun as has =>
      .pure (List.forall_mem_cons.2 ⟨ha, has⟩)) _

end

/-! ### Expressions -/

section

variable {inner operand : Parser Expr}

theorem stays_arguments (h : Stays S inner (Expr.Placed S.Holds)) :
    Stays S (arguments inner) fun as => ∀ a ∈ as, a.Placed S.Holds :=
  (stays_expect _ _).bind fun _ _ => (stays_commaSeparated h).bind fun _ has =>
    (stays_expect _ _).bind fun _ _ => .pure has

theorem stays_atom (h : Stays S inner (Expr.Placed S.Holds)) :
    Stays S (atom inner) (Expr.Placed S.Holds) := by
  refine Stays.peek fun t => ?_
  split
  · refine stays_advance.bind fun s hs => ?_
    split
    · exact .pure (.literal (hs nofun nofun))
    · exact .throw (.inl (hs nofun nofun))
  · exact stays_advance.bind fun s hs => .pure (.literal (hs nofun nofun))
  · exact stays_advance.bind fun s hs => .pure (.literal (hs nofun nofun))
  · exact stays_advance.bind fun s hs => .pure (.literal (hs nofun nofun))
  · refine stays_advance.bind fun s hs => .peek fun u => ?_
    have hname : S.Holds s := hs nofun nofun
    split
    · exact ((stays_arguments h).bind fun _ has => stays_behind.bind fun _ hbehind =>
        .pure (.call (hname.merge_edge hbehind) hname has)) _
    · exact Stays.pure (.name hname) _
  · exact stays_advance.bind fun _ _ => h.bind fun _ he => (stays_expect _ _).bind fun _ _ => .pure he
  · exact stays_unexpected _ _

theorem stays_access? (h : Stays S inner (Expr.Placed S.Holds)) {object : Expr}
    (hobject : object.Placed S.Holds) :
    Stays S (access? inner object) fun o => ∀ e, o = some e → e.Placed S.Holds := by
  refine (stays_eat _).bind fun b _ => ?_
  split
  · refine (stays_ident _).bind fun part hpart => .peek fun t => ?_
    split
    · exact ((stays_arguments h).bind fun _ has => stays_behind.bind fun _ hbehind =>
        .pure fun e he => Option.some.inj he ▸
          .method (hobject.span.merge_edge hbehind) hobject hpart has) _
    · exact Stays.pure (fun e he => Option.some.inj he ▸
        .field (S.merge hobject.span hpart) hobject hpart) _
  · exact .pure fun e he => absurd he nofun

theorem stays_accesses (h : Stays S inner (Expr.Placed S.Holds)) :
    Stays S (accesses inner) (Expr.Placed S.Holds) := by
  refine (stays_atom h).bind fun a ha =>
    (stays_foldMore (fun _ => stays_access? h) ha).bind fun e he => .peek fun t => ?_
  split
  · exact stays_fail _ _
  · exact Stays.pure he _

theorem stays_signsUpTo (h : Stays S operand (Expr.Placed S.Holds)) (n : Nat) :
    Stays S (signsUpTo operand n) (Expr.Placed S.Holds) := by
  induction n with
  | zero => exact stays_fail _
  | succ n ih =>
    refine Stays.peek fun t => ?_
    split
    · next ht =>
      subst ht
      refine stays_advance.bind fun start hstart => .peek fun u => ?_
      have hsign : S.Holds start := hstart nofun nofun
      split
      · next hu =>
        subst hu
        exact stays_advance.bind fun stop hstop => .pure (.literal (S.merge hsign (hstop nofun nofun)))
      · exact (ih.bind fun e he => .pure (.unary (S.merge hsign he.span) he)) _
    · exact h _

theorem stays_leftChain {op? : Token → Option BinaryOp} (h : Stays S operand (Expr.Placed S.Holds)) :
    Stays S (leftChain op? operand) (Expr.Placed S.Holds) := by
  refine h.bind fun first hfirst => stays_foldMore (fun left hleft => .peek fun t => ?_) hfirst
  split
  · exact stays_advance.bind fun _ _ => h.bind fun right hright => .pure fun e he =>
      Option.some.inj he ▸ .binary (S.merge hleft.span hright.span) hleft hright
  · exact Stays.pure (fun e he => absurd he nofun) _

theorem stays_compared (h : Stays S operand (Expr.Placed S.Holds)) :
    Stays S (compared operand) (Expr.Placed S.Holds) := by
  refine h.bind fun left hleft => .peek fun t => ?_
  split
  · exact Stays.pure hleft _
  · refine stays_advance.bind fun _ _ => h.bind fun right hright => .peek fun u => ?_
    split
    · exact stays_fail _ _
    · exact Stays.pure (.binary (S.merge hleft.span hright.span) hleft hright) _

theorem stays_negatedUpTo (h : Stays S operand (Expr.Placed S.Holds)) (n : Nat) :
    Stays S (negatedUpTo operand n) (Expr.Placed S.Holds) := by
  induction n with
  | zero => exact stays_fail _
  | succ n ih =>
    refine Stays.peek fun t => ?_
    split
    · next ht =>
      subst ht
      exact stays_advance.bind fun start hstart => ih.bind fun e he =>
        .pure (.unary (S.merge (hstart nofun nofun) he.span) he)
    · exact h _

theorem stays_exprUpTo (n : Nat) : Stays S (exprUpTo n) (Expr.Placed S.Holds) := by
  induction n with
  | zero => exact stays_fail _
  | succ n ih =>
    refine Stays.get fun c => stays_negatedUpTo ?_ _ _
    refine stays_compared (stays_leftChain (stays_leftChain ?_))
    exact Stays.get fun c => stays_signsUpTo (stays_accesses ih) _ _

theorem stays_expr : Stays S expr (Expr.Placed S.Holds) := Stays.get fun _ => stays_exprUpTo _ _

end

/-! ### Statements -/

section

variable {inFunction : Bool} {stmt : Parser Stmt}

theorem stays_nextStmt? (h : Stays S stmt (Stmt.Placed S.Holds)) (inBlock : Bool) :
    Stays S (nextStmt? inBlock stmt) fun o => ∀ s, o = some s → s.Placed S.Holds := by
  refine Stays.get fun c => ?_
  split
  · exact Stays.pure (fun s hs => absurd hs nofun) _
  · split
    · exact stays_fail _ _
    · exact (h.bind fun s hs => .pure fun s' hs' => Option.some.inj hs' ▸ hs) _

theorem stays_block (h : Stays S stmt (Stmt.Placed S.Holds)) :
    Stays S (block stmt) fun body => ∀ s ∈ body, s.Placed S.Holds :=
  (stays_expect _ _).bind fun _ _ => (stays_expect _ _).bind fun _ _ =>
    (stays_collect (stays_nextStmt? h true)).bind fun _ hbody => (stays_expect _ _).bind fun _ _ =>
      .pure hbody

theorem stays_branch (h : Stays S stmt (Stmt.Placed S.Holds)) :
    Stays S (branch stmt) (Branch.Placed S.Holds) :=
  stays_expr.bind fun _ htest => (stays_expect _ _).bind fun _ _ =>
    (stays_block h).bind fun _ hbody => .pure ⟨htest, hbody⟩

theorem stays_condStmt (h : Stays S stmt (Stmt.Placed S.Holds)) :
    Stays S (condStmt stmt) (Stmt.Placed S.Holds) := by
  refine (stays_expect _ _).bind fun start hstart => (stays_branch h).bind fun ⟨test, body⟩ hfirst =>
    (stays_collect (stays_announced (stays_branch h))).bind fun others hothers => ?_
  have hstmt : ∀ otherwise, (∀ s ∈ otherwise, s.Placed S.Holds) → ∀ span, S.Edge span →
      (Stmt.cond (.mk test body) others otherwise (start.merge span)).Placed S.Holds := by
    intro otherwise hotherwise span hspan
    exact .cond ((hstart nofun nofun).merge_edge hspan) hfirst.test hfirst.body
      (fun b hb => (hothers b hb).test) (fun b hb => (hothers b hb).body) hotherwise
  refine (stays_eat _).bind fun b _ => ?_
  split
  · exact (stays_expect _ _).bind fun _ _ => (stays_block h).bind fun otherwise hotherwise =>
      stays_behind.bind fun span hspan => .pure (hstmt otherwise hotherwise span hspan)
  · exact Stays.bind (Q := (· = [])) (.pure rfl) fun otherwise hotherwise =>
      stays_behind.bind fun span hspan => .pure (hstmt otherwise (by simp [hotherwise]) span hspan)

theorem stays_loopStmt (h : Stays S stmt (Stmt.Placed S.Holds)) :
    Stays S (loopStmt stmt) (Stmt.Placed S.Holds) :=
  (stays_expect _ _).bind fun _ hstart => (stays_branch h).bind fun ⟨_, _⟩ hb =>
    stays_behind.bind fun _ hspan =>
      .pure (.loop ((hstart nofun nofun).merge_edge hspan) hb.test hb.body)

theorem stays_returnStmt :
    StaysAt S (.keyword .returnKw) (returnStmt inFunction) (Stmt.Placed S.Holds) := by
  refine stays_advance.bind fun start hstart => ?_
  have hreturn : S.Holds start := hstart nofun nofun
  split
  · exact .throw (.inl hreturn)
  · refine .peek fun t => ?_
    have hrest : ∀ value : Expr, value.Placed S.Holds → Stays S (do
        let _ ← expect .newline "newline after return"
        return Stmt.ret value (start.merge value.span)) (Stmt.Placed S.Holds) :=
      fun value hvalue => (stays_expect _ _).bind fun _ _ =>
        .pure (.ret (S.merge hreturn hvalue.span) hvalue)
    split
    · exact (Stays.pure (.literal hreturn)).bind hrest _
    · exact stays_expr.bind hrest _

theorem targetOf?_placed {P : Span → Prop} {e : Expr} (he : e.Placed P) {t : Target}
    (ht : targetOf? e = some t) : t.Placed P := by
  cases he with
  | name hx =>
    cases ht
    exact .name hx
  | field _ hobject hf =>
    cases ht
    exact .field hobject hf
  | _ => cases ht

theorem stays_simpleStmt : Stays S simpleStmt (Stmt.Placed S.Holds) := by
  refine stays_expr.bind fun left hleft => (stays_eat _).bind fun b _ => ?_
  split
  · refine stays_expr.bind fun value hvalue => ?_
    split
    · next target htarget =>
      exact (stays_expect _ _).bind fun _ _ => .pure
        (.assign (S.merge hleft.span hvalue.span) (targetOf?_placed hleft htarget) hvalue)
    · exact .throw (.inl hleft.span)
  · exact (stays_expect _ _).bind fun _ _ => .pure (.expr hleft.span hleft)

theorem stays_stmtUpTo (inFunction : Bool) (n : Nat) :
    Stays S (stmtUpTo inFunction n) (Stmt.Placed S.Holds) := by
  induction n with
  | zero => exact stays_fail _
  | succ n ih =>
    refine Stays.peek fun t => ?_
    split
    · exact stays_condStmt ih _
    · exact stays_loopStmt ih _
    · exact stays_advance.bind fun _ hspan => (stays_expect _ _).bind fun _ _ =>
        .pure (.pass (hspan nofun nofun))
    · exact stays_returnStmt
    · exact stays_simpleStmt _

theorem stays_stmt (inFunction : Bool) : Stays S (Parser.stmt inFunction) (Stmt.Placed S.Holds) :=
  Stays.get fun _ => stays_stmtUpTo _ _ _

end

/-! ### Definitions -/

theorem stays_typeName : Stays S typeName fun t => S.Holds t.span := by
  refine Stays.peek fun t => ?_
  split
  · exact stays_advance.bind fun _ hs => .pure (hs nofun nofun)
  · exact stays_advance.bind fun _ hs => .pure (hs nofun nofun)
  · exact stays_unexpected _ _

theorem stays_typedName : Stays S typedName (TypedName.Placed S.Holds) :=
  (stays_ident _).bind fun _ hx => (stays_expect _ _).bind fun _ _ =>
    stays_typeName.bind fun _ htype => .pure ⟨hx, htype⟩

/-- A literal does not start with a token that closes the text. -/
theorem stays_literalInit {t : Token} :
    StaysAt S t literalInit fun _ => t ≠ .dedent ∧ t ≠ .eof := by
  refine .eat (fun ht u => ?_) fun _ => ?_
  · subst ht
    refine .peek (.here fun s hs _ => ?_)
    split
    · exact stays_advance.bind fun _ _ => .ite (.pure ⟨nofun, nofun⟩) (.throw hs)
    · exact absurd ‹true = false› nofun
    · exact absurd ‹true = false› nofun
    · exact absurd ‹true = false› nofun
    · exact stays_fail _ _
  · refine .peek (.here fun s hs _ => ?_)
    split
    · exact stays_advance.bind fun _ _ => .ite (.pure ⟨nofun, nofun⟩) (.throw hs)
    · exact stays_advance.bind fun _ _ => .pure ⟨nofun, nofun⟩
    · exact stays_advance.bind fun _ _ => .pure ⟨nofun, nofun⟩
    · exact stays_advance.bind fun _ _ => .pure ⟨nofun, nofun⟩
    · exact stays_fail _ _

theorem stays_varDef : Stays S varDef (VarDef.Placed S.Holds) := by
  refine stays_typedName.bind fun var hvar => (stays_expect _ _).bind fun _ _ t =>
    .here fun start _ hstart => stays_literalInit.bind fun init ht =>
      stays_behind.bind fun stop hstop => (stays_expect _ _).bind fun _ _ => .pure ?_
  have hinit : S.Holds (start.merge stop) := (hstart ht.1 ht.2).merge_edge hstop
  exact ⟨hvar, hinit, S.merge hvar.name hinit⟩

theorem stays_scopeDecl {k : Keyword} (kind : ScopeKind) :
    StaysAt S (.keyword k) (scopeDecl kind) (ScopeDecl.Placed S.Holds) :=
  stays_advance.bind fun _ hstart => (stays_ident _).bind fun _ hx =>
    (stays_expect _ _).bind fun _ _ => .pure ⟨hx, S.merge (hstart nofun nofun) hx⟩

/-- All places in a declaration of a function body have a property. -/
def BodyDecl.Placed (P : Span → Prop) : BodyDecl → Prop
  | .scope d => d.Placed P
  | .var d => d.Placed P
  | .function d => d.Placed P

theorem stays_nextBodyDecl? {nested : Parser FunDef} (h : Stays S nested (FunDef.Placed S.Holds)) :
    Stays S (nextBodyDecl? nested) fun o => ∀ d, o = some d → BodyDecl.Placed S.Holds d := by
  refine Stays.get fun c => ?_
  split
  · exact (h.bind fun d hd => .pure fun e he => Option.some.inj he ▸ hd) _
  · next hc =>
    rw [hc]
    exact (stays_scopeDecl _).bind fun d hd => .pure fun e he => Option.some.inj he ▸ hd
  · next hc =>
    rw [hc]
    exact (stays_scopeDecl _).bind fun d hd => .pure fun e he => Option.some.inj he ▸ hd
  · exact Stays.ite (stays_varDef.bind fun d hd => .pure fun e he => Option.some.inj he ▸ hd)
      (.pure fun e he => absurd he nofun) _

theorem stays_funDefWith {nested : Parser FunDef} (h : Stays S nested (FunDef.Placed S.Holds)) :
    Stays S (funDefWith nested) (FunDef.Placed S.Holds) := by
  refine (stays_expect _ _).bind fun start hstart => (stays_ident _).bind fun name hname =>
    (stays_expect _ _).bind fun _ _ => (stays_commaSeparated stays_typedName).bind
      fun params hparams => (stays_expect _ _).bind fun _ _ => (stays_eat _).bind fun b _ => ?_
  extract_lets rest
  have hrest : ∀ ret : Option Ident, (∀ t, ret = some t → S.Holds t.span) →
      Stays S (rest ret) (FunDef.Placed S.Holds) := by
    intro ret hret
    refine (stays_expect _ _).bind fun _ _ => (stays_expect _ _).bind fun _ _ =>
      (stays_expect _ _).bind fun _ _ => (stays_collect (stays_nextBodyDecl? h)).bind
        fun decls hdecls => (stays_collect (stays_nextStmt? (stays_stmt true) _)).bind
          fun body hbody => .ite (stays_fail _) ?_
    refine stays_behind.bind fun stop hstop => (stays_expect _ _).bind fun _ _ => .pure ?_
    refine .intro ((hstart nofun nofun).merge_edge hstop) hname hparams hret ?_ ?_ ?_ hbody
    · exact forall_mem_filterMap hdecls (by rintro (d | d | d) e ⟨⟩ hd; exact hd)
    · exact forall_mem_filterMap hdecls (by rintro (d | d | d) e ⟨⟩ hd; exact hd)
    · exact forall_mem_filterMap hdecls (by rintro (d | d | d) e ⟨⟩ hd; exact hd)
  split
  · refine Stays.bind (Q := fun ret => ∀ t, ret = some t → S.Holds t.span) ?_ hrest
    exact stays_typeName.bind fun t ht => .pure fun u hu => Option.some.inj hu ▸ ht
  · exact hrest none nofun

theorem stays_funDef : Stays S funDef (FunDef.Placed S.Holds) := by
  refine Stays.get fun c => ?_
  generalize c.left + 2 = n
  suffices hany : Stays S (funDefUpTo n) (FunDef.Placed S.Holds) from hany _
  induction n with
  | zero => exact stays_fail _
  | succ n ih => exact stays_funDefWith ih

/-- All places in an item of a class have a property. -/
def ClassItem.Placed (P : Span → Prop) : ClassItem → Prop
  | .field d => d.Placed P
  | .method d => d.Placed P
  | .pass => True

theorem stays_nextClassItem? :
    Stays S nextClassItem? fun o => ∀ i, o = some i → ClassItem.Placed S.Holds i := by
  refine Stays.get fun c => ?_
  split
  · exact Stays.pure (fun i hi => absurd hi nofun) _
  · exact Stays.pure (fun i hi => absurd hi nofun) _
  · exact (stays_funDef.bind fun d hd => .pure fun i hi => Option.some.inj hi ▸ hd) _
  · exact stays_advance.bind fun _ _ => (stays_expect _ _).bind fun _ _ =>
      .pure fun i hi => Option.some.inj hi ▸ trivial
  · exact Stays.ite (stays_varDef.bind fun d hd => .pure fun i hi => Option.some.inj hi ▸ hd)
      (stays_fail _) _

theorem stays_classDef : Stays S classDef (ClassDef.Placed S.Holds) := by
  refine (stays_expect _ _).bind fun start hstart => (stays_ident _).bind fun name hname =>
    (stays_expect _ _).bind fun _ _ => (stays_ident _).bind fun superclass hsuperclass =>
      (stays_expect _ _).bind fun _ _ => (stays_expect _ _).bind fun _ _ =>
        (stays_expect _ _).bind fun _ _ => (stays_expect _ _).bind fun _ _ =>
          (stays_collect stays_nextClassItem?).bind fun items hitems =>
            stays_behind.bind fun stop hstop => (stays_expect _ _).bind fun _ _ => .pure ?_
  refine ⟨(hstart nofun nofun).merge_edge hstop, hname, hsuperclass, ?_, ?_⟩
  · exact forall_mem_filterMap hitems (by rintro (d | d | _) e ⟨⟩ hd; exact hd)
  · exact forall_mem_filterMap hitems (by rintro (d | d | _) e ⟨⟩ hd; exact hd)

/-- All places in a definition of a program have a property. -/
def TopDecl.Placed (P : Span → Prop) : TopDecl → Prop
  | .var d => d.Placed P
  | .function d => d.Placed P
  | .classDef d => d.Placed P

theorem stays_nextTopDecl? :
    Stays S nextTopDecl? fun o => ∀ d, o = some d → TopDecl.Placed S.Holds d := by
  refine Stays.get fun c => ?_
  split
  · exact (stays_funDef.bind fun d hd => .pure fun e he => Option.some.inj he ▸ hd) _
  · exact (stays_classDef.bind fun d hd => .pure fun e he => Option.some.inj he ▸ hd) _
  · exact Stays.ite (stays_varDef.bind fun d hd => .pure fun e he => Option.some.inj he ▸ hd)
      (.pure fun e he => absurd he nofun) _

theorem stays_nextTopStmt? :
    Stays S nextTopStmt? fun o => ∀ s, o = some s → s.Placed S.Holds := by
  refine Stays.get fun c => ?_
  split
  · exact Stays.pure (fun s hs => absurd hs nofun) _
  · split
    · exact stays_fail _ _
    · exact ((stays_stmt false).bind fun s hs => .pure fun s' hs' => Option.some.inj hs' ▸ hs) _

theorem stays_program : Stays S program (Program.Placed S.Holds) := by
  refine fun t => .here fun start _ _ => ?_
  refine ((stays_collect stays_nextTopDecl?).bind fun decls hdecls =>
    (stays_collect stays_nextTopStmt?).bind fun body hbody u => .here fun stop _ _ => ?_) t
  refine Stays.pure ⟨?_, ?_, ?_, hbody⟩ _
  · exact forall_mem_filterMap hdecls (by rintro (d | d | d) e ⟨⟩ hd; exact hd)
  · exact forall_mem_filterMap hdecls (by rintro (d | d | d) e ⟨⟩ hd; exact hd)
  · exact forall_mem_filterMap hdecls (by rintro (d | d | d) e ⟨⟩ hd; exact hd)

/-- Reading a token stream. -/
theorem Stays.run {p : Parser α} {Q : α → Prop} (h : Stays S p Q) {tokens : List Lexeme}
    (hne : tokens ≠ []) (htokens : ∀ l ∈ tokens, S.Token l) :
    (∀ e, p.run tokens = .error e → S.Edge e.span) ∧ ∀ a, p.run tokens = .ok a → Q a := by
  obtain ⟨l, ls, rfl⟩ := List.exists_cons_of_ne_nil hne
  have hc : S.Cursor (.ofList (l :: ls)) := ⟨htokens, (htokens l List.mem_cons_self).edge⟩
  obtain ⟨hfails, hgives⟩ := h _ _ hc rfl
  unfold Parser.run StateT.run
  cases hrun : p (Cursor.ofList (l :: ls)) with
  | error e =>
    refine ⟨fun e' he => ?_, nofun⟩
    cases he
    exact hfails e hrun
  | ok r =>
    refine ⟨nofun, fun a ha => ?_⟩
    cases ha
    exact (hgives r.1 r.2 hrun).2

end Parser

end ObjLang
