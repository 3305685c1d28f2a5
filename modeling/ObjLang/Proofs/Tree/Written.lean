import ObjLang.Proofs.Token.Lexed
import ObjLang.Tree.Parser

/-!
# ObjLang.Proofs.Tree.Written — what the trees of source texts look like

The reader copies names from tokens, leaves out what checking fills in, makes no empty block and no
negative literal but the smallest, and lets a statement return only in a function.  A tree with these
properties is written; every tree that a source text denotes is.
-/

namespace ObjLang

/-! ### Written trees -/

/-- A literal in an expression: only the smallest integer has a sign of its own. -/
def Literal.Plain (v : Literal) : Prop := ∀ n, v = .number n → 0 ≤ n.toInt ∨ n = Int32.minValue

/-- An expression as a source text has it. -/
inductive Expr.Written : Expr → Prop
  | literal {span : Span} {v : Literal} (hv : v.Plain) : Written (.literal { span } v)
  | name {span : Span} {x : String} (hx : Name x) : Written (.name { span } x none)
  | unary {span : Span} {op : UnaryOp} {e : Expr} (he : Written e) :
    Written (.unary { span } op e)
  | binary {span : Span} {op : BinaryOp} {l r : Expr} (hl : Written l) (hr : Written r) :
    Written (.binary { span } op l r)
  | call {span : Span} {f : Ident} {args : List Expr} (hf : Name f.name)
    (hargs : ∀ a ∈ args, Written a) : Written (.call { span } f args none)
  | field {span : Span} {object : Expr} {f : Ident} (hobject : Written object) (hf : Name f.name) :
    Written (.field { span } object f)
  | method {span : Span} {object : Expr} {m : Ident} {args : List Expr} (hobject : Written object)
    (hm : Name m.name) (hargs : ∀ a ∈ args, Written a) : Written (.method { span } object m args)

/-- An assignment target as a source text has it. -/
inductive Target.Written : Target → Prop
  | name {x : Ident} (hx : Name x.name) : Written (.name x none)
  | field {object : Expr} {f : Ident} (hobject : object.Written) (hf : Name f.name) :
    Written (.field object f)

/-- A statement as a source text has it. -/
inductive Stmt.Written (inFunction : Bool) : Stmt → Prop
  | assign {target : Target} {value : Expr} {span : Span} (htarget : target.Written)
    (hvalue : value.Written) : Written inFunction (.assign target value span)
  | expr {value : Expr} {span : Span} (hvalue : value.Written) : Written inFunction (.expr value span)
  | ret {value : Expr} {span : Span} (hin : inFunction = true) (hvalue : value.Written) :
    Written inFunction (.ret value span)
  | pass {span : Span} : Written inFunction (.pass span)
  | cond {test : Expr} {body : List Stmt} {others : List Branch} {otherwise : List Stmt}
    {span : Span} (htest : test.Written) (hne : body ≠ []) (hbody : ∀ s ∈ body, Written inFunction s)
    (htests : ∀ b ∈ others, b.test.Written) (hnes : ∀ b ∈ others, b.body ≠ [])
    (hbodies : ∀ b ∈ others, ∀ s ∈ b.body, Written inFunction s)
    (hotherwise : ∀ s ∈ otherwise, Written inFunction s) :
    Written inFunction (.cond (.mk test body) others otherwise span)
  | loop {test : Expr} {body : List Stmt} {span : Span} (htest : test.Written) (hne : body ≠ [])
    (hbody : ∀ s ∈ body, Written inFunction s) : Written inFunction (.loop (.mk test body) span)

/-- A branch as a source text has it. -/
structure Branch.Written (inFunction : Bool) (b : Branch) : Prop where
  test : b.test.Written
  nonempty : b.body ≠ []
  body : ∀ s ∈ b.body, s.Written inFunction

/-- A name with its type as a source text has it. -/
structure TypedName.Written (t : TypedName) : Prop where
  name : Name t.name.name
  type : t.type.name = "None" ∨ Name t.type.name

/-- A variable definition as a source text has it. -/
structure VarDef.Written (d : VarDef) : Prop where
  var : d.var.Written
  binding : d.binding = none

/-- A function definition as a source text has it. -/
inductive FunDef.Written : FunDef → Prop
  | intro {d : FunDef} (hname : Name d.name.name) (hparams : ∀ t ∈ d.params, t.Written)
    (hret : ∀ t, d.ret = some t → t.name = "None" ∨ Name t.name)
    (hdecls : ∀ s ∈ d.decls, Name s.name.name) (hvars : ∀ v ∈ d.vars, v.Written)
    (hnested : ∀ e ∈ d.nested, Written e) (hne : d.body ≠ []) (hbody : ∀ s ∈ d.body, s.Written true)
    (hid : d.id = none) : Written d

/-- A class definition as a source text has it. -/
structure ClassDef.Written (k : ClassDef) : Prop where
  name : Name k.name.name
  superclass : Name k.superclass.name
  fields : ∀ d ∈ k.fields, d.Written
  methods : ∀ m ∈ k.methods, m.Written

/-- A program as a source text has it. -/
structure Program.Written (p : Program) : Prop where
  vars : ∀ d ∈ p.vars, d.Written
  functions : ∀ d ∈ p.functions, d.Written
  classes : ∀ k ∈ p.classes, k.Written
  body : ∀ s ∈ p.body, s.Written false

/-! ### Parsers -/

/-- The tokens from a cursor on. -/
def Cursor.tokens (c : Cursor) : List Token := (c.current :: c.ahead).map Lexeme.token

/-- The tokens from a cursor on are those of a source text. -/
def Cursor.Sound (c : Cursor) : Prop := Token.Sound c.tokens

theorem Cursor.Sound.next {c : Cursor} (h : c.Sound) : c.next.Sound := by
  unfold Cursor.next
  split
  · exact h
  · split
    · exact h
    · next l ls hls =>
      rw [Cursor.Sound, Cursor.tokens, hls] at h
      exact h.tail

/-- Behind an `indent` no block ends. -/
theorem Cursor.Sound.next_of_indent {c : Cursor} (h : c.Sound) (hc : c.current.token = .indent) :
    c.next.atBlockEnd = false := by
  obtain ⟨u, us, hus, hdedent, heof⟩ := h.opens.1 hc
  obtain ⟨l, ls, hls, rfl, -⟩ := List.map_eq_cons_iff.1 hus
  unfold Cursor.next Cursor.atBlockEnd
  rw [if_neg (by rw [hc]; nofun), hls]
  dsimp only
  split
  · next h => exact absurd h hdedent
  · next h => exact absurd h heof
  · rfl

namespace Parser

variable {α β : Type}

/-- A parser that gives values with a property while the tokens ahead are those of a source text. -/
def Gives (p : Parser α) (Q : α → Prop) : Prop :=
  ∀ c a c', p c = .ok (a, c') → c.Sound → c'.Sound ∧ Q a

/-- A parser that reads the tokens of a source text. -/
abbrev Skips (p : Parser α) : Prop := Gives p fun _ => True

namespace Gives

variable {Q : α → Prop} {R : β → Prop}

theorem pure {a : α} (h : Q a) : Gives (Pure.pure a) Q := by
  intro c b c' hp hc
  obtain ⟨rfl, rfl⟩ := Prod.mk.inj (pure_eq_ok.1 hp)
  exact ⟨hc, h⟩

theorem bind {p : Parser α} {f : α → Parser β} (hp : Gives p Q)
    (hf : ∀ a, Q a → Gives (f a) R) : Gives (p >>= f) R := by
  intro c b c' h hc
  obtain ⟨a, c₁, h₁, h₂⟩ := bind_eq_ok.1 h
  obtain ⟨hc₁, ha⟩ := hp c a c₁ h₁ hc
  exact hf a ha c₁ b c' h₂ hc₁

theorem throw (e : ParseError) : Gives (MonadExcept.throw e : Parser α) Q :=
  fun _ _ _ h _ => (throw_eq_ok.1 h).elim

theorem get {f : Cursor → Parser β} (hf : ∀ c : Cursor, c.Sound → Gives (f c) R) :
    Gives (MonadState.get >>= f) R := by
  intro c b c' h hc
  obtain ⟨a, c₁, h₁, h₂⟩ := bind_eq_ok.1 h
  obtain ⟨rfl, rfl⟩ := Prod.mk.inj (get_eq_ok.1 h₁)
  exact hf _ hc _ _ _ h₂ hc

theorem ite {b : Prop} [Decidable b] {p q : Parser α} (hp : Gives p Q) (hq : Gives q Q) :
    Gives (if b then p else q) Q := by
  split
  · exact hp
  · exact hq

end Gives

theorem gives_peek : Gives peek fun t => ∀ x, t = .name x → Name x :=
  Gives.get fun _ hc => .pure fun x hx => hc.names x (hx ▸ List.mem_cons_self)

theorem skips_here : Skips here := Gives.get fun _ _ => .pure trivial

theorem skips_behind : Skips behind := Gives.get fun _ _ => .pure trivial

theorem gives_fail {Q : α → Prop} (cause : ParseError.Cause) : Gives (fail cause) Q :=
  skips_here.bind fun _ _ => .throw _

theorem gives_unexpected {Q : α → Prop} (what : String) : Gives (unexpected what) Q :=
  gives_peek.bind fun _ _ => gives_fail _

theorem advance_eq_ok {c : Cursor} {r : Span × Cursor} :
    advance c = .ok r ↔ r = (c.current.span, c.next) := by
  unfold advance
  simp only [bind_eq_ok, get_eq_ok, set_eq_ok, pure_eq_ok]
  constructor
  · rintro ⟨_, _, ⟨rfl, rfl⟩, _, _, ⟨-, rfl⟩, rfl⟩
    rfl
  · rintro rfl
    exact ⟨c, c, rfl, (), c.next, rfl, rfl⟩

theorem skips_advance : Skips advance := by
  intro c a c' h hc
  obtain ⟨-, rfl⟩ := Prod.mk.inj (advance_eq_ok.1 h)
  exact ⟨hc.next, trivial⟩

theorem skips_eat (t : Token) : Skips (eat t) := by
  refine gives_peek.bind fun s _ => ?_
  split
  · exact skips_advance.bind fun _ _ => .pure trivial
  · exact .pure trivial

theorem skips_expect (t : Token) (what : String) : Skips (expect t what) := by
  refine gives_peek.bind fun s _ => ?_
  split
  · exact skips_advance
  · exact gives_unexpected _

theorem gives_ident (what : String) : Gives (ident what) fun i => Name i.name := by
  refine gives_peek.bind fun t ht => ?_
  split
  · next x => exact skips_advance.bind fun _ _ => .pure (ht x rfl)
  · exact gives_unexpected _

theorem gives_collectUpTo {Q : α → Prop} {next : Parser (Option α)}
    (h : Gives next fun o => ∀ a, o = some a → Q a) (n : Nat) :
    Gives (collectUpTo next n) fun as => ∀ a ∈ as, Q a := by
  induction n with
  | zero => exact gives_fail _
  | succ n ih =>
    refine h.bind fun o ho => ?_
    cases o with
    | none => exact .pure fun a ha => absurd ha List.not_mem_nil
    | some a =>
      refine ih.bind fun as has => .pure fun b hb => ?_
      obtain rfl | hb := List.mem_cons.1 hb
      · exact ho b rfl
      · exact has b hb

theorem gives_collect {Q : α → Prop} {next : Parser (Option α)}
    (h : Gives next fun o => ∀ a, o = some a → Q a) :
    Gives (collect next) fun as => ∀ a ∈ as, Q a :=
  Gives.get fun _ _ => gives_collectUpTo h _

/-- What is collected behind an `indent` is not empty. -/
theorem gives_opened {Q : α → Prop} {R : β → Prop} {what : String} {next : Parser (Option α)}
    {f : List α → Parser β} (hnext : Gives next fun o => ∀ a, o = some a → Q a)
    (hopen : ∀ c c', c.atBlockEnd = false → next c ≠ .ok (none, c'))
    (hf : ∀ as, as ≠ [] → (∀ a ∈ as, Q a) → Gives (f as) R) :
    Gives (expect .indent what >>= fun _ => collect next >>= f) R := by
  intro c b c' h hc
  obtain ⟨span, c₁, h₁, h₂⟩ := bind_eq_ok.1 h
  obtain ⟨as, c₂, h₃, h₄⟩ := bind_eq_ok.1 h₂
  obtain ⟨hc₁, -⟩ := skips_expect _ _ _ _ _ h₁ hc
  obtain ⟨hc₂, has⟩ := gives_collect hnext _ _ _ h₃ hc₁
  refine hf as ?_ has _ _ _ h₄ hc₂
  have hopened : c₁.atBlockEnd = false := by
    obtain ⟨t, c₀, hpeek, hrest⟩ := bind_eq_ok.1 h₁
    obtain ⟨rfl, rfl⟩ : t = c.current.token ∧ c₀ = c := Prod.mk.inj (ok_eq_ok.1 hpeek)
    split at hrest
    · next ht =>
      obtain ⟨-, rfl⟩ := Prod.mk.inj (advance_eq_ok.1 hrest)
      exact hc.next_of_indent ht
    · exact ((gives_unexpected (Q := fun _ => False) what) _ _ _ hrest hc).2.elim
  rintro rfl
  obtain ⟨c₃, c₄, hget, hcollect⟩ := bind_eq_ok.1 h₃
  obtain ⟨rfl, rfl⟩ := Prod.mk.inj (get_eq_ok.1 hget)
  obtain ⟨o, c₅, hstep, hmore⟩ := bind_eq_ok.1 hcollect
  cases o with
  | none => exact hopen _ _ hopened hstep
  | some a =>
    obtain ⟨bs, c₆, -, hcons⟩ := bind_eq_ok.1 hmore
    cases hcons

theorem gives_foldMore {Q : α → Prop} {more : α → Parser (Option α)}
    (h : ∀ a, Q a → Gives (more a) fun o => ∀ b, o = some b → Q b) {a : α} (ha : Q a) :
    Gives (foldMore more a) Q := by
  refine Gives.get fun c _ => ?_
  generalize c.left + 2 = n
  induction n generalizing a with
  | zero => exact gives_fail _
  | succ n ih =>
    refine (h a ha).bind fun o ho => ?_
    cases o with
    | none => exact .pure ha
    | some b => exact ih (ho b rfl)

/-- One step of a repetition that a token announces. -/
theorem gives_announced {Q : α → Prop} {t : Token} {item : Parser α} (h : Gives item Q) :
    Gives (do if ← eat t then return some (← item) else return none)
      fun o => ∀ a, o = some a → Q a := by
  refine (skips_eat _).bind fun b _ => ?_
  split
  · exact h.bind fun b hb => .pure fun b' hb' => Option.some.inj hb' ▸ hb
  · exact .pure fun b hb => absurd hb nofun

theorem gives_commaSeparated {Q : α → Prop} {item : Parser α} (h : Gives item Q) :
    Gives (commaSeparated item) fun as => ∀ a ∈ as, Q a := by
  refine gives_peek.bind fun t _ => ?_
  split
  · exact .pure fun a ha => absurd ha List.not_mem_nil
  · refine h.bind fun a ha => (gives_collect (gives_announced h)).bind fun as has =>
      .pure fun b hb => ?_
    obtain rfl | hb := List.mem_cons.1 hb
    · exact ha
    · exact has b hb

/-! ### Expressions -/

theorem gives_arguments {inner : Parser Expr} (h : Gives inner Expr.Written) :
    Gives (arguments inner) fun as => ∀ a ∈ as, a.Written :=
  (skips_expect _ _).bind fun _ _ => (gives_commaSeparated h).bind fun _ has =>
    (skips_expect _ _).bind fun _ _ => .pure has

theorem gives_atom {inner : Parser Expr} (h : Gives inner Expr.Written) :
    Gives (atom inner) Expr.Written := by
  refine gives_peek.bind fun t ht => ?_
  split
  · refine skips_advance.bind fun _ _ => ?_
    split
    · next hn =>
      refine .pure (.literal fun m hm => .inl ?_)
      obtain rfl := Literal.number.inj hm
      rw [Int32.toInt_ofNat_of_lt (Nat.lt_of_le_of_lt hn (by decide))]
      exact Int.natCast_nonneg _
    · exact .throw _
  · exact skips_advance.bind fun _ _ => .pure (.literal nofun)
  · exact skips_advance.bind fun _ _ => .pure (.literal nofun)
  · exact skips_advance.bind fun _ _ => .pure (.literal nofun)
  · next x =>
    refine skips_advance.bind fun _ _ => gives_peek.bind fun s _ => ?_
    split
    · exact (gives_arguments h).bind fun _ has => skips_behind.bind fun _ _ =>
        .pure (.call (ht x rfl) has)
    · exact .pure (.name (ht x rfl))
  · exact skips_advance.bind fun _ _ => h.bind fun _ he =>
      (skips_expect _ _).bind fun _ _ => .pure he
  · exact gives_unexpected _

theorem gives_access? {inner : Parser Expr} (h : Gives inner Expr.Written) {object : Expr}
    (hobject : object.Written) :
    Gives (access? inner object) fun o => ∀ e, o = some e → e.Written := by
  refine (skips_eat _).bind fun b _ => ?_
  split
  · refine (gives_ident _).bind fun x hx => gives_peek.bind fun s _ => ?_
    split
    · exact (gives_arguments h).bind fun _ has => skips_behind.bind fun _ _ => .pure fun e he =>
        Option.some.inj he ▸ .method hobject hx has
    · exact .pure fun e he => Option.some.inj he ▸ .field hobject hx
  · exact .pure fun e he => absurd he nofun

theorem gives_accesses {inner : Parser Expr} (h : Gives inner Expr.Written) :
    Gives (accesses inner) Expr.Written := by
  refine (gives_atom h).bind fun a ha =>
    (gives_foldMore (fun _ => gives_access? h) ha).bind fun e he => ?_
  refine gives_peek.bind fun s _ => ?_
  split
  · exact gives_fail _
  · exact .pure he

theorem gives_signsUpTo {operand : Parser Expr} (h : Gives operand Expr.Written) (n : Nat) :
    Gives (signsUpTo operand n) Expr.Written := by
  induction n with
  | zero => exact gives_fail _
  | succ n ih =>
    refine gives_peek.bind fun s _ => ?_
    split
    · refine skips_advance.bind fun _ _ => gives_peek.bind fun s _ => ?_
      split
      · exact skips_advance.bind fun _ _ =>
          .pure (.literal fun m hm => .inr (Literal.number.inj hm).symm)
      · exact ih.bind fun _ he => .pure (.unary he)
    · exact h

theorem gives_leftChain {op? : Token → Option BinaryOp} {operand : Parser Expr}
    (h : Gives operand Expr.Written) : Gives (leftChain op? operand) Expr.Written := by
  refine h.bind fun first hfirst => gives_foldMore (fun left hleft => ?_) hfirst
  refine gives_peek.bind fun s _ => ?_
  split
  · exact skips_advance.bind fun _ _ => h.bind fun _ hright => .pure fun e he =>
      Option.some.inj he ▸ .binary hleft hright
  · exact .pure fun e he => absurd he nofun

theorem gives_compared {operand : Parser Expr} (h : Gives operand Expr.Written) :
    Gives (compared operand) Expr.Written := by
  refine h.bind fun left hleft => gives_peek.bind fun s _ => ?_
  split
  · exact .pure hleft
  · refine skips_advance.bind fun _ _ => h.bind fun _ hright => gives_peek.bind fun s _ => ?_
    split
    · exact gives_fail _
    · exact .pure (.binary hleft hright)

theorem gives_negatedUpTo {operand : Parser Expr} (h : Gives operand Expr.Written) (n : Nat) :
    Gives (negatedUpTo operand n) Expr.Written := by
  induction n with
  | zero => exact gives_fail _
  | succ n ih =>
    refine gives_peek.bind fun s _ => ?_
    split
    · exact skips_advance.bind fun _ _ => ih.bind fun _ he => .pure (.unary he)
    · exact h

theorem gives_exprUpTo (n : Nat) : Gives (exprUpTo n) Expr.Written := by
  induction n with
  | zero => exact gives_fail _
  | succ n ih =>
    refine Gives.get fun c _ => gives_negatedUpTo ?_ _
    refine gives_compared (gives_leftChain (gives_leftChain ?_))
    exact Gives.get fun c _ => gives_signsUpTo (gives_accesses ih) _

theorem gives_expr : Gives expr Expr.Written := Gives.get fun _ _ => gives_exprUpTo _

/-! ### Statements -/

section

variable {inFunction : Bool} {stmt : Parser Stmt}

theorem gives_nextStmt? (h : Gives stmt (Stmt.Written inFunction)) (inBlock : Bool) :
    Gives (nextStmt? inBlock stmt) fun o => ∀ s, o = some s → s.Written inFunction := by
  refine Gives.get fun c _ => ?_
  split
  · exact .pure fun s hs => absurd hs nofun
  · split
    · exact gives_fail _
    · exact h.bind fun s hs => .pure fun s' hs' => Option.some.inj hs' ▸ hs

/-- A block ends only where the indentation does. -/
theorem nextStmt?_ne_none {inBlock : Bool} (c c' : Cursor) (hc : c.atBlockEnd = false) :
    nextStmt? inBlock stmt c ≠ .ok (none, c') := by
  intro h
  obtain ⟨c₁, c₂, hget, hrest⟩ := bind_eq_ok.1 h
  obtain ⟨rfl, rfl⟩ := Prod.mk.inj (get_eq_ok.1 hget)
  rw [hc, if_neg Bool.false_ne_true] at hrest
  split at hrest
  · obtain ⟨span, c₃, -, hthrow⟩ := bind_eq_ok.1 hrest
    exact throw_eq_ok.1 hthrow
  · obtain ⟨s, c₃, -, hsome⟩ := bind_eq_ok.1 hrest
    cases hsome

theorem gives_block (h : Gives stmt (Stmt.Written inFunction)) :
    Gives (block stmt) fun body => body ≠ [] ∧ ∀ s ∈ body, s.Written inFunction :=
  (skips_expect _ _).bind fun _ _ =>
    gives_opened (gives_nextStmt? h true) nextStmt?_ne_none fun _ hne hbody =>
      (skips_expect _ _).bind fun _ _ => .pure ⟨hne, hbody⟩

theorem gives_branch (h : Gives stmt (Stmt.Written inFunction)) :
    Gives (branch stmt) (Branch.Written inFunction) :=
  gives_expr.bind fun _ htest => (skips_expect _ _).bind fun _ _ =>
    (gives_block h).bind fun _ hbody => .pure ⟨htest, hbody.1, hbody.2⟩

theorem gives_condStmt (h : Gives stmt (Stmt.Written inFunction)) :
    Gives (condStmt stmt) (Stmt.Written inFunction) := by
  refine (skips_expect _ _).bind fun _ _ => (gives_branch h).bind fun ⟨test, body⟩ hfirst =>
    (gives_collect (gives_announced (gives_branch h))).bind fun others hothers => ?_
  have hstmt : ∀ otherwise, (∀ s ∈ otherwise, s.Written inFunction) → ∀ span,
      (Stmt.cond (.mk test body) others otherwise span).Written inFunction := by
    intro otherwise hotherwise span
    exact .cond hfirst.test hfirst.nonempty hfirst.body (fun b hb => (hothers b hb).test)
      (fun b hb => (hothers b hb).nonempty) (fun b hb => (hothers b hb).body) hotherwise
  refine (skips_eat _).bind fun b _ => ?_
  split
  · exact (skips_expect _ _).bind fun _ _ => (gives_block h).bind fun otherwise hotherwise =>
      skips_behind.bind fun _ _ => .pure (hstmt otherwise hotherwise.2 _)
  · exact Gives.bind (Q := (· = [])) (.pure rfl) fun otherwise hotherwise =>
      skips_behind.bind fun _ _ => .pure (hstmt otherwise (by simp [hotherwise]) _)

theorem gives_returnStmt : Gives (returnStmt inFunction) (Stmt.Written inFunction) := by
  refine skips_advance.bind fun _ _ => ?_
  split
  · exact .throw _
  · next hin =>
    have hin : inFunction = true := by simpa using hin
    refine gives_peek.bind fun s _ => ?_
    split
    · exact Gives.bind (Q := Expr.Written) (.pure (.literal nofun)) fun _ hvalue =>
        (skips_expect _ _).bind fun _ _ => .pure (.ret hin hvalue)
    · exact gives_expr.bind fun _ hvalue => (skips_expect _ _).bind fun _ _ =>
        .pure (.ret hin hvalue)

theorem targetOf?_written {e : Expr} (he : e.Written) {t : Target} (ht : targetOf? e = some t) :
    t.Written := by
  cases he with
  | name hx =>
    cases ht
    exact .name hx
  | field hobject hf =>
    cases ht
    exact .field hobject hf
  | _ => cases ht

theorem gives_simpleStmt : Gives simpleStmt (Stmt.Written inFunction) := by
  refine gives_expr.bind fun left hleft => (skips_eat _).bind fun b _ => ?_
  split
  · refine gives_expr.bind fun value hvalue => ?_
    split
    · next target htarget =>
      exact (skips_expect _ _).bind fun _ _ => .pure (.assign (targetOf?_written hleft htarget) hvalue)
    · exact .throw _
  · exact (skips_expect _ _).bind fun _ _ => .pure (.expr hleft)

theorem gives_stmtUpTo (inFunction : Bool) (n : Nat) :
    Gives (stmtUpTo inFunction n) (Stmt.Written inFunction) := by
  induction n with
  | zero => exact gives_fail _
  | succ n ih =>
    refine gives_peek.bind fun s _ => ?_
    split
    · exact gives_condStmt ih
    · exact (skips_expect _ _).bind fun _ _ => (gives_branch ih).bind fun ⟨test, body⟩ hb =>
        skips_behind.bind fun _ _ => .pure (.loop hb.test hb.nonempty hb.body)
    · exact skips_advance.bind fun _ _ => (skips_expect _ _).bind fun _ _ => .pure .pass
    · exact gives_returnStmt
    · exact gives_simpleStmt

theorem gives_stmt (inFunction : Bool) : Gives (Parser.stmt inFunction) (Stmt.Written inFunction) :=
  Gives.get fun _ _ => gives_stmtUpTo _ _

end

/-! ### Definitions -/

theorem gives_typeName : Gives typeName fun t => t.name = "None" ∨ Name t.name := by
  refine gives_peek.bind fun s hs => ?_
  split
  · next x => exact skips_advance.bind fun _ _ => .pure (.inr (hs x rfl))
  · exact skips_advance.bind fun _ _ => .pure (.inl rfl)
  · exact gives_unexpected _

theorem gives_typedName : Gives typedName TypedName.Written :=
  (gives_ident _).bind fun _ hx => (skips_expect _ _).bind fun _ _ =>
    gives_typeName.bind fun _ htype => .pure ⟨hx, htype⟩

theorem skips_literalInit : Skips literalInit := by
  refine (skips_eat _).bind fun b _ => gives_peek.bind fun t _ => skips_here.bind fun _ _ => ?_
  split
  · exact skips_advance.bind fun _ _ => .ite (.pure trivial) (.throw _)
  · exact skips_advance.bind fun _ _ => .pure trivial
  · exact skips_advance.bind fun _ _ => .pure trivial
  · exact skips_advance.bind fun _ _ => .pure trivial
  · exact gives_fail _

theorem gives_varDef : Gives varDef VarDef.Written :=
  gives_typedName.bind fun _ hvar => (skips_expect _ _).bind fun _ _ =>
    skips_here.bind fun _ _ => skips_literalInit.bind fun _ _ => skips_behind.bind fun _ _ =>
      (skips_expect _ _).bind fun _ _ => .pure ⟨hvar, rfl⟩

theorem gives_scopeDecl (kind : ScopeKind) : Gives (scopeDecl kind) fun d => Name d.name.name :=
  skips_advance.bind fun _ _ => (gives_ident _).bind fun _ hx =>
    (skips_expect _ _).bind fun _ _ => .pure hx

/-- A declaration of a function body as a source text has it. -/
def BodyDecl.Written : BodyDecl → Prop
  | .scope d => Name d.name.name
  | .var d => d.Written
  | .function d => d.Written

theorem gives_nextBodyDecl? {nested : Parser FunDef} (h : Gives nested FunDef.Written) :
    Gives (nextBodyDecl? nested) fun o => ∀ d, o = some d → d.Written := by
  refine Gives.get fun c _ => ?_
  split
  · exact h.bind fun d hd => .pure fun e he => Option.some.inj he ▸ hd
  · exact (gives_scopeDecl _).bind fun d hd => .pure fun e he => Option.some.inj he ▸ hd
  · exact (gives_scopeDecl _).bind fun d hd => .pure fun e he => Option.some.inj he ▸ hd
  · exact .ite (gives_varDef.bind fun d hd => .pure fun e he => Option.some.inj he ▸ hd)
      (.pure fun e he => absurd he nofun)

/-- What one kind of item of a list has, if all items are written. -/
theorem forall_mem_filterMap {P : α → Prop} {Q : β → Prop} {f : α → Option β} {as : List α}
    (has : ∀ a ∈ as, P a) (h : ∀ a b, f a = some b → P a → Q b) : ∀ b ∈ as.filterMap f, Q b := by
  intro b hb
  obtain ⟨a, ha, hf⟩ := List.mem_filterMap.1 hb
  exact h a b hf (has a ha)

theorem gives_funDefWith {nested : Parser FunDef} (h : Gives nested FunDef.Written) :
    Gives (funDefWith nested) FunDef.Written := by
  refine (skips_expect _ _).bind fun _ _ => (gives_ident _).bind fun name hname =>
    (skips_expect _ _).bind fun _ _ => (gives_commaSeparated gives_typedName).bind
      fun params hparams => (skips_expect _ _).bind fun _ _ => (skips_eat _).bind fun b _ => ?_
  extract_lets rest
  have hrest : ∀ ret : Option Ident, (∀ t, ret = some t → t.name = "None" ∨ Name t.name) →
      Gives (rest ret) FunDef.Written := by
    intro ret hret
    refine (skips_expect _ _).bind fun _ _ => (skips_expect _ _).bind fun _ _ =>
      (skips_expect _ _).bind fun _ _ => (gives_collect (gives_nextBodyDecl? h)).bind
        fun decls hdecls => (gives_collect (gives_nextStmt? (gives_stmt true) _)).bind
          fun body hbody => ?_
    split
    · exact gives_fail _
    · next hne =>
      refine skips_behind.bind fun _ _ => (skips_expect _ _).bind fun _ _ => .pure ?_
      refine .intro hname hparams hret (forall_mem_filterMap hdecls ?_)
        (forall_mem_filterMap hdecls ?_) (forall_mem_filterMap hdecls ?_) (by simpa using hne) hbody rfl
      · rintro (d | d | d) e ⟨⟩ hd
        exact hd
      · rintro (d | d | d) e ⟨⟩ hd
        exact hd
      · rintro (d | d | d) e ⟨⟩ hd
        exact hd
  split
  · refine Gives.bind (Q := fun ret => ∀ t, ret = some t → t.name = "None" ∨ Name t.name) ?_ hrest
    exact gives_typeName.bind fun t ht => .pure fun u hu => Option.some.inj hu ▸ ht
  · exact hrest none nofun

theorem gives_funDef : Gives funDef FunDef.Written := by
  refine Gives.get fun c _ => ?_
  generalize c.left + 2 = n
  induction n with
  | zero => exact gives_fail _
  | succ n ih => exact gives_funDefWith ih

/-- An item of a class as a source text has it. -/
def ClassItem.Written : ClassItem → Prop
  | .field d => d.Written
  | .method d => d.Written
  | .pass => True

theorem gives_nextClassItem? : Gives nextClassItem? fun o => ∀ i, o = some i → i.Written := by
  refine Gives.get fun c _ => ?_
  split
  · exact .pure fun i hi => absurd hi nofun
  · exact .pure fun i hi => absurd hi nofun
  · exact gives_funDef.bind fun d hd => .pure fun i hi => Option.some.inj hi ▸ hd
  · exact skips_advance.bind fun _ _ => (skips_expect _ _).bind fun _ _ =>
      .pure fun i hi => Option.some.inj hi ▸ trivial
  · exact .ite (gives_varDef.bind fun d hd => .pure fun i hi => Option.some.inj hi ▸ hd)
      (gives_fail _)

theorem gives_classDef : Gives classDef ClassDef.Written := by
  refine (skips_expect _ _).bind fun _ _ => (gives_ident _).bind fun name hname =>
    (skips_expect _ _).bind fun _ _ => (gives_ident _).bind fun superclass hsuperclass =>
      (skips_expect _ _).bind fun _ _ => (skips_expect _ _).bind fun _ _ =>
        (skips_expect _ _).bind fun _ _ => (skips_expect _ _).bind fun _ _ =>
          (gives_collect gives_nextClassItem?).bind fun items hitems =>
            skips_behind.bind fun _ _ => (skips_expect _ _).bind fun _ _ =>
              .pure ⟨hname, hsuperclass, forall_mem_filterMap hitems ?_,
                forall_mem_filterMap hitems ?_⟩
  · rintro (d | d | _) e ⟨⟩ hd
    exact hd
  · rintro (d | d | _) e ⟨⟩ hd
    exact hd

/-- A definition of a program as a source text has it. -/
def TopDecl.Written : TopDecl → Prop
  | .var d => d.Written
  | .function d => d.Written
  | .classDef k => k.Written

theorem gives_nextTopDecl? : Gives nextTopDecl? fun o => ∀ d, o = some d → d.Written := by
  refine Gives.get fun c _ => ?_
  split
  · exact gives_funDef.bind fun d hd => .pure fun i hi => Option.some.inj hi ▸ hd
  · exact gives_classDef.bind fun d hd => .pure fun i hi => Option.some.inj hi ▸ hd
  · exact .ite (gives_varDef.bind fun d hd => .pure fun i hi => Option.some.inj hi ▸ hd)
      (.pure fun i hi => absurd hi nofun)

theorem gives_nextTopStmt? :
    Gives nextTopStmt? fun o => ∀ s, o = some s → s.Written false :=
  Gives.get fun _ _ => .ite (.pure fun _ hi => absurd hi nofun)
    (.ite (gives_fail _) ((gives_stmt false).bind fun _ hs => .pure fun _ hi =>
      Option.some.inj hi ▸ hs))

theorem gives_program : Gives program Program.Written := by
  refine skips_here.bind fun _ _ => (gives_collect gives_nextTopDecl?).bind fun decls hdecls =>
    (gives_collect gives_nextTopStmt?).bind fun body hbody => skips_here.bind fun _ _ => .pure
      ⟨forall_mem_filterMap hdecls ?_, forall_mem_filterMap hdecls ?_,
        forall_mem_filterMap hdecls ?_, hbody⟩
  · rintro (d | d | k) e ⟨⟩ hd
    exact hd
  · rintro (d | d | k) e ⟨⟩ hd
    exact hd
  · rintro (d | d | k) e ⟨⟩ hd
    exact hd

end Parser

/-- The tree of a source text is written. -/
theorem Program.parse_written {source : String} {p : Program}
    (h : Program.parse source = .ok p) : p.Written := by
  unfold Program.parse at h
  split at h
  · next tokens htokens =>
    have hsound : (Cursor.ofList tokens).Sound := by
      have hall := Token.sound_tokenize htokens
      cases tokens with
      | nil => exact .of_not_mem fun t ht => .inr (.inr (List.mem_singleton.1 ht))
      | cons l ls => exact hall
    simp only [Parser.run, Except.map] at h
    split at h
    · cases h
    · next r hr =>
      obtain ⟨p', c'⟩ := r
      cases h
      exact (Parser.gives_program _ _ _ hr hsound).2
  · cases h
  · cases h

end ObjLang
