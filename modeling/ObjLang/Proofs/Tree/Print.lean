import ObjLang.Proofs.Token.Spell
import ObjLang.Proofs.Tree.Written

/-!
# ObjLang.Proofs.Tree.Print — writing a tree as a text

A program is written in one way: every declaration, statement and header on a line of its own, two
more spaces for each block, scope declarations before variables before nested functions before
statements, `pass` in a class without members, and brackets around every unary and binary expression
and around the object of every field and method.  The smallest integer is written with its sign.

The text is made from the token stream of the tree, which carries line ends and indentation.  The bare
tree is the tree without places.
-/

namespace ObjLang

/-! ### Trees without places -/

/-- The name without its place. -/
def Ident.bare (x : Ident) : Ident := ⟨x.name, default⟩

/-- The type without the place. -/
def ExprInfo.bare (i : ExprInfo) : ExprInfo := { i with span := default }

mutual

/-- The expression without places. -/
def Expr.bare : Expr → Expr
  | .literal i v => .literal i.bare v
  | .name i x b => .name i.bare x b
  | .unary i op e => .unary i.bare op e.bare
  | .binary i op l r => .binary i.bare op l.bare r.bare
  | .call i f args t => .call i.bare f.bare (Expr.listBare args) t
  | .field i o f => .field i.bare o.bare f.bare
  | .method i o m args => .method i.bare o.bare m.bare (Expr.listBare args)

/-- The expressions without places. -/
def Expr.listBare : List Expr → List Expr
  | [] => []
  | e :: es => e.bare :: Expr.listBare es

end

theorem Expr.listBare_eq (es : List Expr) : Expr.listBare es = es.map Expr.bare := by
  induction es with
  | nil => rfl
  | cons e es ih => rw [Expr.listBare, ih, List.map_cons]

/-- The target without places. -/
def Target.bare : Target → Target
  | .name x b => .name x.bare b
  | .field o f => .field o.bare f.bare

mutual

/-- The statement without places. -/
def Stmt.bare : Stmt → Stmt
  | .assign t v _ => .assign t.bare v.bare default
  | .expr v _ => .expr v.bare default
  | .ret v _ => .ret v.bare default
  | .pass _ => .pass default
  | .cond b bs ss _ => .cond b.bare (Branch.listBare bs) (Stmt.listBare ss) default
  | .loop b _ => .loop b.bare default

/-- The branch without places. -/
def Branch.bare : Branch → Branch
  | .mk test body => .mk test.bare (Stmt.listBare body)

/-- The branches without places. -/
def Branch.listBare : List Branch → List Branch
  | [] => []
  | b :: bs => b.bare :: Branch.listBare bs

/-- The statements without places. -/
def Stmt.listBare : List Stmt → List Stmt
  | [] => []
  | s :: ss => s.bare :: Stmt.listBare ss

end

theorem Stmt.listBare_eq (ss : List Stmt) : Stmt.listBare ss = ss.map Stmt.bare := by
  induction ss with
  | nil => rfl
  | cons s ss ih => rw [Stmt.listBare, ih, List.map_cons]

theorem Branch.listBare_eq (bs : List Branch) : Branch.listBare bs = bs.map Branch.bare := by
  induction bs with
  | nil => rfl
  | cons b bs ih => rw [Branch.listBare, ih, List.map_cons]

/-- The name and its type without places. -/
def TypedName.bare (t : TypedName) : TypedName := ⟨t.name.bare, t.type.bare⟩

/-- The variable definition without places. -/
def VarDef.bare (d : VarDef) : VarDef :=
  { d with var := d.var.bare, initSpan := default, span := default }

/-- The scope declaration without places. -/
def ScopeDecl.bare (d : ScopeDecl) : ScopeDecl := ⟨d.name.bare, d.kind, default⟩

mutual

/-- The function definition without places. -/
def FunDef.bare : FunDef → FunDef
  | ⟨name, params, ret, decls, vars, nested, body, _, id⟩ =>
    ⟨name.bare, params.map TypedName.bare, ret.map Ident.bare, decls.map ScopeDecl.bare,
      vars.map VarDef.bare, FunDef.listBare nested, body.map Stmt.bare, default, id⟩

/-- The function definitions without places. -/
def FunDef.listBare : List FunDef → List FunDef
  | [] => []
  | d :: ds => d.bare :: FunDef.listBare ds

end

theorem FunDef.listBare_eq (ds : List FunDef) : FunDef.listBare ds = ds.map FunDef.bare := by
  induction ds with
  | nil => rfl
  | cons d ds ih => rw [FunDef.listBare, ih, List.map_cons]

/-- The class definition without places. -/
def ClassDef.bare (k : ClassDef) : ClassDef where
  name := k.name.bare
  superclass := k.superclass.bare
  fields := k.fields.map VarDef.bare
  methods := k.methods.map FunDef.bare
  span := default

/-- The program without places. -/
def Program.bare (p : Program) : Program where
  vars := p.vars.map VarDef.bare
  functions := p.functions.map FunDef.bare
  classes := p.classes.map ClassDef.bare
  body := p.body.map Stmt.bare
  span := default

/-! ### Token streams of trees -/

namespace Token

/-- Lists of tokens with commas between them. -/
def separated : List (List Token) → List Token
  | [] => []
  | ts :: rest => ts ++ rest.flatMap (.symbol .comma :: ·)

/-- Tokens in brackets. -/
def bracketed (ts : List Token) : List Token :=
  .symbol .leftParen :: (ts ++ [.symbol .rightParen])

/-- A header with the block under it. -/
def blockOf (header body : List Token) : List Token :=
  header ++ .newline :: .indent :: (body ++ [.dedent])

end Token

open Token (separated bracketed blockOf)

/-- The tokens of a literal. -/
def Literal.tokens : Literal → List Token
  | .number n =>
    if n.toInt < 0 then [.symbol .minus, .int (-n.toInt).toNat] else [.int n.toInt.toNat]
  | .bool true => [.keyword .trueKw]
  | .bool false => [.keyword .falseKw]
  | .none => [.keyword .noneKw]

/-- The token of an operator. -/
def UnaryOp.token : UnaryOp → Token
  | .neg => .symbol .minus
  | .not => .keyword .notKw

/-- The token of an operator. -/
def BinaryOp.token : BinaryOp → Token
  | .add => .symbol .plus
  | .sub => .symbol .minus
  | .mul => .symbol .star
  | .floorDiv => .symbol .slashSlash
  | .mod => .symbol .percent
  | .eq => .symbol .equalEqual
  | .ne => .symbol .bangEqual
  | .lt => .symbol .less
  | .gt => .symbol .greater
  | .le => .symbol .lessEqual
  | .ge => .symbol .greaterEqual
  | .is => .keyword .isKw

mutual

/-- The tokens of an expression. -/
def Expr.tokens : Expr → List Token
  | .literal _ v => v.tokens
  | .name _ x _ => [.name x]
  | .unary _ op e => bracketed (op.token :: e.tokens)
  | .binary _ op l r => bracketed (l.tokens ++ op.token :: r.tokens)
  | .call _ f args _ => .name f.name :: bracketed (separated (Expr.listTokens args))
  | .field _ o f => bracketed o.tokens ++ [.symbol .dot, .name f.name]
  | .method _ o m args =>
    bracketed o.tokens ++
      .symbol .dot :: .name m.name :: bracketed (separated (Expr.listTokens args))

/-- The tokens of each of some expressions. -/
def Expr.listTokens : List Expr → List (List Token)
  | [] => []
  | e :: es => e.tokens :: Expr.listTokens es

end

theorem Expr.listTokens_eq (es : List Expr) : Expr.listTokens es = es.map Expr.tokens := by
  induction es with
  | nil => rfl
  | cons e es ih => rw [Expr.listTokens, ih, List.map_cons]

/-- The expression that a target looks like. -/
def Target.expr : Target → Expr
  | .name x b => .name { span := x.span } x.name b
  | .field o f => .field { span := default } o f

mutual

/-- The tokens of a statement. -/
def Stmt.tokens : Stmt → List Token
  | .assign target value _ => target.expr.tokens ++ .symbol .equal :: (value.tokens ++ [.newline])
  | .expr value _ => value.tokens ++ [.newline]
  | .ret value _ => .keyword .returnKw :: (value.tokens ++ [.newline])
  | .pass _ => [.keyword .passKw, .newline]
  | .cond first others otherwise _ =>
    first.tokens .ifKw ++ (Branch.listTokens others ++
      if otherwise.isEmpty then []
      else blockOf [.keyword .elseKw, .symbol .colon] (Stmt.listTokens otherwise))
  | .loop branch _ => branch.tokens .whileKw

/-- The tokens of a branch that the given word introduces. -/
def Branch.tokens : Branch → Keyword → List Token
  | .mk test body, word =>
    blockOf (.keyword word :: (test.tokens ++ [.symbol .colon])) (Stmt.listTokens body)

/-- The tokens of the further branches of a condition statement. -/
def Branch.listTokens : List Branch → List Token
  | [] => []
  | b :: bs => b.tokens .elifKw ++ Branch.listTokens bs

/-- The tokens of some statements. -/
def Stmt.listTokens : List Stmt → List Token
  | [] => []
  | s :: ss => s.tokens ++ Stmt.listTokens ss

end

theorem Stmt.listTokens_eq (ss : List Stmt) : Stmt.listTokens ss = ss.flatMap Stmt.tokens := by
  induction ss with
  | nil => rfl
  | cons s ss ih => rw [Stmt.listTokens, ih, List.flatMap_cons]

theorem Branch.listTokens_eq (bs : List Branch) :
    Branch.listTokens bs = bs.flatMap (·.tokens .elifKw) := by
  induction bs with
  | nil => rfl
  | cons b bs ih => rw [Branch.listTokens, ih, List.flatMap_cons]

/-- The token of a written type. -/
def typeToken (x : String) : Token := if x = "None" then .keyword .noneKw else .name x

/-- The tokens of a name with its type. -/
def TypedName.tokens (t : TypedName) : List Token :=
  [.name t.name.name, .symbol .colon, typeToken t.type.name]

/-- The tokens of a variable definition. -/
def VarDef.tokens (d : VarDef) : List Token :=
  d.var.tokens ++ .symbol .equal :: (d.init.tokens ++ [.newline])

/-- The word of a scope declaration. -/
def ScopeKind.word : ScopeKind → Keyword
  | .global => .globalKw
  | .nonlocal => .nonlocalKw

/-- The tokens of a scope declaration. -/
def ScopeDecl.tokens (d : ScopeDecl) : List Token :=
  [.keyword d.kind.word, .name d.name.name, .newline]

/-- The tokens of a written return type. -/
def retTokens : Option Ident → List Token
  | none => []
  | some t => [.symbol .arrow, typeToken t.name]

/-- The tokens of the header of a function. -/
def headerTokens (name : Ident) (params : List TypedName) (ret : Option Ident) : List Token :=
  .keyword .defKw :: .name name.name ::
    (bracketed (separated (params.map TypedName.tokens)) ++ (retTokens ret ++ [.symbol .colon]))

mutual

/-- The tokens of a function definition. -/
def FunDef.tokens : FunDef → List Token
  | ⟨name, params, ret, decls, vars, nested, body, _, _⟩ =>
    blockOf (headerTokens name params ret)
      (decls.flatMap ScopeDecl.tokens ++ (vars.flatMap VarDef.tokens ++
        (FunDef.listTokens nested ++ body.flatMap Stmt.tokens)))

/-- The tokens of some function definitions. -/
def FunDef.listTokens : List FunDef → List Token
  | [] => []
  | d :: ds => d.tokens ++ FunDef.listTokens ds

end

theorem FunDef.listTokens_eq (ds : List FunDef) :
    FunDef.listTokens ds = ds.flatMap FunDef.tokens := by
  induction ds with
  | nil => rfl
  | cons d ds ih => rw [FunDef.listTokens, ih, List.flatMap_cons]

/-- The tokens of the members of a class. -/
def ClassDef.memberTokens (k : ClassDef) : List Token :=
  if k.fields.isEmpty && k.methods.isEmpty then [.keyword .passKw, .newline]
  else k.fields.flatMap VarDef.tokens ++ k.methods.flatMap FunDef.tokens

/-- The tokens of a class definition. -/
def ClassDef.tokens (k : ClassDef) : List Token :=
  blockOf (.keyword .classKw :: .name k.name.name ::
    (bracketed [.name k.superclass.name] ++ [.symbol .colon])) k.memberTokens

/-- The tokens of a program. -/
def Program.tokens (p : Program) : List Token :=
  p.vars.flatMap VarDef.tokens ++ (p.functions.flatMap FunDef.tokens ++
    (p.classes.flatMap ClassDef.tokens ++ p.body.flatMap Stmt.tokens))

/-- The text of a program. -/
def Program.print (p : Program) : String := String.ofList (Token.spell 0 [] p.tokens)

/-! ### The streams are laid out -/

namespace Token

theorem spelled_keyword (k : Keyword) : Spelled (.keyword k) := ⟨trivial, nofun, nofun⟩

theorem spelled_symbol (s : Symbol) : Spelled (.symbol s) := ⟨trivial, nofun, nofun⟩

theorem spelled_name {x : String} (hx : Name x) : Spelled (.name x) :=
  ⟨trivial, fun _ h => Token.name.inj h ▸ hx, nofun⟩

theorem spelled_int {n : Nat} (hn : n ≤ maxInt) : Spelled (.int n) :=
  ⟨trivial, nofun, fun _ h => Token.int.inj h ▸ hn⟩

/-- A part of a line in which every bracket is closed. -/
structure Closed (ts : List Token) : Prop where
  spelled : ∀ t ∈ ts, t.Spelled
  depth : ∀ d, ts.foldl depthAfter d = d

theorem closed_nil : Closed [] := ⟨fun _ h => absurd h List.not_mem_nil, fun _ => rfl⟩

namespace Closed

variable {ts us : List Token}

theorem append (h : Closed ts) (h' : Closed us) : Closed (ts ++ us) := by
  refine ⟨fun t ht => ?_, fun d => ?_⟩
  · obtain ht | ht := List.mem_append.1 ht
    · exact h.spelled t ht
    · exact h'.spelled t ht
  · rw [List.foldl_append, h.depth, h'.depth]

/-- A token that is no bracket. -/
theorem cons {t : Token} (h : Closed ts) (ht : t.Spelled) (hd : ∀ d, depthAfter d t = d) :
    Closed (t :: ts) := by
  refine ⟨fun u hu => ?_, fun d => ?_⟩
  · obtain rfl | hu := List.mem_cons.1 hu
    · exact ht
    · exact h.spelled u hu
  · rw [List.foldl_cons, hd, h.depth]

theorem keyword (h : Closed ts) (k : Keyword) : Closed (.keyword k :: ts) :=
  h.cons (spelled_keyword k) fun _ => rfl

theorem name (h : Closed ts) {x : String} (hx : Name x) : Closed (.name x :: ts) :=
  h.cons (spelled_name hx) fun _ => rfl

theorem symbol (h : Closed ts) {s : Symbol} (hs : ∀ d, depthAfter d (.symbol s) = d) :
    Closed (.symbol s :: ts) :=
  h.cons (spelled_symbol s) hs

theorem bracketed (h : Closed ts) : Closed (bracketed ts) := by
  refine ⟨fun t ht => ?_, fun d => ?_⟩
  · obtain rfl | ht := List.mem_cons.1 ht
    · exact spelled_symbol _
    · obtain ht | ht := List.mem_append.1 ht
      · exact h.spelled t ht
      · rw [List.mem_singleton.1 ht]
        exact spelled_symbol _
  · rw [Token.bracketed, List.foldl_cons, List.foldl_append, h.depth]
    rfl

theorem separated {tss : List (List Token)} (h : ∀ ts ∈ tss, Closed ts) :
    Closed (separated tss) := by
  cases tss with
  | nil => exact closed_nil
  | cons ts tss =>
    refine (h ts List.mem_cons_self).append ?_
    have hrest := fun us hus => h us (List.mem_cons_of_mem ts hus)
    clear h
    induction tss with
    | nil => exact closed_nil
    | cons us tss ih =>
      rw [List.flatMap_cons]
      exact ((hrest us List.mem_cons_self).symbol fun _ => rfl).append
        (ih fun vs hvs => hrest vs (List.mem_cons_of_mem us hvs))

/-- A part that is not empty is a line. -/
theorem isLine (h : Closed ts) (hne : ts ≠ []) : IsLine ts := ⟨hne, h.spelled, h.depth 0⟩

theorem line (h : Closed ts) (hne : ts ≠ []) : Laid (ts ++ [.newline]) := .line (h.isLine hne) .nil

theorem blockOf (h : Closed ts) (hne : ts ≠ []) (hus : Laid us) (husne : us ≠ []) :
    Laid (blockOf ts us) :=
  .block (h.isLine hne) hus husne .nil

end Closed

theorem laid_flatMap {α : Type} {f : α → List Token} {as : List α} (h : ∀ a ∈ as, Laid (f a)) :
    Laid (as.flatMap f) := by
  induction as with
  | nil => exact .nil
  | cons a as ih =>
    rw [List.flatMap_cons]
    exact (h a List.mem_cons_self).append (ih fun b hb => h b (List.mem_cons_of_mem a hb))

theorem flatMap_ne_nil {α : Type} {f : α → List Token} {as : List α} (hne : as ≠ [])
    (h : ∀ a ∈ as, f a ≠ []) : as.flatMap f ≠ [] := by
  obtain ⟨a, as, rfl⟩ := List.exists_cons_of_ne_nil hne
  rw [List.flatMap_cons]
  exact List.append_ne_nil_of_left_ne_nil (h a List.mem_cons_self) _

theorem blockOf_ne_nil (header body : List Token) : blockOf header body ≠ [] :=
  List.append_ne_nil_of_right_ne_nil _ (List.cons_ne_nil _ _)

end Token

open Token (Closed Laid closed_nil laid_flatMap flatMap_ne_nil blockOf_ne_nil)

theorem Literal.closed (v : Literal) : Closed v.tokens := by
  cases v with
  | number n =>
    have hint : ∀ m : Nat, m ≤ Token.maxInt → Closed [.int m] := fun m hm =>
      closed_nil.cons (Token.spelled_int hm) fun _ => rfl
    have hle := n.le_toInt
    have hlt := n.toInt_lt
    rw [Literal.tokens]
    unfold Token.maxInt at hint
    split
    · exact (hint _ (by omega)).symbol fun _ => rfl
    · exact hint _ (by omega)
  | bool b => cases b <;> exact closed_nil.keyword _
  | none => exact closed_nil.keyword _

theorem Literal.tokens_ne_nil (v : Literal) : v.tokens ≠ [] := by
  cases v with
  | number n =>
    rw [Literal.tokens]
    split <;> exact List.cons_ne_nil _ _
  | bool b => cases b <;> exact List.cons_ne_nil _ _
  | none => exact List.cons_ne_nil _ _

theorem Expr.Written.closed {e : Expr} (h : e.Written) : Closed e.tokens := by
  have hlist : ∀ {es : List Expr}, (∀ a ∈ es, Closed a.tokens) →
      Closed (bracketed (separated (Expr.listTokens es))) := by
    intro es hes
    rw [Expr.listTokens_eq]
    refine (Closed.separated fun ts hts => ?_).bracketed
    obtain ⟨a, ha, rfl⟩ := List.mem_map.1 hts
    exact hes a ha
  induction h with
  | literal hv => exact Literal.closed _
  | name hx => exact closed_nil.name hx
  | @unary _ op _ _ ih =>
    refine Closed.bracketed ?_
    cases op
    · exact ih.symbol fun _ => rfl
    · exact ih.keyword _
  | @binary _ op _ _ _ _ ihl ihr =>
    refine Closed.bracketed (ihl.append ?_)
    cases op <;> first | exact ihr.symbol fun _ => rfl | exact ihr.keyword _
  | call hf _ ih => exact (hlist ih).name hf
  | field _ hf ih => exact ih.bracketed.append ((closed_nil.name hf).symbol fun _ => rfl)
  | method _ hm _ ih ihargs =>
    exact ih.bracketed.append (((hlist ihargs).name hm).symbol fun _ => rfl)

theorem Expr.tokens_ne_nil (e : Expr) : e.tokens ≠ [] := by
  cases e with
  | literal i v => exact v.tokens_ne_nil
  | _ => exact List.cons_ne_nil _ _

theorem Target.Written.expr {t : Target} (h : t.Written) : t.expr.Written := by
  cases h with
  | name hx => exact .name hx
  | field ho hf => exact .field ho hf

theorem Stmt.tokens_ne_nil (s : Stmt) : s.tokens ≠ [] := by
  cases s with
  | assign t v _ => exact List.append_ne_nil_of_left_ne_nil t.expr.tokens_ne_nil _
  | expr v _ => exact List.append_ne_nil_of_left_ne_nil v.tokens_ne_nil _
  | ret v _ => exact List.cons_ne_nil _ _
  | pass _ => exact List.cons_ne_nil _ _
  | cond b bs ss _ =>
    obtain ⟨test, body⟩ := b
    exact List.append_ne_nil_of_left_ne_nil (blockOf_ne_nil _ _) _
  | loop b _ =>
    obtain ⟨test, body⟩ := b
    exact blockOf_ne_nil _ _

theorem laid_branch {test : Expr} {body : List Stmt} (htest : test.Written) (hne : body ≠ [])
    (hbody : ∀ s ∈ body, Laid s.tokens) (word : Keyword) :
    Laid ((Branch.mk test body).tokens word) := by
  rw [Branch.tokens, Stmt.listTokens_eq]
  exact Closed.blockOf ((htest.closed.append (closed_nil.symbol fun _ => rfl)).keyword _)
    (List.cons_ne_nil _ _) (laid_flatMap hbody) (flatMap_ne_nil hne fun s _ => s.tokens_ne_nil)

theorem Stmt.Written.laid {inFunction : Bool} {s : Stmt} (h : s.Written inFunction) :
    Laid s.tokens := by
  induction h with
  | assign htarget hvalue =>
    have hline := Closed.line (htarget.expr.closed.append
      (hvalue.closed.symbol (s := .equal) fun _ => rfl))
      (List.append_ne_nil_of_left_ne_nil (Expr.tokens_ne_nil _) _)
    rwa [List.append_assoc] at hline
  | expr hvalue => exact hvalue.closed.line (Expr.tokens_ne_nil _)
  | ret _ hvalue => exact (hvalue.closed.keyword .returnKw).line (List.cons_ne_nil _ _)
  | pass => exact (closed_nil.keyword .passKw).line (List.cons_ne_nil _ _)
  | cond htest hne _ htests hnes _ _ ihbody ihbodies ihotherwise =>
    rw [Stmt.tokens, Branch.listTokens_eq, Stmt.listTokens_eq]
    refine (laid_branch htest hne ihbody _).append (.append (laid_flatMap fun b hb => ?_) ?_)
    · obtain ⟨test, body⟩ := b
      exact laid_branch (htests _ hb) (hnes _ hb) (ihbodies _ hb) _
    · split
      · exact .nil
      · next hne =>
        exact Closed.blockOf ((closed_nil.symbol fun _ => rfl).keyword _) (List.cons_ne_nil _ _)
          (laid_flatMap ihotherwise)
          (flatMap_ne_nil (by simpa using hne) fun s _ => s.tokens_ne_nil)
  | loop htest hne _ ihbody => exact laid_branch htest hne ihbody _

theorem spelled_typeToken {x : String} (hx : x = "None" ∨ Name x) :
    (typeToken x).Spelled ∧ ∀ d, Token.depthAfter d (typeToken x) = d := by
  unfold typeToken
  split
  · exact ⟨Token.spelled_keyword _, fun _ => rfl⟩
  · next hne => exact ⟨Token.spelled_name (hx.resolve_left hne), fun _ => rfl⟩

theorem TypedName.Written.closed {t : TypedName} (h : t.Written) : Closed t.tokens := by
  obtain ⟨hspelled, hdepth⟩ := spelled_typeToken h.type
  exact ((closed_nil.cons hspelled hdepth).symbol fun _ => rfl).name h.name

theorem VarDef.Written.laid {d : VarDef} (h : d.Written) : Laid d.tokens := by
  have hline := Closed.line (h.var.closed.append
    (d.init.closed.symbol (s := .equal) fun _ => rfl))
    (List.cons_ne_nil _ _)
  rwa [List.append_assoc] at hline

theorem ScopeDecl.laid {d : ScopeDecl} (h : Name d.name.name) : Laid d.tokens :=
  ((closed_nil.name h).keyword d.kind.word).line (List.cons_ne_nil _ _)

theorem closed_header {name : Ident} {params : List TypedName} {ret : Option Ident}
    (hname : Name name.name) (hparams : ∀ t ∈ params, t.Written)
    (hret : ∀ t, ret = some t → t.name = "None" ∨ Name t.name) :
    Closed (headerTokens name params ret) := by
  have hseparated : Closed (separated (params.map TypedName.tokens)) := by
    refine Closed.separated fun ts hts => ?_
    obtain ⟨t, ht, rfl⟩ := List.mem_map.1 hts
    exact (hparams t ht).closed
  have hreturn : Closed (retTokens ret) := by
    cases ret with
    | none => exact closed_nil
    | some t =>
      obtain ⟨hspelled, hdepth⟩ := spelled_typeToken (hret t rfl)
      exact (closed_nil.cons hspelled hdepth).symbol fun _ => rfl
  exact ((hseparated.bracketed.append (hreturn.append (closed_nil.symbol fun _ => rfl))).name
    hname).keyword _

theorem FunDef.Written.laid {d : FunDef} (h : d.Written) : Laid d.tokens := by
  induction h with
  | @intro d hname hparams hret hdecls hvars _ hne hbody _ ih =>
    obtain ⟨name, params, ret, decls, vars, nested, body, span, id⟩ := d
    rw [FunDef.tokens, FunDef.listTokens_eq]
    have hstmts : Laid (body.flatMap Stmt.tokens) := laid_flatMap fun s hs => (hbody s hs).laid
    refine (closed_header hname hparams hret).blockOf (List.cons_ne_nil _ _) ?_ ?_
    · exact (laid_flatMap fun s hs => ScopeDecl.laid (hdecls s hs)).append
        ((laid_flatMap fun v hv => (hvars v hv).laid).append ((laid_flatMap ih).append hstmts))
    · have hbodyne := flatMap_ne_nil hne fun s _ => s.tokens_ne_nil
      exact List.append_ne_nil_of_right_ne_nil _ (List.append_ne_nil_of_right_ne_nil _
        (List.append_ne_nil_of_right_ne_nil _ hbodyne))

theorem FunDef.tokens_ne_nil (d : FunDef) : d.tokens ≠ [] := by
  obtain ⟨name, params, ret, decls, vars, nested, body, span, id⟩ := d
  exact blockOf_ne_nil _ _

theorem VarDef.tokens_ne_nil (d : VarDef) : d.tokens ≠ [] := List.cons_ne_nil _ _

theorem ClassDef.Written.laid {k : ClassDef} (h : k.Written) : Laid k.tokens := by
  have hheader : Closed (.keyword .classKw :: .name k.name.name ::
      (bracketed [.name k.superclass.name] ++ [.symbol .colon])) :=
    (((closed_nil.name h.superclass).bracketed.append (closed_nil.symbol fun _ => rfl)).name
      h.name).keyword _
  refine hheader.blockOf (List.cons_ne_nil _ _) ?_ ?_
  · unfold ClassDef.memberTokens
    split
    · exact (closed_nil.keyword .passKw).line (List.cons_ne_nil _ _)
    · exact (laid_flatMap fun d hd => (h.fields d hd).laid).append
        (laid_flatMap fun m hm => (h.methods m hm).laid)
  · unfold ClassDef.memberTokens
    split
    · exact List.cons_ne_nil _ _
    · next hne =>
      rw [Bool.and_eq_true, List.isEmpty_iff, List.isEmpty_iff, not_and_or] at hne
      obtain hfields | hmethods := hne
      · exact List.append_ne_nil_of_left_ne_nil
          (flatMap_ne_nil hfields fun d _ => d.tokens_ne_nil) _
      · exact List.append_ne_nil_of_right_ne_nil _
          (flatMap_ne_nil hmethods fun m _ => m.tokens_ne_nil)

/-- The stream of a program is laid out in lines and blocks. -/
theorem Program.Written.laid {p : Program} (h : p.Written) : Laid p.tokens :=
  (laid_flatMap fun d hd => (h.vars d hd).laid).append
    ((laid_flatMap fun d hd => (h.functions d hd).laid).append
      ((laid_flatMap fun k hk => (h.classes k hk).laid).append
        (laid_flatMap fun s hs => (h.body s hs).laid)))

end ObjLang
