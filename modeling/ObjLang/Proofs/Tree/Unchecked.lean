import ObjLang.Proofs.Check.Level
import ObjLang.Proofs.Parts

/-!
# ObjLang.Proofs.Tree.Unchecked — trees without what a check fills in

A check fills in the type of each expression and what names, calls and definitions stand for.  The
unchecked tree has none of this.  Taking it keeps the shape: what stands in an unchecked tree is the
unchecked form of what stands in the tree.
-/

namespace ObjLang

/-! ### Expressions and statements -/

/-- The place without the type. -/
def ExprInfo.unchecked (i : ExprInfo) : ExprInfo := { i with ty := none }

mutual

/-- The expression without types, bindings and targets. -/
def Expr.unchecked : Expr → Expr
  | .literal i v => .literal i.unchecked v
  | .name i x _ => .name i.unchecked x none
  | .unary i op e => .unary i.unchecked op e.unchecked
  | .binary i op l r => .binary i.unchecked op l.unchecked r.unchecked
  | .call i f args _ => .call i.unchecked f (Expr.listUnchecked args) none
  | .field i o f => .field i.unchecked o.unchecked f
  | .method i o m args => .method i.unchecked o.unchecked m (Expr.listUnchecked args)

/-- The expressions without types, bindings and targets. -/
def Expr.listUnchecked : List Expr → List Expr
  | [] => []
  | e :: es => e.unchecked :: Expr.listUnchecked es

end

theorem Expr.listUnchecked_eq (es : List Expr) : Expr.listUnchecked es = es.map Expr.unchecked := by
  induction es with
  | nil => rfl
  | cons e es ih => rw [Expr.listUnchecked, ih, List.map_cons]

/-- The left side without what it stands for. -/
def Target.unchecked : Target → Target
  | .name x _ => .name x none
  | .field o f => .field o.unchecked f

mutual

/-- The statement with unchecked expressions. -/
def Stmt.unchecked : Stmt → Stmt
  | .assign t v s => .assign t.unchecked v.unchecked s
  | .expr v s => .expr v.unchecked s
  | .ret v s => .ret v.unchecked s
  | .pass s => .pass s
  | .cond b bs ss s => .cond b.unchecked (Branch.listUnchecked bs) (Stmt.listUnchecked ss) s
  | .loop b s => .loop b.unchecked s

/-- The branch with unchecked expressions. -/
def Branch.unchecked : Branch → Branch
  | .mk test body => .mk test.unchecked (Stmt.listUnchecked body)

/-- The branches with unchecked expressions. -/
def Branch.listUnchecked : List Branch → List Branch
  | [] => []
  | b :: bs => b.unchecked :: Branch.listUnchecked bs

/-- The statements with unchecked expressions. -/
def Stmt.listUnchecked : List Stmt → List Stmt
  | [] => []
  | s :: ss => s.unchecked :: Stmt.listUnchecked ss

end

theorem Stmt.listUnchecked_eq (ss : List Stmt) : Stmt.listUnchecked ss = ss.map Stmt.unchecked := by
  induction ss with
  | nil => rfl
  | cons s ss ih => rw [Stmt.listUnchecked, ih, List.map_cons]

theorem Branch.listUnchecked_eq (bs : List Branch) :
    Branch.listUnchecked bs = bs.map Branch.unchecked := by
  induction bs with
  | nil => rfl
  | cons b bs ih => rw [Branch.listUnchecked, ih, List.map_cons]

/-! ### Definitions -/

/-- The variable definition without its record. -/
def VarDef.unchecked (d : VarDef) : VarDef := { d with binding := none }

mutual

/-- The function definition without its record and with unchecked statements. -/
def FunDef.unchecked : FunDef → FunDef
  | ⟨name, params, ret, decls, vars, nested, body, span, _⟩ =>
    ⟨name, params, ret, decls, vars.map VarDef.unchecked, FunDef.listUnchecked nested,
      body.map Stmt.unchecked, span, none⟩

/-- The function definitions without records and with unchecked statements. -/
def FunDef.listUnchecked : List FunDef → List FunDef
  | [] => []
  | d :: ds => d.unchecked :: FunDef.listUnchecked ds

end

theorem FunDef.listUnchecked_eq (ds : List FunDef) :
    FunDef.listUnchecked ds = ds.map FunDef.unchecked := by
  induction ds with
  | nil => rfl
  | cons d ds ih => rw [FunDef.listUnchecked, ih, List.map_cons]

/-- The class definition with unchecked methods. -/
def ClassDef.unchecked (k : ClassDef) : ClassDef :=
  { k with methods := k.methods.map FunDef.unchecked }

/-- The program without what a check fills in. -/
def Program.unchecked (p : Program) : Program where
  vars := p.vars.map VarDef.unchecked
  functions := p.functions.map FunDef.unchecked
  classes := p.classes.map ClassDef.unchecked
  body := p.body.map Stmt.unchecked
  span := p.span

/-! ### What stands in unchecked statements -/

theorem Branch.body_unchecked (b : Branch) : b.unchecked.body = b.body.map Stmt.unchecked := by
  cases b
  simp [Branch.unchecked, Branch.body, Stmt.listUnchecked_eq]

theorem Stmt.parts_unchecked (s : Stmt) : s.unchecked.parts = s.parts.map Stmt.unchecked := by
  cases s with
  | cond b bs ss span =>
    simp [Stmt.unchecked, Stmt.parts, Branch.listUnchecked_eq, Stmt.listUnchecked_eq,
      Branch.body_unchecked, List.flatMap_map, List.map_flatMap]
  | loop b span => exact b.body_unchecked
  | _ => rfl

theorem Stmt.occursIn_unchecked {ss : List Stmt} {s' : Stmt} :
    Stmt.OccursIn (ss.map Stmt.unchecked) s' ↔ ∃ s, Stmt.OccursIn ss s ∧ s.unchecked = s' := by
  constructor
  · intro h
    induction h with
    | here hs =>
      obtain ⟨s, hmem, rfl⟩ := List.mem_map.1 hs
      exact ⟨s, .here hmem, rfl⟩
    | part _ hs ih =>
      obtain ⟨s, hocc, rfl⟩ := ih
      rw [Stmt.parts_unchecked] at hs
      obtain ⟨t, ht, rfl⟩ := List.mem_map.1 hs
      exact ⟨t, hocc.part ht, rfl⟩
  · rintro ⟨s, h, rfl⟩
    induction h with
    | here hs => exact .here (List.mem_map_of_mem hs)
    | part _ hs ih => exact ih.part (Stmt.parts_unchecked _ ▸ List.mem_map_of_mem hs)

/-- Trees that differ in checked places only assign the same names. -/
theorem Stmt.assigns_of_unchecked_eq {ss ss' : List Stmt}
    (h : ss'.map Stmt.unchecked = ss.map Stmt.unchecked) {x : Ident} {b : Option VarId}
    {value : Expr} {span : Span} (hs : Stmt.OccursIn ss (.assign (.name x b) value span)) :
    ∃ b' value', Stmt.OccursIn ss' (.assign (.name x b') value' span) := by
  obtain ⟨s, hs', heq⟩ := Stmt.occursIn_unchecked.1 (h ▸ Stmt.occursIn_unchecked.2 ⟨_, hs, rfl⟩)
  cases s with
  | assign t v sp =>
    cases t with
    | name y b' =>
      simp only [Stmt.unchecked, Target.unchecked, Stmt.assign.injEq, Target.name.injEq] at heq
      obtain ⟨⟨rfl, -⟩, -, rfl⟩ := heq
      exact ⟨b', v, hs'⟩
    | field o f => simp [Stmt.unchecked, Target.unchecked] at heq
  | _ => simp [Stmt.unchecked] at heq

/-! ### Functions in unchecked functions -/

namespace FunDef

theorem nested_unchecked (d : FunDef) : d.unchecked.nested = d.nested.map FunDef.unchecked := by
  cases d
  simp [FunDef.unchecked, listUnchecked_eq]

theorem body_unchecked (d : FunDef) : d.unchecked.body = d.body.map Stmt.unchecked := by
  cases d
  rfl

theorem params_unchecked (d : FunDef) : d.unchecked.params = d.params := by
  cases d
  rfl

theorem decls_unchecked (d : FunDef) : d.unchecked.decls = d.decls := by
  cases d
  rfl

theorem vars_unchecked (d : FunDef) : d.unchecked.vars = d.vars.map VarDef.unchecked := by
  cases d
  rfl

theorem declared_unchecked (d : FunDef) (kind : ScopeKind) :
    d.unchecked.declared kind = d.declared kind := by
  rw [declared, declared, decls_unchecked]

theorem declares_unchecked (d : FunDef) (x : String) : d.unchecked.declares x = d.declares x := by
  simp [declares, params_unchecked, decls_unchecked, vars_unchecked, VarDef.unchecked,
    Function.comp_def]

mutual

theorem all_unchecked : ∀ d : FunDef, d.unchecked.all = d.all.map FunDef.unchecked
  | ⟨_, _, _, _, _, nested, _, _, _⟩ => by
    simp only [FunDef.unchecked, FunDef.all, List.map_cons]
    rw [allOf_unchecked nested]

theorem allOf_unchecked : ∀ ds : List FunDef,
    allOf (FunDef.listUnchecked ds) = (allOf ds).map FunDef.unchecked
  | [] => rfl
  | d :: ds => by
    simp only [FunDef.listUnchecked, allOf, List.map_append, all_unchecked d, allOf_unchecked ds]

end

end FunDef

end ObjLang
