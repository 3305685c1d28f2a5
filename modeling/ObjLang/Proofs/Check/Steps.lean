import ObjLang.Proofs.Check.Alias

/-!
# ObjLang.Proofs.Check.Steps — what the checks of expressions and statements do

A check of a node checks its parts in turn and then compares what it found.  For each kind of node
there is one constructor that says with which results; whatever is proved about checks is proved of
these, and no other module opens the checks of expressions and statements.
-/

namespace ObjLang.Check

open Facts

variable {classes : ClassTable} {s s' : State}

/-! ### Small checks -/

section

variable {r : Unit × State} {span : Span}

theorem expectAssignable_eq_ok {a t : Ty} :
    expectAssignable classes a t span s = .ok r ↔
      r = ((), s) ∧ classes.hierarchy.isAssignable a t = true := by
  unfold expectAssignable
  split
  · next h => simp [pure_eq_ok, h]
  · next h => simp [refuse_eq_ok, h]

theorem expectCount_eq_ok {x : String} {n m : Nat} :
    expectCount x n m span s = .ok r ↔ r = ((), s) ∧ n = m := by
  unfold expectCount
  split
  · next h => simp [pure_eq_ok, h]
  · next h => simp [refuse_eq_ok, h]

theorem receiverClass_eq_ok {t : Ty} {r : String × State} :
    receiverClass t span s = .ok r ↔ r.2 = s ∧ t = .object r.1 := by
  obtain ⟨c, s'⟩ := r
  cases t with
  | object d =>
    simp only [receiverClass, pure_eq_ok, Prod.mk.injEq, Ty.object.injEq]
    constructor
    · rintro ⟨rfl, rfl⟩
      exact ⟨rfl, rfl⟩
    · rintro ⟨rfl, rfl⟩
      exact ⟨rfl, rfl⟩
  | _ => simp [receiverClass, refuse_eq_ok]

theorem fieldType_eq_ok {c : String} {field : Ident} {r : Ty × State} :
    fieldType classes c field s = .ok r ↔
      r.2 = s ∧ ∃ l k d, classes.get? c = some l ∧ l.field? field.name = some (k, d) ∧
        r.1 = d.ty := by
  obtain ⟨t, s'⟩ := r
  unfold fieldType
  cases hl : classes.get? c with
  | none => simp [refuse_eq_ok]
  | some l =>
    cases hd : l.field? field.name with
    | none => simp [refuse_eq_ok, hd]
    | some kd =>
      obtain ⟨k, d⟩ := kd
      simp only [Option.bind_some, hd, pure_eq_ok, Prod.mk.injEq]
      constructor
      · rintro ⟨rfl, rfl⟩
        exact ⟨rfl, l, k, d, rfl, hd, rfl⟩
      · rintro ⟨rfl, l', k', d', hl', hd', rfl⟩
        cases hl'
        rw [hd] at hd'
        cases hd'
        exact ⟨rfl, rfl⟩

theorem methodOf_eq_ok {c : String} {method : Ident} {r : Function × State} :
    methodOf classes c method s = .ok r ↔
      r.2 = s ∧ ∃ id, (s.facts classes).methodId? c method.name = some id ∧
        r.1 = s.functions.get id := by
  obtain ⟨f, s'⟩ := r
  simp only [methodOf, bind_eq_ok, get_eq_ok, Prod.mk.injEq, and_assoc, exists_and_left,
    exists_eq_left]
  obtain ⟨o, ho⟩ : ∃ o, (s.facts classes).methodId? c method.name = o := ⟨_, rfl⟩
  rw [ho]
  simp only [Facts.methodId?, State.facts] at ho
  rw [ho]
  cases o with
  | some id =>
    simp only [pure_eq_ok, Prod.mk.injEq, Option.some.injEq, exists_eq_left']
    exact And.comm
  | none => simp [refuse_eq_ok]

end

/-- A function in use has its record. -/
theorem get_of_getElem? {fs : Functions} {id : FunId} {f : Function}
    (h : fs[id.index]? = some f) : fs.get id = f := by
  simp [Functions.get, h]

theorem passedCaptures_ok {captures : Captures} {span : Span} {vs : List VarId}
    (hc : passedCaptures captures span s = .ok (vs, s')) :
    s' = s ∧ List.Forall₂ (fun v k => s.varEnv.lookup k.name .localScope = some v) vs captures := by
  unfold passedCaptures at hc
  induction captures generalizing vs s' with
  | nil =>
    simp only [List.mapM_nil, pure_eq_ok, Prod.mk.injEq] at hc
    obtain ⟨rfl, rfl⟩ := hc
    exact ⟨rfl, .nil⟩
  | cons k rest ih =>
    simp only [List.mapM_cons, bind_eq_ok, findVar?_eq_ok, Prod.mk.injEq, and_assoc,
      exists_and_left, exists_eq_left, pure_eq_ok] at hc
    obtain ⟨v, s₁, hv, ws, s₂, hws, rfl, rfl⟩ := hc
    cases hk : s.varEnv.lookup k.name .localScope with
    | none =>
      simp only [hk, refuse_eq_ok] at hv
    | some w =>
      simp only [hk, pure_eq_ok, Prod.mk.injEq] at hv
      obtain ⟨rfl, rfl⟩ := hv
      obtain ⟨rfl, hrest⟩ := ih hws
      exact ⟨rfl, .cons hk hrest⟩

/-- An assigned name is bound in the innermost scope, to a variable that may be written. -/
theorem resolveWrite_bound {x : Ident} {v : VarId} (hc : resolveWrite x s = .ok (v, s')) :
    s' = s ∧ s.varEnv.lookup x.name .localScope = some v ∧ (s.vars.get v).writable = true := by
  have hrefuse : ∀ {t : State}, (do
      if (← get).varEnv.contains x.name .all then
        refuse (.undeclaredAssignment x.name) x.span
      else refuse (.undefinedVariable x.name) x.span : CheckM VarId) t ≠ .ok (v, s') := by
    intro t ht
    simp only [bind_eq_ok] at ht
    obtain ⟨t₁, t₂, -, ht⟩ := ht
    split at ht <;> simp only [refuse_eq_ok] at ht
  simp only [resolveWrite, bind_eq_ok, findVar?_eq_ok, Prod.mk.injEq, and_assoc,
    exists_and_left, exists_eq_left] at hc
  cases hl : s.varEnv.lookup x.name .localScope with
  | none =>
    simp only [hl, pure_bind] at hc
    exact absurd hc hrefuse
  | some w =>
    simp only [hl, pure_bind, bind_eq_ok, variableOf_eq_ok, Prod.mk.injEq, and_assoc,
      exists_and_left, exists_eq_left] at hc
    cases hwr : (s.vars.get w).writable with
    | false =>
      simp only [hwr, Bool.false_eq_true, if_false] at hc
      exact absurd hc hrefuse
    | true =>
      simp only [hwr, if_true, pure_eq_ok, Prod.mk.injEq] at hc
      obtain ⟨rfl, rfl⟩ := hc
      exact ⟨rfl, rfl, hwr⟩

/-- The type that the innermost function returns. -/
def State.returns (s : State) : Option Ty := s.frames.head?.map Frame.ret

theorem returnType_eq_ok {span : Span} {r : Ty × State} :
    returnType span s = .ok r ↔ r.2 = s ∧ s.returns = some r.1 := by
  obtain ⟨t, s'⟩ := r
  simp only [returnType, bind_eq_ok, get_eq_ok, Prod.mk.injEq, and_assoc, exists_and_left,
    exists_eq_left, State.returns]
  cases s.frames with
  | nil => simp [refuse_eq_ok]
  | cons f fs =>
    simp only [pure_eq_ok, Prod.mk.injEq, List.head?_cons, Option.map_some, Option.some.injEq]
    constructor
    · rintro ⟨rfl, rfl⟩
      exact ⟨rfl, rfl⟩
    · rintro ⟨rfl, rfl⟩
      exact ⟨rfl, rfl⟩

/-! ### Expressions -/

/-- The checks of expressions one after the other went from `s` to `s'` and gave `es'` with the types
`ts`. -/
inductive ExprsChecked (classes : ClassTable) :
    List Expr → State → List Expr → List Ty → State → Prop where
  | nil {s : State} : ExprsChecked classes [] s [] [] s
  | cons {e e' : Expr} {es es' : List Expr} {t : Ty} {ts : List Ty} {s s₁ s' : State} :
    checkExpr classes e s = .ok ((e', t), s₁) → ExprsChecked classes es s₁ es' ts s' →
    ExprsChecked classes (e :: es) s (e' :: es') (t :: ts) s'

theorem ExprsChecked.length_eq {es es' : List Expr} {ts : List Ty}
    (h : ExprsChecked classes es s es' ts s') : es'.length = es.length := by
  induction h with
  | nil => rfl
  | cons _ _ ih => rw [List.length_cons, List.length_cons, ih]

theorem checkArgs_cases {ps : List Ty} {es es' : List Expr}
    (hc : checkArgs classes ps es s = .ok (es', s')) (hlen : es.length = ps.length) :
    ∃ ts, ExprsChecked classes es s es' ts s' ∧
      List.Forall₂ (fun t p => classes.hierarchy.isAssignable t p = true) ts ps := by
  induction es generalizing s es' ps with
  | nil =>
    simp only [checkArgs, pure_eq_ok, Prod.mk.injEq] at hc
    obtain ⟨rfl, rfl⟩ := hc
    obtain rfl : ps = [] := List.length_eq_zero_iff.1 hlen.symm
    exact ⟨[], .nil, .nil⟩
  | cons e es ih =>
    cases ps with
    | nil => cases hlen
    | cons p ps =>
      simp only [checkArgs, bind_eq_ok, expectAssignable_eq_ok, pure_eq_ok, Prod.mk.injEq] at hc
      obtain ⟨⟨e₁, t⟩, s₁, he, _, _, ⟨⟨-, rfl⟩, hle⟩, es₁, s₂, hes, rfl, rfl⟩ := hc
      obtain ⟨ts, hes, hall⟩ := ih hes (Nat.succ.inj hlen)
      exact ⟨t :: ts, .cons he hes, .cons hle hall⟩

theorem checkInts_cases {es es' : List Expr} (hc : checkInts classes es s = .ok (es', s')) :
    ∃ ts, ExprsChecked classes es s es' ts s' ∧ ∀ t ∈ ts, t = .int := by
  induction es generalizing s es' with
  | nil =>
    simp only [checkInts, pure_eq_ok, Prod.mk.injEq] at hc
    obtain ⟨rfl, rfl⟩ := hc
    exact ⟨[], .nil, nofun⟩
  | cons e es ih =>
    simp only [checkInts, bind_eq_ok] at hc
    obtain ⟨⟨e₁, t⟩, s₁, he, hc⟩ := hc
    split at hc
    · next ht =>
      simp only [bind_eq_ok, pure_eq_ok, Prod.mk.injEq] at hc
      obtain ⟨es₁, s₂, hes, rfl, rfl⟩ := hc
      obtain ⟨ts, hes, hall⟩ := ih hes
      exact ⟨t :: ts, .cons he hes, List.forall_mem_cons.2 ⟨ht, hall⟩⟩
    · simp only [refuse_eq_ok] at hc

theorem checkPrinted_cases {es es' : List Expr}
    (hc : checkPrinted classes es s = .ok (es', s')) :
    ∃ ts, ExprsChecked classes es s es' ts s' ∧ ∀ t ∈ ts, isPrintable t = true := by
  induction es generalizing s es' with
  | nil =>
    simp only [checkPrinted, pure_eq_ok, Prod.mk.injEq] at hc
    obtain ⟨rfl, rfl⟩ := hc
    exact ⟨[], .nil, nofun⟩
  | cons e es ih =>
    simp only [checkPrinted, bind_eq_ok] at hc
    obtain ⟨⟨e₁, t⟩, s₁, he, hc⟩ := hc
    split at hc
    · next ht =>
      simp only [bind_eq_ok, pure_eq_ok, Prod.mk.injEq] at hc
      obtain ⟨es₁, s₂, hes, rfl, rfl⟩ := hc
      obtain ⟨ts, hes, hall⟩ := ih hes
      exact ⟨t :: ts, .cons he hes, List.forall_mem_cons.2 ⟨ht, hall⟩⟩
    · simp only [refuse_eq_ok] at hc

/-- The check of an expression went from `s` to `s'` and gave `e'` with the type `t`.  A called name
is that of a class, of a function in scope or of a builtin function, in this order. -/
inductive ExprChecked (classes : ClassTable) : Expr → State → Expr → Ty → State → Prop where
  | literal {i : ExprInfo} {v : Literal} {s : State} :
    ExprChecked classes (.literal i v) s (.literal { i with ty := some v.ty } v) v.ty s
  | name {i : ExprInfo} {x : String} {b : Option VarId} {v : VarId} {s s' : State} :
    resolveRead x i.span s = .ok (v, s') →
    ExprChecked classes (.name i x b) s
      (.name { i with ty := some (s'.vars.get v).ty.ty } x (some v)) (s'.vars.get v).ty.ty s'
  | unary {i : ExprInfo} {op : UnaryOp} {e e' : Expr} {s s' : State} :
    checkExpr classes e s = .ok ((e', unaryType op), s') →
    ExprChecked classes (.unary i op e) s (.unary { i with ty := some (unaryType op) } op e')
      (unaryType op) s'
  | binary {i : ExprInfo} {op : BinaryOp} {l l' r r' : Expr} {a b t : Ty} {s s₁ s' : State} :
    checkExpr classes l s = .ok ((l', a), s₁) → checkExpr classes r s₁ = .ok ((r', b), s') →
    binaryType? op a b = some t →
    ExprChecked classes (.binary i op l r) s (.binary { i with ty := some t } op l' r') t s'
  | construct {i : ExprInfo} {x : Ident} {target : Option CallTarget} {s : State} :
    classes.contains x.name = true →
    ExprChecked classes (.call i x [] target) s
      (.call { i with ty := some (.object x.name) } x [] (some (.construct x.name)))
      (.object x.name) s
  | function {i : ExprInfo} {x : Ident} {args args' : List Expr} {target : Option CallTarget}
      {id : FunId} {ts : List Ty} {vs : List VarId} {s s' : State} :
    classes.contains x.name = false → s.funEnv.lookup x.name .localAndGlobal = some id →
    ExprsChecked classes args s args' ts s' →
    List.Forall₂ (fun t p => classes.hierarchy.isAssignable t p = true) ts
      (s.functions.get id).paramTypes →
    List.Forall₂ (fun v k => s'.varEnv.lookup k.name .localScope = some v) vs
      (s.functions.get id).captures →
    ExprChecked classes (.call i x args target) s
      (.call { i with ty := some (s.functions.get id).ret } x args' (some (.function id vs)))
      (s.functions.get id).ret s'
  | builtin {i : ExprInfo} {x : Ident} {args args' : List Expr} {target : Option CallTarget}
      {f : Builtin} {ts : List Ty} {s s' : State} :
    classes.contains x.name = false → s.funEnv.lookup x.name .localAndGlobal = none →
    Builtin.ofName? x.name = some f → f.arity = args.length →
    ExprsChecked classes args s args' ts s' → (∀ t ∈ ts, takes f t) →
    ExprChecked classes (.call i x args target) s
      (.call { i with ty := some (builtinType f) } x args' (some (.builtin f))) (builtinType f) s'
  | field {i : ExprInfo} {o o' : Expr} {x : Ident} {c : String} {l : ClassLayout} {k : Nat}
      {d : FieldLayout} {s s' : State} :
    checkExpr classes o s = .ok ((o', .object c), s') → classes.get? c = some l →
    l.field? x.name = some (k, d) →
    ExprChecked classes (.field i o x) s (.field { i with ty := some d.ty } o' x) d.ty s'
  | method {i : ExprInfo} {o o' : Expr} {x : Ident} {args args' : List Expr} {c : String}
      {id : FunId} {ts : List Ty} {s s₁ s' : State} :
    checkExpr classes o s = .ok ((o', .object c), s₁) →
    (s₁.facts classes).methodId? c x.name = some id →
    ExprsChecked classes args s₁ args' ts s' →
    List.Forall₂ (fun t p => classes.hierarchy.isAssignable t p = true) ts
      ((s₁.functions.get id).paramTypes.drop 1) →
    ExprChecked classes (.method i o x args) s
      (.method { i with ty := some (s₁.functions.get id).ret } o' x args')
      (s₁.functions.get id).ret s'

theorem checkExpr_cases {e e' : Expr} {t : Ty} (hc : checkExpr classes e s = .ok ((e', t), s')) :
    ExprChecked classes e s e' t s' := by
  cases e with
  | literal i v =>
    simp only [checkExpr, pure_eq_ok, Prod.mk.injEq] at hc
    obtain ⟨⟨rfl, rfl⟩, rfl⟩ := hc
    exact .literal
  | name i x b =>
    simp only [checkExpr, bind_eq_ok, tyOf_eq_ok, pure_eq_ok, Prod.mk.injEq] at hc
    obtain ⟨v, s₁, hv, _, _, ⟨rfl, rfl⟩, ⟨rfl, rfl⟩, rfl⟩ := hc
    exact .name hv
  | unary i op e =>
    simp only [checkExpr, bind_eq_ok] at hc
    obtain ⟨⟨e₁, a⟩, s₁, he, hc⟩ := hc
    split at hc
    · next hop =>
      simp only [pure_eq_ok, Prod.mk.injEq] at hc
      obtain ⟨⟨rfl, rfl⟩, rfl⟩ := hc
      cases hop
      exact .unary he
    · simp only [refuse_eq_ok] at hc
  | binary i op l r =>
    simp only [checkExpr, bind_eq_ok] at hc
    obtain ⟨⟨l', a⟩, s₁, hl, ⟨r', b⟩, s₂, hr, hc⟩ := hc
    cases hop : binaryType? op a b with
    | none => simp only [hop, refuse_eq_ok] at hc
    | some u =>
      simp only [hop, pure_eq_ok, Prod.mk.injEq] at hc
      obtain ⟨⟨rfl, rfl⟩, rfl⟩ := hc
      exact .binary hl hr hop
  | call i x args target =>
    simp only [checkExpr] at hc
    cases hcl : classes.contains x.name with
    | true =>
      simp only [hcl, if_true, bind_eq_ok, expectCount_eq_ok, pure_eq_ok, Prod.mk.injEq] at hc
      obtain ⟨_, _, ⟨⟨-, rfl⟩, hlen⟩, ⟨rfl, rfl⟩, rfl⟩ := hc
      obtain rfl : args = [] := List.length_eq_zero_iff.1 hlen.symm
      exact .construct hcl
    | false =>
      simp only [hcl, Bool.false_eq_true, if_false, bind_eq_ok, get_eq_ok, Prod.mk.injEq,
        and_assoc, exists_and_left, exists_eq_left] at hc
      cases hid : s.funEnv.lookup x.name .localAndGlobal with
      | some id =>
        simp only [hid, bind_eq_ok, functionOf_eq_ok, expectCount_eq_ok, Prod.mk.injEq,
          pure_eq_ok] at hc
        obtain ⟨f, _, ⟨rfl, rfl⟩, _, _, ⟨⟨-, rfl⟩, hlen⟩, args', s₁, hargs, vs, s₂, hvs,
          ⟨rfl, rfl⟩, rfl⟩ := hc
        obtain ⟨ts, hargs, hall⟩ := checkArgs_cases hargs hlen.symm
        obtain ⟨rfl, hvs⟩ := passedCaptures_ok hvs
        exact .function hcl hid hargs hall hvs
      | none =>
        cases hf : Builtin.ofName? x.name with
        | none => simp only [hid, hf, refuse_eq_ok] at hc
        | some f =>
          simp only [hid, hf, bind_eq_ok, expectCount_eq_ok, Prod.mk.injEq] at hc
          obtain ⟨_, _, ⟨⟨-, rfl⟩, hlen⟩, hc⟩ := hc
          -- All builtin functions but one take integers and give one.
          cases f with
          | print =>
            simp only [bind_eq_ok, pure_eq_ok, Prod.mk.injEq] at hc
            obtain ⟨args', s₁, hargs, _, _, ⟨rfl, rfl⟩, ⟨rfl, rfl⟩, rfl⟩ := hc
            obtain ⟨ts, hargs, hall⟩ := checkPrinted_cases hargs
            exact .builtin hcl hid hf hlen hargs hall
          | _ =>
            simp only [bind_eq_ok, pure_eq_ok, Prod.mk.injEq] at hc
            obtain ⟨args', s₁, hargs, _, _, ⟨rfl, rfl⟩, ⟨rfl, rfl⟩, rfl⟩ := hc
            obtain ⟨ts, hargs, hall⟩ := checkInts_cases hargs
            exact .builtin hcl hid hf hlen hargs hall
  | field i o x =>
    simp only [checkExpr, bind_eq_ok, receiverClass_eq_ok, fieldType_eq_ok, pure_eq_ok,
      Prod.mk.injEq] at hc
    obtain ⟨⟨o', a⟩, s₁, ho, c, _, ⟨rfl, rfl⟩, _, _, ⟨rfl, l, k, d, hl, hd, rfl⟩, ⟨rfl, rfl⟩,
      rfl⟩ := hc
    exact .field ho hl hd
  | method i o x args =>
    simp only [checkExpr, bind_eq_ok, receiverClass_eq_ok, methodOf_eq_ok, expectCount_eq_ok,
      pure_eq_ok, Prod.mk.injEq] at hc
    obtain ⟨⟨o', a⟩, s₁, ho, c, _, ⟨rfl, rfl⟩, f, _, ⟨rfl, id, hid, rfl⟩, _, _, ⟨⟨-, rfl⟩, hlen⟩,
      args', s₂, hargs, ⟨rfl, rfl⟩, rfl⟩ := hc
    obtain ⟨ts, hargs, hall⟩ := checkArgs_cases hargs hlen.symm
    exact .method ho hid hargs hall

theorem checkCondition_eq_ok {e : Expr} {r : Expr × State} :
    checkCondition classes e s = .ok r ↔ checkExpr classes e s = .ok ((r.1, .bool), r.2) := by
  obtain ⟨e', s'⟩ := r
  simp only [checkCondition, bind_eq_ok]
  constructor
  · rintro ⟨⟨e₁, a⟩, s₁, he, hc⟩
    split at hc
    · next ha =>
      simp only [pure_eq_ok, Prod.mk.injEq] at hc
      obtain ⟨rfl, rfl⟩ := hc
      exact ha ▸ he
    · simp only [refuse_eq_ok] at hc
  · intro he
    exact ⟨_, _, he, by simp only [if_true, pure_eq_ok]⟩

/-! ### Statements -/

/-- The check of the left side of an assignment went from `s` to `s'` and gave `g'`, which stores
values of the type `t`. -/
inductive TargetChecked (classes : ClassTable) : Target → State → Target → Ty → State → Prop where
  | name {x : Ident} {b : Option VarId} {v : VarId} {s : State} : resolveWrite x s = .ok (v, s) →
    TargetChecked classes (.name x b) s (.name x (some v)) (s.vars.get v).ty.ty s
  | field {o o' : Expr} {x : Ident} {c : String} {l : ClassLayout} {k : Nat} {d : FieldLayout}
      {s s' : State} :
    checkExpr classes o s = .ok ((o', .object c), s') → classes.get? c = some l →
    l.field? x.name = some (k, d) →
    TargetChecked classes (.field o x) s (.field o' x) d.ty s'

theorem checkTarget_cases {g g' : Target} {t : Ty}
    (hc : checkTarget classes g s = .ok ((g', t), s')) : TargetChecked classes g s g' t s' := by
  cases g with
  | name x b =>
    simp only [checkTarget, bind_eq_ok, tyOf_eq_ok, pure_eq_ok, Prod.mk.injEq] at hc
    obtain ⟨v, s₁, hv, _, _, ⟨rfl, rfl⟩, ⟨rfl, rfl⟩, rfl⟩ := hc
    obtain ⟨rfl, -⟩ := resolveWrite_bound hv
    exact .name hv
  | field o x =>
    simp only [checkTarget, bind_eq_ok, receiverClass_eq_ok, fieldType_eq_ok, pure_eq_ok,
      Prod.mk.injEq] at hc
    obtain ⟨⟨o', a⟩, s₁, ho, c, _, ⟨rfl, rfl⟩, _, _, ⟨rfl, l, k, d, hl, hd, rfl⟩, ⟨rfl, rfl⟩,
      rfl⟩ := hc
    exact .field ho hl hd

/-- The check of a list went from `s` to `s'`: its first element was checked by `f`, the others by
`g`. -/
inductive ListChecked {α : Type} (f : α → CheckM α) (g : List α → CheckM (List α)) :
    List α → State → List α → State → Prop where
  | nil {s : State} : ListChecked f g [] s [] s
  | cons {a a' : α} {as as' : List α} {s s₁ s' : State} : f a s = .ok (a', s₁) →
    g as s₁ = .ok (as', s') → ListChecked f g (a :: as) s (a' :: as') s'

theorem checkBlock_cases {ss ss' : List Stmt} (hc : checkBlock classes ss s = .ok (ss', s')) :
    ListChecked (checkStmt classes) (checkBlock classes) ss s ss' s' := by
  cases ss with
  | nil =>
    simp only [checkBlock, pure_eq_ok, Prod.mk.injEq] at hc
    obtain ⟨rfl, rfl⟩ := hc
    exact .nil
  | cons st ss =>
    simp only [checkBlock, bind_eq_ok, pure_eq_ok, Prod.mk.injEq] at hc
    obtain ⟨st', s₁, hst, ss₁, s₂, hss, rfl, rfl⟩ := hc
    exact .cons hst hss

theorem checkBranches_cases {bs bs' : List Branch}
    (hc : checkBranches classes bs s = .ok (bs', s')) :
    ListChecked (checkBranch classes) (checkBranches classes) bs s bs' s' := by
  cases bs with
  | nil =>
    simp only [checkBranches, pure_eq_ok, Prod.mk.injEq] at hc
    obtain ⟨rfl, rfl⟩ := hc
    exact .nil
  | cons b bs =>
    simp only [checkBranches, bind_eq_ok, pure_eq_ok, Prod.mk.injEq] at hc
    obtain ⟨b', s₁, hb, bs₁, s₂, hbs, rfl, rfl⟩ := hc
    exact .cons hb hbs

/-- The check of a branch went from `s` to `s'` and gave `b'`. -/
inductive BranchChecked (classes : ClassTable) : Branch → State → Branch → State → Prop where
  | mk {e e' : Expr} {ss ss' : List Stmt} {s s₁ s' : State} :
    checkExpr classes e s = .ok ((e', .bool), s₁) → checkBlock classes ss s₁ = .ok (ss', s') →
    BranchChecked classes (.mk e ss) s (.mk e' ss') s'

theorem checkBranch_cases {b b' : Branch} (hc : checkBranch classes b s = .ok (b', s')) :
    BranchChecked classes b s b' s' := by
  cases b with
  | mk e ss =>
    simp only [checkBranch, bind_eq_ok, pure_eq_ok, Prod.mk.injEq] at hc
    obtain ⟨e', s₁, he, ss', s₂, hss, rfl, rfl⟩ := hc
    exact .mk (checkCondition_eq_ok.1 he) hss

/-- The check of a statement went from `s` to `s'` and gave `st'`. -/
inductive StmtChecked (classes : ClassTable) : Stmt → State → Stmt → State → Prop where
  | assign {g g' : Target} {e e' : Expr} {span : Span} {a t : Ty} {s s₁ s' : State} :
    checkExpr classes e s = .ok ((e', a), s₁) → checkTarget classes g s₁ = .ok ((g', t), s') →
    classes.hierarchy.isAssignable a t = true →
    StmtChecked classes (.assign g e span) s (.assign g' e' span) s'
  | expr {e e' : Expr} {span : Span} {a : Ty} {s s' : State} :
    checkExpr classes e s = .ok ((e', a), s') →
    StmtChecked classes (.expr e span) s (.expr e' span) s'
  | ret {e e' : Expr} {span : Span} {a t : Ty} {s s' : State} :
    checkExpr classes e s = .ok ((e', a), s') → s'.returns = some t →
    classes.hierarchy.isAssignable a t = true →
    StmtChecked classes (.ret e span) s (.ret e' span) s'
  | pass {span : Span} {s : State} : StmtChecked classes (.pass span) s (.pass span) s
  | cond {b b' : Branch} {bs bs' : List Branch} {ss ss' : List Stmt} {span : Span}
      {s s₁ s₂ s' : State} :
    checkBranch classes b s = .ok (b', s₁) → checkBranches classes bs s₁ = .ok (bs', s₂) →
    checkBlock classes ss s₂ = .ok (ss', s') →
    StmtChecked classes (.cond b bs ss span) s (.cond b' bs' ss' span) s'
  | loop {b b' : Branch} {span : Span} {s s' : State} : checkBranch classes b s = .ok (b', s') →
    StmtChecked classes (.loop b span) s (.loop b' span) s'

theorem checkStmt_cases {st st' : Stmt} (hc : checkStmt classes st s = .ok (st', s')) :
    StmtChecked classes st s st' s' := by
  cases st with
  | assign g e span =>
    simp only [checkStmt, bind_eq_ok, expectAssignable_eq_ok, pure_eq_ok, Prod.mk.injEq] at hc
    obtain ⟨⟨e', a⟩, s₁, he, ⟨g', t⟩, s₂, hg, _, _, ⟨⟨-, rfl⟩, hle⟩, rfl, rfl⟩ := hc
    exact .assign he hg hle
  | expr e span =>
    simp only [checkStmt, bind_eq_ok, pure_eq_ok, Prod.mk.injEq] at hc
    obtain ⟨⟨e', a⟩, s₁, he, rfl, rfl⟩ := hc
    exact .expr he
  | ret e span =>
    simp only [checkStmt, bind_eq_ok, returnType_eq_ok, expectAssignable_eq_ok, pure_eq_ok,
      Prod.mk.injEq] at hc
    obtain ⟨⟨e', a⟩, s₁, he, t, _, ⟨rfl, ht⟩, _, _, ⟨⟨-, rfl⟩, hle⟩, rfl, rfl⟩ := hc
    exact .ret he ht hle
  | pass span =>
    simp only [checkStmt, pure_eq_ok, Prod.mk.injEq] at hc
    obtain ⟨rfl, rfl⟩ := hc
    exact .pass
  | cond b bs ss span =>
    simp only [checkStmt, bind_eq_ok, pure_eq_ok, Prod.mk.injEq] at hc
    obtain ⟨b', s₁, hb, bs', s₂, hbs, ss', s₃, hss, rfl, rfl⟩ := hc
    exact .cond hb hbs hss
  | loop b span =>
    simp only [checkStmt, bind_eq_ok, pure_eq_ok, Prod.mk.injEq] at hc
    obtain ⟨b', s₁, hb, rfl, rfl⟩ := hc
    exact .loop hb

end ObjLang.Check
