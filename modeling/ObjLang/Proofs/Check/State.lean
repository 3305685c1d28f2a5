import ObjLang.Proofs.Check.Scoped

/-!
# ObjLang.Proofs.Check.State — what the small steps of a check do to its state

One equation for each small step, and the invariant of the whole state: aliases come after their
origins, which are captured; each alias is among the captures of its owner; functions without a
function around them capture nothing.
-/

namespace ObjLang.Check

/-! ### Small steps -/

section

variable {s : State}

theorem refuse_eq_ok {α : Type} {cause : CheckError.Cause} {span : Span} {r : α × State} :
    (refuse cause span : CheckM α) s = .ok r ↔ False :=
  throw_eq_ok

theorem variableOf_eq_ok {v : VarId} {r : Variable × State} :
    variableOf v s = .ok r ↔ r = (s.vars.get v, s) := by
  simp only [variableOf, bind_eq_ok, get_eq_ok, pure_eq_ok, Prod.mk.injEq]
  simp

theorem tyOf_eq_ok {v : VarId} {r : Ty × State} :
    tyOf v s = .ok r ↔ r = ((s.vars.get v).ty.ty, s) := by
  simp only [tyOf, bind_eq_ok, variableOf_eq_ok, pure_eq_ok, Prod.mk.injEq]
  simp

theorem functionOf_eq_ok {f : FunId} {r : Function × State} :
    functionOf f s = .ok r ↔ r = (s.functions.get f, s) := by
  simp only [functionOf, bind_eq_ok, get_eq_ok, pure_eq_ok, Prod.mk.injEq]
  simp

theorem newVariable_eq_ok {v : Variable} {r : VarId × State} :
    newVariable v s = .ok r ↔ r = (s.vars.nextId, { s with vars := s.vars.push v }) := by
  simp only [newVariable, bind_eq_ok, get_eq_ok, set_eq_ok, pure_eq_ok, Prod.mk.injEq]
  simp

theorem newFunction_eq_ok {f : Function} {r : FunId × State} :
    newFunction f s = .ok r ↔
      r = (Functions.nextId s.functions, { s with functions := s.functions.push f }) := by
  simp only [newFunction, bind_eq_ok, get_eq_ok, set_eq_ok, pure_eq_ok, Prod.mk.injEq]
  simp

theorem findVar?_eq_ok {x : String} {mode : SearchMode} {r : Option VarId × State} :
    findVar? x mode s = .ok r ↔ r = (s.varEnv.lookup x mode, s) := by
  simp only [findVar?, bind_eq_ok, get_eq_ok, pure_eq_ok, Prod.mk.injEq]
  simp

theorem bindVar_eq_ok {x : String} {v : VarId} {r : Unit × State} :
    bindVar x v s = .ok r ↔ r = ((), { s with varEnv := s.varEnv.declare x v }) :=
  modify_eq_ok

theorem bindFunction_eq_ok {x : String} {f : FunId} {r : Unit × State} :
    bindFunction x f s = .ok r ↔ r = ((), { s with funEnv := s.funEnv.declare x f }) :=
  modify_eq_ok

theorem modifyFunction_eq_ok {f : FunId} {g : Function → Function} {r : Unit × State} :
    modifyFunction f g s = .ok r ↔
      r = ((), { s with functions := s.functions.modify f.index g }) :=
  modify_eq_ok

theorem resolveTy_eq_ok {classes : ClassTable} {written : Ident} {r : Ty × State} :
    resolveTy classes written s = .ok r ↔
      r.2 = s ∧ Ty.ofName classes.contains written.name = .ok r.1 := by
  unfold resolveTy ClassLayout.annotated
  obtain ⟨t, s'⟩ := r
  cases h : Ty.ofName classes.contains written.name with
  | ok a =>
    simp only [pure_eq_ok, Prod.mk.injEq, Except.ok.injEq]
    constructor
    · rintro ⟨rfl, rfl⟩
      exact ⟨rfl, rfl⟩
    · rintro ⟨rfl, rfl⟩
      exact ⟨rfl, rfl⟩
  | error e =>
    simp [throw_eq_ok]

theorem checkInitializer_eq_ok {d : VarDef} {t : Ty} {r : Unit × State} :
    checkInitializer d t s = .ok r ↔ r = ((), s) ∧ initializes d.init t = true := by
  unfold checkInitializer
  split
  · next h => simp [pure_eq_ok, h]
  · next h => simp [refuse_eq_ok, h]

/-- The state after an alias is made in the innermost function. -/
def State.withAlias (s : State) (x : String) (origin : VarId) (writable : Bool) (span : Span)
    (owner : FunId) : State :=
  let inner := s.vars.nextId
  { s with
    vars := (s.vars.push {
      name := x, writable, span
      ty := .inCell (s.vars.get origin).ty.ty
      kind := .capture origin
      refed := false
      owner := some owner }).markCaptured origin
    frames :=
      match s.frames with
      | [] => []
      | f :: rest =>
        { f with captures := f.captures.add ⟨x, inner, origin, writable, span⟩ } :: rest
    varEnv := s.varEnv.declare x inner }

theorem capture_eq_ok {x : String} {origin : VarId} {writable : Bool} {span : Span}
    {owner : FunId} {r : VarId × State} :
    capture x origin writable span owner s = .ok r ↔
      r = (s.vars.nextId, s.withAlias x origin writable span owner) := by
  simp only [capture, bind_eq_ok, tyOf_eq_ok, newVariable_eq_ok, modify_eq_ok, addCapture,
    bindVar_eq_ok, pure_eq_ok, Prod.mk.injEq, State.withAlias]
  obtain ⟨vars, functions, varEnv, funEnv, frames, methods, globals⟩ := s
  constructor
  · rintro ⟨_, _, ⟨rfl, rfl⟩, _, _, ⟨rfl, rfl⟩, _, _, ⟨-, rfl⟩, _, _, ⟨-, rfl⟩, _, _, ⟨-, rfl⟩,
      rfl⟩
    cases frames <;> rfl
  · rintro rfl
    refine ⟨_, _, ⟨rfl, rfl⟩, _, _, ⟨rfl, rfl⟩, (), _, ⟨trivial, rfl⟩, (), _, ⟨trivial, rfl⟩,
      (), _, ⟨trivial, rfl⟩, ?_⟩
    cases frames <;> rfl

end

/-! ### The invariant -/

/-- What holds of the records and of the module in every state of a check. -/
structure StateOk (s : State) : Prop where
  descending : s.vars.Descending
  origins : ∀ v r o, s.vars.get? v = some r → r.kind = .capture o → r.ty.boxed = true ∧
    ∃ q, s.vars.get? o = some q ∧ q.isGlobal = false ∧ (q.isCapture = false → q.refed = true) ∧
      q.ty.ty = r.ty.ty
  refs : ∀ v r, s.vars.get? v = some r → r.refed = true → r.isGlobal = false ∧
    r.isCapture = false ∧ ∃ w q, s.vars.get? w = some q ∧ q.kind = .capture v
  module : ∀ x v, List.lookup x s.varEnv.module = some v →
    ∃ r, s.vars.get? v = some r ∧ r.name = x ∧ r.isGlobal = true
  aliases : ∀ v r, s.vars.get? v = some r → r.isCapture = true → ∃ f, r.owner = some f ∧
    ((∃ fr ∈ s.frames, fr.function = f ∧ ∃ k ∈ fr.captures, k.inner = v) ∨
      ∃ g, s.functions[f.index]? = some g ∧ ∃ k ∈ g.captures, k.inner = v)
  parents : s.functions.Ordered
  orphans : ∀ (id : FunId) f, s.functions[id.index]? = some f → f.parent = none → f.captures = []
  arities : ∀ (id : FunId) f, s.functions[id.index]? = some f →
    f.params.length = f.paramTypes.length
  roots : ∀ g id, List.lookup g s.funEnv.module = some id →
    ∃ f, s.functions[id.index]? = some f ∧ f.parent = none
  methods : ∀ m id, (m, id) ∈ s.methods →
    ∃ f, s.functions[id.index]? = some f ∧ f.parent = none ∧ f.emitted = m

/-- What a variable of a function stands for is one of a function too, with the same type; behind an
alias it lives in a cell. -/
theorem StateOk.get?_home {s : State} (h : StateOk s) {v : VarId} {r : Variable}
    (hr : s.vars.get? v = some r) (hg : r.isGlobal = false) :
    ∃ q, s.vars.get? (s.vars.home v) = some q ∧ q.isGlobal = false ∧ q.isCapture = false ∧
      q.ty.ty = r.ty.ty ∧ (r.isCapture = true → q.refed = true) := by
  refine Variables.home_induction h.descending (P := fun v => ∀ r, s.vars.get? v = some r →
    r.isGlobal = false → ∃ q, s.vars.get? (s.vars.home v) = some q ∧ q.isGlobal = false ∧
      q.isCapture = false ∧ q.ty.ty = r.ty.ty ∧ (r.isCapture = true → q.refed = true))
    ?_ ?_ v (Variables.get?_eq_some_lt hr) r hr hg
  · intro v r₀ hr₀ hc r hr hg
    cases hr₀.symm.trans hr
    rw [Variables.home_of_not_capture (Variables.get_eq_of_get? hr ▸ hc)]
    exact ⟨r₀, hr, hg, hc, rfl, fun hc' => by simp [hc] at hc'⟩
  · intro v r₀ o hr₀ hk _ ih r hr hg
    cases hr₀.symm.trans hr
    obtain ⟨-, q, hq, hqg, hqr, hqt⟩ := h.origins v r₀ o hr hk
    obtain ⟨p, hp, hpg, hpc, hpt, hpr⟩ := ih q hq hqg
    rw [Variables.home_of_capture h.descending hr hk]
    refine ⟨p, hp, hpg, hpc, hpt.trans hqt, fun _ => ?_⟩
    cases hc : q.isCapture with
    | true => exact hpr hc
    | false =>
      rw [Variables.home_of_not_capture (Variables.get_eq_of_get? hq ▸ hc), hq] at hp
      cases hp
      exact hqr hc

/-- The invariant of a check in which the functions of some levels are being checked. -/
structure Scoped (classes : ClassTable) (lv : List Level) (s : State) : Prop where
  state : StateOk s
  nested : Nested (s.facts classes) lv s.frames s.varEnv.inner s.funEnv.inner

end ObjLang.Check
