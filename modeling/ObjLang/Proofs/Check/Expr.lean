import ObjLang.Proofs.Check.Steps

/-!
# ObjLang.Proofs.Check.Expr — checked expressions

Every step of the check of an expression keeps the invariant, and the expression that it gives is
well typed; each name denotes what the declarations say.  The only change on the way is a new alias
for a name that is read and found in an enclosing function.
-/

namespace ObjLang.Check

open Facts

variable {classes : ClassTable} {lv : List Level} {passes : String → Bool} {s s' : State}

/-! ### The innermost function -/

theorem Scoped.innermost {l : Level} {outer : List Level} (h : Scoped classes (l :: outer) s) :
    ∃ f fs b bs u us, s.frames = f :: fs ∧ s.varEnv.inner = b :: bs ∧ s.funEnv.inner = u :: us ∧
      LevelOk (s.facts classes) outer l f b u ∧ Nested (s.facts classes) outer fs bs us := by
  have hn := h.nested
  generalize hfr : s.frames = frames at hn
  generalize hin : s.varEnv.inner = scopes at hn
  generalize hfu : s.funEnv.inner = funScopes at hn
  cases hn with
  | cons hl hrest => exact ⟨_, _, _, _, _, _, rfl, rfl, rfl, hl, hrest⟩

theorem Scoped.at_module (h : Scoped classes [] s) :
    s.frames = [] ∧ s.varEnv.inner = [] ∧ s.funEnv.inner = [] := by
  have hn := h.nested
  generalize hfr : s.frames = frames at hn
  generalize hin : s.varEnv.inner = scopes at hn
  generalize hfu : s.funEnv.inner = funScopes at hn
  cases hn with
  | nil => exact ⟨rfl, rfl, rfl⟩

/-- The captures of the innermost function are those that its nested functions pass through it, up
to names that the module knows nothing of. -/
def Through (module : Bindings VarId) (passes : String → Bool) : List Level → List Frame → Prop
  | l :: _, f :: _ =>
    (∀ x, l.declares x = false → passes x = true → f.captures.has x = true) ∧
      ∀ k ∈ f.captures, l.declares k.name = false →
        (List.lookup k.name module).isSome = true → passes k.name = true
  | _, _ => True

/-- The invariant while statements are checked. -/
structure Inside (classes : ClassTable) (lv : List Level) (passes : String → Bool) (s : State) :
    Prop where
  nest : Scoped classes lv s
  through : Through s.varEnv.module passes lv s.frames

/-- A check of statements went from `s` to `s'`. -/
structure Keeps (classes : ClassTable) (lv : List Level) (passes : String → Bool)
    (s s' : State) : Prop where
  inside : Inside classes lv passes s'
  later : Later none (s.facts classes) (s'.facts classes)
  functions : s'.functions = s.functions
  funEnv : s'.funEnv = s.funEnv
  scopes : s'.varEnv.inner.tail = s.varEnv.inner.tail
  frames : ∃ cs, s'.frames = s.frames.modifyHead ({ · with captures := cs })

theorem Keeps.refl (h : Inside classes lv passes s) : Keeps classes lv passes s s := by
  refine ⟨h, .refl h.nest.state.descending, rfl, rfl, rfl, ?_⟩
  cases s.frames with
  | nil => exact ⟨[], rfl⟩
  | cons f fs => exact ⟨f.captures, rfl⟩

theorem Keeps.trans {t : State} (h : Keeps classes lv passes s s')
    (h' : Keeps classes lv passes s' t) : Keeps classes lv passes s t where
  inside := h'.inside
  later := h.later.trans h'.later
  functions := h'.functions.trans h.functions
  funEnv := h'.funEnv.trans h.funEnv
  scopes := h'.scopes.trans h.scopes
  frames := by
    obtain ⟨cs, hcs⟩ := h.frames
    obtain ⟨cs', hcs'⟩ := h'.frames
    refine ⟨cs', ?_⟩
    rw [hcs', hcs, List.modifyHead_modifyHead]
    rfl

/-! ### Names -/

theorem LevelOk.reaches {F : Facts} {outer : List Level} {l : Level} {f : Frame}
    {b : Bindings VarId} {u : Bindings FunId} (hl : LevelOk F outer l f b u) {x : String}
    {v : VarId} (hv : List.lookup x b = some v) : F.Reaches (l :: outer) x v := by
  obtain ⟨r, hr, hn, -, ⟨hg, hm, -⟩ | hown | ⟨k, hk, -, rfl⟩⟩ := hl.bound x v hv
  · exact ⟨r, hr, hn, .inl ⟨hg, hm⟩⟩
  · exact ⟨r, hr, hn, .inr ⟨l, outer, rfl, .inl hown⟩⟩
  · obtain ⟨⟨r', hr', -, hkind, ho, -⟩, -⟩ := (hl.captures k hk).2
    exact ⟨r, hr, hn, .inr ⟨l, outer, rfl,
      .inr ⟨r', hr', by simp [Variable.isCapture, hkind], ho⟩⟩⟩

theorem StateOk.reaches_global (h : StateOk s) {x : String} {v : VarId}
    (hv : List.lookup x s.varEnv.module = some v) : (s.facts classes).Reaches lv x v := by
  obtain ⟨r, hr, hn, hg⟩ := h.module x v hv
  exact ⟨r, hr, hn, .inl ⟨hg, hv⟩⟩

theorem StateOk.home_global (h : StateOk s) {x : String} {v : VarId}
    (hv : List.lookup x s.varEnv.module = some v) : s.vars.home v = v := by
  obtain ⟨r, hr, -, hg⟩ := h.module x v hv
  exact Variables.home_of_global hr hg

/-- A name bound in the scope of the innermost function denotes what the declarations say. -/
theorem Inside.denotes_bound {l : Level} {outer : List Level} {f : Frame} {fs : List Frame}
    {b : Bindings VarId} {u : Bindings FunId} (h : Inside classes (l :: outer) passes s)
    (hf : s.frames = f :: fs) (hl : LevelOk (s.facts classes) outer l f b u) {x : String}
    {v : VarId} (hv : List.lookup x b = some v) :
    some (s.vars.home v) = denotes s.varEnv.module passes x (l :: outer) := by
  obtain ⟨r, -, -, hh, hcase⟩ := hl.bound x v hv
  simp only [State.facts] at hh hcase
  rw [hh]
  cases hd : l.declares x with
  | true => rw [denotes_of_declared hd]
  | false =>
    rw [nearest_of_not_declared hd]
    cases hp : passes x with
    | true => rw [denotes_of_passes hd hp]
    | false =>
      have hth := h.through
      rw [hf] at hth
      have hm : List.lookup x s.varEnv.module = none := by
        have hd' := hd
        simp only [Level.declares, Bool.or_eq_false_iff, Option.isSome_eq_false_iff,
          Option.isNone_iff_eq_none] at hd'
        obtain ⟨-, -, hg⟩ | hown | ⟨k, hk, rfl, -⟩ := hcase
        · rw [hd'.1.2] at hg
          cases hg
        · rw [hd'.1.1] at hown
          cases hown
        · cases hm : List.lookup k.name s.varEnv.module with
          | none => rfl
          | some w =>
            have hpk := hth.2 k hk hd (by rw [hm]; rfl)
            rw [hp] at hpk
            cases hpk
      rw [denotes_of_not_passes hd hp, hm, Option.none_or]

/-- A name that the innermost function does not know is passed through by none nested in it. -/
theorem Inside.not_passes {l : Level} {outer : List Level} {f : Frame} {fs : List Frame}
    {b : Bindings VarId} {u : Bindings FunId} (h : Inside classes (l :: outer) passes s)
    (hf : s.frames = f :: fs) (hl : LevelOk (s.facts classes) outer l f b u) {x : String}
    (hx : List.lookup x b = none) : l.declares x = false ∧ passes x = false := by
  have hd : l.declares x = false := by
    cases hd : l.declares x with
    | false => rfl
    | true => simpa [hx] using hl.declared x hd
  refine ⟨hd, ?_⟩
  cases hp : passes x with
  | false => rfl
  | true =>
    have hth := h.through
    rw [hf] at hth
    obtain ⟨k, hk, rfl⟩ := Captures.has_eq_true.1 (hth.1 x hd hp)
    simp [(hl.captures k hk).1] at hx

/-- An alias of a name that the module does not know keeps what passes through. -/
theorem Through.alias {module : Bindings VarId} {l : Level} {outer : List Level} {f : Frame}
    {fs : List Frame} (h : Through module passes (l :: outer) (f :: fs)) {k : Capture}
    (hk : List.lookup k.name module = none) :
    Through module passes (l :: outer) ({ f with captures := f.captures.add k } :: fs) := by
  refine ⟨fun x hd hp => Captures.has_add_of_has (h.1 x hd hp) k, fun c hc hd hm => ?_⟩
  obtain hc | rfl := Captures.mem_add hc
  · exact h.2 c hc hd hm
  · simp [hk] at hm

theorem resolveRead_ok {x : String} {span : Span} {v : VarId} (h : Inside classes lv passes s)
    (hc : resolveRead x span s = .ok (v, s')) :
    Keeps classes lv passes s s' ∧ (s'.facts classes).Reaches lv x v ∧
      some (s'.vars.home v) = denotes s'.varEnv.module passes x lv := by
  simp only [resolveRead, bind_eq_ok, findVar?_eq_ok, Prod.mk.injEq, and_assoc, exists_and_left,
    exists_eq_left] at hc
  cases lv with
  | nil =>
    obtain ⟨-, hin, -⟩ := h.nest.at_module
    cases hm : List.lookup x s.varEnv.module with
    | none =>
      simp [Env.lookup, Env.scopes, hin, hm, bind_eq_ok, findVar?_eq_ok, refuse_eq_ok] at hc
    | some w =>
      simp only [Env.lookup, Env.scopes, hin, hm, List.headD_nil, List.findSome?_cons,
        pure_eq_ok, Prod.mk.injEq] at hc
      obtain ⟨rfl, rfl⟩ := hc
      refine ⟨.refl h, h.nest.state.reaches_global hm, ?_⟩
      rw [h.nest.state.home_global hm]
      exact hm.symm
  | cons l outer =>
    obtain ⟨f, fs, b, bs, u, us, hf, hin, hfu, hl, hrest⟩ := h.nest.innermost
    cases hb : List.lookup x b with
    | some w =>
      simp only [Env.lookup, Env.scopes, hin, List.headD_cons, List.findSome?_cons, hb,
        pure_eq_ok, Prod.mk.injEq] at hc
      obtain ⟨rfl, rfl⟩ := hc
      exact ⟨.refl h, hl.reaches hb, h.denotes_bound hf hl hb⟩
    | none =>
      obtain ⟨hd, hp⟩ := h.not_passes hf hl hb
      cases hm : List.lookup x s.varEnv.module with
      | some w =>
        simp only [Env.lookup, Env.scopes, hin, List.headD_cons, List.findSome?_cons, hb, hm,
          pure_eq_ok, Prod.mk.injEq] at hc
        obtain ⟨rfl, rfl⟩ := hc
        refine ⟨.refl h, h.nest.state.reaches_global hm, ?_⟩
        rw [h.nest.state.home_global hm, denotes_of_not_passes hd hp, hm, Option.some_or]
      | none =>
        cases ho : bs.findSome? (List.lookup x) with
        | none =>
          simp [Env.lookup, Env.scopes, hin, hb, hm, ho, bind_eq_ok, findVar?_eq_ok,
            refuse_eq_ok] at hc
        | some origin =>
          obtain ⟨q, hq, -, hh, hg⟩ := hrest.lookup ho
          have hng : q.isGlobal = false := by
            cases hqg : q.isGlobal with
            | false => rfl
            | true => simpa [State.facts, hm] using hg hqg
          have hget : s.vars.get origin = q := Variables.get_eq_of_get? hq
          simp only [Env.lookup, Env.scopes, hin, List.headD_cons, List.findSome?_cons, hb, hm,
            List.findSome?_nil, List.tail_cons, ho, bind_eq_ok, findVar?_eq_ok, variableOf_eq_ok,
            get_eq_ok, Prod.mk.injEq, and_assoc, exists_and_left, exists_eq_left, hget, hng,
            Bool.false_eq_true, if_false, hf, capture_eq_ok, hl.function] at hc
          obtain ⟨rfl, rfl⟩ := hc
          have hh' : some (s.vars.home origin) = nearest s.varEnv.module x outer := hh
          have hx : s.varEnv.lookup x .localScope = none := by
            simp [Env.lookup, Env.scopes, hin, hb]
          obtain ⟨hn, hlater⟩ := h.nest.withAlias false span hq hng hx hh' (.refl l x)
          have hth := h.through
          rw [hf] at hth
          have hmod := hlater.module
          have hi : Inside classes (l :: outer) passes (s.withAlias x origin false span l.id) := by
            refine ⟨hn, ?_⟩
            simp only [State.facts] at hmod
            rw [hmod]
            simp only [State.withAlias, hf]
            exact hth.alias hm
          obtain ⟨f', fs', b', bs', u', us', hf', hin', -, hl', -⟩ := hn.innermost
          have hb' : List.lookup x b' = some s.vars.nextId := by
            have hdecl := s.varEnv.lookup_declare_self x s.vars.nextId
            simp only [State.withAlias] at hin'
            simpa [Env.lookup, Env.scopes, hin'] using hdecl
          have hscopes : (s.withAlias x origin false span l.id).varEnv.inner.tail
              = s.varEnv.inner.tail := by
            simp only [State.withAlias, Env.declare, hin, List.tail_cons]
          have hframes : ∃ cs, (s.withAlias x origin false span l.id).frames
              = s.frames.modifyHead ({ · with captures := cs }) := by
            simp only [State.withAlias, hf]
            exact ⟨_, rfl⟩
          exact ⟨⟨hi, hlater, rfl, rfl, hscopes, hframes⟩, hl'.reaches hb',
            hi.denotes_bound hf' hl' hb'⟩

/-! ### Captures that are passed -/

/-- The variables passed for the captures of a nested function stand for what it captures. -/
theorem LevelOk.passed {outer : List Level} {l : Level} {f : Frame} {b : Bindings VarId}
    {u : Bindings FunId} (h : StateOk s) (hl : LevelOk (s.facts classes) outer l f b u) {v : VarId}
    {k : Capture} {id : FunId} (hv : List.lookup k.name b = some v)
    (hk : (s.facts classes).CaptureOk (l :: outer) id k) :
    (s.facts classes).Passes (l :: outer) v k := by
  obtain ⟨⟨rk, hrk, -, hkind, -⟩, hhk⟩ := hk
  obtain ⟨r, hr, hn, hh, -⟩ := hl.bound k.name v hv
  have hhome : s.vars.home v = s.vars.home k.inner := Option.some.inj (hh.trans hhk.symm)
  have hkg : rk.isGlobal = false := by simp [Variable.isGlobal, hkind]
  obtain ⟨q, hq, hqg, -⟩ := h.get?_home hrk hkg
  have hg : r.isGlobal = false := by
    cases hg : r.isGlobal with
    | false => rfl
    | true =>
      have hv' : s.vars.home v = v := Variables.home_of_global hr hg
      rw [← hhome, hv'] at hq
      cases hr.symm.trans hq
      simp [hg] at hqg
  obtain ⟨r', hr', hn', hcase⟩ := hl.reaches hv
  cases hr.symm.trans hr'
  refine ⟨⟨r, hr, hn, hg⟩, ?_, ⟨rk, hrk⟩, hhome⟩
  obtain ⟨hg', -⟩ | hown := hcase
  · simp [hg] at hg'
  · exact hown

/-! ### Expressions -/

/-- The function that a name in scope stands for, with the captures passed to it. -/
theorem Inside.function {name : String} {id : FunId} {vs : List VarId}
    (h : Inside classes lv passes s) (hid : s.funEnv.lookup name .localAndGlobal = some id)
    (hvs : List.Forall₂ (fun v k => s.varEnv.lookup k.name .localScope = some v) vs
      (s.functions.get id).captures) :
    ∃ f, s.functions[id.index]? = some f ∧ ((f.parent = none ∧ vs = []) ∨
      ∃ l outer, lv = l :: outer ∧ f.parent = some l.id ∧
        List.Forall₂ ((s.facts classes).Passes lv) vs f.captures) := by
  have hroot : ∀ {f}, s.functions[id.index]? = some f → f.parent = none → vs = [] := by
    intro f hf hp
    rw [get_of_getElem? hf, h.nest.state.orphans id f hf hp] at hvs
    cases hvs
    rfl
  cases lv with
  | nil =>
    obtain ⟨-, -, hfu⟩ := h.nest.at_module
    have hm : List.lookup name s.funEnv.module = some id := by
      cases hm : List.lookup name s.funEnv.module with
      | none => simp [Env.lookup, Env.scopes, hfu, hm] at hid
      | some w => simpa [Env.lookup, Env.scopes, hfu, hm] using hid
    obtain ⟨f, hf, hp⟩ := h.nest.state.roots name id hm
    exact ⟨f, hf, .inl ⟨hp, hroot hf hp⟩⟩
  | cons l outer =>
    obtain ⟨fr, fs, b, bs, u, us, -, hin, hfu, hl, -⟩ := h.nest.innermost
    cases hu : List.lookup name u with
    | some w =>
      have hw : w = id := by simpa [Env.lookup, Env.scopes, hfu, hu] using hid
      subst hw
      obtain ⟨c, hc, hp, hk⟩ := hl.children name w hu
      have hc' : s.functions[w.index]? = some c := hc
      refine ⟨c, hc, .inr ⟨l, outer, rfl, hp, ?_⟩⟩
      rw [get_of_getElem? hc'] at hvs
      refine List.forall₂_iff_zip.2 ⟨hvs.length_eq, fun {v k} hvk => ?_⟩
      have hv := (List.forall₂_iff_zip.1 hvs).2 hvk
      have hvb : List.lookup k.name b = some v := by
        simpa [Env.lookup, Env.scopes, hin] using hv
      exact hl.passed h.nest.state hvb (hk k (List.of_mem_zip hvk).2)
    | none =>
      have hm : List.lookup name s.funEnv.module = some id := by
        cases hm : List.lookup name s.funEnv.module with
        | none => simp [Env.lookup, Env.scopes, hfu, hu, hm] at hid
        | some w => simpa [Env.lookup, Env.scopes, hfu, hu, hm] using hid
      obtain ⟨f, hf, hp⟩ := h.nest.state.roots name id hm
      exact ⟨f, hf, .inl ⟨hp, hroot hf hp⟩⟩

/-- The method that a receiver of a class has under a name. -/
theorem StateOk.method {c m : String} {id : FunId} (h : StateOk s)
    (hid : (s.facts classes).methodId? c m = some id) :
    ∃ f, s.functions[id.index]? = some f := by
  simp only [Facts.methodId?, State.facts, Option.bind_eq_bind, Option.bind_eq_some_iff] at hid
  obtain ⟨l, -, target, -, hid⟩ := hid
  obtain ⟨f, hf, -⟩ := h.methods target id (Bindings.mem_of_lookup hid)
  exact ⟨f, hf⟩

section

variable {F : Facts} {es : List Expr} {ts : List Ty}

theorem Facts.ArgsOk.of_forall₂ {ps : List Ty} (h : List.Forall₂ (F.ExprOk lv passes) es ts)
    (hle : List.Forall₂ (fun t p => F.classes.hierarchy.isAssignable t p = true) ts ps) :
    F.ArgsOk lv passes es ps := by
  induction h generalizing ps with
  | nil =>
    cases hle
    rw [ArgsOk]
    trivial
  | cons he _ ih =>
    cases hle with
    | cons ht hle =>
      rw [ArgsOk]
      exact ⟨⟨_, he, ht⟩, ih hle⟩

theorem Facts.AllOk.of_forall₂ {good : Ty → Prop} (h : List.Forall₂ (F.ExprOk lv passes) es ts)
    (hgood : ∀ t ∈ ts, good t) : F.AllOk lv passes good es := by
  induction h with
  | nil =>
    rw [AllOk]
    trivial
  | cons he _ ih =>
    obtain ⟨ht, hgood⟩ := List.forall_mem_cons.1 hgood
    rw [AllOk]
    exact ⟨⟨_, he, ht⟩, ih hgood⟩

end

mutual

theorem checkExpr_ok : ∀ {e e' : Expr} {t : Ty} {s s' : State}, Inside classes lv passes s →
    checkExpr classes e s = .ok ((e', t), s') →
      Keeps classes lv passes s s' ∧ (s'.facts classes).ExprOk lv passes e' t
  | .literal _ _, e', t, s, s', h, hc => by
    cases checkExpr_cases hc with
    | literal =>
      rw [ExprOk]
      exact ⟨.refl h, rfl, rfl⟩
  | .name _ _ _, e', t, s, s', h, hc => by
    cases checkExpr_cases hc with
    | name hv =>
      obtain ⟨hk, hr, hd⟩ := resolveRead_ok h hv
      rw [ExprOk]
      exact ⟨hk, rfl, _, rfl, hr, hd, rfl⟩
  | .unary _ _ e, e', t, s, s', h, hc => by
    cases checkExpr_cases hc with
    | unary he =>
      obtain ⟨hk, hok⟩ := checkExpr_ok h he
      rw [ExprOk]
      exact ⟨hk, rfl, rfl, hok⟩
  | .binary _ _ l r, e', t, s, s', h, hc => by
    cases checkExpr_cases hc with
    | binary hl hr hop =>
      obtain ⟨hk₁, hok₁⟩ := checkExpr_ok h hl
      obtain ⟨hk₂, hok₂⟩ := checkExpr_ok hk₁.inside hr
      rw [ExprOk]
      exact ⟨hk₁.trans hk₂, rfl, _, _, hok₁.later hk₂.later clear_none, hok₂, hop⟩
  | .call _ _ args _, e', t, s, s', h, hc => by
    cases checkExpr_cases hc with
    | construct hcl =>
      rw [ExprOk]
      exact ⟨.refl h, rfl, rfl, rfl, hcl, rfl⟩
    | function _ hid hargs hall hvs =>
      obtain ⟨hk, hoks⟩ := checkExprs_ok h hargs
      rw [← hk.funEnv] at hid
      rw [← hk.functions] at hall hvs ⊢
      obtain ⟨f, hf, hcap⟩ := hk.inside.function hid hvs
      rw [get_of_getElem? hf] at hall ⊢
      rw [ExprOk]
      exact ⟨hk, rfl, f, hf, rfl, .of_forall₂ hoks hall, hcap⟩
    | builtin _ _ _ hlen hargs hall =>
      obtain ⟨hk, hoks⟩ := checkExprs_ok h hargs
      rw [ExprOk]
      exact ⟨hk, rfl, rfl, hargs.length_eq.trans hlen.symm, .of_forall₂ hoks hall⟩
  | .field _ o _, e', t, s, s', h, hc => by
    cases checkExpr_cases hc with
    | field ho hl hd =>
      obtain ⟨hk, hok⟩ := checkExpr_ok h ho
      rw [ExprOk]
      exact ⟨hk, rfl, _, _, _, _, hok, hl, hd, rfl⟩
  | .method _ o _ args, e', t, s, s', h, hc => by
    cases checkExpr_cases hc with
    | method ho hid hargs hall =>
      obtain ⟨hk, hok⟩ := checkExpr_ok h ho
      obtain ⟨hk', hoks⟩ := checkExprs_ok hk.inside hargs
      obtain ⟨f, hf⟩ := hk.inside.nest.state.method hid
      rw [get_of_getElem? hf] at hall ⊢
      obtain ⟨ls, cs, hls, -⟩ := hk'.later.functions _ f hf
      rw [ExprOk]
      refine ⟨hk.trans hk', rfl, _, _, _, hok.later hk'.later clear_none, ?_, hls, rfl,
        .of_forall₂ hoks hall⟩
      rw [hk'.later.methodId?, hid]

theorem checkExprs_ok : ∀ {es es' : List Expr} {ts : List Ty} {s s' : State},
    Inside classes lv passes s → ExprsChecked classes es s es' ts s' →
      Keeps classes lv passes s s' ∧
        List.Forall₂ ((s'.facts classes).ExprOk lv passes) es' ts
  | [], es', ts, s, s', h, hc => by
    cases hc with
    | nil => exact ⟨.refl h, .nil⟩
  | e :: es, es', ts, s, s', h, hc => by
    cases hc with
    | cons he hes =>
      obtain ⟨hk, hok⟩ := checkExpr_ok h he
      obtain ⟨hk', hoks⟩ := checkExprs_ok hk.inside hes
      exact ⟨hk.trans hk', .cons (hok.later hk'.later clear_none) hoks⟩

end

end ObjLang.Check
