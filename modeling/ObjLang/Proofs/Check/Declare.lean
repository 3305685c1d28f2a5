import ObjLang.Proofs.Check.Stmt

/-!
# ObjLang.Proofs.Check.Declare — declarations at the head of a function body

While the parameters, scope declarations and variables of a function are declared, its level grows
by one name at a time.  Every name that is bound has been claimed before, so a claimed name is not
bound yet, and the new binding shadows nothing in the innermost scope.
-/

namespace ObjLang.Check

open Facts

variable {classes : ClassTable} {l l' : Level} {outer : List Level} {s s' : State}

/-! ### What does not change on the way -/

/-- A part of a check that leaves the functions around the innermost one alone. -/
structure Evolves (classes : ClassTable) (changed : Option FunId) (s s' : State) : Prop where
  later : Later changed (s.facts classes) (s'.facts classes)
  scopes : s'.varEnv.inner.tail = s.varEnv.inner.tail
  funScopes : s'.funEnv.inner.tail = s.funEnv.inner.tail
  funModule : s'.funEnv.module = s.funEnv.module
  frames : ∃ cs ns, s'.frames = s.frames.modifyHead ({ · with captures := cs, names := ns })

theorem Evolves.refl {changed : Option FunId} (h : s.vars.Descending) :
    Evolves classes changed s s := by
  refine ⟨.refl h, rfl, rfl, rfl, ?_⟩
  cases s.frames with
  | nil => exact ⟨[], [], rfl⟩
  | cons f fs => exact ⟨f.captures, f.names, rfl⟩

theorem Evolves.trans {changed : Option FunId} {t : State} (h : Evolves classes changed s s')
    (h' : Evolves classes changed s' t) : Evolves classes changed s t where
  later := h.later.trans h'.later
  scopes := h'.scopes.trans h.scopes
  funScopes := h'.funScopes.trans h.funScopes
  funModule := h'.funModule.trans h.funModule
  frames := by
    obtain ⟨cs, ns, hcs⟩ := h.frames
    obtain ⟨cs', ns', hcs'⟩ := h'.frames
    refine ⟨cs', ns', ?_⟩
    rw [hcs', hcs, List.modifyHead_modifyHead]
    rfl

theorem Evolves.weaken {changed : Option FunId} (h : Evolves classes none s s') :
    Evolves classes changed s s' :=
  { h with later := h.later.weaken }

theorem Evolves.returns {changed : Option FunId} (h : Evolves classes changed s s') :
    s'.returns = s.returns := by
  obtain ⟨cs, ns, hcs⟩ := h.frames
  unfold State.returns
  rw [hcs]
  cases s.frames <;> rfl

theorem Keeps.evolves {lv : List Level} {passes : String → Bool}
    (h : Keeps classes lv passes s s') : Evolves classes none s s' := by
  refine ⟨h.later, h.scopes, by rw [h.funEnv], by rw [h.funEnv], ?_⟩
  obtain ⟨cs, hcs⟩ := h.frames
  rw [hcs]
  cases s.frames with
  | nil => exact ⟨[], [], rfl⟩
  | cons f fs => exact ⟨cs, f.names, rfl⟩

/-! ### The invariant of records under small changes -/

theorem StateOk.claim (h : StateOk s) {f : Frame} {fs : List Frame} (hf : s.frames = f :: fs)
    (names : List String) : StateOk { s with frames := { f with names } :: fs } where
  descending := h.descending
  origins := h.origins
  refs := h.refs
  module := h.module
  aliases := by
    intro v r hr hc
    obtain ⟨g, hg, ⟨fr, hfr, hfn, hk⟩ | hrec⟩ := h.aliases v r hr hc
    · refine ⟨g, hg, .inl ?_⟩
      rw [hf, List.mem_cons] at hfr
      obtain rfl | hfr := hfr
      · exact ⟨_, List.mem_cons_self, hfn, hk⟩
      · exact ⟨fr, List.mem_cons_of_mem _ hfr, hfn, hk⟩
    · exact ⟨g, hg, .inr hrec⟩
  parents := h.parents
  orphans := h.orphans
  arities := h.arities
  roots := h.roots
  methods := h.methods

theorem StateOk.declare (h : StateOk s) {b : Bindings VarId} {bs : List (Bindings VarId)}
    (hb : s.varEnv.inner = b :: bs) (x : String) (v : VarId) :
    StateOk { s with varEnv := s.varEnv.declare x v } :=
  { h with
    module := by
      simp only [Env.declare, hb]
      exact h.module }

/-- A new record that is no alias. -/
theorem StateOk.push (h : StateOk s) {r : Variable} (hr : r.isCapture = false)
    (hf : r.refed = false) :
    StateOk { s with vars := s.vars.push r } where
  descending := by
    intro v q o hq hk
    rw [Variables.get?_push] at hq
    split at hq
    · cases hq
      simp [Variable.isCapture, hk] at hr
    · exact h.descending v q o hq hk
  origins := by
    intro v q o hq hk
    rw [Variables.get?_push] at hq
    split at hq
    · cases hq
      simp [Variable.isCapture, hk] at hr
    · obtain ⟨hb, p, hp, hrest⟩ := h.origins v q o hq hk
      exact ⟨hb, p, Variables.get?_push_of_some r hp, hrest⟩
  refs := by
    intro v q hq href
    rw [Variables.get?_push] at hq
    split at hq
    · cases hq
      simp [hf] at href
    · obtain ⟨hg, hc, w, p, hp, hk⟩ := h.refs v q hq href
      exact ⟨hg, hc, w, p, Variables.get?_push_of_some r hp, hk⟩
  module := by
    intro x v hv
    obtain ⟨q, hq, hrest⟩ := h.module x v hv
    exact ⟨q, Variables.get?_push_of_some r hq, hrest⟩
  aliases := by
    intro v q hq hc
    rw [Variables.get?_push] at hq
    split at hq
    · cases hq
      simp [hr] at hc
    · exact h.aliases v q hq hc
  parents := h.parents
  orphans := h.orphans
  arities := h.arities
  roots := h.roots
  methods := h.methods

theorem get?_modify {fs : Functions} {id i : FunId} {g : Function → Function} :
    (fs.modify id.index g)[i.index]? = if id = i then (fs[i.index]?).map g else fs[i.index]? := by
  rw [Array.getElem?_modify]
  obtain ⟨a⟩ := id
  obtain ⟨b⟩ := i
  simp only [FunId.mk.injEq]

/-- More variables of a function. -/
theorem StateOk.locals (h : StateOk s) (id : FunId) (ls : List VarId) :
    StateOk { s with functions := s.functions.modify id.index fun f =>
      { f with locals := f.locals ++ ls } } := by
  have hold : ∀ (i : FunId) f, (s.functions.modify id.index fun f =>
      { f with locals := f.locals ++ ls })[i.index]? = some f →
      ∃ f₀, s.functions[i.index]? = some f₀ ∧ f.parent = f₀.parent ∧ f.captures = f₀.captures ∧
        f.params = f₀.params ∧ f.paramTypes = f₀.paramTypes := by
    intro i f hf
    rw [get?_modify] at hf
    split at hf
    · obtain ⟨f₀, hf₀, rfl⟩ := Option.map_eq_some_iff.1 hf
      exact ⟨f₀, hf₀, rfl, rfl, rfl, rfl⟩
    · exact ⟨f, hf, rfl, rfl, rfl, rfl⟩
  have hnew : ∀ (i : FunId) f₀, s.functions[i.index]? = some f₀ →
      ∃ f, (s.functions.modify id.index fun f =>
        { f with locals := f.locals ++ ls })[i.index]? = some f ∧
          f.parent = f₀.parent ∧ f.captures = f₀.captures ∧ f.emitted = f₀.emitted := by
    intro i f₀ hf₀
    rw [get?_modify, hf₀]
    split
    · exact ⟨_, rfl, rfl, rfl, rfl⟩
    · exact ⟨f₀, rfl, rfl, rfl, rfl⟩
  refine ⟨h.descending, h.origins, h.refs, h.module, ?_, ?_, ?_, ?_, ?_, ?_⟩
  · intro v r hr hc
    obtain ⟨g, hg, hfr | ⟨f₀, hf₀, hk⟩⟩ := h.aliases v r hr hc
    · exact ⟨g, hg, .inl hfr⟩
    · obtain ⟨f, hf, -, hcs, -⟩ := hnew g f₀ hf₀
      exact ⟨g, hg, .inr ⟨f, hf, hcs ▸ hk⟩⟩
  · intro i f p hf hp
    obtain ⟨f₀, hf₀, hp₀, -⟩ := hold i f hf
    exact h.parents i f₀ p hf₀ (hp₀ ▸ hp)
  · intro i f hf hp
    obtain ⟨f₀, hf₀, hp₀, hcs, -⟩ := hold i f hf
    exact hcs.trans (h.orphans i f₀ hf₀ (hp₀ ▸ hp))
  · intro i f hf
    obtain ⟨f₀, hf₀, -, -, hps, hts⟩ := hold i f hf
    rw [hps, hts]
    exact h.arities i f₀ hf₀
  · intro g i hi
    obtain ⟨f₀, hf₀, hp₀⟩ := h.roots g i hi
    obtain ⟨f, hf, hp, -⟩ := hnew i f₀ hf₀
    exact ⟨f, hf, hp.trans hp₀⟩
  · intro m i hi
    obtain ⟨f₀, hf₀, hp₀, he₀⟩ := h.methods m i hi
    obtain ⟨f, hf, hp, -, he⟩ := hnew i f₀ hf₀
    exact ⟨f, hf, hp.trans hp₀, he.trans he₀⟩

/-! ### Claiming and binding names -/

/-- The invariant while the head of a function body is checked. -/
structure Declaring (classes : ClassTable) (l : Level) (outer : List Level) (s : State) : Prop where
  state : StateOk s
  nested : ∃ f fs b bs us, s.frames = f :: fs ∧ s.varEnv.inner = b :: bs ∧
    s.funEnv.inner = [] :: us ∧ LevelOk (s.facts classes) outer l f b [] ∧
    Nested (s.facts classes) outer fs bs us ∧
    (∀ x v, List.lookup x b = some v → f.names.contains x = true) ∧
    ∀ k ∈ f.captures, l.nonlocals.contains k.name = true

theorem Declaring.scoped (h : Declaring classes l outer s) : Scoped classes (l :: outer) s := by
  obtain ⟨f, fs, b, bs, us, hf, hb, hu, hl, hn, -⟩ := h.nested
  refine ⟨h.state, ?_⟩
  rw [hf, hb, hu]
  exact .cons hl hn

theorem claimName_eq_ok {x : Ident} {f : Frame} {fs : List Frame} (hf : s.frames = f :: fs)
    {r : Unit × State} :
    claimName x s = .ok r ↔ f.names.contains x.name = false ∧
      r = ((), { s with frames := { f with names := x.name :: f.names } :: fs }) := by
  simp only [claimName, bind_eq_ok, get_eq_ok, Prod.mk.injEq, and_assoc, exists_and_left,
    exists_eq_left, hf, Frame.claim?]
  cases hn : f.names.contains x.name with
  | true => simp [refuse_eq_ok]
  | false => simp [set_eq_ok]

theorem declareName_eq_ok {x : Ident} {v : VarId} {f : Frame} {fs : List Frame}
    (hf : s.frames = f :: fs) {r : Unit × State} :
    declareName x v s = .ok r ↔ f.names.contains x.name = false ∧
      r = ((), { s with
        frames := { f with names := x.name :: f.names } :: fs
        varEnv := s.varEnv.declare x.name v }) := by
  simp only [declareName, bind_eq_ok, claimName_eq_ok hf, bindVar_eq_ok, Prod.mk.injEq]
  constructor
  · rintro ⟨_, _, ⟨hn, -, rfl⟩, rfl⟩
    exact ⟨hn, rfl⟩
  · rintro ⟨hn, rfl⟩
    exact ⟨(), _, ⟨hn, trivial, rfl⟩, rfl⟩

theorem Scoped.claim {lv : List Level} (h : Scoped classes lv s) {f : Frame} {fs : List Frame}
    (hf : s.frames = f :: fs) (names : List String) :
    Scoped classes lv { s with frames := { f with names } :: fs } := by
  refine ⟨h.state.claim hf names, ?_⟩
  have hn := h.nested
  rw [hf] at hn
  generalize s.varEnv.inner = scopes at hn
  generalize s.funEnv.inner = funScopes at hn
  cases hn with
  | cons hl hrest =>
    refine .cons ?_ hrest
    exact ⟨hl.function, hl.record, hl.bound, hl.declared, hl.own, hl.ownNames, hl.ownRecords,
      hl.captures, hl.captureNames, hl.globals, hl.nonlocals, hl.children⟩

/-- Declaring a name for a variable that fits it. -/
theorem Declaring.declare (h : Declaring classes l outer s) (l' : Level) {x : Ident} {v : VarId}
    (hc : declareName x v s = .ok ((), s'))
    (hfit : ∀ f b, LevelOk (s.facts classes) outer l f b [] → List.lookup x.name b = none →
      Fits (s.facts classes) outer l l' f { f with names := x.name :: f.names } [] x.name v)
    (hnl : ∀ y, l.nonlocals.contains y = true → l'.nonlocals.contains y = true) :
    Declaring classes l' outer s' ∧ Evolves classes none s s' ∧
      s'.facts classes = s.facts classes := by
  obtain ⟨f, fs, b, bs, us, hf, hb, hu, hl, hn, hclaimed, hcap⟩ := h.nested
  rw [declareName_eq_ok hf] at hc
  obtain ⟨hfresh, hs'⟩ := hc
  cases hs'
  have hx : List.lookup x.name b = none := by
    cases hx : List.lookup x.name b with
    | none => rfl
    | some w =>
      have hcl := hclaimed x.name w hx
      rw [hfresh] at hcl
      cases hcl
  have hfacts : State.facts { s with
      frames := { f with names := x.name :: f.names } :: fs
      varEnv := s.varEnv.declare x.name v } classes = s.facts classes := by
    simp only [State.facts, Env.declare, hb]
  refine ⟨⟨(h.state.claim hf _).declare hb x.name v, ?_⟩, ⟨?_, ?_, rfl, rfl, ?_⟩, hfacts⟩
  · refine ⟨_, fs, b.insert x.name v, bs, us, rfl, ?_, hu, ?_, ?_, ?_, fun k hk => hnl _ (hcap k hk)⟩
    · simp only [Env.declare, hb]
    · rw [hfacts]
      exact hl.bind hx (hfit f b hl hx)
    · rw [hfacts]
      exact hn
    · intro y w hy
      by_cases hyx : y = x.name
      · simp [hyx]
      · rw [Bindings.lookup_insert_of_ne hyx] at hy
        have hcl := hclaimed y w hy
        simp only [List.contains_cons, hcl, Bool.or_true]
  · rw [hfacts]
    exact .refl h.state.descending
  · simp only [Env.declare, hb, List.tail_cons]
  · rw [hf]
    exact ⟨f.captures, x.name :: f.names, rfl⟩

/-- A level with one more parameter or variable. -/
def Level.withOwn (l : Level) (own : Bindings VarId) : Level := { l with own := l.own ++ own }

theorem lookup_append_of_ne {α : Type} {x y : String} (h : y ≠ x) (a : Bindings α) (v : α) :
    List.lookup y (a ++ [(x, v)]) = List.lookup y a := by
  have hb : (y == x) = false := by simpa using h
  rw [List.lookup_append]
  simp [List.lookup_cons, hb]

theorem LevelOk.fits_own {F : Facts} {f : Frame} {b : Bindings VarId}
    (hl : LevelOk F outer l f b []) {x : String} {v : VarId} {r : Variable}
    (hx : List.lookup x b = none) (hr : F.vars.get? v = some r) (hn : r.name = x)
    (ho : r.owner = some l.id) (hc : r.isCapture = false) (hg : r.isGlobal = false)
    (names : List String) :
    Fits F outer l (l.withOwn [(x, v)]) f { f with names } [] x v := by
  have hnd := hl.not_declared hx
  simp only [Level.declares, Bool.or_eq_false_iff, Option.isSome_eq_false_iff,
    Option.isNone_iff_eq_none] at hnd
  have hown : List.lookup x (l.own ++ [(x, v)]) = some v := by
    rw [List.lookup_append, hnd.1.1]
    simp
  have hhome : F.vars.home v = v := by
    refine Variables.home_of_not_capture ?_
    rw [Variables.get_eq_of_get? hr, hc]
  refine ⟨⟨rfl, fun y hy => lookup_append_of_ne hy l.own v, fun _ _ => rfl, fun _ _ => rfl⟩, rfl,
    rfl, ?_, ?_, ?_, ?_, fun k hk => hk, fun k hk => .inl hk, hl.captureNames, ?_, ?_, .inl rfl⟩
  · exact ⟨r, hr, hn, by rw [nearest_of_own hown, hhome], .inr (.inl hown)⟩
  · intro w hw
    exact Option.some.inj (hw.symm.trans hown)
  · simp only [Level.withOwn, List.map_append, List.map_cons, List.map_nil]
    refine List.nodup_append.2 ⟨hl.ownNames, by simp, ?_⟩
    intro y hy z hz
    obtain ⟨⟨y, w⟩, hyw, rfl⟩ := List.mem_map.1 hy
    obtain rfl := List.mem_singleton.1 hz
    have hne := List.lookup_eq_none_iff.1 hnd.1.1 _ hyw
    have hzy : z ≠ y := by simpa using hne
    exact hzy.symm
  · intro y w hyw
    obtain hyw | hyw := List.mem_append.1 hyw
    · exact hl.ownRecords y w hyw
    · cases List.mem_singleton.1 hyw
      exact ⟨r, hr, hn, ho, hc, hg⟩
  · intro hgl
    cases (hnd.1.2.symm.trans hgl)
  · intro hnl
    cases (hnd.2.symm.trans hnl)

/-- A level with one more name declared global. -/
def Level.withGlobal (l : Level) (x : String) : Level := { l with globals := l.globals ++ [x] }

theorem contains_append_of_ne {x y : String} (h : y ≠ x) (xs : List String) :
    (xs ++ [x]).contains y = xs.contains y := by
  simp [h]

theorem LevelOk.fits_global {F : Facts} {f : Frame} {b : Bindings VarId}
    (hl : LevelOk F outer l f b []) {x : String} {v : VarId} {r : Variable}
    (hx : List.lookup x b = none) (hr : F.vars.get? v = some r) (hn : r.name = x)
    (hg : r.isGlobal = true) (hm : List.lookup x F.module = some v) (names : List String) :
    Fits F outer l (l.withGlobal x) f { f with names } [] x v := by
  have hnd := hl.not_declared hx
  simp only [Level.declares, Bool.or_eq_false_iff, Option.isSome_eq_false_iff,
    Option.isNone_iff_eq_none] at hnd
  have hself : (l.withGlobal x).globals.contains x = true := by simp [Level.withGlobal]
  refine ⟨⟨rfl, fun _ _ => rfl, fun y hy => contains_append_of_ne hy _, fun _ _ => rfl⟩, rfl, rfl,
    ?_, ?_, hl.ownNames, hl.ownRecords, fun k hk => hk, fun k hk => .inl hk, hl.captureNames,
    fun _ => ⟨hm, r, hr, hg⟩, ?_, .inl rfl⟩
  · refine ⟨r, hr, hn, ?_, .inl ⟨hg, hm, hself⟩⟩
    rw [nearest_of_global (l := l.withGlobal x) hnd.1.1 hself, hm, Variables.home_of_global hr hg]
  · intro w hw
    cases (hnd.1.1.symm.trans hw)
  · intro hnl
    cases (hnd.2.symm.trans hnl)

/-! ### Entering a function -/

/-- What is known of a function before its body is checked. -/
structure SignatureOk (F : Facts) (parent : Option FunId) (d : FunDef) (id : FunId)
    (f : Function) : Prop where
  record : F.functions[id.index]? = some f
  name : f.name = d.name.name
  parent : f.parent = parent
  captures : f.captures = []
  locals : f.locals = []
  params : List.Forall₂ (fun p vt => F.ParamOk id p vt.2 vt.1) d.params
    (f.params.zip f.paramTypes)
  params_length : f.params.length = f.paramTypes.length
  ret : F.RetOk d f.ret

/-- The level of a function before anything is declared. -/
def Level.start (id : FunId) : Level := ⟨id, [], [], []⟩

/-- The state in which a function is entered. -/
def State.entered (s : State) (id : FunId) (ret : Ty) : State :=
  { s with
    varEnv := s.varEnv.push
    funEnv := s.funEnv.push
    frames := ⟨id, ret, [], []⟩ :: s.frames }

theorem enter_eq_ok {id : FunId} {r : Unit × State} :
    enter id s = .ok r ↔ r = ((), s.entered id (s.functions.get id).ret) :=
  modify_eq_ok

theorem Declaring.enter {d : FunDef} {id : FunId} {f : Function} (h : Scoped classes outer s)
    (hs : SignatureOk (s.facts classes) (outer.head?.map Level.id) d id f) :
    Declaring classes (.start id) outer (s.entered id f.ret) := by
  refine ⟨⟨h.state.descending, h.state.origins, h.state.refs, h.state.module, ?_, h.state.parents,
    h.state.orphans, h.state.arities, h.state.roots, h.state.methods⟩, _, s.frames, [], s.varEnv.inner,
    s.funEnv.inner, rfl, rfl, rfl, ?_, h.nested, ?_, ?_⟩
  · intro v r hr hc
    obtain ⟨g, hg, ⟨fr, hfr, hfn⟩ | hrec⟩ := h.state.aliases v r hr hc
    · exact ⟨g, hg, .inl ⟨fr, List.mem_cons_of_mem _ hfr, hfn⟩⟩
    · exact ⟨g, hg, .inr hrec⟩
  · refine ⟨rfl, ⟨f, hs.record, hs.parent, hs.captures, rfl⟩, nofun, nofun, nofun, List.nodup_nil,
      nofun, nofun, List.nodup_nil, nofun, nofun, nofun⟩
  · exact nofun
  · exact nofun

/-! ### Parameters -/

theorem declareParams_ok {ps : List TypedName} {vs : List VarId}
    (h : Declaring classes l outer s)
    (hps : List.Forall₂ (fun p v => ∃ t, (s.facts classes).ParamOk l.id p t v) ps vs)
    (hc : declareParams ps vs s = .ok ((), s')) :
    Declaring classes (l.withOwn ((ps.map (·.name.name)).zip vs)) outer s' ∧
      Evolves classes none s s' ∧ s'.facts classes = s.facts classes := by
  unfold declareParams at hc
  induction ps generalizing l s vs with
  | nil =>
    simp only [List.zip_nil_left, forM_nil_eq_ok, Prod.mk.injEq] at hc
    obtain ⟨-, rfl⟩ := hc
    refine ⟨?_, .refl h.state.descending, rfl⟩
    simpa [Level.withOwn] using h
  | cons p ps ih =>
    obtain _ | ⟨hp, hps⟩ := hps
    rename_i v vs
    simp only [List.zip_cons_cons, forM_cons_eq_ok] at hc
    obtain ⟨s₁, h₁, hc⟩ := hc
    obtain ⟨t, r, hr, hn, -, hk, ho, -⟩ := hp
    obtain ⟨hd, hev, hfacts⟩ := h.declare (l.withOwn [(p.name.name, v)]) h₁
      (fun f b hl hx => hl.fits_own hx hr hn ho (by simp [Variable.isCapture, hk])
        (by simp [Variable.isGlobal, hk]) _) (fun _ => id)
    obtain ⟨hd', hev', hfacts'⟩ := ih hd (hfacts ▸ hps) hc
    refine ⟨?_, hev.trans hev', hfacts'.trans hfacts⟩
    simpa [Level.withOwn] using hd'

/-! ### Scope declarations -/

/-- A level with one more name declared nonlocal. -/
def Level.withNonlocal (l : Level) (x : String) : Level :=
  { l with nonlocals := l.nonlocals ++ [x] }

/-- A level after a scope declaration. -/
def Level.withDecl (l : Level) (d : ScopeDecl) : Level :=
  match d.kind with
  | .global => l.withGlobal d.name.name
  | .nonlocal => l.withNonlocal d.name.name

theorem checkScopeDecl_ok {d : ScopeDecl} (h : Declaring classes l outer s)
    (hc : checkScopeDecl l.id d s = .ok ((), s')) :
    Declaring classes (l.withDecl d) outer s' ∧ Evolves classes none s s' ∧
      s'.functions = s.functions := by
  simp only [checkScopeDecl] at hc
  unfold Level.withDecl
  cases hk : d.kind with
  | global =>
    simp only [hk, bind_eq_ok, findVar?_eq_ok, Prod.mk.injEq, and_assoc, exists_and_left,
      exists_eq_left, Env.lookup, Env.scopes] at hc
    cases hm : List.lookup d.name.name s.varEnv.module with
    | none => simp [hm, refuse_eq_ok] at hc
    | some v =>
      obtain ⟨r, hr, hn, hg⟩ := h.state.module _ v hm
      simp only [List.findSome?_cons, hm, bind_eq_ok, variableOf_eq_ok,
        Variables.get_eq_of_get? hr, Prod.mk.injEq, and_assoc, exists_and_left, exists_eq_left, hg,
        if_true] at hc
      obtain ⟨hd, hev, hfacts⟩ := h.declare (l.withGlobal d.name.name) hc
        (fun f b hl hx => hl.fits_global hx hr hn hg hm _) (fun _ => id)
      exact ⟨hd, hev, congrArg Facts.functions hfacts⟩
  | nonlocal =>
    simp only [hk, bind_eq_ok, findVar?_eq_ok, Prod.mk.injEq, and_assoc, exists_and_left,
      exists_eq_left, Env.lookup, Env.scopes] at hc
    obtain ⟨f, fs, b, bs, us, hf, hb, hu, hl, hn, hclaimed, hcap⟩ := h.nested
    cases ho : bs.findSome? (List.lookup d.name.name) with
    | none => simp [hb, ho, refuse_eq_ok] at hc
    | some origin =>
      obtain ⟨q, hq, -, hh, -⟩ := hn.lookup ho
      have hget : s.vars.get origin = q := Variables.get_eq_of_get? hq
      simp only [hb, List.tail_cons, ho, bind_eq_ok, variableOf_eq_ok, hget, Prod.mk.injEq,
        and_assoc, exists_and_left, exists_eq_left] at hc
      cases hg : q.isGlobal with
      | true => simp only [hg, if_true, refuse_eq_ok] at hc
      | false =>
        simp only [hg, Bool.false_eq_true, if_false, bind_eq_ok, claimName_eq_ok hf, Prod.mk.injEq,
          capture_eq_ok, pure_eq_ok] at hc
        obtain ⟨_, s₁, ⟨hfresh, -, rfl⟩, _, _, ⟨-, rfl⟩, -, rfl⟩ := hc
        have hx : List.lookup d.name.name b = none := by
          cases hx : List.lookup d.name.name b with
          | none => rfl
          | some w => cases (hfresh.symm.trans (hclaimed _ w hx))
        have h₁ := h.scoped.claim hf (d.name.name :: f.names)
        have hx₁ : s.varEnv.lookup d.name.name .localScope = none := by
          simp [Env.lookup, Env.scopes, hb, hx]
        have hw : l.Widens (l.withNonlocal d.name.name) d.name.name :=
          ⟨rfl, rfl, rfl, fun y hy => contains_append_of_ne hy _⟩
        obtain ⟨hsc, hlater⟩ := h₁.withAlias true d.span hq hg hx₁ hh hw
        obtain ⟨f', fs', b', bs', u', us', hf', hb', hu', hl', hn'⟩ := hsc.innermost
        cases hu'.symm.trans hu
        have hb₂ : b' :: bs' = b.insert d.name.name s.vars.nextId :: bs := by
          rw [← hb']
          simp only [State.withAlias, Env.declare, hb]
        cases hb₂
        cases hf'
        refine ⟨⟨hsc.state, _, fs, _, bs, us, rfl, hb', hu', hl', hn', ?_, ?_⟩,
          ⟨hlater, ?_, rfl, rfl, ?_⟩, rfl⟩
        · intro y w hy
          by_cases hyx : y = d.name.name
          · simp [hyx]
          · rw [Bindings.lookup_insert_of_ne hyx] at hy
            have hcl := hclaimed y w hy
            simp only [List.contains_cons, hcl, Bool.or_true]
        · intro k hk
          obtain hk | rfl := Captures.mem_add hk
          · simp [Level.withNonlocal, List.contains_iff_mem.1 (hcap k hk)]
          · simp [Level.withNonlocal]
        · rw [hb', hb]
          rfl
        · rw [hf]
          exact ⟨_, _, rfl⟩

theorem checkScopeDecls_ok {ds : List ScopeDecl} (h : Declaring classes l outer s)
    (hc : ds.forM (checkScopeDecl l.id) s = .ok ((), s')) :
    Declaring classes (ds.foldl Level.withDecl l) outer s' ∧ Evolves classes none s s' ∧
      s'.functions = s.functions := by
  induction ds generalizing l s with
  | nil =>
    obtain ⟨-, rfl⟩ := Prod.mk.inj (forM_nil_eq_ok.1 hc)
    exact ⟨h, .refl h.state.descending, rfl⟩
  | cons d ds ih =>
    obtain ⟨s₁, h₁, hc⟩ := forM_cons_eq_ok.1 hc
    obtain ⟨hd, hev, hfs⟩ := checkScopeDecl_ok h h₁
    have hid : (l.withDecl d).id = l.id := by
      unfold Level.withDecl
      cases d.kind <;> rfl
    obtain ⟨hd', hev', hfs'⟩ := ih hd (hid ▸ hc)
    exact ⟨hd', hev.trans hev', hfs'.trans hfs⟩

theorem withDecls_eq (l : Level) (d : FunDef) :
    d.decls.foldl Level.withDecl l
      = ⟨l.id, l.own, l.globals ++ d.declared .global, l.nonlocals ++ d.declared .nonlocal⟩ := by
  unfold FunDef.declared
  induction d.decls generalizing l with
  | nil => simp
  | cons x xs ih =>
    rw [List.foldl_cons, ih]
    cases hk : x.kind <;>
      simp [Level.withDecl, hk, Level.withGlobal, Level.withNonlocal]

/-! ### Variables -/

theorem Later.push (h : StateOk s) {r : Variable} (hr : r.isCapture = false)
    (href : r.refed = false) :
    Later none (s.facts classes) (State.facts { s with vars := s.vars.push r } classes) :=
  ⟨rfl, rfl, rfl, .push _ _, h.descending, (h.push hr href).descending,
    fun _ f hf => ⟨f.locals, f.captures, hf, fun _ => ⟨rfl, rfl⟩⟩⟩

theorem Declaring.push (h : Declaring classes l outer s) {r : Variable}
    (hr : r.isCapture = false) (href : r.refed = false) :
    Declaring classes l outer { s with vars := s.vars.push r } := by
  obtain ⟨f, fs, b, bs, us, hf, hb, hu, hl, hn, hrest⟩ := h.nested
  have hlater : Later none (s.facts classes) _ := Later.push h.state hr href
  exact ⟨h.state.push hr href, f, fs, b, bs, us, hf, hb, hu, hl.later hlater nofun nofun,
    hn.later hlater nofun, hrest⟩

/-- The state with one more variable in the record of a function. -/
def State.withLocal (s : State) (id : FunId) (v : VarId) : State :=
  { s with functions := s.functions.modify id.index fun f => { f with locals := f.locals ++ [v] } }

theorem Declaring.local (h : Declaring classes l outer s) (v : VarId) :
    Declaring classes l outer (s.withLocal l.id v) ∧
      Later (some l.id) (s.facts classes) ((s.withLocal l.id v).facts classes) := by
  obtain ⟨f, fs, b, bs, us, hf, hb, hu, hl, hn, hrest⟩ := h.nested
  have hlater : Later (some l.id) (s.facts classes) ((s.withLocal l.id v).facts classes) := by
    refine ⟨rfl, rfl, rfl, .refl _, h.state.descending, h.state.descending, fun id g hg => ?_⟩
    simp only [State.facts, State.withLocal, get?_modify] at hg ⊢
    rw [hg]
    split
    · exact ⟨_, _, rfl, fun hne => absurd (by simp [*]) hne⟩
    · exact ⟨_, _, rfl, fun _ => ⟨rfl, rfl⟩⟩
  obtain ⟨g, hg, -, hgc, -⟩ := hl.record
  have hcap : ∀ (i : FunId) f, some l.id = some i →
      ((s.withLocal l.id v).facts classes).functions[i.index]? = some f → f.captures = [] := by
    rintro i f ⟨⟩ hf
    obtain ⟨g', hg', rfl⟩ : ∃ g', s.functions[l.id.index]? = some g' ∧
        { g' with locals := g'.locals ++ [v] } = f := by
      simpa [State.facts, State.withLocal, get?_modify] using hf
    cases hg.symm.trans hg'
    exact hgc
  refine ⟨⟨h.state.locals l.id [v], f, fs, b, bs, us, hf, hb, hu, ?_, hn.later hlater hcap, hrest⟩,
    hlater⟩
  refine hl.later hlater (fun g hg => hcap _ g hg) ?_
  intro i f _ hi hf _ _ k hk
  rw [hcap i f hi hf] at hk
  exact absurd hk List.not_mem_nil

theorem checkLocal_ok {d d' : VarDef} {f : Function} (h : Declaring classes l outer s)
    (hf : s.functions[l.id.index]? = some f)
    (hc : checkLocal classes l.id d s = .ok (d', s')) :
    ∃ v, Declaring classes (l.withOwn [(d.var.name.name, v)]) outer s' ∧
      Evolves classes (some l.id) s s' ∧ s'.functions.size = s.functions.size ∧
      s'.functions[l.id.index]? = some { f with locals := f.locals ++ [v] } ∧
      (s'.facts classes).LocalOk l.id d' v ∧ d'.var = d.var ∧ d'.init = d.init := by
  simp only [checkLocal, bind_eq_ok, resolveTy_eq_ok, checkInitializer_eq_ok, newVariable_eq_ok,
    modifyFunction_eq_ok, pure_eq_ok, Prod.mk.injEq] at hc
  obtain ⟨t, s₀, ⟨hs₀, ht⟩, _, s₁, ⟨⟨-, hs₁⟩, hi⟩, v, _, ⟨rfl, rfl⟩, ⟨⟩, s₂, hdecl, _, _, ⟨-, rfl⟩,
    rfl, rfl⟩ := hc
  obtain rfl : s = s₁ := (hs₁.trans hs₀).symm
  let r : Variable := {
    name := d.var.name.name
    ty := .plain t
    kind := .local
    refed := false
    writable := true
    owner := some l.id
    span := d.span }
  have h₁ := h.push (r := r) rfl rfl
  have hlater₁ : Later none (s.facts classes) _ := Later.push h.state (r := r) rfl rfl
  have hr : (s.vars.push r).get? s.vars.nextId = some r := Variables.get?_push_self _ _
  obtain ⟨h₂, hev₂, hfacts₂⟩ := h₁.declare (l.withOwn [(d.var.name.name, s.vars.nextId)])
    hdecl (fun f b hl hx => hl.fits_own hx hr rfl rfl rfl rfl _) (fun _ => id)
  obtain ⟨h₃, hlater₃⟩ := h₂.local s.vars.nextId
  have hfs : s₂.functions = s.functions := congrArg Facts.functions hfacts₂
  have hvars : s₂.vars = s.vars.push r := congrArg Facts.vars hfacts₂
  refine ⟨s.vars.nextId, h₃, ?_, ?_, ?_, ?_, rfl, rfl⟩
  · exact ⟨(hlater₁.trans hev₂.later).weaken.trans hlater₃, hev₂.scopes, hev₂.funScopes,
      hev₂.funModule, hev₂.frames⟩
  · simp [hfs]
  · rw [get?_modify, if_pos rfl, hfs, hf]
    rfl
  · refine ⟨rfl, r, t, ?_, rfl, rfl, rfl, rfl, rfl, ht, hi⟩
    simp only [State.facts, hvars]
    exact hr

theorem checkLocals_ok {ds ds' : List VarDef} {f : Function} (h : Declaring classes l outer s)
    (hf : s.functions[l.id.index]? = some f)
    (hc : ds.mapM (checkLocal classes l.id) s = .ok (ds', s')) :
    ∃ vs, Declaring classes (l.withOwn ((ds'.map (·.var.name.name)).zip vs)) outer s' ∧
      Evolves classes (some l.id) s s' ∧ s'.functions.size = s.functions.size ∧
      s'.functions[l.id.index]? = some { f with locals := f.locals ++ vs } ∧
      List.Forall₂ ((s'.facts classes).LocalOk l.id) ds' vs ∧
      List.Forall₂ (fun d d' => d'.var = d.var ∧ d'.init = d.init) ds ds' := by
  induction ds generalizing l s ds' f with
  | nil =>
    simp only [List.mapM_nil, pure_eq_ok, Prod.mk.injEq] at hc
    obtain ⟨rfl, rfl⟩ := hc
    refine ⟨[], ?_, .refl h.state.descending, rfl, ?_, .nil, .nil⟩
    · simpa [Level.withOwn] using h
    · simpa using hf
  | cons d ds ih =>
    simp only [List.mapM_cons, bind_eq_ok, pure_eq_ok, Prod.mk.injEq] at hc
    obtain ⟨d₁, s₁, hd, ds₁, s₂, hds, rfl, rfl⟩ := hc
    obtain ⟨v, h₁, hev₁, hsz₁, hf₁, hok₁, hvar, hinit⟩ := checkLocal_ok h hf hd
    obtain ⟨vs, h₂, hev₂, hsz₂, hf₂, hok₂, hvars⟩ := ih h₁ hf₁ hds
    refine ⟨v :: vs, ?_, hev₁.trans hev₂, hsz₂.trans hsz₁, ?_, ?_, .cons ⟨hvar, hinit⟩ hvars⟩
    · simpa [Level.withOwn, hvar] using h₂
    · simpa [Level.withOwn] using hf₂
    · exact .cons (hok₁.later hev₂.later) hok₂

end ObjLang.Check
