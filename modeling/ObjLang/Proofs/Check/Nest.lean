import ObjLang.Proofs.Check.Declare

/-!
# ObjLang.Proofs.Check.Nest — functions and those nested in them

A function that is nested in another is finished before the statements around it are checked.  When
it is left, its captures go into its record, and each of them that the function around it does not
know is captured there too: a variable passes through on its way inwards.
-/

namespace ObjLang.Check

open Facts

variable {classes : ClassTable} {l : Level} {lv outer : List Level} {s s' : State}

/-! ### Signatures -/

/-- A state with the same scopes and frames, and more records. -/
structure Records (classes : ClassTable) (s s' : State) : Prop where
  later : Later none (s.facts classes) (s'.facts classes)
  varEnv : s'.varEnv = s.varEnv
  funEnv : s'.funEnv = s.funEnv
  frames : s'.frames = s.frames

theorem Records.trans {t : State} (h : Records classes s s') (h' : Records classes s' t) :
    Records classes s t :=
  ⟨h.later.trans h'.later, h'.varEnv.trans h.varEnv, h'.funEnv.trans h.funEnv,
    h'.frames.trans h.frames⟩

theorem Scoped.records (h : Scoped classes lv s) (hr : Records classes s s') (hs : StateOk s') :
    Scoped classes lv s' := by
  refine ⟨hs, ?_⟩
  rw [hr.frames, hr.varEnv, hr.funEnv]
  exact h.nested.later hr.later nofun

theorem declareParam_ok {id : FunId} {p : TypedName} {v : VarId} {t : Ty} (h : StateOk s)
    (hc : declareParam classes id p s = .ok ((v, t), s')) :
    StateOk s' ∧ Records classes s s' ∧ s'.functions = s.functions ∧
      (s'.facts classes).ParamOk id p t v := by
  simp only [declareParam, bind_eq_ok, resolveTy_eq_ok, newVariable_eq_ok, pure_eq_ok,
    Prod.mk.injEq] at hc
  obtain ⟨t', s₁, ⟨hs₁, ht⟩, v', _, ⟨rfl, rfl⟩, ⟨rfl, rfl⟩, rfl⟩ := hc
  obtain rfl : s = s₁ := hs₁.symm
  refine ⟨h.push rfl rfl, ⟨Later.push h rfl rfl, rfl, rfl, rfl⟩, rfl, ?_⟩
  exact ⟨_, Variables.get?_push_self _ _, rfl, rfl, rfl, rfl, rfl, ht⟩

theorem declareParams_signature {id : FunId} {ps : List TypedName} {vts : List (VarId × Ty)}
    (h : StateOk s) (hc : ps.mapM (declareParam classes id) s = .ok (vts, s')) :
    StateOk s' ∧ Records classes s s' ∧ s'.functions = s.functions ∧
      List.Forall₂ (fun p vt => (s'.facts classes).ParamOk id p vt.2 vt.1) ps vts := by
  induction ps generalizing s vts with
  | nil =>
    simp only [List.mapM_nil, pure_eq_ok, Prod.mk.injEq] at hc
    obtain ⟨rfl, rfl⟩ := hc
    exact ⟨h, ⟨.refl h.descending, rfl, rfl, rfl⟩, rfl, .nil⟩
  | cons p ps ih =>
    simp only [List.mapM_cons, bind_eq_ok, pure_eq_ok, Prod.mk.injEq] at hc
    obtain ⟨⟨v, t⟩, s₁, hp, vts₁, s₂, hps, rfl, rfl⟩ := hc
    obtain ⟨h₁, hr₁, hf₁, hok₁⟩ := declareParam_ok h hp
    obtain ⟨h₂, hr₂, hf₂, hok₂⟩ := ih h₁ hps
    exact ⟨h₂, hr₁.trans hr₂, hf₂.trans hf₁, .cons (hok₁.later hr₂.later) hok₂⟩

theorem getElem?_push_of_some {fs : Functions} {id : FunId} {f : Function} (g : Function)
    (h : fs[id.index]? = some f) : (fs.push g)[id.index]? = some f := by
  rw [Array.getElem?_push, if_neg, h]
  have hlt : id.index < fs.size := (Array.getElem?_eq_some_iff.1 h).1
  omega

/-- A new function. -/
theorem StateOk.pushFunction (h : StateOk s) {f : Function} (hc : f.captures = [])
    (ha : f.params.length = f.paramTypes.length)
    (hp : ∀ p, f.parent = some p → p.index < s.functions.size) :
    StateOk { s with functions := s.functions.push f } where
  descending := h.descending
  origins := h.origins
  refs := h.refs
  module := h.module
  aliases := by
    intro v r hr hrc
    obtain ⟨g, hg, hfr | ⟨f₀, hf₀, hk⟩⟩ := h.aliases v r hr hrc
    · exact ⟨g, hg, .inl hfr⟩
    · exact ⟨g, hg, .inr ⟨f₀, getElem?_push_of_some f hf₀, hk⟩⟩
  parents := by
    intro id g p hg hgp
    rw [Array.getElem?_push] at hg
    split at hg
    · next hid =>
      cases hg
      rw [hid]
      exact hp p hgp
    · exact h.parents id g p hg hgp
  orphans := by
    intro id g hg hgp
    rw [Array.getElem?_push] at hg
    split at hg
    · cases hg
      exact hc
    · exact h.orphans id g hg hgp
  arities := by
    intro id g hg
    rw [Array.getElem?_push] at hg
    split at hg
    · cases hg
      exact ha
    · exact h.arities id g hg
  roots := by
    intro x id hid
    obtain ⟨g, hg, hgp⟩ := h.roots x id hid
    exact ⟨g, getElem?_push_of_some f hg, hgp⟩
  methods := by
    intro m id hid
    obtain ⟨g, hg, hgp⟩ := h.methods m id hid
    exact ⟨g, getElem?_push_of_some f hg, hgp⟩

/-- The record of a function whose body is not checked yet. -/
def signatureRecord (d : FunDef) (emitted : String) (owner : Option String)
    (parent : Option FunId) (params : List (VarId × Ty)) (ret : Ty) : Function where
  name := d.name.name
  emitted := emitted
  params := params.map (·.1)
  paramTypes := params.map (·.2)
  ret := ret
  captures := []
  locals := []
  owner := owner
  parent := parent
  synthetic := false
  span := d.span

theorem declareSignature_ok {d : FunDef} {emitted : String} {owner : Option String}
    {parent : Option FunId} {id : FunId} (h : StateOk s)
    (hp : ∀ p, parent = some p → p.index < s.functions.size)
    (hc : declareSignature classes d emitted owner parent s = .ok (id, s')) :
    StateOk s' ∧ Records classes s s' ∧ id = ⟨s.functions.size⟩ ∧
      s'.functions.size = s.functions.size + 1 ∧
      ∃ f, SignatureOk (s'.facts classes) parent d id f ∧ f.emitted = emitted := by
  simp only [declareSignature, bind_eq_ok, get_eq_ok, Prod.mk.injEq, and_assoc, exists_and_left,
    exists_eq_left] at hc
  obtain ⟨vts, s₁, hps, hc⟩ := hc
  obtain ⟨h₁, hr₁, hf₁, hok₁⟩ := declareParams_signature h hps
  have hret : ∃ ret, (s₁.facts classes).RetOk d ret ∧
      newFunction (signatureRecord d emitted owner parent vts ret) s₁ = .ok (id, s') := by
    unfold RetOk
    cases hd : d.ret with
    | none =>
      simp only [hd, pure_bind] at hc
      exact ⟨.none, rfl, hc⟩
    | some w =>
      simp only [hd, bind_eq_ok, resolveTy_eq_ok] at hc
      obtain ⟨ret, s₂, ⟨hs₂, ht⟩, hc⟩ := hc
      obtain rfl : s₁ = s₂ := hs₂.symm
      exact ⟨ret, ht, hc⟩
  obtain ⟨ret, hret, hnew⟩ := hret
  generalize hg : signatureRecord d emitted owner parent vts ret = g at hnew
  rw [newFunction_eq_ok, Prod.mk.injEq] at hnew
  obtain ⟨rfl, rfl⟩ := hnew
  have h₂ : StateOk { s₁ with functions := s₁.functions.push g } :=
    h₁.pushFunction (by rw [← hg]; rfl) (by rw [← hg]; simp [signatureRecord])
      (fun p hpp => hf₁ ▸ hp p (by rw [← hpp, ← hg]; rfl))
  have hlater : Later none (s₁.facts classes)
      (State.facts { s₁ with functions := s₁.functions.push g } classes) :=
    ⟨rfl, rfl, rfl, .refl _, h₁.descending, h₂.descending, fun _ f hf =>
      ⟨f.locals, f.captures, getElem?_push_of_some g hf, fun _ => ⟨rfl, rfl⟩⟩⟩
  refine ⟨h₂, hr₁.trans ⟨hlater, rfl, rfl, rfl⟩, by rw [Functions.nextId, hf₁], by simp [hf₁], g,
    ⟨?_, by rw [← hg]; rfl, by rw [← hg]; rfl, by rw [← hg]; rfl, by rw [← hg]; rfl, ?_, ?_, ?_⟩,
    by rw [← hg]; rfl⟩
  · simp [State.facts, Functions.nextId]
  · have hzip : g.params.zip g.paramTypes = vts := by
      rw [← hg]
      simp [signatureRecord, ← List.unzip_fst, ← List.unzip_snd, List.zip_unzip]
    rw [hzip]
    exact hok₁.imp fun _ _ hp => by
      simpa [Functions.nextId, hf₁] using hp.later hlater
  · rw [← hg]
    simp [signatureRecord]
  · rw [← hg]
    exact hret.later (hg ▸ hlater)

/-! ### Functions in scope -/

theorem Scoped.bindFunction (h : Scoped classes (l :: outer) s) {x : String} {id : FunId}
    {f : Function} (hf : s.functions[id.index]? = some f) (hp : f.parent = some l.id)
    (hc : f.captures = []) :
    Scoped classes (l :: outer) { s with funEnv := s.funEnv.declare x id } := by
  obtain ⟨fr, fs, b, bs, u, us, hfr, hb, hu, hl, hn⟩ := h.innermost
  have hfun : s.funEnv.declare x id = ⟨u.insert x id :: us, s.funEnv.module⟩ := by
    simp only [Env.declare, hu]
  refine ⟨{ h.state with roots := by rw [hfun]; exact h.state.roots }, ?_⟩
  rw [hfun, hfr, hb]
  refine .cons { hl with children := ?_ } hn
  intro g i hi
  by_cases hg : g = x
  · subst hg
    rw [Bindings.lookup_insert_self, Option.some.injEq] at hi
    subst hi
    refine ⟨f, hf, hp, fun k hk => ?_⟩
    rw [hc] at hk
    exact absurd hk List.not_mem_nil
  · rw [Bindings.lookup_insert_of_ne hg] at hi
    exact hl.children g i hi

/-! ### Leaving a function -/

/-- The state after a function with some captures is left. -/
def State.left (s : State) (id : FunId) (captures : Captures) : State :=
  { s with
    varEnv := s.varEnv.pop.2
    funEnv := s.funEnv.pop.2
    frames := s.frames.tail
    functions := s.functions.modify id.index fun f => { f with captures } }

theorem leave_eq_ok {id : FunId} {f : Frame} {fs : List Frame} (hf : s.frames = f :: fs)
    {r : Unit × State} : leave id s = .ok r ↔ r = ((), s.left id f.captures) := by
  unfold leave
  rw [modify_eq_ok]
  simp only [State.left, hf, List.head?_cons, Option.map_some, Option.getD_some]

/-- Leaving the innermost function. -/
structure Leaves (classes : ClassTable) (l : Level) (outer : List Level) (f : Frame)
    (s s' : State) : Prop where
  nest : Scoped classes outer s'
  later : Later (some l.id) (s.facts classes) (s'.facts classes)
  record : ∀ g, s.functions[l.id.index]? = some g →
    s'.functions[l.id.index]? = some { g with captures := f.captures }
  size : s'.functions.size = s.functions.size
  frames : s'.frames = s.frames.tail
  varEnv : s'.varEnv = ⟨s.varEnv.inner.tail, s.varEnv.module⟩
  funEnv : s'.funEnv = ⟨s.funEnv.inner.tail, s.funEnv.module⟩

/-- The record of a function after the function `id` is left with some captures. -/
def leftRecord (id : FunId) (captures : Captures) (i : FunId) (f : Function) : Function :=
  if id = i then { f with captures } else f

section

variable {id i : FunId} {captures : Captures} {f : Function}

@[simp] theorem leftRecord_parent : (leftRecord id captures i f).parent = f.parent := by
  unfold leftRecord
  split <;> rfl

@[simp] theorem leftRecord_emitted : (leftRecord id captures i f).emitted = f.emitted := by
  unfold leftRecord
  split <;> rfl

@[simp] theorem leftRecord_params : (leftRecord id captures i f).params = f.params := by
  unfold leftRecord
  split <;> rfl

@[simp] theorem leftRecord_paramTypes :
    (leftRecord id captures i f).paramTypes = f.paramTypes := by
  unfold leftRecord
  split <;> rfl

theorem leftRecord_captures : (leftRecord id captures i f).captures
    = if id = i then captures else f.captures := by
  unfold leftRecord
  split <;> rfl

theorem State.getElem?_left : (s.left id captures).functions[i.index]?
    = (s.functions[i.index]?).map (leftRecord id captures i) := by
  have hget : (s.left id captures).functions[i.index]?
      = if id = i then (s.functions[i.index]?).map ({ · with captures })
        else s.functions[i.index]? := get?_modify
  rw [hget]
  cases s.functions[i.index]? with
  | none => split <;> rfl
  | some f =>
    rw [Option.map_some, Option.map_some, leftRecord]
    split <;> rfl

end

theorem Scoped.varEnv_left (h : Scoped classes (l :: outer) s) (cs : Captures) :
    (s.left l.id cs).varEnv = ⟨s.varEnv.inner.tail, s.varEnv.module⟩ := by
  obtain ⟨f, fs, b, bs, u, us, -, hb, -, -, -⟩ := h.innermost
  simp only [State.left, Env.pop, hb, List.tail_cons]

theorem Scoped.funEnv_left (h : Scoped classes (l :: outer) s) (cs : Captures) :
    (s.left l.id cs).funEnv = ⟨s.funEnv.inner.tail, s.funEnv.module⟩ := by
  obtain ⟨f, fs, b, bs, u, us, -, -, hu, -, -⟩ := h.innermost
  simp only [State.left, Env.pop, hu, List.tail_cons]

/-- The aliases of the function that is left belong to the captures in its record. -/
theorem Scoped.stateOk_left {f : Frame} {fs : List Frame} (h : Scoped classes (l :: outer) s)
    (hf : s.frames = f :: fs) : StateOk (s.left l.id f.captures) := by
  obtain ⟨f', fs', b, bs, u, us, hf', -, -, hl, -⟩ := h.innermost
  cases hf.symm.trans hf'
  obtain ⟨g, hg, hgp, hgc, -⟩ := hl.record
  have hg : s.functions[l.id.index]? = some g := hg
  have hold : ∀ (i : FunId) f₁, (s.left l.id f.captures).functions[i.index]? = some f₁ →
      ∃ f₀, s.functions[i.index]? = some f₀ ∧ leftRecord l.id f.captures i f₀ = f₁ :=
    fun i f₁ hf₁ => Option.map_eq_some_iff.1 (State.getElem?_left.symm.trans hf₁)
  have hnew : ∀ (i : FunId) f₀, s.functions[i.index]? = some f₀ →
      (s.left l.id f.captures).functions[i.index]? = some (leftRecord l.id f.captures i f₀) :=
    fun i f₀ hf₀ => by rw [State.getElem?_left, hf₀, Option.map_some]
  refine ⟨h.state.descending, h.state.origins, h.state.refs, ?module, ?aliases, ?parents, ?orphans,
    ?arities, ?roots, ?methods⟩
  case module =>
    rw [h.varEnv_left]
    exact h.state.module
  case aliases =>
    intro v r hr hc
    obtain ⟨i, hi, ⟨fr, hfr, hfn, hk⟩ | ⟨f₀, hf₀, k, hk, hkv⟩⟩ := h.state.aliases v r hr hc
    · rw [hf, List.mem_cons] at hfr
      obtain rfl | hfr := hfr
      · rw [← hfn, hl.function] at hi
        refine ⟨l.id, hi, .inr ⟨_, hnew l.id g hg, ?_⟩⟩
        rwa [leftRecord_captures, if_pos rfl]
      · refine ⟨i, hi, .inl ⟨fr, ?_, hfn, hk⟩⟩
        rw [State.left, hf]
        exact hfr
    · refine ⟨i, hi, .inr ⟨_, hnew i f₀ hf₀, k, ?_, hkv⟩⟩
      rw [leftRecord_captures]
      split
      · next hid =>
        subst hid
        cases hg.symm.trans hf₀
        rw [hgc] at hk
        exact absurd hk List.not_mem_nil
      · exact hk
  case parents =>
    intro i f₁ p hf₁ hp
    obtain ⟨f₀, hf₀, rfl⟩ := hold i f₁ hf₁
    exact h.state.parents i f₀ p hf₀ (by simpa using hp)
  case orphans =>
    intro i f₁ hf₁ hp
    obtain ⟨f₀, hf₀, rfl⟩ := hold i f₁ hf₁
    rw [leftRecord_parent] at hp
    rw [leftRecord_captures]
    split
    · next hid =>
      subst hid
      cases hg.symm.trans hf₀
      rw [hgp, Option.map_eq_none_iff, List.head?_eq_none_iff] at hp
      refine List.eq_nil_iff_forall_not_mem.2 fun k hk => ?_
      have hh := (hl.captures k hk).2.2
      rw [hp] at hh
      cases hh
    · exact h.state.orphans i f₀ hf₀ hp
  case arities =>
    intro i f₁ hf₁
    obtain ⟨f₀, hf₀, rfl⟩ := hold i f₁ hf₁
    simpa using h.state.arities i f₀ hf₀
  case roots =>
    rw [h.funEnv_left]
    intro x i hi
    obtain ⟨f₀, hf₀, hp₀⟩ := h.state.roots x i hi
    exact ⟨_, hnew i f₀ hf₀, by simpa using hp₀⟩
  case methods =>
    intro m i hi
    obtain ⟨f₀, hf₀, hp₀, he₀⟩ := h.state.methods m i hi
    exact ⟨_, hnew i f₀ hf₀, by simpa using hp₀, by simpa using he₀⟩

theorem Scoped.later_left (h : Scoped classes (l :: outer) s) (cs : Captures) :
    Later (some l.id) (s.facts classes) ((s.left l.id cs).facts classes) := by
  refine ⟨rfl, rfl, ?_, .refl _, h.state.descending, h.state.descending, fun i f₀ hf₀ => ?_⟩
  · simp only [State.facts, h.varEnv_left]
  · have hf₁ : (s.left l.id cs).functions[i.index]? = some (leftRecord l.id cs i f₀) := by
      rw [State.getElem?_left, show s.functions[i.index]? = some f₀ from hf₀, Option.map_some]
    rw [leftRecord] at hf₁
    split at hf₁
    · next hid => exact ⟨_, _, hf₁, fun hne => absurd (congrArg some hid) hne⟩
    · exact ⟨_, _, hf₁, fun _ => ⟨rfl, rfl⟩⟩

theorem leave_ok {f : Frame} {fs : List Frame} (h : Scoped classes (l :: outer) s)
    (hf : s.frames = f :: fs) (hc : leave l.id s = .ok ((), s')) :
    Leaves classes l outer f s s' := by
  rw [leave_eq_ok hf, Prod.mk.injEq] at hc
  obtain ⟨-, rfl⟩ := hc
  obtain ⟨f', fs', b, bs, u, us, hf', hb, hu, hl, hn⟩ := h.innermost
  cases hf.symm.trans hf'
  obtain ⟨g, hg, hgp, -⟩ := hl.record
  have hlater := h.later_left f.captures
  have hrecord : ∀ g₀, s.functions[l.id.index]? = some g₀ →
      (s.left l.id f.captures).functions[l.id.index]? = some { g₀ with captures := f.captures } := by
    intro g₀ hg₀
    rw [State.getElem?_left, hg₀, Option.map_some, leftRecord, if_pos rfl]
  refine ⟨⟨h.stateOk_left hf, ?_⟩, hlater, hrecord, by simp [State.left], rfl, h.varEnv_left _,
    h.funEnv_left _⟩
  rw [h.varEnv_left, h.funEnv_left, hb, hu]
  have hframes : (s.left l.id f.captures).frames = fs := by rw [State.left, hf, List.tail_cons]
  rw [hframes]
  refine hn.finished hlater (hrecord g hg) (hn.before h.state.parents hg hgp) ?_ ?_
  · intro m rest _ _ k hk
    exact (hl.captures k hk).2.later hlater
  · intro m hm hp
    cases outer with
    | nil => simp at hm
    | cons o rest =>
      have hlt := hn.head_before h.state.parents m hm
      rw [hgp, List.head?_cons, Option.map_some, Option.some.injEq] at hp
      rw [hp] at hlt
      exact Nat.lt_irrefl _ hlt

/-! ### Captures that pass through -/

/-- Captures of a nested function made anew in the innermost one. -/
theorem captureAll_ok {id : FunId} {ks : Captures} (h : Scoped classes (l :: outer) s)
    (hks : ∀ k ∈ ks, (s.facts classes).CaptureOk (l :: outer) id k ∧
      s.varEnv.lookup k.name .localScope = none)
    (hnd : (ks.map Capture.name).Nodup)
    (hc : (ks.forM fun c => do let _ ← capture c.name c.origin false c.span l.id : CheckM Unit) s
      = .ok ((), s')) :
    Scoped classes (l :: outer) s' ∧ Evolves classes none s s' ∧ s'.functions = s.functions ∧
      s'.funEnv = s.funEnv ∧
      ∀ f fs, s.frames = f :: fs → ∃ f', s'.frames = f' :: fs ∧ f'.names = f.names ∧
        (∀ k ∈ f.captures, k ∈ f'.captures) ∧ (∀ k ∈ ks, f'.captures.has k.name = true) ∧
        ∀ k ∈ f'.captures, k ∈ f.captures ∨ ∃ c ∈ ks, c.name = k.name := by
  induction ks generalizing s with
  | nil =>
    obtain ⟨-, rfl⟩ := Prod.mk.inj (forM_nil_eq_ok.1 hc)
    refine ⟨h, .refl h.state.descending, rfl, rfl, fun f fs hf => ?_⟩
    exact ⟨f, hf, rfl, fun _ hk => hk, nofun, fun k hk => .inl hk⟩
  | cons k ks ih =>
    obtain ⟨s₁, h₁, hc⟩ := forM_cons_eq_ok.1 hc
    simp only [bind_eq_ok, capture_eq_ok, pure_eq_ok, Prod.mk.injEq] at h₁
    obtain ⟨_, _, ⟨-, rfl⟩, -, rfl⟩ := h₁
    obtain ⟨⟨⟨r, hr, -, hkind, -⟩, hh⟩, hx⟩ := hks k List.mem_cons_self
    obtain ⟨-, q, hq, hqg, -⟩ := h.state.origins k.inner r k.origin hr hkind
    obtain ⟨f, fs, b, bs, u, us, hf, hb, hu, hl, hn⟩ := h.innermost
    have hxb : List.lookup k.name b = none := by
      simpa [Env.lookup, Env.scopes, hb] using hx
    have hh' : some (s.vars.home k.origin) = nearest s.varEnv.module k.name outer := by
      have hhome := Variables.home_of_capture h.state.descending hr hkind
      rw [← hhome, ← nearest_of_not_declared (hl.not_declared hxb)]
      exact hh
    obtain ⟨hsc, hlater⟩ := h.withAlias false k.span hq hqg hx hh' (.refl l k.name)
    have hks' : ∀ c ∈ ks, ((s.withAlias k.name k.origin false k.span l.id).facts
        classes).CaptureOk (l :: outer) id c ∧ (s.withAlias k.name k.origin false k.span
          l.id).varEnv.lookup c.name .localScope = none := by
      intro c hcm
      obtain ⟨hok, hcx⟩ := hks c (List.mem_cons_of_mem _ hcm)
      refine ⟨hok.later hlater, ?_⟩
      have hne : c.name ≠ k.name := by
        rintro hck
        simp only [List.map_cons, List.nodup_cons, List.mem_map, not_exists, not_and] at hnd
        exact hnd.1 c hcm hck
      exact (Env.lookup_declare_of_ne _ hne _ _).trans hcx
    have hnd' : (ks.map Capture.name).Nodup := (List.nodup_cons.1 hnd).2
    obtain ⟨hsc', hev', hfs', hfe', hfr'⟩ := ih hsc hks' hnd' hc
    refine ⟨hsc', .trans ⟨hlater, ?_, rfl, rfl, ?_⟩ hev', hfs', hfe', ?_⟩
    · simp only [State.withAlias, Env.declare, hb, List.tail_cons]
    · simp only [State.withAlias, hf]
      exact ⟨_, f.names, rfl⟩
    · intro f₀ fs₀ hf₀
      cases hf.symm.trans hf₀
      let c₀ : Capture := ⟨k.name, s.vars.nextId, k.origin, false, k.span⟩
      have hfr₁ : (s.withAlias k.name k.origin false k.span l.id).frames
          = { f with captures := f.captures.add c₀ } :: fs := by
        simp only [State.withAlias, hf]
        rfl
      obtain ⟨f', hf', hnames, hkept, hhas, hnew⟩ := hfr' _ _ hfr₁
      refine ⟨f', hf', hnames, fun c hcm => hkept c (Captures.mem_add_of_mem hcm _), ?_, ?_⟩
      · intro c hcm
        obtain rfl | hcm := List.mem_cons.1 hcm
        · cases hhas₀ : f.captures.has c.name with
          | true =>
            obtain ⟨c', hc', hn'⟩ := Captures.has_eq_true.1 hhas₀
            exact Captures.has_eq_true.2 ⟨c', hkept _ (Captures.mem_add_of_mem hc' _), hn'⟩
          | false =>
            exact Captures.has_eq_true.2 ⟨c₀, hkept _ (Captures.mem_add_self hhas₀), rfl⟩
        · exact hhas c hcm
      · intro c hcm
        obtain hcm | ⟨c', hc', hn'⟩ := hnew c hcm
        · obtain hcm | rfl := Captures.mem_add hcm
          · exact .inl hcm
          · exact .inr ⟨k, List.mem_cons_self, rfl⟩
        · exact .inr ⟨c', List.mem_cons_of_mem _ hc', hn'⟩

/-- The captures of a function that has been left: what it hands on is among them, and of the names
of the module nothing else is. -/
structure HandsOn (module : Bindings VarId) (d : FunDef) (captures : Captures) : Prop where
  has : ∀ x, d.handsOn x = true → captures.has x = true
  only : ∀ k ∈ captures, (List.lookup k.name module).isSome = true → d.handsOn k.name = true

theorem threadCaptures_ok {ds : List FunDef} {d : FunDef} {id : FunId} {c : Function}
    (h : Inside classes (l :: outer) (FunDef.handsOnAny · ds) s)
    (hid : s.functions[id.index]? = some c)
    (hcs : ∀ k ∈ c.captures, (s.facts classes).CaptureOk (l :: outer) id k)
    (hnd : (c.captures.map Capture.name).Nodup) (hd : HandsOn s.varEnv.module d c.captures)
    (hc : threadCaptures id s = .ok ((), s')) :
    Inside classes (l :: outer) (FunDef.handsOnAny · (ds ++ [d])) s' ∧
      Evolves classes none s s' ∧ s'.functions = s.functions ∧ s'.funEnv = s.funEnv ∧
      ∀ f fs, s.frames = f :: fs → ∃ f', s'.frames = f' :: fs ∧ f'.names = f.names ∧
        ∀ k ∈ c.captures, s.varEnv.lookup k.name .localScope = none →
          f'.captures.has k.name = true := by
  obtain ⟨f, fs, b, bs, u, us, hf, hb, hu, hl, hn⟩ := h.nest.innermost
  have hfn : f.function = l.id := hl.function
  simp only [threadCaptures, bind_eq_ok, get_eq_ok, Prod.mk.injEq, and_assoc, exists_and_left,
    exists_eq_left, hf, get_of_getElem? hid, hfn] at hc
  have hks : ∀ k ∈ c.captures.filter fun c => (s.varEnv.lookup c.name .localScope).isNone,
      (s.facts classes).CaptureOk (l :: outer) id k ∧
        s.varEnv.lookup k.name .localScope = none := by
    intro k hk
    obtain ⟨hk, hx⟩ := List.mem_filter.1 hk
    exact ⟨hcs k hk, by simpa using hx⟩
  have hsub : (c.captures.filter fun c => (s.varEnv.lookup c.name .localScope).isNone).Sublist
      c.captures := List.filter_sublist
  obtain ⟨hsc, hev, hfs, hfe, hfr⟩ := captureAll_ok h.nest hks ((hsub.map _).nodup hnd) hc
  obtain ⟨f', hf', hnames, hkept, hhas, hnew⟩ := hfr f fs hf
  have hmod : s'.varEnv.module = s.varEnv.module := hev.later.module
  have hth := h.through
  rw [hf] at hth
  refine ⟨⟨hsc, ?_⟩, hev, hfs, hfe, fun f₁ fs₁ hf₁ => ?_⟩
  swap
  · cases hf.symm.trans hf₁
    refine ⟨f', hf', hnames, fun k hk hx => hhas k (List.mem_filter.2 ⟨hk, ?_⟩)⟩
    rw [hx]
    rfl
  rw [hf', hmod]
  have hmono : ∀ x, f.captures.has x = true → f'.captures.has x = true := by
    intro x hx
    obtain ⟨k, hk, hkx⟩ := Captures.has_eq_true.1 hx
    exact Captures.has_eq_true.2 ⟨k, hkept k hk, hkx⟩
  refine ⟨fun x hdx hx => ?_, fun k hk hdk hm => ?_⟩
  · simp only [FunDef.handsOnAny_append, FunDef.handsOnAny, Bool.or_false, Bool.or_eq_true] at hx
    obtain hx | hx := hx
    · exact hmono x (hth.1 x hdx hx)
    · obtain ⟨k, hk, rfl⟩ := Captures.has_eq_true.1 (hd.has x hx)
      cases hkb : List.lookup k.name b with
      | none =>
        refine hhas k (List.mem_filter.2 ⟨hk, ?_⟩)
        simp [Env.lookup, Env.scopes, hb, hkb]
      | some w =>
        obtain ⟨r, -, -, -, hcase⟩ := hl.bound k.name w hkb
        simp only [Level.declares, Bool.or_eq_false_iff, Option.isSome_eq_false_iff,
          Option.isNone_iff_eq_none] at hdx
        obtain ⟨-, -, hg⟩ | hown | ⟨k', hk', hn', -⟩ := hcase
        · cases (hdx.1.2.symm.trans hg)
        · cases (hdx.1.1.symm.trans hown)
        · exact hmono _ (Captures.has_eq_true.2 ⟨k', hk', hn'⟩)
  · simp only [FunDef.handsOnAny_append, FunDef.handsOnAny, Bool.or_false, Bool.or_eq_true]
    obtain hk | ⟨c', hc', hn'⟩ := hnew k hk
    · exact .inl (hth.2 k hk hdk hm)
    · rw [← hn'] at hm ⊢
      exact .inr (hd.only c' (List.mem_of_mem_filter hc') hm)

/-! ### Functions -/

theorem checkReturns_eq_ok {x : Ident} {t : Ty} {body : List Stmt} {r : Unit × State} :
    checkReturns x t body s = .ok r ↔ r = ((), s) ∧ (t ≠ .none → Stmt.bodyReturns body = true) := by
  unfold checkReturns
  split
  · next h => simp [refuse_eq_ok, h.1, h.2]
  · next h =>
    rw [pure_eq_ok]
    refine ⟨fun hr => ⟨hr, fun ht => ?_⟩, And.left⟩
    cases hb : Stmt.bodyReturns body with
    | true => rfl
    | false => exact absurd ⟨ht, hb⟩ h

/-- The functions that were made on the way from `s` to `s'` have definitions among `ds`. -/
def Covers (ds : List FunDef) (s s' : State) : Prop :=
  s.functions.size ≤ s'.functions.size ∧
    ∀ i, s.functions.size ≤ i → i < s'.functions.size →
      ∃ d ∈ FunDef.allOf ds, d.id = some ⟨i⟩

/-- The check of a function went from `s` to `s'` and gave `d'`. -/
structure Finishes (classes : ClassTable) (outer : List Level) (id : FunId) (d d' : FunDef)
    (s s' : State) : Prop where
  nest : Scoped classes outer s'
  later : Later (some id) (s.facts classes) (s'.facts classes)
  frames : s'.frames = s.frames
  varEnv : s'.varEnv = s.varEnv
  funEnv : s'.funEnv = s.funEnv
  ok : (s'.facts classes).FunOk outer d'
  id_eq : d'.id = some id
  handsOn : ∀ f, s'.functions[id.index]? = some f → HandsOn s'.varEnv.module d' f.captures
  covers : Covers d'.nested s s'
  binds : d.Binds d'

theorem Declaring.inside (h : Declaring classes l outer s) :
    Inside classes (l :: outer) (FunDef.handsOnAny · []) s := by
  refine ⟨h.scoped, ?_⟩
  obtain ⟨f, fs, b, bs, us, hf, -, -, -, -, -, hcap⟩ := h.nested
  rw [hf]
  refine ⟨fun x _ hx => absurd hx nofun, fun k hk hd _ => ?_⟩
  simp only [Level.declares, hcap k hk, Bool.or_true] at hd
  cases hd

/-- The head of a function body: parameters, scope declarations and variables. -/
theorem checkHead_ok {d : FunDef} {id : FunId} {f : Function} {vars' : List VarDef}
    {s₂ s₃ s₄ : State} (h : Scoped classes outer s)
    (hs : SignatureOk (s.facts classes) (outer.head?.map Level.id) d id f)
    (hparams : declareParams d.params f.params (s.entered id f.ret) = .ok ((), s₂))
    (hdecls : d.decls.forM (checkScopeDecl id) s₂ = .ok ((), s₃))
    (hvars : d.vars.mapM (checkLocal classes id) s₃ = .ok (vars', s₄)) :
    ∃ vs, Declaring classes (.ofFunction id { d with vars := vars' } { f with locals := vs })
        outer s₄ ∧
      Evolves classes (some id) (s.entered id f.ret) s₄ ∧
      s₄.functions.size = s.functions.size ∧
      s₄.functions[id.index]? = some { f with locals := vs } ∧
      List.Forall₂ ((s₄.facts classes).LocalOk id) vars' vs ∧
      List.Forall₂ (fun d d' => d'.var = d.var ∧ d'.init = d.init) d.vars vars' := by
  have hps : List.Forall₂ (fun p v => ∃ t, (s.facts classes).ParamOk id p t v) d.params
      f.params := by
    have hfst : f.params = (f.params.zip f.paramTypes).map Prod.fst :=
      (List.map_fst_zip (Nat.le_of_eq hs.params_length)).symm
    rw [hfst, List.forall₂_map_right_iff]
    exact hs.params.imp fun _ vt hp => ⟨vt.2, hp⟩
  have h₁ := Declaring.enter h hs
  obtain ⟨h₂, hev₂, hfacts₂⟩ := declareParams_ok h₁ hps hparams
  obtain ⟨h₃, hev₃, hfs₃⟩ := checkScopeDecls_ok h₂ hdecls
  rw [withDecls_eq] at h₃
  have hf₂ : s₂.functions = s.functions := congrArg Facts.functions hfacts₂
  have hf : s₃.functions[id.index]? = some f := by
    rw [hfs₃, hf₂]
    exact hs.record
  obtain ⟨vs, h₄, hev₄, hsize, hf₄, hlocals, hsame⟩ := checkLocals_ok h₃ hf hvars
  rw [hs.locals, List.nil_append] at hf₄
  refine ⟨vs, ?_, (hev₂.trans hev₃).weaken.trans hev₄, ?_, hf₄, hlocals, hsame⟩
  · simpa [Level.withOwn, Level.start, Level.ofFunction, FunDef.declared] using h₄
  · rw [hsize, hfs₃, hf₂]

/-- The names of a function are those of its parameters, its variables and its captures. -/
theorem LevelOk.names_nodup {F : Facts} {d : FunDef} {id : FunId} {g : Function} {f : Frame}
    {b : Bindings VarId} {u : Bindings FunId}
    (hl : LevelOk F outer (.ofFunction id d g) f b u) (hp : d.params.length = g.params.length)
    (hv : d.vars.length = g.locals.length) :
    (d.params.map (·.name.name) ++ d.vars.map (·.var.name.name)
      ++ f.captures.map Capture.name).Nodup := by
  have hown : (Level.ofFunction id d g).own.map Prod.fst
      = d.params.map (·.name.name) ++ d.vars.map (·.var.name.name) := by
    simp only [Level.ofFunction, List.map_append]
    rw [List.map_fst_zip (by simp [hp]), List.map_fst_zip (by simp [hv])]
  refine List.nodup_append.2 ⟨hown ▸ hl.ownNames, hl.captureNames, ?_⟩
  rintro x hx y hy rfl
  rw [← hown] at hx
  obtain ⟨⟨x, v⟩, hxv, rfl⟩ := List.mem_map.1 hx
  obtain ⟨k, hk, hkx⟩ := List.mem_map.1 hy
  have hsome : (List.lookup x (Level.ofFunction id d g).own).isSome = true :=
    List.lookup_isSome_iff.2 ⟨_, hxv, beq_self_eq_true x⟩
  rw [← show k.name = x from hkx, (hl.capture_name hk).1] at hsome
  cases hsome

/-- What the innermost function hands on. -/
theorem Inside.handsOn {d : FunDef} {id : FunId} {g : Function} {f : Frame} {fs : List Frame}
    (h : Inside classes (.ofFunction id d g :: outer) d.passes s) (hf : s.frames = f :: fs)
    (hp : d.params.length = g.params.length) (hv : d.vars.length = g.locals.length) :
    HandsOn s.varEnv.module d f.captures := by
  obtain ⟨f', fs', b, bs, u, us, hf', hb, hu, hl, hn⟩ := h.nest.innermost
  cases hf.symm.trans hf'
  have hth := h.through
  rw [hf] at hth
  have hdecl : ∀ x, (Level.ofFunction id d g).declares x = d.declares x :=
    Level.declares_ofFunction hp hv
  refine ⟨fun x hx => ?_, fun k hk hm => ?_⟩
  · rw [FunDef.handsOn_eq, Bool.or_eq_true, Bool.and_eq_true, Bool.not_eq_true'] at hx
    obtain hx | ⟨hx, hp⟩ := hx
    · exact hl.nonlocals x hx
    · exact hth.1 x ((hdecl x).trans hx) hp
  · rw [FunDef.handsOn_eq, Bool.or_eq_true, Bool.and_eq_true, Bool.not_eq_true', ← hdecl]
    obtain ⟨hown, hgl⟩ := hl.capture_name hk
    cases hd : (Level.ofFunction id d g).declares k.name with
    | false => exact .inr ⟨rfl, hth.2 k hk hd hm⟩
    | true =>
      simp only [Level.declares, hown, hgl, Option.isSome_none, Bool.false_or] at hd
      exact .inl hd

/-- Leaving a function whose statements are checked. -/
theorem leaveFunction_ok {d : FunDef} {id : FunId} {g : Function}
    (h : Inside classes (.ofFunction id d g :: outer) d.passes s)
    (hg : s.functions[id.index]? = some g) (hgp : g.parent = outer.head?.map Level.id)
    (hid : d.id = some id) (hemitted : (s.facts classes).EmittedOk outer d g)
    (hnestedNames : (d.nested.map (·.name.name)).Nodup)
    (hparams : List.Forall₂ (fun p vt => (s.facts classes).ParamOk id p vt.2 vt.1) d.params
      (g.params.zip g.paramTypes))
    (hlength : g.params.length = g.paramTypes.length)
    (hret : (s.facts classes).RetOk d g.ret)
    (hlocals : List.Forall₂ ((s.facts classes).LocalOk id) d.vars g.locals)
    (hreturns : g.ret ≠ .none → Stmt.bodyReturns d.body = true)
    (hbody : (s.facts classes).BlockOk (.ofFunction id d g :: outer) d.passes (some g.ret) d.body)
    (hnested : (s.facts classes).FunsOk (.ofFunction id d g :: outer) d.nested)
    (hc : leave id s = .ok ((), s')) :
    ∃ f fs, s.frames = f :: fs ∧ Leaves classes (.ofFunction id d g) outer f s s' ∧
      (s'.facts classes).FunOk outer d ∧ HandsOn s'.varEnv.module d f.captures := by
  obtain ⟨f, fs, b, bs, u, us, hf, hb, hu, hl, hn⟩ := h.nest.innermost
  have hleave := leave_ok h.nest hf hc
  have ho := h.nest.state.parents
  have hlater : Later (some id) (s.facts classes) (s'.facts classes) := hleave.later
  have hlen : d.params.length = g.params.length := by
    rw [hparams.length_eq, List.length_zip, ← hlength, Nat.min_self]
  have hon := h.handsOn hf hlen hlocals.length_eq
  have hmod : s'.varEnv.module = s.varEnv.module := by rw [hleave.varEnv]
  have hclear : (s.facts classes).Clear (some id) (.ofFunction id d g :: outer) := by
    rintro i f₀ l' hi hf₀ hl' hp
    cases hi
    cases hl'
    exact Nat.lt_irrefl _ (ho id f₀ _ hf₀ hp)
  have hon' : HandsOn s'.varEnv.module d f.captures := hmod ▸ hon
  refine ⟨f, fs, hf, hleave, ?_, hon'⟩
  cases d
  simp only [FunOk]
  refine ⟨id, { g with captures := f.captures }, ?_, ?_⟩
  · refine ⟨hid, hleave.record g hg, hgp, hemitted.later hlater,
      hparams.imp fun _ _ hp => hp.later hlater, hlength,
      hret.later hlater, hlocals.imp fun _ _ hv => hv.later hlater,
      fun k hk => (hl.captures k hk).2.later hlater, hl.names_nodup hlen hlocals.length_eq,
      hnestedNames, ?_, hon'.has, hon'.only, fun k hk => (hl.capture_name hk).2, hreturns,
      hbody.later hlater hclear⟩
    intro x hx
    obtain ⟨v, -, hm, -⟩ := hl.globals x (List.contains_iff_mem.2 hx)
    simp only [State.facts, hmod] at hm ⊢
    rw [hm]
    rfl
  · exact FunsOk.later hlater ho (fun i f₀ hf₀ hp => apart_nested_self ho hf₀ hp) hnested

theorem varDefs_map {ds ds' : List VarDef}
    (h : List.Forall₂ (fun d d' => d'.var = d.var ∧ d'.init = d.init) ds ds') :
    ds'.map (fun d => (d.var, d.init)) = ds.map (fun d => (d.var, d.init)) := by
  induction h with
  | nil => rfl
  | cons hd _ ih => rw [List.map_cons, List.map_cons, hd.1, hd.2, ih]

/-! ### Functions nested in a function -/

/-- A function nested in the innermost one got its record and its name. -/
structure Announced (classes : ClassTable) (l : Level) (outer : List Level) (d : FunDef)
    (id : FunId) (s s' : State) : Prop where
  nest : Scoped classes (l :: outer) s'
  signature : ∃ f, SignatureOk (s'.facts classes) (some l.id) d id f ∧
    (s'.facts classes).EmittedOk (l :: outer) d f
  later : Later none (s.facts classes) (s'.facts classes)
  varEnv : s'.varEnv = s.varEnv
  funEnv : s'.funEnv = s.funEnv.declare d.name.name id
  frames : ∀ f fs, s.frames = f :: fs → d.name.name ∉ f.names ∧
    s'.frames = { f with names := d.name.name :: f.names } :: fs
  id_eq : id = ⟨s.functions.size⟩
  size : s'.functions.size = s.functions.size + 1

theorem announce_ok {d : FunDef} {id : FunId} {path : String} {s₁ s₂ : State}
    (h : Scoped classes (l :: outer) s)
    (hpath : ∃ g, s.functions[l.id.index]? = some g ∧ g.emitted = path)
    (hclaim : claimName d.name s = .ok ((), s₁))
    (hsig : declareSignature classes d (path ++ "$" ++ d.name.name) none (some l.id) s₁
      = .ok (id, s₂)) :
    Announced classes l outer d id s
      { s₂ with funEnv := s₂.funEnv.declare d.name.name id } := by
  obtain ⟨fr, fs, b, bs, u, us, hfr, hb, hu, hl, -⟩ := h.innermost
  rw [claimName_eq_ok hfr, Prod.mk.injEq] at hclaim
  obtain ⟨hfresh, -, rfl⟩ := hclaim
  have h₁ := h.claim hfr (d.name.name :: fr.names)
  obtain ⟨gl, hgl, rfl⟩ := hpath
  have hlt : l.id.index < s.functions.size := (Array.getElem?_eq_some_iff.1 hgl).1
  obtain ⟨hst₂, hr₂, hid, hsize₂, f, hsigOk, hem⟩ := declareSignature_ok h₁.state
    (fun p hp => Option.some.inj hp ▸ hlt) hsig
  have h₃ := (h₁.records hr₂ hst₂).bindFunction (x := d.name.name) hsigOk.record hsigOk.parent
    hsigOk.captures
  have hemitted : (s₂.facts classes).EmittedOk (l :: outer) d f := by
    rintro m ⟨⟩
    obtain ⟨ls, cs, hls, -⟩ := hr₂.later.functions l.id gl hgl
    exact ⟨_, hls, hem⟩
  have hfun : s₂.funEnv = s.funEnv := hr₂.funEnv
  refine ⟨h₃, ⟨f, hsigOk, hemitted⟩, hr₂.later, hr₂.varEnv, by rw [hfun], ?_, hid, hsize₂⟩
  intro f₀ fs₀ hf₀
  cases hfr.symm.trans hf₀
  exact ⟨by simpa using hfresh, hr₂.frames⟩

/-- The body of the nested function is checked: the innermost function is as it was, and the
captures of the nested one stand for what can be seen there. -/
theorem Announced.finish {d d' : FunDef} {id : FunId} {es : List FunDef} {s₃ s₄ : State}
    (h : Announced classes l outer d id s s₃)
    (hin : Inside classes (l :: outer) (FunDef.handsOnAny · es) s)
    (hfin : Finishes classes (l :: outer) id d d' s₃ s₄) :
    Inside classes (l :: outer) (FunDef.handsOnAny · es) s₄ ∧ Evolves classes none s s₄ ∧
      ∃ c, s₄.functions[id.index]? = some c ∧
        (∀ k ∈ c.captures, (s₄.facts classes).CaptureOk (l :: outer) id k) ∧
        (c.captures.map Capture.name).Nodup := by
  obtain ⟨fr, fs, b, bs, u, us, hfr, hb, hu, hl, -⟩ := hin.nest.innermost
  obtain ⟨-, hfr₃⟩ := h.frames fr fs hfr
  have hev : Evolves classes none s s₄ := by
    have hlater : Later (some id) (s.facts classes) (s₄.facts classes) :=
      h.later.weaken.trans hfin.later
    refine ⟨hlater.of_fresh ?_, ?_, ?_, ?_, ?_⟩
    · rw [h.id_eq]
      exact Array.getElem?_eq_none (Nat.le_refl _)
    · rw [hfin.varEnv, h.varEnv]
    · rw [hfin.funEnv, h.funEnv, Env.declare, hu]
      rfl
    · rw [hfin.funEnv, h.funEnv, Env.declare, hu]
    · rw [hfin.frames, hfr₃, hfr]
      exact ⟨fr.captures, _, rfl⟩
  refine ⟨⟨hfin.nest, ?_⟩, hev, ?_⟩
  · have hth := hin.through
    rw [hfr] at hth
    rw [show s₄.varEnv.module = s.varEnv.module from hev.later.module, hfin.frames, hfr₃]
    exact hth
  · have hok := hfin.ok
    have hid := hfin.id_eq
    cases d'
    simp only [FunOk] at hok
    obtain ⟨id', c, hfok, -⟩ := hok
    cases hfok.id_eq.symm.trans hid
    exact ⟨c, hfok.record, hfok.captures, (List.nodup_append.1 hfok.names).2.1⟩

/-- What the check of a function does. -/
theorem checkFunction_cases {name : Ident} {params : List TypedName} {ret : Option Ident}
    {decls : List ScopeDecl} {vars : List VarDef} {nested : List FunDef} {body : List Stmt}
    {span : Span} {id₀ : Option FunId} {d' : FunDef} {id : FunId} {f : Function}
    (hf : s.functions.get id = f)
    (hc : checkFunction classes id ⟨name, params, ret, decls, vars, nested, body, span, id₀⟩ s
      = .ok (d', s')) :
    ∃ s₂ s₃ vars' s₄ nested' s₅ body' s₆,
      declareParams params f.params (s.entered id f.ret) = .ok ((), s₂) ∧
      decls.forM (checkScopeDecl id) s₂ = .ok ((), s₃) ∧
      vars.mapM (checkLocal classes id) s₃ = .ok (vars', s₄) ∧
      (f.ret ≠ .none → Stmt.bodyReturns body = true) ∧
      checkNested classes id f.emitted nested s₄ = .ok (nested', s₅) ∧
      checkBlock classes body s₅ = .ok (body', s₆) ∧ leave id s₆ = .ok ((), s') ∧
      d' = ⟨name, params, ret, decls, vars', nested', body', span, some id⟩ := by
  simp only [checkFunction, bind_eq_ok, enter_eq_ok, functionOf_eq_ok, checkReturns_eq_ok,
    pure_eq_ok, Prod.mk.injEq, hf] at hc
  obtain ⟨_, s₁, ⟨-, rfl⟩, f₀, _, ⟨rfl, rfl⟩, ⟨⟩, s₂, hparams, ⟨⟩, s₃, hdecls, vars', _, hvars, _,
    s₄, ⟨⟨-, rfl⟩, hret⟩, nested', s₅, hnested, body', s₆, hbody, ⟨⟩, _, hleave, rfl, rfl⟩ := hc
  have hf₁ : (s.entered id f.ret).functions.get id = f := hf
  rw [hf₁] at hparams hret hnested
  exact ⟨s₂, s₃, vars', s₄, nested', s₅, body', s₆, hparams, hdecls, hvars, hret, hnested, hbody,
    hleave, rfl⟩

theorem checkNested_nil_eq_ok {parent : FunId} {path : String} {r : List FunDef × State} :
    checkNested classes parent path [] s = .ok r ↔ r = ([], s) := by
  rw [checkNested, pure_eq_ok]

/-- What the check of the first of some nested functions does. -/
theorem checkNested_cons_cases {parent : FunId} {path : String} {d : FunDef} {ds ds' : List FunDef}
    (hc : checkNested classes parent path (d :: ds) s = .ok (ds', s')) :
    ∃ s₁ id s₂ d' s₄ s₅ ds₁, claimName d.name s = .ok ((), s₁) ∧
      declareSignature classes d (path ++ "$" ++ d.name.name) none (some parent) s₁
        = .ok (id, s₂) ∧
      checkFunction classes id d { s₂ with funEnv := s₂.funEnv.declare d.name.name id }
        = .ok (d', s₄) ∧
      threadCaptures id s₄ = .ok ((), s₅) ∧
      checkNested classes parent path ds s₅ = .ok (ds₁, s') ∧ ds' = d' :: ds₁ := by
  simp only [checkNested, bind_eq_ok, bindFunction_eq_ok, pure_eq_ok, Prod.mk.injEq] at hc
  obtain ⟨⟨⟩, s₁, hclaim, id, s₂, hsig, _, s₃, ⟨-, rfl⟩, d', s₄, hd, ⟨⟩, s₅, hth, ds₁, _, hds,
    rfl, rfl⟩ := hc
  exact ⟨s₁, id, s₂, d', s₄, s₅, ds₁, hclaim, hsig, hd, hth, hds, rfl⟩

mutual

theorem checkFunction_ok : ∀ {d d' : FunDef} {outer : List Level} {id : FunId} {f : Function}
    {s s' : State}, Scoped classes outer s →
    SignatureOk (s.facts classes) (outer.head?.map Level.id) d id f →
    (s.facts classes).EmittedOk outer d f →
    checkFunction classes id d s = .ok (d', s') → Finishes classes outer id d d' s s'
  | { name, params, ret, decls, vars, nested, body, span, id := _ }, d', outer, id, f, s, s', h,
      hs, hem, hc => by
    obtain ⟨s₂, s₃, vars', s₄, nested', s₅, body', s₆, hparams, hdecls, hvars, hret, hnested, hbody,
      hleave, rfl⟩ := checkFunction_cases (get_of_getElem? hs.record) hc
    obtain ⟨vs, h₄, hev₄, hsize₄, hrec₄, hlocals, hsame⟩ :=
      checkHead_ok h hs hparams hdecls hvars
    obtain ⟨h₅, hev₅, hfuns, hcov, hnames, hdefs, hpars, hdistinct⟩ :=
      checkNested_ok h₄.inside ⟨_, hrec₄, rfl⟩ hnested
    have hret₅ : s₅.returns = some f.ret := (hev₄.trans hev₅.weaken).returns
    obtain ⟨hk, hblock⟩ := checkBlock_ok h₅ hret₅ hbody
    have hev₆ : Evolves classes none s₄ s₆ := hev₅.trans hk.evolves
    have hall : Evolves classes (some id) (s.entered id f.ret) s₆ := hev₄.trans hev₆.weaken
    have hlater : Later (some id) (s.facts classes) (s₆.facts classes) := hall.later
    have hrec₆ : s₆.functions[id.index]? = some { f with locals := vs } := by
      obtain ⟨ls, cs, hls, hn⟩ := hev₆.later.functions id _ hrec₄
      obtain ⟨rfl, rfl⟩ := hn nofun
      exact hls
    let d' : FunDef :=
      { name, params, ret, decls, span, vars := vars', nested := nested', body := body',
        id := some id }
    have hi : Inside classes (.ofFunction id d' { f with locals := vs } :: outer) d'.passes s₆ :=
      hk.inside
    obtain ⟨fr, fs, hfr, hl, hok, hon⟩ := leaveFunction_ok (d := d') hi hrec₆ hs.parent rfl
      (EmittedOk.later (f := f) hlater hem) hdistinct.1 (hs.params.imp fun _ _ hp => hp.later hlater) hs.params_length
      (RetOk.later (d := ⟨name, params, ret, decls, vars, nested, body, span, none⟩) hlater hs.ret)
      (hlocals.imp fun _ _ hv => hv.later hev₆.later)
      (fun hne => (checkBlock_returns hbody).trans (hret hne)) hblock
      (FunsOk.later hk.later h₅.nest.state.parents (fun _ _ _ _ => apart_none) hfuns) hleave
    have hfr₆ : fs = s.frames := by
      obtain ⟨cs, ns, hcs⟩ := hall.frames
      rw [hfr] at hcs
      exact (List.cons.inj hcs).2
    have hmod : s₆.varEnv.module = s.varEnv.module := hlater.module
    have hsize : s'.functions.size = s₅.functions.size := by
      rw [hl.size, hk.functions]
    refine ⟨hl.nest, hlater.trans hl.later, ?_, ?_, ?_, hok, rfl, ?_, ?_, ⟨rfl, ?_, ?_, ?_⟩⟩
    · rw [hl.frames, hfr, List.tail_cons, hfr₆]
    · rw [hl.varEnv, hall.scopes, hmod]
      rfl
    · rw [hl.funEnv, hall.funScopes, hall.funModule]
      rfl
    · intro g hg
      cases (hl.record _ hrec₆).symm.trans hg
      exact hon
    · refine ⟨by rw [hsize, ← hsize₄]; exact hcov.1, fun i hi hi' => ?_⟩
      exact hcov.2 i (hsize₄ ▸ hi) (hsize ▸ hi')
    · simp only [FunDef.all, List.map_cons, hnames]
    · simp only [FunDef.definitions, hdefs]
      rw [varDefs_map hsame]
    · simp only [FunDef.parameters, hpars]

theorem checkNested_ok : ∀ {ds ds' es : List FunDef} {l : Level} {outer : List Level}
    {path : String} {s s' : State},
    Inside classes (l :: outer) (FunDef.handsOnAny · es) s →
    (∃ g, s.functions[l.id.index]? = some g ∧ g.emitted = path) →
    checkNested classes l.id path ds s = .ok (ds', s') →
      Inside classes (l :: outer) (FunDef.handsOnAny · (es ++ ds')) s' ∧
        Evolves classes none s s' ∧ (s'.facts classes).FunsOk (l :: outer) ds' ∧
        Covers ds' s s' ∧
        (FunDef.allOf ds').map (·.name.name) = (FunDef.allOf ds).map (·.name.name) ∧
        FunDef.definitionsOf ds' = FunDef.definitionsOf ds ∧
        FunDef.parametersOf ds' = FunDef.parametersOf ds ∧ (ds'.map (·.name.name)).Nodup ∧
        ∀ f fs, s.frames = f :: fs → ∀ d ∈ ds', d.name.name ∉ f.names
  | [], ds', es, l, outer, path, s, s', h, _, hc => by
    obtain ⟨rfl, rfl⟩ := Prod.mk.inj (checkNested_nil_eq_ok.1 hc)
    refine ⟨by simpa using h, .refl h.nest.state.descending, by simp only [FunsOk],
      ⟨Nat.le_refl _, fun i hi hi' => by omega⟩, rfl, rfl, rfl, List.nodup_nil, by simp⟩
  | d :: ds, ds', es, l, outer, path, s, s', h, hpath, hc => by
    obtain ⟨fr, fs, b, bs, u, us, hfr, -⟩ := h.nest.innermost
    obtain ⟨s₁, id, s₂, d', s₄, s₅, ds₁, hclaim, hsig, hd, hth, hds, rfl⟩ :=
      checkNested_cons_cases hc
    have hann := announce_ok h.nest hpath hclaim hsig
    obtain ⟨hfresh, hfr₃⟩ := hann.frames fr fs hfr
    obtain ⟨f, hsigOk, hemitted⟩ := hann.signature
    have hfin : Finishes classes (l :: outer) id d d' _ s₄ :=
      checkFunction_ok hann.nest hsigOk hemitted hd
    obtain ⟨h₄, hev₄, c, hc₄, hcs, hnd⟩ := hann.finish h hfin
    obtain ⟨h₅, hev₅, hfs₅, -, hfr₅⟩ := threadCaptures_ok h₄ hc₄ hcs hnd (hfin.handsOn c hc₄) hth
    obtain ⟨fr', hfr', hclaimed, -⟩ := hfr₅ _ _ (hfin.frames.trans hfr₃)
    obtain ⟨gl, hgl, rfl⟩ := hpath
    obtain ⟨ls, cs, hpath, -⟩ := (hev₄.trans hev₅).later.functions l.id gl hgl
    obtain ⟨h₆, hev₆, hfuns, hcov, hnames, hdefs, hpars, hdistinct, hothers⟩ :=
      checkNested_ok h₅ ⟨_, hpath, rfl⟩ hds
    have hothers' : ∀ e ∈ ds₁, e.name.name ≠ d.name.name ∧ e.name.name ∉ fr.names := by
      intro e he
      have hnot := hothers fr' fs hfr' e he
      rw [hclaimed, List.mem_cons, not_or] at hnot
      exact hnot
    have hev : Evolves classes none s₄ s' := hev₅.trans hev₆
    refine ⟨by simpa using h₆, hev₄.trans hev, ?_, ?_, ?_, ?_, ?_, ?_, ?_⟩
    · simp only [FunsOk]
      exact ⟨FunOk.later hev.later hfin.nest.state.parents (fun _ _ => apart_none) hfin.ok, hfuns⟩
    · have hsize₅ : s₅.functions.size = s₄.functions.size := by rw [hfs₅]
      have hsize₁ : s₂.functions.size = s.functions.size + 1 := hann.size
      obtain ⟨hle, hin⟩ := hfin.covers
      obtain ⟨hle', hin'⟩ := hcov
      simp only at hle hin
      refine ⟨by omega, fun i hi hi' => ?_⟩
      simp only [FunDef.allOf, FunDef.all_eq, List.cons_append, List.mem_cons, List.mem_append]
      obtain rfl | hlt₁ := Nat.eq_or_lt_of_le hi
      · exact ⟨d', .inl rfl, hfin.id_eq.trans (by rw [hann.id_eq])⟩
      · by_cases hi₄ : i < s₄.functions.size
        · obtain ⟨e, he, hei⟩ := hin i (by omega) hi₄
          exact ⟨e, .inr (.inl he), hei⟩
        · obtain ⟨e, he, hei⟩ := hin' i (by omega) hi'
          exact ⟨e, .inr (.inr he), hei⟩
    · simp only [FunDef.allOf, List.map_append, hfin.binds.names, hnames]
    · simp only [FunDef.definitionsOf, hfin.binds.definitions, hdefs]
    · simp only [FunDef.parametersOf, hfin.binds.parameters, hpars]
    · refine List.nodup_cons.2 ⟨fun hmem => ?_, hdistinct⟩
      obtain ⟨e, he, hen⟩ := List.mem_map.1 hmem
      exact (hothers' e he).1 (hen.trans (congrArg Ident.name hfin.binds.name))
    · intro f₁ fs₁ hf₁ e he
      cases hfr.symm.trans hf₁
      obtain rfl | he := List.mem_cons.1 he
      · rw [hfin.binds.name]
        exact hfresh
      · exact (hothers' e he).2

end

end ObjLang.Check
