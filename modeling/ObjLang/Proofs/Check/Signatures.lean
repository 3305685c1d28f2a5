import ObjLang.Proofs.Check.Nest
import ObjLang.Proofs.Class.Inherit

/-!
# ObjLang.Proofs.Check.Signatures — the declarations of a module

Before any body is checked, the variables of the module get their records and the methods and
functions their signatures.  Methods are declared class by class, each class after its superclass,
so the method that an override is compared with is always there.
-/

namespace ObjLang.Check

open Facts

variable {classes : ClassTable} {s s' : State}

/-! ### Module variables -/

/-- A variable of the module with its record. -/
def Facts.GlobalOk (F : Facts) (d : VarDef) : Prop :=
  ∃ v r t, d.binding = some v ∧ List.lookup d.var.name.name F.module = some v ∧
    F.vars.get? v = some r ∧ r.name = d.var.name.name ∧ r.ty = .plain t ∧ r.kind = .global ∧
    r.writable = true ∧ F.VarDefOk d t

theorem Facts.GlobalOk.grows {F F' : Facts} (h : Grows F F') {d : VarDef} (hd : F.GlobalOk d) :
    F'.GlobalOk d := by
  obtain ⟨v, r, t, hb, hm, hr, hn, ht, hk, hw, hty, hi⟩ := hd
  obtain ⟨b, hr', -⟩ := h.vars v r hr
  exact ⟨v, _, t, hb, h.module ▸ hm, hr', hn, ht, hk, hw, h.classes ▸ hty, hi⟩

/-- The check of module variables went from `s` to `s'`. -/
structure Globals (classes : ClassTable) (ds ds' : List VarDef) (s s' : State) : Prop where
  nest : Scoped classes [] s'
  ok : ∀ d ∈ ds', (s'.facts classes).GlobalOk d
  module : ∀ x v, List.lookup x s'.varEnv.module = some v →
    List.lookup x s.varEnv.module = some v ∨ ∃ d ∈ ds', d.var.name.name = x ∧ d.binding = some v
  others : ∀ x, x ∉ ds.map (·.var.name.name) →
    List.lookup x s'.varEnv.module = List.lookup x s.varEnv.module
  vars : s.vars.Extends s'.vars
  functions : s'.functions = s.functions
  funEnv : s'.funEnv = s.funEnv
  methods : s'.methods = s.methods
  same : List.Forall₂ (fun d d' => d'.var = d.var ∧ d'.init = d.init) ds ds'

theorem checkGlobal_ok {d d' : VarDef} (h : Scoped classes [] s)
    (hc : checkGlobal classes d s = .ok (d', s')) : Globals classes [d] [d'] s s' := by
  simp only [checkGlobal, bind_eq_ok, resolveTy_eq_ok, checkInitializer_eq_ok, newVariable_eq_ok,
    bindVar_eq_ok, modify_eq_ok, pure_eq_ok, Prod.mk.injEq] at hc
  obtain ⟨t, s₀, ⟨hs₀, ht⟩, _, s₁, ⟨⟨-, hs₁⟩, hi⟩, v, _, ⟨rfl, rfl⟩, ⟨⟩, _, ⟨-, rfl⟩, _, _, ⟨-, rfl⟩,
    rfl, rfl⟩ := hc
  obtain rfl : s = s₁ := (hs₁.trans hs₀).symm
  obtain ⟨hfr, hin, hfu⟩ := h.at_module
  let r : Variable := {
    name := d.var.name.name
    ty := .plain t
    kind := .global
    refed := false
    writable := true
    owner := none
    span := d.span }
  have h₁ := h.state.push (r := r) rfl rfl
  have hr : (s.vars.push r).get? s.vars.nextId = some r := Variables.get?_push_self _ _
  have henv : s.varEnv.declare d.var.name.name s.vars.nextId
      = ⟨[], s.varEnv.module.insert d.var.name.name s.vars.nextId⟩ := by
    simp only [Env.declare, hin]
  refine ⟨⟨?_, ?_⟩, ?_, ?_, ?_, .push _ _, rfl, rfl, rfl, .cons ⟨rfl, rfl⟩ .nil⟩
  · refine { h₁ with module := ?_ }
    intro x v hv
    rw [henv] at hv
    by_cases hxd : x = d.var.name.name
    · subst hxd
      rw [Bindings.lookup_insert_self, Option.some.injEq] at hv
      subst hv
      exact ⟨r, hr, rfl, rfl⟩
    · rw [Bindings.lookup_insert_of_ne hxd] at hv
      exact h₁.module x v hv
  · simp only [henv, hfr, hfu]
    exact .nil
  · intro e he
    obtain rfl := List.mem_singleton.1 he
    refine ⟨s.vars.nextId, r, t, rfl, ?_, hr, rfl, rfl, rfl, rfl, ht, hi⟩
    simp only [State.facts, henv, Bindings.lookup_insert_self]
  · intro x v hv
    rw [henv] at hv
    by_cases hxd : x = d.var.name.name
    · subst hxd
      rw [Bindings.lookup_insert_self, Option.some.injEq] at hv
      exact .inr ⟨_, List.mem_singleton_self _, rfl, congrArg some hv⟩
    · rw [Bindings.lookup_insert_of_ne hxd] at hv
      exact .inl hv
  · intro x hxd
    rw [henv, Bindings.lookup_insert_of_ne (by simpa using hxd)]

theorem checkGlobals_ok {ds ds' : List VarDef} (h : Scoped classes [] s)
    (hnd : (ds.map (·.var.name.name)).Nodup)
    (hx : ∀ d ∈ ds, List.lookup d.var.name.name s.varEnv.module = none)
    (hc : ds.mapM (checkGlobal classes) s = .ok (ds', s')) : Globals classes ds ds' s s' := by
  induction ds generalizing s ds' with
  | nil =>
    simp only [List.mapM_nil, pure_eq_ok, Prod.mk.injEq] at hc
    obtain ⟨rfl, rfl⟩ := hc
    exact ⟨h, by simp, fun _ _ hv => .inl hv, fun _ _ => rfl, .refl _, rfl, rfl, rfl, .nil⟩
  | cons d ds ih =>
    simp only [List.mapM_cons, bind_eq_ok, pure_eq_ok, Prod.mk.injEq] at hc
    obtain ⟨d₁, s₁, hd, ds₁, s₂, hds, rfl, rfl⟩ := hc
    obtain ⟨hnot, hnd'⟩ := List.nodup_cons.1 hnd
    have h₁ := checkGlobal_ok h hd
    have h₂ := ih h₁.nest hnd' (fun e he => by
      rw [h₁.others _ (by
        rintro hmem
        have hen : e.var.name.name = d.var.name.name := by simpa using hmem
        exact hnot (List.mem_map.2 ⟨e, he, hen⟩)), hx e (List.mem_cons_of_mem _ he)]) hds
    refine ⟨h₂.nest, ?_, ?_, ?_, h₁.vars.trans h₂.vars, h₂.functions.trans h₁.functions,
      h₂.funEnv.trans h₁.funEnv, h₂.methods.trans h₁.methods, ?_⟩
    · intro e he
      obtain rfl | he := List.mem_cons.1 he
      · obtain ⟨v, r, t, hb, hm, hr, hn, ht, hk, hw, hty, hi⟩ := h₁.ok e List.mem_cons_self
        obtain ⟨b, hr', -⟩ := h₂.vars v r hr
        refine ⟨v, _, t, hb, ?_, hr', hn, ht, hk, hw, hty, hi⟩
        have hvar : e.var = d.var := (List.forall₂_cons.1 h₁.same).1.1
        rw [hvar] at hm ⊢
        exact (h₂.others _ hnot).trans hm
      · exact h₂.ok e he
    · intro x v hv
      obtain hv | ⟨e, he, hex⟩ := h₂.module x v hv
      · obtain hv | ⟨e, he, hex⟩ := h₁.module x v hv
        · exact .inl hv
        · obtain rfl := List.mem_singleton.1 he
          exact .inr ⟨e, List.mem_cons_self, hex⟩
      · exact .inr ⟨e, List.mem_cons_of_mem _ he, hex⟩
    · intro x hxd
      simp only [List.map_cons, List.mem_cons, not_or] at hxd
      rw [h₂.others x hxd.2, h₁.others x (by simpa using hxd.1)]
    · exact .cons (List.forall₂_cons.1 h₁.same).1 h₂.same

/-! ### Methods -/

/-- Every method name that one of some layouts has leads to a function. -/
def Known (layouts : List ClassLayout) (s : State) : Prop :=
  ∀ c ∈ layouts, ∀ x target, c.target? x = some target →
    ∃ id, List.lookup target s.methods = some id

/-- Whether an override can stand for the method that it overrides. -/
structure Overrides (classes : ClassTable) (inherited own : Function) : Prop where
  params : own.paramTypes.drop 1 = inherited.paramTypes.drop 1
  length : own.paramTypes.length = inherited.paramTypes.length
  ret : classes.hierarchy.isAssignable own.ret inherited.ret = true

/-- The first parameter of a function is a receiver of a class. -/
def Facts.Receives (F : Facts) (className : String) (f : Function) : Prop :=
  ∃ v vs r, f.params = v :: vs ∧ F.vars.get? v = some r ∧ r.name = "self" ∧
    r.ty.ty = .object className

theorem Facts.Receives.grows {F F' : Facts} (h : Grows F F') {c : String} {f g : Function}
    (hf : F.Receives c f) (hg : g.params = f.params) : F'.Receives c g := by
  obtain ⟨v, vs, r, hps, hr, hn, ht⟩ := hf
  obtain ⟨b, hr', -⟩ := h.vars v r hr
  exact ⟨v, vs, _, hg.trans hps, hr', hn, ht⟩

/-- A method of a class with its record. -/
def Facts.MethodOk (F : Facts) (className : String) (m : FunDef) (id : FunId) : Prop :=
  ∃ f, F.functions[id.index]? = some f ∧ f.parent = none ∧
    f.emitted = methodTarget className m.name.name ∧ (f.emitted, id) ∈ F.methods ∧
    (∃ rest, f.paramTypes = .object className :: rest) ∧
    (m.name.name = initMethod → f.paramTypes.length = 1 ∧ f.ret = .none) ∧
    (∀ c p a target, F.classes.get? className = some c → c.superclass = some a →
      F.classes.get? a = some p → p.target? m.name.name = some target →
      ∃ i g, (target, i) ∈ F.methods ∧ F.functions[i.index]? = some g ∧ Overrides F.classes g f) ∧
    F.Receives className f

theorem Facts.MethodOk.grows {F F' : Facts} (h : Grows F F') {c : String} {m : FunDef}
    {id : FunId} (hm : F.MethodOk c m id) : F'.MethodOk c m id := by
  obtain ⟨f, hf, hp, he, hmem, hrec, hinit, hover, hself⟩ := hm
  obtain ⟨ls, cs, hls⟩ := h.functions id f hf
  refine ⟨_, hls, hp, he, h.methods _ hmem, hrec, hinit, ?_, hself.grows h rfl⟩
  rw [h.classes]
  intro l p a target hl ha hpl ht
  obtain ⟨i, g, hi, hg, hpar, hlen, hret⟩ := hover l p a target hl ha hpl ht
  obtain ⟨ls', cs', hls'⟩ := h.functions i g hg
  exact ⟨i, _, h.methods _ hi, hls', ⟨hpar, hlen, hret⟩⟩

theorem overrides_of_no_fault {g f : Function} (hg : g.params.length = g.paramTypes.length)
    (hf : f.params.length = f.paramTypes.length) (h : overrideFault? classes g f = none) :
    Overrides classes g f := by
  unfold overrideFault? at h
  split at h
  · cases h
  · next hlen =>
    have hlen' : f.paramTypes.length = g.paramTypes.length := by omega
    split at h
    · cases h
    · next hfind =>
      split at h
      · next hret =>
        refine ⟨?_, hlen', hret⟩
        refine List.ext_getElem (by simp [hlen']) fun i hi hi' => ?_
        have hzip : ((g.paramTypes.drop 1)[i], (f.paramTypes.drop 1)[i])
            ∈ (g.paramTypes.drop 1).zip (f.paramTypes.drop 1) := by
          rw [← List.getElem_zip (h := by simp only [List.length_zip]; omega)]
          exact List.getElem_mem _
        have hne := List.find?_eq_none.1 hfind _ hzip
        simp only [ne_eq, decide_not, Bool.not_eq_true', decide_eq_false_iff_not,
          Decidable.not_not] at hne
        exact hne.symm
      · cases h

theorem checkMethodSignature_ok {c : String} {id : FunId} {f : Function}
    (hf : s.functions[id.index]? = some f)
    (hc : checkMethodSignature classes c id s = .ok ((), s')) :
    s' = s ∧ hasReceiver s.vars c f = true ∧
      (f.name = initMethod → f.params.length = 1 ∧ f.ret = .none) ∧
      ∀ g, inherited? classes s c f.name = some g → overrideFault? classes g f = none := by
  simp only [checkMethodSignature, bind_eq_ok, get_eq_ok, Prod.mk.injEq, and_assoc,
    exists_and_left, exists_eq_left, get_of_getElem? hf] at hc
  cases hr : hasReceiver s.vars c f with
  | false => simp [hr, refuse_eq_ok] at hc
  | true =>
    simp only [hr, Bool.not_true, Bool.false_eq_true, if_false] at hc
    split at hc
    · simp [refuse_eq_ok] at hc
    · next hinit =>
      cases hi : (inherited? classes s c f.name).bind (overrideFault? classes · f) with
      | some reason => simp [hi, refuse_eq_ok] at hc
      | none =>
        simp only [hi, pure_eq_ok, Prod.mk.injEq, true_and] at hc
        subst hc
        refine ⟨rfl, rfl, fun hn => ?_, fun g hg => ?_⟩
        · simp only [hn, true_and, not_or, not_not] at hinit
          exact hinit
        · rw [hg, Option.bind_some] at hi
          exact hi

theorem Scoped.noteMethod (h : Scoped classes [] s) {emitted : String} {id : FunId}
    {f : Function} (hf : s.functions[id.index]? = some f) (hp : f.parent = none)
    (he : f.emitted = emitted) :
    Scoped classes [] { s with methods := (emitted, id) :: s.methods } := by
  obtain ⟨hfr, hin, hfu⟩ := h.at_module
  refine ⟨{ h.state with methods := ?_ }, ?_⟩
  · intro m i hi
    obtain hi | hi := List.mem_cons.1 hi
    · cases hi
      exact ⟨f, hf, hp, he⟩
    · exact h.state.methods m i hi
  · simp only [hfr, hin, hfu]
    exact .nil

/-- More records, and those that were there unchanged. -/
structure Facts.Adds (F F' : Facts) : Prop extends Grows F F' where
  records : ∀ (id : FunId) f, F.functions[id.index]? = some f → F'.functions[id.index]? = some f

theorem Facts.Adds.trans {F F' G : Facts} (h : F.Adds F') (h' : F'.Adds G) : F.Adds G :=
  ⟨h.toGrows.trans h'.toGrows, fun id f hf => h'.records id f (h.records id f hf)⟩

theorem Facts.Later.adds {F F' : Facts} (h : Later none F F') : F.Adds F' := by
  refine ⟨h.grows, fun id f hf => ?_⟩
  obtain ⟨ls, cs, hls, hn⟩ := h.functions id f hf
  obtain ⟨rfl, rfl⟩ := hn (by simp)
  exact hls

theorem SignatureOk.adds {F F' : Facts} (h : F.Adds F') {parent : Option FunId} {d : FunDef}
    {id : FunId} {f : Function} (hs : SignatureOk F parent d id f) :
    SignatureOk F' parent d id f where
  record := h.records id f hs.record
  name := hs.name
  parent := hs.parent
  captures := hs.captures
  locals := hs.locals
  params := by
    refine hs.params.imp fun p vt hp => ?_
    obtain ⟨r, hr, hn, ht, hk, ho, hw, hty⟩ := hp
    obtain ⟨b, hb, -⟩ := h.vars _ r hr
    exact ⟨_, hb, hn, ht, hk, ho, hw, h.classes ▸ hty⟩
  params_length := hs.params_length
  ret := by
    have hret := hs.ret
    unfold RetOk at hret ⊢
    rw [h.classes]
    exact hret

/-- Declarations of signatures at module level went from `s` to `s'`. -/
structure Declared (classes : ClassTable) (ms : List FunDef) (ids : List FunId) (s s' : State) :
    Prop where
  nest : Scoped classes [] s'
  adds : (s.facts classes).Adds (s'.facts classes)
  ids_eq : ids = (List.range' s.functions.size ids.length).map FunId.mk
  size : s'.functions.size = s.functions.size + ids.length
  signatures : List.Forall₂ (fun m id => ∃ f, SignatureOk (s'.facts classes) none m id f) ms ids

theorem Declared.nil (h : Scoped classes [] s) : Declared classes [] [] s s :=
  ⟨h, ⟨.refl _, fun _ _ hf => hf⟩, rfl, rfl, .nil⟩

theorem Declared.append {ms ms' : List FunDef} {ids ids' : List FunId} {t : State}
    (h : Declared classes ms ids s s') (h' : Declared classes ms' ids' s' t) :
    Declared classes (ms ++ ms') (ids ++ ids') s t where
  nest := h'.nest
  adds := h.adds.trans h'.adds
  ids_eq := by
    have h₁ := h.ids_eq
    have h₂ := h'.ids_eq
    rw [h.size] at h₂
    rw [List.length_append, ← List.range'_append_1, List.map_append, ← h₁, ← h₂]
  size := by rw [h'.size, h.size, List.length_append, Nat.add_assoc]
  signatures := by
    refine List.rel_append (h.signatures.imp ?_) h'.signatures
    rintro m id ⟨f, hf⟩
    exact ⟨f, hf.adds h'.adds⟩

theorem declareMethod_ok {pre : List ClassLayout} {c : String} {m : FunDef} {id : FunId}
    (h : Scoped classes [] s) (hk : Known pre s)
    (hp : ∀ l a p, classes.get? c = some l → l.superclass = some a → classes.get? a = some p →
      p ∈ pre)
    (hc : declareMethod classes c m s = .ok (id, s')) :
    Declared classes [m] [id] s s' ∧ (s'.facts classes).MethodOk c m id ∧
      s'.methods = (methodTarget c m.name.name, id) :: s.methods ∧ s'.funEnv = s.funEnv := by
  simp only [declareMethod, bind_eq_ok, noteMethod, modify_eq_ok, pure_eq_ok, Prod.mk.injEq] at hc
  obtain ⟨id', s₁, hsig, ⟨⟩, s₂, hcheck, _, s₃, ⟨-, rfl⟩, rfl, rfl⟩ := hc
  obtain ⟨hst₁, hr₁, hid, hsize, f, hf, he⟩ :=
    declareSignature_ok h.state (by simp) hsig
  have hfrec : s₁.functions[id.index]? = some f := hf.record
  obtain ⟨rfl, hrec, hinit, hover⟩ := checkMethodSignature_ok hfrec hcheck
  have hmethods : s₂.methods = s.methods := hr₁.later.methods
  have h₂ := (h.records hr₁ hst₁).noteMethod hfrec hf.parent he
  have hadds : (s₂.facts classes).Adds (State.facts { s₂ with
      methods := (methodTarget c m.name.name, id) :: s₂.methods } classes) :=
    ⟨⟨rfl, rfl, .refl _, fun _ g hg => ⟨g.locals, g.captures, hg⟩,
      fun _ hn => List.mem_cons_of_mem _ hn⟩, fun _ _ hg => hg⟩
  refine ⟨⟨h₂, hr₁.later.adds.trans hadds, by rw [hid]; rfl, hsize, .cons ⟨f, hf.adds hadds⟩ .nil⟩,
    ?_, by rw [hmethods], hr₁.funEnv⟩
  obtain ⟨⟨ts, hts⟩, hself⟩ : (∃ ts, f.paramTypes = .object c :: ts) ∧
      (s₂.facts classes).Receives c f := by
    unfold hasReceiver at hrec
    split at hrec
    · next v vs hps =>
      have hparams := hf.params
      have hlen := hf.params_length
      rw [hps] at hparams hlen
      cases hts : f.paramTypes with
      | nil => simp [hts] at hlen
      | cons t ts =>
        rw [hts, List.zip_cons_cons] at hparams
        obtain ⟨p, ps, hp₁, -, -⟩ := List.forall₂_cons_right_iff.1 hparams
        obtain ⟨r, hr, -, hrt, -⟩ := hp₁
        have hget : s₂.vars.get v = r := Variables.get_eq_of_get? hr
        simp only [hget, Bool.and_eq_true, beq_iff_eq] at hrec
        obtain ⟨hname, htype⟩ := hrec
        refine ⟨⟨ts, ?_⟩, v, vs, r, hps, hr, hname, htype⟩
        simp only [hrt, SlotTy.plain] at htype
        rw [htype]
    · cases hrec
  refine ⟨f, hfrec, hf.parent, he, by rw [he]; exact List.mem_cons_self, ⟨ts, hts⟩, ?_, ?_, hself⟩
  · intro hn
    rw [← hf.params_length]
    exact hinit (hf.name.trans hn)
  · intro l p a target hl ha hpl htarget
    obtain ⟨i, hi⟩ := hk p (hp l a p hl ha hpl) _ target htarget
    rw [← hmethods] at hi
    obtain ⟨g, hg, -⟩ := hst₁.methods target i (Bindings.mem_of_lookup hi)
    have hinh : inherited? classes s₂ c f.name = some g := by
      simp only [inherited?, State.facts] at hl ha hpl ⊢
      simp [hl, ha, hpl, hf.name, htarget, hi, get_of_getElem? hg]
    exact ⟨i, g, List.mem_cons_of_mem _ (Bindings.mem_of_lookup hi), hg,
      overrides_of_no_fault (hst₁.arities i g hg) hf.params_length (hover g hinh)⟩

theorem exists_lookup_of_mem {α : Type} {b : Bindings α} {x : String} {a : α} (h : (x, a) ∈ b) :
    ∃ a', List.lookup x b = some a' :=
  Option.isSome_iff_exists.1 (List.lookup_isSome_iff.2 ⟨_, h, beq_self_eq_true x⟩)

theorem Known.cons {pre : List ClassLayout} (h : Known pre s) {s' : State} {e : String × FunId}
    (he : s'.methods = e :: s.methods) : Known pre s' := by
  intro c hc x target ht
  obtain ⟨id, hid⟩ := h c hc x target ht
  rw [he, List.lookup_cons]
  split
  · exact ⟨_, rfl⟩
  · exact ⟨id, hid⟩

/-- The methods of a class are declared. -/
theorem declareMethodsOf_ok {pre : List ClassLayout} {c : String} {ms : List FunDef}
    {ids : List FunId} (h : Scoped classes [] s) (hk : Known pre s)
    (hp : ∀ l a p, classes.get? c = some l → l.superclass = some a → classes.get? a = some p →
      p ∈ pre)
    (hc : ms.mapM (declareMethod classes c) s = .ok (ids, s')) :
    Declared classes ms ids s s' ∧ List.Forall₂ ((s'.facts classes).MethodOk c) ms ids ∧
      Known pre s' ∧ s'.funEnv = s.funEnv ∧ (∀ e ∈ s.methods, e ∈ s'.methods) ∧
      ∀ m ∈ ms, ∃ id, List.lookup (methodTarget c m.name.name) s'.methods = some id := by
  induction ms generalizing s ids with
  | nil =>
    simp only [List.mapM_nil, pure_eq_ok, Prod.mk.injEq] at hc
    obtain ⟨rfl, rfl⟩ := hc
    exact ⟨.nil h, .nil, hk, rfl, fun _ he => he, by simp⟩
  | cons m ms ih =>
    simp only [List.mapM_cons, bind_eq_ok, pure_eq_ok, Prod.mk.injEq] at hc
    obtain ⟨id, s₁, hm, ids₁, s₂, hms, rfl, rfl⟩ := hc
    obtain ⟨h₁, hok₁, hmethods, hfun⟩ := declareMethod_ok h hk hp hm
    obtain ⟨h₂, hok₂, hk₂, hfun₂, hkeep, hlook⟩ := ih h₁.nest (hk.cons hmethods) hms
    refine ⟨h₁.append h₂, .cons (hok₁.grows h₂.adds.toGrows) hok₂, hk₂, hfun₂.trans hfun, ?_, ?_⟩
    · intro e he
      exact hkeep e (by rw [hmethods]; exact List.mem_cons_of_mem _ he)
    · intro e he
      obtain rfl | he := List.mem_cons.1 he
      · refine exists_lookup_of_mem (hkeep (_, id) ?_)
        rw [hmethods]
        exact List.mem_cons_self
      · exact hlook e he

end ObjLang.Check
