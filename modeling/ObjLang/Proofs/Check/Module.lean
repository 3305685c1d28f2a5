import ObjLang.Proofs.Check.Signatures

/-!
# ObjLang.Proofs.Check.Module — the functions of a module and their bodies

The layouts give the order in which methods are declared: each class comes after its superclass.
Once all signatures are there the bodies follow one after the other, and what was found out about
one of them stays true while the others are checked.
-/

namespace ObjLang.Check

open Facts

variable {classes : ClassTable} {defs : List ClassDef} {s s' t : State}

/-! ### Distinct names -/

theorem checkDistinct_ok {seen : List String} {is : List Ident}
    (hc : checkDistinct seen is s = .ok ((), s')) :
    s' = s ∧ (is.map (·.name)).Nodup ∧ ∀ i ∈ is, i.name ∉ seen := by
  induction is generalizing seen with
  | nil =>
    simp only [checkDistinct, pure_eq_ok, Prod.mk.injEq, true_and] at hc
    exact ⟨hc, List.nodup_nil, fun i hi => absurd hi List.not_mem_nil⟩
  | cons i is ih =>
    unfold checkDistinct at hc
    split at hc
    · simp [refuse_eq_ok] at hc
    · next hi =>
      obtain ⟨hs, hnd, hall⟩ := ih hc
      refine ⟨hs, List.nodup_cons.2 ⟨?_, hnd⟩, ?_⟩
      · intro hmem
        obtain ⟨j, hj, hji⟩ := List.mem_map.1 hmem
        exact hall j hj (by simp [hji])
      · intro j hj
        obtain rfl | hj := List.mem_cons.1 hj
        · simpa using hi
        · exact fun hm => hall j hj (List.mem_cons_of_mem _ hm)

/-! ### The method of the root class -/

/-- The record of the method that the root class has. -/
def Facts.RootOk (F : Facts) (id : FunId) : Prop :=
  ∃ f, F.functions[id.index]? = some f ∧ f.parent = none ∧
    f.emitted = methodTarget rootClass initMethod ∧ (f.emitted, id) ∈ F.methods ∧
    f.paramTypes = [.object rootClass] ∧ f.ret = .none ∧ f.params.length = 1 ∧ f.synthetic = true ∧
    f.name = initMethod ∧ F.Receives rootClass f

theorem Facts.RootOk.grows {F F' : Facts} (h : Grows F F') {id : FunId} (hr : F.RootOk id) :
    F'.RootOk id := by
  obtain ⟨f, hf, hp, he, hm, ht, hret, hlen, hs, hn, hself⟩ := hr
  obtain ⟨ls, cs, hls⟩ := h.functions id f hf
  exact ⟨_, hls, hp, he, h.methods _ hm, ht, hret, hlen, hs, hn, hself.grows h rfl⟩

/-- A new function of the module. -/
theorem Scoped.pushRoot (h : Scoped classes [] s) {f : Function} (hp : f.parent = none)
    (hc : f.captures = []) (ha : f.params.length = f.paramTypes.length) :
    Scoped classes [] { s with functions := s.functions.push f } ∧
      (s.facts classes).Adds (State.facts { s with functions := s.functions.push f } classes) := by
  obtain ⟨hfr, hin, hfu⟩ := h.at_module
  refine ⟨⟨h.state.pushFunction hc ha (by simp [hp]), ?_⟩, ⟨rfl, rfl, .refl _, ?_, fun _ => id⟩, ?_⟩
  · simp only [hfr, hin, hfu]
    exact .nil
  · exact fun i g hg => ⟨g.locals, g.captures, getElem?_push_of_some f hg⟩
  · exact fun i g hg => getElem?_push_of_some f hg

theorem declareRootInit_ok {id : FunId} (h : Scoped classes [] s)
    (hc : declareRootInit s = .ok (id, s')) :
    Scoped classes [] s' ∧ (s.facts classes).Adds (s'.facts classes) ∧
      id = ⟨s.functions.size⟩ ∧ s'.functions.size = s.functions.size + 1 ∧
      (s'.facts classes).RootOk id ∧ Known [.root] s' ∧ s'.funEnv = s.funEnv := by
  simp only [declareRootInit, bind_eq_ok, get_eq_ok, newVariable_eq_ok, newFunction_eq_ok,
    noteMethod, modify_eq_ok, pure_eq_ok, Prod.mk.injEq] at hc
  obtain ⟨s₀, s₁, ⟨hs₀, hs₁⟩, v, s₂, ⟨rfl, rfl⟩, id', s₃, ⟨rfl, rfl⟩, _, s₄, ⟨-, rfl⟩, rfl, rfl⟩ := hc
  obtain rfl : s = s₀ := hs₀.symm
  obtain rfl : s = s₁ := hs₁.symm
  let r : Variable := {
    name := "self"
    ty := .plain (.object rootClass)
    kind := .param
    refed := false
    writable := true
    owner := some (Functions.nextId s.functions)
    span := default }
  let f : Function := {
    name := initMethod
    emitted := methodTarget rootClass initMethod
    params := [s.vars.nextId]
    paramTypes := [.object rootClass]
    ret := .none
    captures := []
    locals := []
    owner := some rootClass
    parent := none
    synthetic := true
    span := default }
  have hr₁ : Records classes s { s with vars := s.vars.push r } :=
    ⟨Later.push h.state rfl rfl, rfl, rfl, rfl⟩
  have h₁ := h.records hr₁ (h.state.push (r := r) rfl rfl)
  obtain ⟨h₂, hadds₂⟩ := h₁.pushRoot (f := f) rfl rfl rfl
  have hf : (s.functions.push f)[s.functions.size]? = some f := Array.getElem?_push_size
  have hf' : (s.functions.push f)[(⟨s.functions.size⟩ : FunId).index]? = some f := hf
  have h₃ := h₂.noteMethod hf' rfl rfl
  have hself : (s.vars.push r).get? s.vars.nextId = some r := Variables.get?_push_self _ _
  refine ⟨h₃, ?_, rfl, by simp, ⟨f, hf, rfl, rfl, List.mem_cons_self, rfl, rfl, rfl, rfl, rfl,
    _, [], r, rfl, hself, rfl, rfl⟩, ?_, rfl⟩
  · refine (hr₁.later.adds.trans hadds₂).trans ⟨⟨rfl, rfl, .refl _, ?_, ?_⟩, fun _ _ hg => hg⟩
    · exact fun _ g hg => ⟨g.locals, g.captures, hg⟩
    · exact fun _ hm => List.mem_cons_of_mem _ hm
  · intro c hc x target htarget
    obtain rfl := List.mem_singleton.1 hc
    rw [ClassLayout.indexed_root.target?_eq] at htarget
    obtain ⟨m, hm, rfl⟩ := Option.map_eq_some_iff.1 htarget
    obtain rfl := List.mem_singleton.1 (List.mem_of_find?_eq_some hm)
    exact ⟨_, List.lookup_cons_self⟩

/-! ### Methods, class after class -/

/-- The methods of some classes were declared. -/
structure Methods (classes : ClassTable) (cs : List (ClassDef × List FunId)) (s s' : State) :
    Prop where
  declared : Declared classes (cs.flatMap (·.1.methods)) (cs.flatMap (·.2)) s s'
  ok : ∀ c ∈ cs, List.Forall₂ ((s'.facts classes).MethodOk c.1.name.name) c.1.methods c.2
  funEnv : s'.funEnv = s.funEnv

theorem declareMethods_eq_ok {c : ClassDef} {r : (ClassDef × List FunId) × State} :
    declareMethods classes c s = .ok r ↔
      ∃ ids, c.methods.mapM (declareMethod classes c.name.name) s = .ok (ids, r.2) ∧
        r.1 = (c, ids) := by
  obtain ⟨⟨c', ids'⟩, s'⟩ := r
  simp only [declareMethods, bind_eq_ok, pure_eq_ok, Prod.mk.injEq]
  constructor
  · rintro ⟨ids, s₁, h, ⟨rfl, rfl⟩, rfl⟩
    exact ⟨ids', h, rfl, rfl⟩
  · rintro ⟨ids, h, rfl, rfl⟩
    exact ⟨ids', s', h, ⟨rfl, rfl⟩, rfl⟩

/-- With the methods of the next class, one knows those of the layouts up to it. -/
theorem Known.append {pre : List ClassLayout} {p c : ClassLayout} {isClass : String → Bool}
    {b : Nat} {d : ClassDef} (hk : Known pre s) (hp : p ∈ pre) (hindexed : p.Indexed)
    (hx : ClassLayout.extend isClass p b d = .ok c)
    (hm : ∀ m ∈ d.methods, ∃ id,
      List.lookup (methodTarget d.name.name m.name.name) s.methods = some id) :
    Known (pre ++ [c]) s := by
  intro e he x target ht
  obtain he | he := List.mem_append.1 he
  · exact hk e he x target ht
  · obtain rfl := List.mem_singleton.1 he
    rw [(hindexed.extend hx).target?_eq, hindexed.find?_extend hx] at ht
    split at ht
    · next hown =>
      obtain ⟨m, hmem, rfl⟩ := List.mem_map.1 hown
      cases ht
      exact hm m hmem
    · rw [← hindexed.target?_eq] at ht
      exact hk p hp x target ht

theorem declareClasses_ok (hl : classes.LaidOut defs) {pre rest : List ClassLayout}
    (heq : classes.layouts = pre ++ rest) (hroot : ∀ c ∈ rest, c.name ≠ rootClass)
    (h : Scoped classes [] s) (hk : Known pre s) {cs : List (ClassDef × List FunId)}
    (hc : (rest.filterMap fun c => defs.find? (·.name.name == c.name)).mapM
      (declareMethods classes) s = .ok (cs, s')) :
    Methods classes cs s s' ∧ cs.map (·.1.name.name) = rest.map ClassLayout.name ∧
      (∀ c ∈ cs, c.1 ∈ defs) ∧ Known classes.layouts s' := by
  induction rest generalizing pre s cs with
  | nil =>
    simp only [List.filterMap_nil, List.mapM_nil, pure_eq_ok, Prod.mk.injEq] at hc
    obtain ⟨rfl, rfl⟩ := hc
    exact ⟨⟨.nil h, by simp, rfl⟩, rfl, by simp, by simpa [heq] using hk⟩
  | cons c rest ih =>
    have hmem : c ∈ classes.layouts := by simp [heq]
    have hget : classes.get? c.name = some c := hl.get?_eq_some.2 ⟨hmem, rfl⟩
    obtain ⟨a, ha⟩ : ∃ a, c.superclass = some a := by
      cases hl.laid c hmem with
      | root => exact absurd rfl (hroot _ List.mem_cons_self)
      | @extend p _ d b _ _ _ _ hx =>
        obtain ⟨fields, methods, -, -, rfl⟩ := ClassTable.extend_eq_ok.1 hx
        exact ⟨_, rfl⟩
    obtain ⟨p, d, b, hp, hd, hdn, hx⟩ := hl.superclass hget ha
    have hpre : ∀ q, classes.get? a = some q → q ∈ pre := by
      intro q hq
      obtain ⟨q', hq', hqn⟩ := hl.parents pre c rest heq a ha
      rw [hl.get?_eq_some.2 ⟨by simp [heq, hq'], hqn⟩] at hq
      cases hq
      exact hq'
    have hfind : defs.find? (·.name.name == c.name) = some d := by
      cases hf : defs.find? (·.name.name == c.name) with
      | none => exact absurd (List.find?_eq_none.1 hf d hd) (by simp [hdn])
      | some e =>
        have hen : e.name.name = c.name := by simpa using List.find?_some hf
        rw [List.inj_on_of_nodup_map hl.classNames (List.mem_of_find?_eq_some hf) hd
          (hen.trans hdn.symm)]
    simp only [List.filterMap_cons, hfind, List.mapM_cons, bind_eq_ok, declareMethods_eq_ok,
      pure_eq_ok, Prod.mk.injEq] at hc
    obtain ⟨_, s₁, ⟨ids, hms, rfl⟩, cs₁, s₂, hcs, rfl, rfl⟩ := hc
    rw [hdn] at hms
    obtain ⟨h₁, hok₁, hk₁, hfun₁, -, hlook⟩ := declareMethodsOf_ok h hk
      (fun l e q hle hee hq => by
        cases hget.symm.trans hle
        cases ha.symm.trans hee
        exact hpre q hq) hms
    have hindexed : p.Indexed := hl.indexed (ClassTable.get?_mem hp).1
    have hk₁' : Known (pre ++ [c]) s₁ :=
      hk₁.append (hpre p hp) hindexed hx (by rw [hdn]; exact hlook)
    obtain ⟨h₂, hnames, hdefs, hk₂⟩ := ih (by simp [heq])
      (fun e he => hroot e (List.mem_cons_of_mem _ he)) h₁.nest hk₁' hcs
    refine ⟨⟨?_, ?_, h₂.funEnv.trans hfun₁⟩, ?_, ?_, hk₂⟩
    · simpa using h₁.append h₂.declared
    · intro e he
      obtain rfl | he := List.mem_cons.1 he
      · simp only [hdn]
        exact hok₁.imp fun _ _ hm => hm.grows h₂.declared.adds.toGrows
      · exact h₂.ok e he
    · simp [hnames, hdn]
    · intro e he
      obtain rfl | he := List.mem_cons.1 he
      · exact hd
      · exact hdefs e he

/-! ### Functions of the module -/

theorem Scoped.bindRoot (h : Scoped classes [] s) {x : String} {id : FunId} {f : Function}
    (hf : s.functions[id.index]? = some f) (hp : f.parent = none) :
    Scoped classes [] { s with funEnv := s.funEnv.declare x id } := by
  obtain ⟨hfr, hin, hfu⟩ := h.at_module
  have hfun : s.funEnv.declare x id = ⟨[], s.funEnv.module.insert x id⟩ := by
    simp only [Env.declare, hfu]
  refine ⟨{ h.state with roots := ?_ }, ?_⟩
  · intro g i hi
    rw [hfun] at hi
    by_cases hg : g = x
    · subst hg
      rw [Bindings.lookup_insert_self, Option.some.injEq] at hi
      exact hi ▸ ⟨f, hf, hp⟩
    · rw [Bindings.lookup_insert_of_ne hg] at hi
      exact h.state.roots g i hi
  · simp only [hfr, hin, hfun]
    exact .nil

/-- A function of the module goes by its own name in generated code. -/
def Facts.NameOk (F : Facts) (d : FunDef) (id : FunId) : Prop :=
  ∃ f, F.functions[id.index]? = some f ∧ f.emitted = d.name.name

theorem Facts.NameOk.grows {F F' : Facts} (h : Grows F F') {d : FunDef} {id : FunId}
    (hd : F.NameOk d id) : F'.NameOk d id := by
  obtain ⟨f, hf, he⟩ := hd
  obtain ⟨ls, cs, hls⟩ := h.functions id f hf
  exact ⟨_, hls, he⟩

theorem declareFunctions_ok {ds : List FunDef} {ids : List FunId} (h : Scoped classes [] s)
    (hc : ds.mapM (declareFunction classes) s = .ok (ids, s')) :
    Declared classes ds ids s s' ∧ List.Forall₂ (s'.facts classes).NameOk ds ids := by
  induction ds generalizing s ids with
  | nil =>
    simp only [List.mapM_nil, pure_eq_ok, Prod.mk.injEq] at hc
    obtain ⟨rfl, rfl⟩ := hc
    exact ⟨.nil h, .nil⟩
  | cons d ds ih =>
    simp only [List.mapM_cons, declareFunction, bind_eq_ok, bindFunction_eq_ok, pure_eq_ok,
      Prod.mk.injEq] at hc
    obtain ⟨id, s₁, ⟨id', s₂, hsig, _, s₃, ⟨-, rfl⟩, rfl, rfl⟩, ids₁, s₄, hds, rfl, rfl⟩ := hc
    obtain ⟨hst₂, hr₂, hid, hsize, f, hf, he⟩ := declareSignature_ok h.state (by simp) hsig
    have h₃ := (h.records hr₂ hst₂).bindRoot (x := d.name.name) hf.record hf.parent
    have h₁ : Declared classes [d] [id] s
        { s₂ with funEnv := s₂.funEnv.declare d.name.name id } :=
      ⟨h₃, hr₂.later.adds, by rw [hid]; rfl, hsize, .cons ⟨f, hf⟩ .nil⟩
    obtain ⟨hrest, hnames⟩ := ih h₃ hds
    exact ⟨h₁.append hrest, .cons (Facts.NameOk.grows hrest.adds.toGrows ⟨f, hf.record, he⟩) hnames⟩

/-! ### Bodies -/

/-- Some functions of the module are checked, and the others have their signatures. -/
structure Progress (classes : ClassTable) (base : Nat) (done : List FunDef)
    (todo : List (FunDef × FunId)) (s : State) : Prop where
  nest : Scoped classes [] s
  ok : ∀ d ∈ done, (s.facts classes).FunOk [] d
  apart : ∀ d ∈ done, ∀ p ∈ todo, d.id ≠ some p.2
  signatures : ∀ p ∈ todo, ∃ f, SignatureOk (s.facts classes) none p.1 p.2 f
  distinct : (todo.map Prod.snd).Nodup
  size : base ≤ s.functions.size
  covers : ∀ i, base ≤ i → i < s.functions.size → ∃ d ∈ FunDef.allOf done, d.id = some ⟨i⟩

theorem SignatureOk.later {F F' : Facts} {changed : Option FunId} (h : Later changed F F')
    {parent : Option FunId} {d : FunDef} {id : FunId} {f : Function} (hne : changed ≠ some id)
    (hs : SignatureOk F parent d id f) : SignatureOk F' parent d id f where
  record := by
    obtain ⟨ls, cs, hls, hn⟩ := h.functions id f hs.record
    obtain ⟨rfl, rfl⟩ := hn hne
    exact hls
  name := hs.name
  parent := hs.parent
  captures := hs.captures
  locals := hs.locals
  params := hs.params.imp fun _ _ hp => hp.later h
  params_length := hs.params_length
  ret := hs.ret.later h

theorem allOf_append (ds es : List FunDef) :
    FunDef.allOf (ds ++ es) = FunDef.allOf ds ++ FunDef.allOf es := by
  induction ds with
  | nil => rfl
  | cons d ds ih => simp [FunDef.allOf, ih]

/-- A checked function with the one that it comes from. -/
def Comes (p : FunDef × FunId) (d' : FunDef) : Prop :=
  d'.id = some p.2 ∧ p.1.Binds d'

theorem Progress.step {base : Nat} {done : List FunDef} {todo : List (FunDef × FunId)}
    {d d' : FunDef} {id : FunId} (h : Progress classes base done ((d, id) :: todo) s)
    (hc : checkFunction classes id d s = .ok (d', s')) :
    Progress classes base (done ++ [d']) todo s' ∧ Comes (d, id) d' ∧
      Grows (s.facts classes) (s'.facts classes) := by
  obtain ⟨f, hsig⟩ := h.signatures _ List.mem_cons_self
  have hfin : Finishes classes [] id d d' s s' := checkFunction_ok h.nest hsig (emittedOk_nil _) hc
  obtain ⟨hnot, hnd⟩ := List.nodup_cons.1 h.distinct
  have ho := h.nest.state.parents
  have hsize := h.size
  obtain ⟨hle, hin⟩ := hfin.covers
  refine ⟨⟨hfin.nest, ?_, ?_, ?_, hnd, Nat.le_trans hsize hle, ?_⟩,
    ⟨hfin.id_eq, hfin.binds⟩, hfin.later.grows⟩
  · intro e he
    obtain he | he := List.mem_append.1 he
    · refine FunOk.later hfin.later ho (fun i hi => ⟨?_, ?_⟩) (h.ok e he)
      · rintro ⟨⟩
        exact h.apart e he _ List.mem_cons_self hi
      · rintro g fg ⟨⟩ hfg
        cases hsig.record.symm.trans hfg
        exact .inl hsig.parent
    · obtain rfl := List.mem_singleton.1 he
      exact hfin.ok
  · intro e he p hp
    obtain he | he := List.mem_append.1 he
    · exact h.apart e he p (List.mem_cons_of_mem _ hp)
    · obtain rfl := List.mem_singleton.1 he
      rw [hfin.id_eq]
      intro heq
      exact hnot (List.mem_map.2 ⟨p, hp, (Option.some.inj heq).symm⟩)
  · intro p hp
    obtain ⟨g, hg⟩ := h.signatures p (List.mem_cons_of_mem _ hp)
    refine ⟨g, hg.later hfin.later ?_⟩
    rintro heq
    exact hnot (List.mem_map.2 ⟨p, hp, (Option.some.inj heq).symm⟩)
  · intro i hi hi'
    rw [allOf_append]
    by_cases hlt : i < s.functions.size
    · obtain ⟨e, he, hei⟩ := h.covers i hi hlt
      exact ⟨e, List.mem_append_left _ he, hei⟩
    · obtain ⟨e, he, hei⟩ := hin i (by omega) hi'
      refine ⟨e, List.mem_append_right _ ?_, hei⟩
      simp only [FunDef.allOf, FunDef.all_eq, List.append_nil, List.mem_cons]
      exact .inr he

theorem Progress.bodies {base : Nat} {done : List FunDef} {ps todo : List (FunDef × FunId)}
    {ds' : List FunDef} (h : Progress classes base done (ps ++ todo) s)
    (hc : ps.mapM (fun p => checkFunction classes p.2 p.1) s = .ok (ds', s')) :
    Progress classes base (done ++ ds') todo s' ∧ List.Forall₂ Comes ps ds' ∧
      Grows (s.facts classes) (s'.facts classes) := by
  induction ps generalizing s done ds' with
  | nil =>
    simp only [List.mapM_nil, pure_eq_ok, Prod.mk.injEq] at hc
    obtain ⟨rfl, rfl⟩ := hc
    exact ⟨by simpa using h, .nil, .refl _⟩
  | cons p ps ih =>
    simp only [List.mapM_cons, bind_eq_ok, pure_eq_ok, Prod.mk.injEq] at hc
    obtain ⟨d', s₁, hd, ds₁, s₂, hds, rfl, rfl⟩ := hc
    obtain ⟨h₁, hcomes, hg₁⟩ := Progress.step h hd
    obtain ⟨h₂, hcs, hg₂⟩ := ih h₁ hds
    exact ⟨by simpa using h₂, .cons hcomes hcs, hg₁.trans hg₂⟩

/-- The methods of the classes, each class with its checked methods. -/
theorem Progress.methods {base : Nat} {done : List FunDef} {cs : List (ClassDef × List FunId)}
    {todo : List (FunDef × FunId)} {ms : List (String × List FunDef)}
    (h : Progress classes base done (cs.flatMap (fun c => c.1.methods.zip c.2) ++ todo) s)
    (hc : (cs.mapM fun c => do
      return (c.1.name.name, ← checkBodies classes c.1.methods c.2) : CheckM _) s = .ok (ms, s')) :
    Progress classes base (done ++ ms.flatMap Prod.snd) todo s' ∧
      List.Forall₂ (fun c m => m.1 = c.1.name.name ∧
        List.Forall₂ Comes (c.1.methods.zip c.2) m.2) cs ms ∧
      Grows (s.facts classes) (s'.facts classes) := by
  induction cs generalizing s done ms with
  | nil =>
    simp only [List.mapM_nil, pure_eq_ok, Prod.mk.injEq] at hc
    obtain ⟨rfl, rfl⟩ := hc
    exact ⟨by simpa using h, .nil, .refl _⟩
  | cons c cs ih =>
    simp only [List.mapM_cons, bind_eq_ok, pure_eq_ok, Prod.mk.injEq] at hc
    obtain ⟨_, s₁, ⟨ds, _, hds, rfl, rfl⟩, ms₁, s₂, hms, rfl, rfl⟩ := hc
    rw [List.flatMap_cons, List.append_assoc] at h
    obtain ⟨h₁, hcomes, hg₁⟩ := h.bodies hds
    obtain ⟨h₂, hcs, hg₂⟩ := ih h₁ hms
    exact ⟨by simpa using h₂, .cons ⟨rfl, hcomes⟩ hcs, hg₁.trans hg₂⟩

end ObjLang.Check
