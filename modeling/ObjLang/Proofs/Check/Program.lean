import ObjLang.Proofs.Check.Stages

/-!
# ObjLang.Proofs.Check.Program — what holds of a checked program

The parts put together: from a check that succeeds follows all that the records, the names and the
types of the program promise, for every function at any depth.
-/

namespace ObjLang

open Check Check.Facts

/-! ### Checked programs -/

/-- The functions of a program at any depth. -/
def Program.allFunctions (p : Program) : List FunDef :=
  FunDef.allOf (p.classes.flatMap (·.methods) ++ p.functions)

/-- A method of a class of a checked program. -/
def Check.Facts.CheckedMethod (F : Facts) (className : String) (m : FunDef) : Prop :=
  F.FunOk [] m ∧ ∃ id, m.id = some id ∧ F.MethodOk className m id

/-- What holds of a checked program, with the state that its check ends in. -/
structure CheckedOk (p : Program) (c : CheckedProgram) (s : State) : Prop where
  vars_eq : s.vars = c.vars
  functions_eq : s.functions = c.functions
  nest : Scoped c.classes [] s
  laid : c.classes.LaidOut p.classes
  names : p.names.Nodup
  reserved : ∀ x ∈ p.names, x ∉ reservedNames
  globals : ∀ d ∈ c.program.vars, (s.facts c.classes).GlobalOk d
  module : ∀ x v, List.lookup x s.varEnv.module = some v →
    ∃ d ∈ c.program.vars, d.var.name.name = x ∧ d.binding = some v
  root : (s.facts c.classes).RootOk c.rootInit
  known : Known c.classes.layouts s
  methods : ∀ k ∈ c.program.classes, ∀ m ∈ k.methods,
    (s.facts c.classes).CheckedMethod k.name.name m
  functions : ∀ d ∈ c.program.functions, (s.facts c.classes).FunOk [] d
  functionNames : ∀ d ∈ c.program.functions, ∃ id, d.id = some id ∧ (s.facts c.classes).NameOk d id
  body : (s.facts c.classes).BlockOk [] (fun _ => false) none c.program.body
  covers : ∀ i, i < c.functions.size →
    c.rootInit = ⟨i⟩ ∨ ∃ d ∈ c.program.allFunctions, d.id = some ⟨i⟩
  sameVars : List.Forall₂ (fun d d' => d'.var = d.var ∧ d'.init = d.init) p.vars c.program.vars
  sameClasses : List.Forall₂ (fun k k' => k'.name = k.name ∧ k'.fields = k.fields ∧
    List.Forall₂ FunDef.Binds k.methods k'.methods) p.classes c.program.classes
  sameFunctions : List.Forall₂ FunDef.Binds p.functions c.program.functions

/-- A key in a list without duplicate keys leads to what stands with it. -/
theorem lookup_of_mem {α β : Type} [BEq α] [LawfulBEq α] {as : List (α × β)}
    (hnd : (as.map Prod.fst).Nodup) {a : α} {b : β} (h : (a, b) ∈ as) :
    List.lookup a as = some b := by
  obtain ⟨before, after, rfl⟩ := List.append_of_mem h
  refine List.lookup_eq_some_iff.2 ⟨before, after, rfl, fun e he => ?_⟩
  rw [List.map_append, List.map_cons] at hnd
  refine bne_iff_ne.2 fun heq => ?_
  exact (List.nodup_append.1 hnd).2.2 e.1 (List.mem_map_of_mem he) a List.mem_cons_self heq.symm

theorem Check.Facts.MethodOk.congr {F : Facts} {c : String} {m m' : FunDef} {id : FunId}
    (hn : m'.name = m.name) (h : F.MethodOk c m id) : F.MethodOk c m' id := by
  unfold Facts.MethodOk at h ⊢
  rw [hn]
  exact h

/-! ### The check of a program -/

/-- Definitions that were checked one after the other bind what the given ones bind. -/
theorem binds_of_comes {ds ds' : List FunDef} {ids : List FunId} (hlen : ds.length = ids.length)
    (h : List.Forall₂ Comes (ds.zip ids) ds') : List.Forall₂ FunDef.Binds ds ds' := by
  refine List.forall₂_iff_get.2 ⟨?_, fun i hi hi' => ?_⟩
  · rw [← h.length_eq, List.length_zip, ← hlen, Nat.min_self]
  · have hz := h.get (i := i) (by rw [List.length_zip, ← hlen, Nat.min_self]; exact hi) hi'
    simp only [List.get_eq_getElem, List.getElem_zip] at hz ⊢
    exact hz.2

/-- A definition that was checked comes from one with its number. -/
theorem exists_of_comes {R : FunDef → FunId → Prop} {ds ds' : List FunDef} {ids : List FunId}
    (hR : List.Forall₂ R ds ids) (h : List.Forall₂ Comes (ds.zip ids) ds') {d' : FunDef}
    (hd : d' ∈ ds') : ∃ d id, R d id ∧ Comes (d, id) d' := by
  obtain ⟨⟨d, id⟩, hq, hcomes⟩ := exists_of_forall₂ h.flip hd
  exact ⟨d, id, (List.forall₂_iff_zip.1 hR).2 hq, hcomes⟩

theorem comes_flatMap {cs : List (ClassDef × List FunId)} {ms : List (String × List FunDef)}
    (h : List.Forall₂ (fun c m => m.1 = c.1.name.name ∧
      List.Forall₂ Comes (c.1.methods.zip c.2) m.2) cs ms) :
    List.Forall₂ Comes (cs.flatMap fun c => c.1.methods.zip c.2) (ms.flatMap Prod.snd) := by
  induction h with
  | nil => exact .nil
  | cons hm _ ih => exact List.rel_append hm.2 ih

section

variable {classes : ClassTable} {p : Program} {vars : List VarDef} {root : FunId}
  {cs : List (ClassDef × List FunId)} {ids : List FunId} {s₀ s : State}
  {ms : List (String × List FunDef)} {ds : List FunDef}

namespace Announced

/-- The methods of the classes stand under different names. -/
theorem methods_nodup (h : Announced classes p vars root cs ids s₀ s) (hl : classes.LaidOut p.classes)
    (hms : List.Forall₂ (fun c m => m.1 = c.1.name.name ∧
      List.Forall₂ Comes (c.1.methods.zip c.2) m.2) cs ms) : (ms.map Prod.fst).Nodup := by
  have hfst : ms.map Prod.fst = cs.map (·.1.name.name) :=
    List.ext_getElem (by simpa using hms.length_eq.symm) fun i hi hi' => by
      simpa using (hms.get (by simpa using hi') (by simpa using hi)).1
  have hnodup := hl.names
  rw [h.classNames] at hnodup
  rw [hfst]
  exact hnodup.of_cons

/-- The methods of a class of the program, with those that it has in the end. -/
theorem checkedMethods (h : Announced classes p vars root cs ids s₀ s)
    (hl : classes.LaidOut p.classes) {F : Facts} (hF : Grows (s.facts classes) F)
    (hms : List.Forall₂ (fun c m => m.1 = c.1.name.name ∧
      List.Forall₂ Comes (c.1.methods.zip c.2) m.2) cs ms)
    (hfun : ∀ d ∈ ms.flatMap Prod.snd, F.FunOk [] d) {k : ClassDef} (hk : k ∈ p.classes) :
    ∃ ds, List.lookup k.name.name ms = some ds ∧
      (∀ m ∈ ds, F.CheckedMethod k.name.name m) ∧
      List.Forall₂ FunDef.Binds k.methods ds := by
  have hnd := h.methods_nodup hl hms
  obtain ⟨e, he, hen⟩ : ∃ e ∈ cs, e.1.name.name = k.name.name := by
    obtain ⟨c, hc⟩ := ClassTable.contains_eq_true.1 (hl.contains k hk)
    obtain ⟨hmem, hn⟩ := ClassTable.get?_mem hc
    have hin : k.name.name ∈ rootClass :: cs.map (·.1.name.name) := by
      rw [← h.classNames, ← hn]
      exact List.mem_map_of_mem hmem
    obtain hroot | hin := List.mem_cons.1 hin
    · have hres := hl.reserved k hk
      rw [hroot] at hres
      exact absurd hres (by decide)
    · exact List.mem_map.1 hin
  have hek : e.1 = k := List.inj_on_of_nodup_map hl.classNames (h.definitions e he) hk hen
  obtain ⟨m, hm, hmn, hcomes⟩ := exists_of_forall₂ hms he
  rw [hek] at hmn hcomes
  have hokm := h.methods e he
  rw [hek] at hokm
  refine ⟨m.2, ?_, ?_, ?_⟩
  · rw [← hmn]
    exact lookup_of_mem hnd hm
  · intro d hd
    obtain ⟨d', id, hmethod, hid, hbinds⟩ := exists_of_comes hokm hcomes hd
    exact ⟨hfun d (List.mem_flatMap.2 ⟨m, hm, hd⟩), id, hid, (hmethod.grows hF).congr hbinds.name⟩
  · exact binds_of_comes hokm.length_eq hcomes

/-- The functions of the module keep their names. -/
theorem names_ok (h : Announced classes p vars root cs ids s₀ s) {F : Facts}
    (hF : Grows (s.facts classes) F) (hds : List.Forall₂ Comes (p.functions.zip ids) ds) :
    ∀ d ∈ ds, ∃ id, d.id = some id ∧ F.NameOk d id := by
  intro d hd
  obtain ⟨d', id, hname, hid, hbinds⟩ := exists_of_comes h.functionNames hds hd
  obtain ⟨f, hf, he⟩ := hname.grows hF
  exact ⟨id, hid, f, hf, he.trans (congrArg Ident.name hbinds.name.symm)⟩

/-- Every number of a function is that of the root method or of a definition. -/
theorem covers (h : Announced classes p vars root cs ids s₀ s) (hl : classes.LaidOut p.classes)
    {t : State} (hp : Progress classes s.functions.size (ms.flatMap Prod.snd ++ ds) [] t)
    (hms : List.Forall₂ (fun c m => m.1 = c.1.name.name ∧
      List.Forall₂ Comes (c.1.methods.zip c.2) m.2) cs ms)
    (hds : List.Forall₂ Comes (p.functions.zip ids) ds) {body : List Stmt} {i : Nat}
    (hi : i < t.functions.size) :
    root = ⟨i⟩ ∨ ∃ d ∈ (withChecked p vars ms ds body).allFunctions, d.id = some ⟨i⟩ := by
  have hsub : ∀ e ∈ ms.flatMap Prod.snd ++ ds,
      e ∈ (withChecked p vars ms ds body).classes.flatMap (·.methods)
        ++ (withChecked p vars ms ds body).functions := by
    intro e he
    obtain he | he := List.mem_append.1 he
    · obtain ⟨m, hm, hem⟩ := List.mem_flatMap.1 he
      obtain ⟨c, hc, hname, -⟩ := exists_of_forall₂ hms.flip hm
      have hlook : List.lookup c.1.name.name ms = some m.2 :=
        lookup_of_mem (h.methods_nodup hl hms) (hname ▸ hm)
      refine List.mem_append_left _
        (List.mem_flatMap.2 ⟨_, List.mem_map_of_mem (h.definitions c hc), ?_⟩)
      rw [hlook]
      exact hem
    · exact List.mem_append_right _ he
  have hstart := h.start
  by_cases hroot : i < s₀.functions.size
  · exact .inl (by rw [h.root_eq, show i = 0 by omega])
  right
  by_cases hlt : i < s.functions.size
  · have hmem : (⟨i⟩ : FunId) ∈ cs.flatMap (·.2) ++ ids := by
      have hsize := h.declared.size
      rw [h.declared.ids_eq]
      exact List.mem_map_of_mem (List.mem_range'_1.2 ⟨Nat.le_of_not_lt hroot, by omega⟩)
    rw [← List.map_snd_zip (Nat.le_of_eq h.declared.signatures.length_eq.symm), h.zip_eq] at hmem
    obtain ⟨q, hq, hqi⟩ := List.mem_map.1 hmem
    obtain ⟨d, hd, hid, -⟩ := exists_of_forall₂ (List.rel_append (comes_flatMap hms) hds) hq
    exact ⟨d, FunDef.mem_allOf.2 ⟨d, hsub d hd, self_mem_all d⟩, hid.trans (congrArg some hqi)⟩
  · obtain ⟨d, hd, hdi⟩ := hp.covers i (by omega) hi
    obtain ⟨e, he, hde⟩ := FunDef.mem_allOf.1 hd
    exact ⟨d, FunDef.mem_allOf.2 ⟨e, hsub e he, hde⟩, hdi⟩

end Announced

end

theorem checkProgram_ok {classes : ClassTable} {p p' : Program} {root : FunId} {s : State}
    (hl : classes.LaidOut p.classes) (hc : checkProgram classes p {} = .ok ((p', root), s)) :
    CheckedOk p ⟨p', classes, s.vars, s.functions, s.globals, root⟩ s := by
  obtain ⟨vars, s₁, s₂, cs, s₃, ids, s₄, ms, s₅, ds, s₆, body, hnames, hvars, hrootInit, hcs, hids,
    hms, hds, hbody, rfl⟩ := checkProgram_cases hc
  have h := announced_ok hl hnames hvars hrootInit hcs hids
  obtain ⟨hp, hcomes, hcomes', hg⟩ := h.bodies hms hds
  have hinside : Inside classes [] (fun _ => false) s₆ := ⟨hp.nest, trivial⟩
  have hret : s₆.returns = none := by
    rw [State.returns, hp.nest.at_module.1]
    rfl
  obtain ⟨hk, hbodyOk⟩ := checkBlock_ok hinside hret hbody
  have hgrows : Grows (s₄.facts classes) (s.facts classes) := hg.trans hk.later.grows
  have hmod : s.varEnv.module = s₄.varEnv.module := hgrows.module
  have hsize : s.functions.size = s₆.functions.size := by rw [hk.functions]
  have hfun : ∀ d ∈ ms.flatMap Prod.snd ++ ds, (s.facts classes).FunOk [] d := fun d hd =>
    FunOk.later hk.later hp.nest.state.parents (fun _ _ => apart_none) (hp.ok d hd)
  have hmethods : ∀ k ∈ p.classes, ∃ es, List.lookup k.name.name ms = some es ∧
      (∀ m ∈ es, (s.facts classes).CheckedMethod k.name.name m) ∧
      List.Forall₂ FunDef.Binds k.methods es := fun k hk =>
    h.checkedMethods hl hgrows hcomes (fun d hd => hfun d (List.mem_append_left _ hd)) hk
  refine ⟨rfl, rfl, hk.inside.nest, hl, h.names, h.reserved, fun d hd => (h.globals d hd).grows hgrows,
    fun x v hv => h.module x v (hmod ▸ hv), h.root.grows hgrows, h.known.grows hgrows, ?methods,
    fun d hd => hfun d (List.mem_append_right _ hd), h.names_ok hgrows hcomes', hbodyOk,
    fun i hi => h.covers hl hp hcomes hcomes' (hsize ▸ hi), h.sameVars, ?sameClasses, ?sameFunctions⟩
  case methods =>
    intro k hk m hm
    obtain ⟨k', hk', rfl⟩ := List.mem_map.1 hk
    obtain ⟨es, hes, hok, -⟩ := hmethods k' hk'
    simp only [hes, Option.getD_some] at hm
    exact hok m hm
  case sameClasses =>
    rw [withChecked, List.forall₂_map_right_iff]
    refine List.forall₂_same.2 fun k hk => ?_
    obtain ⟨es, hes, -, hsame⟩ := hmethods k hk
    simp only [hes, Option.getD_some]
    exact ⟨trivial, trivial, hsame⟩
  case sameFunctions => exact binds_of_comes h.functionNames.length_eq hcomes'

theorem Program.check_ok {p : Program} {c : CheckedProgram} (h : p.check = .ok c) :
    ∃ s, CheckedOk p c s := by
  simp only [Program.check, except_bind_eq_ok, except_pure_eq_ok] at h
  obtain ⟨classes, hcl, ⟨⟨p', root⟩, s⟩, hrun, rfl⟩ := h
  exact ⟨s, checkProgram_ok (ClassTable.resolve_ok hcl) hrun⟩

/-! ### Functions in their nests -/

theorem Check.Facts.FunsOk.mem {F : Facts} {outer : List Level} {ds : List FunDef} {d : FunDef}
    (h : F.FunsOk outer ds) (hd : d ∈ ds) : F.FunOk outer d := by
  induction ds with
  | nil => exact absurd hd List.not_mem_nil
  | cons e ds ih =>
    simp only [FunsOk] at h
    obtain rfl | hd := List.mem_cons.1 hd
    · exact h.1
    · exact ih h.2 hd

namespace CheckedProgram

variable (c : CheckedProgram)

/-- A function of a program, with the functions around it, the nearest first. -/
inductive Nest : List FunDef → FunDef → Prop where
  | method {k : ClassDef} {d : FunDef} : k ∈ c.program.classes → d ∈ k.methods → Nest [] d
  | function {d : FunDef} : d ∈ c.program.functions → Nest [] d
  | nested {outer : List FunDef} {e d : FunDef} : Nest outer e → d ∈ e.nested →
      Nest (e :: outer) d

section

variable {c}

mutual

theorem nest_all {outer : List FunDef} {e d : FunDef} (he : c.Nest outer e) (hd : d ∈ e.all) :
    ∃ outer', c.Nest outer' d := by
  match e with
  | ⟨name, params, ret, decls, vars, nested, body, span, id⟩ =>
    rw [FunDef.all_eq] at hd
    obtain rfl | hd := List.mem_cons.1 hd
    · exact ⟨outer, he⟩
    · have hall : ∀ e' ∈ nested, c.Nest (_ :: outer) e' := fun e' he' => .nested he he'
      exact nest_allOf hall hd

theorem nest_allOf {outer : List FunDef} {ds : List FunDef} {d : FunDef}
    (hds : ∀ e ∈ ds, c.Nest outer e) (hd : d ∈ FunDef.allOf ds) : ∃ outer', c.Nest outer' d := by
  match ds with
  | [] => exact absurd hd List.not_mem_nil
  | e :: ds =>
    obtain hd | hd := List.mem_append.1 hd
    · exact nest_all (hds e List.mem_cons_self) hd
    · exact nest_allOf (fun e' he' => hds e' (List.mem_cons_of_mem _ he')) hd

end

/-- A definition among all those of a program stands in a nest. -/
theorem exists_nest {d : FunDef} (hd : d ∈ c.program.allFunctions) : ∃ outer, c.Nest outer d := by
  have hall : ∀ e ∈ c.program.classes.flatMap (·.methods) ++ c.program.functions,
      c.Nest [] e := by
    intro e he
    obtain he | he := List.mem_append.1 he
    · obtain ⟨k, hk, he⟩ := List.mem_flatMap.1 he
      exact .method hk he
    · exact .function he
  exact nest_allOf hall hd

end

/-- The declarations of a function. -/
def level (d : FunDef) : Level :=
  let id := d.id.getD default
  .ofFunction id d (c.function id)

/-- The variables of the module by name. -/
def module : Bindings VarId :=
  c.program.vars.filterMap fun d => d.binding.map fun v => (d.var.name.name, v)

end CheckedProgram

namespace CheckedOk

variable {p : Program} {c : CheckedProgram} {s : State}

theorem lookup_module (h : CheckedOk p c s) (x : String) :
    List.lookup x c.module = List.lookup x s.varEnv.module := by
  have hmem : ∀ v, (x, v) ∈ c.module → List.lookup x s.varEnv.module = some v := by
    intro v hv
    obtain ⟨d, hd, hdv⟩ := List.mem_filterMap.1 hv
    obtain ⟨w, hw, heq⟩ := Option.map_eq_some_iff.1 hdv
    cases heq
    obtain ⟨v', r, t, hb, hm, -⟩ := h.globals d hd
    cases hb.symm.trans hw
    exact hm
  cases hs : List.lookup x s.varEnv.module with
  | some v =>
    obtain ⟨d, hd, hx, hb⟩ := h.module x v hs
    have hin : (x, v) ∈ c.module :=
      List.mem_filterMap.2 ⟨d, hd, by rw [hb, ← hx]; rfl⟩
    obtain ⟨w, hw⟩ := exists_lookup_of_mem hin
    rw [hw, ← hmem w (Bindings.mem_of_lookup hw), hs]
  | none =>
    cases hc : List.lookup x c.module with
    | none => rfl
    | some v =>
      rw [hmem v (Bindings.mem_of_lookup hc)] at hs
      cases hs

theorem nearest_module (h : CheckedOk p c s) (x : String) (lv : List Level) :
    nearest c.module x lv = nearest s.varEnv.module x lv := by
  induction lv with
  | nil => rfl
  | cons l outer ih => simp only [nearest, h.lookup_module, ih]

theorem level_eq (h : CheckedOk p c s) {d : FunDef} {id : FunId} {f : Function}
    (hid : d.id = some id) (hf : s.functions[id.index]? = some f) :
    c.level d = .ofFunction id d f := by
  have hget : c.function id = f := by
    rw [CheckedProgram.function, ← h.functions_eq]
    exact get_of_getElem? hf
  simp only [CheckedProgram.level, hid, Option.getD_some, hget]

/-- What holds of a function of a checked program, at any depth. -/
theorem function_ok (h : CheckedOk p c s) {outer : List FunDef} {d : FunDef}
    (hd : c.Nest outer d) : ∃ id f,
      (s.facts c.classes).FunctionOk (outer.map c.level) d id f ∧
        (s.facts c.classes).FunsOk (c.level d :: outer.map c.level) d.nested ∧
        c.level d = .ofFunction id d f := by
  have hok : (s.facts c.classes).FunOk (outer.map c.level) d := by
    induction hd with
    | method hk hm => exact (h.methods _ hk _ hm).1
    | function hf => exact h.functions _ hf
    | @nested outer e d _ hd ih =>
      cases e
      simp only [FunOk] at ih
      obtain ⟨id, f, hf, hn⟩ := ih
      rw [List.map_cons, h.level_eq hf.id_eq hf.record]
      exact hn.mem hd
  cases d
  simp only [FunOk] at hok
  obtain ⟨id, f, hf, hn⟩ := hok
  have hlevel := h.level_eq hf.id_eq hf.record
  exact ⟨id, f, hf, hlevel ▸ hn, hlevel⟩

/-- An alias that belongs to a function is that of one of its captures. -/
theorem capture_of_alias (h : CheckedOk p c s) {outer : List Level} {d : FunDef} {id : FunId}
    {f : Function} (hf : (s.facts c.classes).FunctionOk outer d id f) {v : VarId} {r : Variable}
    (hr : s.vars.get? v = some r) (hc : r.isCapture = true) (ho : r.owner = some id) :
    ∃ k ∈ f.captures, k.inner = v ∧ k.name = r.name := by
  obtain ⟨i, hi, ⟨fr, hfr, -⟩ | ⟨g, hg, k, hk, rfl⟩⟩ := h.nest.state.aliases v r hr hc
  · rw [h.nest.at_module.1] at hfr
    exact absurd hfr List.not_mem_nil
  · cases ho.symm.trans hi
    cases hf.record.symm.trans hg
    obtain ⟨⟨q, hq, hqn, -⟩, -⟩ := hf.captures k hk
    cases hr.symm.trans hq
    exact ⟨k, hk, rfl, hqn.symm⟩

/-- The record of a function that is nested in another one is that of a definition. -/
theorem exists_definition (h : CheckedOk p c s) {id q : FunId} {f : Function}
    (hf : s.functions[id.index]? = some f) (hq : f.parent = some q) :
    ∃ outer d, c.Nest outer d ∧ (s.facts c.classes).FunctionOk (outer.map c.level) d id f := by
  have hlt : id.index < c.functions.size :=
    h.functions_eq ▸ (Array.getElem?_eq_some_iff.1 hf).1
  obtain hroot | ⟨d, hd, hid⟩ := h.covers id.index hlt
  · obtain ⟨g, hg, hgp, -⟩ := h.root
    rw [hroot] at hg
    cases hf.symm.trans hg
    rw [hq] at hgp
    cases hgp
  · obtain ⟨outer, hnest⟩ := CheckedProgram.exists_nest hd
    obtain ⟨i, g, hg, -⟩ := h.function_ok hnest
    cases hg.id_eq.symm.trans hid
    cases hf.symm.trans hg.record
    exact ⟨outer, d, hnest, hg⟩

end CheckedOk

end ObjLang
