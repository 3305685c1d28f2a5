import ObjLang.Emit
import ObjLang.Proofs.Emit.Labels
import ObjLang.Proofs.Emit.Stmt
import ObjLang.Proofs.Check.Program

/-!
# ObjLang.Proofs.Emit.Function — the code of checked functions

The function generated for a definition has its parameters, then its captures, then its variables, all
of different names, and then locals that the generator made up.  Its linked code moves captured
parameters into cells, gives the variables their first values, and runs the statements.
-/

namespace ObjLang.Emit

open Check Check.Facts
open Code (Instr FunctionBuilder ModuleBuilder Func)

/-! ### What a function looks like -/

/-- The code that moves the captured parameters of a function into cells. -/
def boxCode (c : CheckedProgram) (f : Function) : List Instr :=
  ((f.params.map c.var).filter (·.refed)).flatMap boxParam

/-- The code that gives variables their first values. -/
def initCode (c : CheckedProgram) (vars : List VarDef) : List Instr :=
  vars.flatMap fun d => initLocal (c.var (d.binding.getD default)) d.init

/-- The code of a function definition. -/
def FunctionAt (c : CheckedProgram) (N : Names) (arr : Array Op) (d : FunDef) (f : Function) :
    Prop :=
  ∃ b₁ b₂ n b₃, CodeAt N arr (boxCode c f) 0 b₁ ∧ CodeAt N arr (initCode c d.vars) b₁ b₂ ∧
    BlockAt c N arr d.body 0 b₂ n b₃ ∧ CodeAt N arr [.const 0] b₃ arr.size

/-- The names of variables. -/
def varNames (c : CheckedProgram) (vs : List VarId) : List String := vs.map fun v => (c.var v).name

/-- A generated function has the parameters and variables of a function record. -/
structure Frames (c : CheckedProgram) (f : Function) (g : Func) : Prop where
  name : g.name = f.emitted
  params : g.params = varNames c (f.params ++ f.captures.aliases)
  locals : varNames c f.locals <+: g.locals
  nodup : (g.params ++ g.locals).Nodup
  /-- All other names are made up by the generator. -/
  made : ∀ x ∈ g.params ++ g.locals,
    x ∈ varNames c (f.params ++ f.captures.aliases ++ f.locals) ∨ ∃ rest, x.toList = '#' :: rest

/-- A function that was generated for a definition, with the signatures that it uses. -/
structure Built (c : CheckedProgram) (types : List Code.FuncType) (d : FunDef) (id : FunId)
    (f : Function) (g : Func) : Prop where
  id_eq : d.id = some id
  record : c.functions[id.index]? = some f
  frames : Frames c f g
  labels : (Code.labels g.body).Nodup
  links : ∀ m, Named c m → (∀ t ∈ types, (m.type? t.name).isSome = true) →
    ∃ arr, g.link m = .ok ⟨g.name, g.params.length, (g.params ++ g.locals).length, arr⟩ ∧
      FunctionAt c (m.names g) arr d f

theorem Built.mono {c : CheckedProgram} {types types' : List Code.FuncType} {d : FunDef}
    {id : FunId} {f : Function} {g : Func} (h : Built c types d id f g)
    (ht : ∀ t ∈ types, t ∈ types') : Built c types' d id f g :=
  ⟨h.id_eq, h.record, h.frames, h.labels, fun m hm hall => h.links m hm fun t htm => hall t (ht t htm)⟩

/-! ### Declaring parameters and variables -/

theorem addParams_ok {b b' : FunctionBuilder} {xs : List String}
    (h : addParams b xs = .ok b') (hb : b.locals = []) :
    b' = { b with params := b.params ++ xs } ∧ (b.params.Nodup → b'.params.Nodup) := by
  induction xs generalizing b with
  | nil =>
    simp only [addParams, List.foldlM_nil, except_pure_eq_ok] at h
    subst h
    simp
  | cons x xs ih =>
    simp only [addParams, List.foldlM_cons, except_bind_eq_ok] at h
    obtain ⟨b₁, h₁, h⟩ := h
    unfold FunctionBuilder.addParam at h₁
    split at h₁
    · cases h₁
    · next hx =>
      cases h₁
      obtain ⟨rfl, hnd⟩ := ih h hb
      refine ⟨by simp, fun hp => hnd ?_⟩
      have hnot : x ∉ b.params := by
        have hx := mt FunctionBuilder.declares_iff.2 hx
        rwa [FunctionBuilder.names, hb, List.append_nil] at hx
      refine List.nodup_append.2 ⟨hp, List.nodup_singleton x, ?_⟩
      rintro y hy z hz rfl
      exact hnot (List.mem_singleton.1 hz ▸ hy)

theorem foldl_addLocal {b : FunctionBuilder} {xs : List String} (h : (b.names ++ xs).Nodup) :
    xs.foldl FunctionBuilder.addLocal b = { b with locals := b.locals ++ xs } := by
  induction xs generalizing b with
  | nil => simp
  | cons x xs ih =>
    have hx : b.declares x = false := by
      rw [Bool.eq_false_iff]
      intro hd
      have hmem := FunctionBuilder.declares_iff.1 hd
      exact (List.nodup_append.1 h).2.2 x hmem x List.mem_cons_self rfl
    have hadd : b.addLocal x = { b with locals := b.locals ++ [x] } := by
      simp [FunctionBuilder.addLocal, hx]
    rw [List.foldl_cons, hadd, ih (by simpa [FunctionBuilder.names] using h)]
    simp

section

variable {p : Program} {c : CheckedProgram} {t₀ : Check.State}

theorem forall₂_map_eq {α β γ : Type} {R : α → β → Prop} {f : α → γ} {g : β → γ}
    {as : List α} {bs : List β} (h : List.Forall₂ R as bs) (hfg : ∀ a b, R a b → g b = f a) :
    bs.map g = as.map f := by
  induction h with
  | nil => rfl
  | cons hr _ ih => rw [List.map_cons, List.map_cons, ih, hfg _ _ hr]

section

variable {outer : List Level} {d : FunDef} {id : FunId} {f : Function}

theorem varNames_params (hc : CheckedOk p c t₀)
    (hf : (t₀.facts c.classes).FunctionOk outer d id f) :
    varNames c f.params = d.params.map (·.name.name) := by
  have hfst : (f.params.zip f.paramTypes).map Prod.fst = f.params :=
    List.map_fst_zip (Nat.le_of_eq hf.params_length)
  rw [← hfst, varNames, List.map_map]
  refine forall₂_map_eq hf.params ?_
  rintro q vt ⟨r, hr, hn, -⟩
  rw [Function.comp, var_eq hc hr, hn]

theorem varNames_locals (hc : CheckedOk p c t₀)
    (hf : (t₀.facts c.classes).FunctionOk outer d id f) :
    varNames c f.locals = d.vars.map (·.var.name.name) := by
  refine forall₂_map_eq hf.locals ?_
  rintro q v ⟨-, r, t, hr, hn, -⟩
  rw [var_eq hc hr, hn]

theorem varNames_aliases (hc : CheckedOk p c t₀)
    (hf : (t₀.facts c.classes).FunctionOk outer d id f) :
    varNames c f.captures.aliases = f.captures.map Capture.name := by
  rw [varNames, Captures.aliases, List.map_map]
  refine List.map_congr_left fun k hk => ?_
  obtain ⟨⟨r, hr, hn, -⟩, -⟩ := hf.captures k hk
  rw [Function.comp, var_eq hc hr, hn]

/-- The names in the records of a function are those of its definition. -/
theorem varNames_eq (hc : CheckedOk p c t₀)
    (hf : (t₀.facts c.classes).FunctionOk outer d id f) :
    varNames c (f.params ++ f.captures.aliases ++ f.locals)
      = d.params.map (·.name.name) ++ f.captures.map Capture.name
        ++ d.vars.map (·.var.name.name) := by
  rw [varNames, List.map_append, List.map_append]
  exact congrArg₂ _ (congrArg₂ _ (varNames_params hc hf) (varNames_aliases hc hf))
    (varNames_locals hc hf)

end

theorem nodup_varNames (hc : CheckedOk p c t₀) {outer : List Level} {d : FunDef} {id : FunId}
    {f : Function} (hf : (t₀.facts c.classes).FunctionOk outer d id f) :
    (varNames c (f.params ++ f.captures.aliases ++ f.locals)).Nodup := by
  rw [varNames_eq hc hf]
  refine hf.names.perm ?_
  rw [List.append_assoc, List.append_assoc]
  exact List.Perm.append_left _ List.perm_append_comm

theorem frame_ok (hc : CheckedOk p c t₀) {outer : List Level} {d : FunDef} {id : FunId}
    {f : Function} (hf : (t₀.facts c.classes).FunctionOk outer d id f) {b : FunctionBuilder}
    (h : frame c f = .ok b) :
    b = { name := f.emitted, params := varNames c (f.params ++ f.captures.aliases),
          locals := varNames c f.locals } ∧ b.names.Nodup := by
  have hnd := nodup_varNames hc hf
  simp only [frame, except_bind_eq_ok, except_pure_eq_ok] at h
  obtain ⟨b₁, h₁, rfl⟩ := h
  obtain ⟨rfl, -⟩ := addParams_ok h₁ rfl
  let start : FunctionBuilder :=
    { name := f.emitted, params := varNames c (f.params ++ f.captures.aliases) }
  have hstart : (start.names ++ varNames c f.locals).Nodup := by
    rw [varNames, List.map_append] at hnd
    simpa [start, FunctionBuilder.names, varNames] using hnd
  have hadd : (varNames c f.locals).foldl FunctionBuilder.addLocal start
      = { start with locals := varNames c f.locals } :=
    foldl_addLocal hstart
  refine ⟨hadd, ?_⟩
  have hnames' : ((varNames c f.locals).foldl FunctionBuilder.addLocal start).names
      = start.names ++ varNames c f.locals := by
    rw [hadd]
    simp [start, FunctionBuilder.names]
  exact hnames' ▸ hstart

/-! ### The start of a function -/

theorem boxParams_gen {f : Function} {s s' : State} {code : List Instr}
    (hn : ∀ v ∈ f.params, (c.var v).name ∈ s.function.names)
    (h : boxParams c f s = .ok (code, s')) :
    Gen c s s' code fun N arr n a n' a' => CodeAt N arr (boxCode c f) a a' ∧ n' = n := by
  have hmem : ∀ r ∈ (f.params.map c.var).filter (·.refed), r.name ∈ s.function.names := by
    intro r hr
    obtain ⟨v, hv, rfl⟩ := List.mem_map.1 (List.mem_filter.1 hr).1
    exact hn v hv
  have hbox : ∀ m g, Named c m → cellName ∈ g.params ++ g.locals → ∀ r : Variable,
      r.name ∈ g.params ++ g.locals → ∀ i ∈ boxParam r, Resolves m g i := by
    intro m g hm hcell r hr i hi
    simp only [boxParam, allocWords, List.cons_append, List.nil_append, List.mem_cons,
      List.not_mem_nil, or_false] at hi
    obtain rfl | rfl | rfl | rfl | rfl | rfl | rfl | rfl := hi
    · trivial
    · exact hm.alloc
    · exact hcell
    · exact hcell
    · exact hr
    · trivial
    · exact hcell
    · exact hr
  simp only [boxParams] at h
  split at h
  · simp only [bind_eq_ok, addLocal_eq_ok, pure_eq_ok, Prod.mk.injEq] at h
    obtain ⟨_, _, ⟨-, rfl⟩, rfl, rfl⟩ := h
    have hlist : cellName.toList = '#' :: ['c', 'e', 'l', 'l'] := by decide
    have hemits := emits_function (Code.FunctionBuilder.grows_addLocal s.function hlist)
    refine ⟨hemits, ?_, fun N arr a a' hcode => ⟨hcode, FunctionBuilder.nextLabel_addLocal _ _⟩⟩
    intro m g hm hw i hi
    obtain ⟨r, hr, hi⟩ := List.mem_flatMap.1 hi
    exact hbox m g hm (hw.names _ (Code.FunctionBuilder.mem_addLocal _ _)) r
      (hw.names _ (hemits.function.mem (hmem r hr))) i hi
  · next hempty =>
    simp only [pure_eq_ok, Prod.mk.injEq] at h
    obtain ⟨rfl, rfl⟩ := h
    have hnil : (f.params.map c.var).filter (·.refed) = [] := by simpa using hempty
    rw [boxCode, hnil]
    exact Gen.of_resolves fun _ _ _ _ i hi => absurd hi List.not_mem_nil

theorem boxParams_labels {f : Function} {s s' : State} {code : List Instr}
    (h : boxParams c f s = .ok (code, s')) :
    Code.labels code = [] ∧ s'.function.nextLabel = s.function.nextLabel := by
  simp only [boxParams] at h
  split at h
  · simp only [bind_eq_ok, addLocal_eq_ok, pure_eq_ok, Prod.mk.injEq] at h
    obtain ⟨_, _, ⟨-, rfl⟩, rfl, rfl⟩ := h
    exact ⟨labels_flatMap fun v _ => rfl, FunctionBuilder.nextLabel_addLocal _ _⟩
  · simp only [pure_eq_ok, Prod.mk.injEq] at h
    obtain ⟨rfl, rfl⟩ := h
    exact ⟨labels_flatMap fun v _ => rfl, rfl⟩

theorem labels_initCode (defs : List VarDef) : Code.labels (initCode c defs) = [] := by
  refine labels_flatMap fun d _ => ?_
  unfold initLocal
  split <;> rfl

theorem initLocals_eq_ok {defs : List VarDef} {s s' : State} {code : List Instr}
    (h : initLocals c defs s = .ok (code, s')) : s' = s ∧ code = initCode c defs := by
  have hall : ∀ {defs : List VarDef} {s s' : State} {codes : List (List Instr)},
      (defs.mapM fun d => (do
        return initLocal (← bound c d.binding d.var.name.name) d.init : EmitM (List Instr))) s
          = .ok (codes, s') →
      s' = s ∧ codes = defs.map fun d => initLocal (c.var (d.binding.getD default)) d.init := by
    intro defs
    induction defs with
    | nil =>
      intro s s' codes h
      simp only [List.mapM_nil, pure_eq_ok, Prod.mk.injEq] at h
      exact ⟨h.2, h.1⟩
    | cons d defs ih =>
      intro s s' codes h
      simp only [List.mapM_cons, bind_eq_ok, bound_eq_ok, pure_eq_ok, Prod.mk.injEq] at h
      obtain ⟨_, s₁, ⟨_, _, ⟨v, hv, rfl, rfl⟩, rfl, rfl⟩, rest, s₂, hrest, rfl, rfl⟩ := h
      obtain ⟨rfl, rfl⟩ := ih hrest
      rw [List.map_cons, hv]
      exact ⟨rfl, rfl⟩
  simp only [initLocals, bind_eq_ok, pure_eq_ok, Prod.mk.injEq] at h
  obtain ⟨codes, s₁, hdefs, rfl, rfl⟩ := h
  obtain ⟨rfl, rfl⟩ := hall hdefs
  exact ⟨rfl, List.flatMap_def.symm⟩

theorem resolves_initCode {defs : List VarDef} {m : Code.Module} {g : Func} (hm : Named c m)
    (hn : ∀ d ∈ defs, (c.var (d.binding.getD default)).name ∈ g.params ++ g.locals) :
    ∀ i ∈ initCode c defs, Resolves m g i := by
  intro i hi
  obtain ⟨d, hd, hi⟩ := List.mem_flatMap.1 hi
  have hname := hn d hd
  unfold initLocal at hi
  split at hi
  · simp only [allocWords, List.cons_append, List.nil_append, List.mem_cons, List.not_mem_nil,
      or_false] at hi
    obtain rfl | rfl | rfl | rfl | rfl | rfl := hi
    · trivial
    · exact hm.alloc
    · exact hname
    · exact hname
    · trivial
    · trivial
  · simp only [List.mem_cons, List.not_mem_nil, or_false] at hi
    obtain rfl | rfl := hi
    · trivial
    · exact hname

/-! ### Whole functions -/

/-- What a function of a checked program may name is declared in its frame. -/
theorem own_mem (hc : CheckedOk p c t₀) {outer : List Level} {d : FunDef} {id : FunId}
    {f : Function} (hf : (t₀.facts c.classes).FunctionOk outer d id f) {x : String} {v : VarId}
    (hv : (t₀.facts c.classes).IsOwn (Level.ofFunction id d f :: outer) x v) :
    v ∈ f.params ++ f.captures.aliases ++ f.locals := by
  obtain ⟨l, _, hl, hv⟩ := hv
  cases hl
  obtain hv | ⟨r, hr, hcap, howner⟩ := hv
  · have hmem := Bindings.mem_of_lookup hv
    obtain hmem | hmem := List.mem_append.1 hmem
    · exact List.mem_append_left _ (List.mem_append_left _ (List.of_mem_zip hmem).2)
    · exact List.mem_append_right _ (List.of_mem_zip hmem).2
  · obtain ⟨k, hk, rfl, -⟩ := hc.capture_of_alias hf hr hcap howner
    exact List.mem_append_left _ (List.mem_append_right _ (List.mem_map_of_mem hk))

/-- The variables of a function have records, none of which is of the module. -/
theorem own_record {outer : List Level} {d : FunDef} {id : FunId}
    {f : Function} (hf : (t₀.facts c.classes).FunctionOk outer d id f) {v : VarId}
    (hv : v ∈ f.params ++ f.captures.aliases ++ f.locals) :
    ∃ r, t₀.vars.get? v = some r ∧ r.isGlobal = false ∧ r.owner = some id := by
  obtain hv | hv := List.mem_append.1 hv
  · obtain hv | hv := List.mem_append.1 hv
    · have hfst : (f.params.zip f.paramTypes).map Prod.fst = f.params :=
        List.map_fst_zip (Nat.le_of_eq hf.params_length)
      rw [← hfst] at hv
      obtain ⟨vt, hvt, rfl⟩ := List.mem_map.1 hv
      obtain ⟨q, -, r, hr, -, -, hk, ho, -⟩ := exists_of_forall₂ hf.params.flip hvt
      exact ⟨r, hr, by simp [Variable.isGlobal, hk], ho⟩
    · obtain ⟨k, hk, rfl⟩ := List.mem_map.1 hv
      obtain ⟨⟨r, hr, -, hkind, ho, -⟩, -⟩ := hf.captures k hk
      exact ⟨r, hr, by simp [Variable.isGlobal, hkind], ho⟩
  · obtain ⟨q, -, -, r, t, hr, -, -, hk, ho, -⟩ := exists_of_forall₂ hf.locals.flip hv
    exact ⟨r, hr, by simp [Variable.isGlobal, hk], ho⟩

/-- Parameters and variables of a function are no aliases. -/
theorem own_plain {outer : List Level} {d : FunDef} {id : FunId} {f : Function}
    (hf : (t₀.facts c.classes).FunctionOk outer d id f) {v : VarId}
    (hv : v ∈ f.params ++ f.locals) : ∃ r, t₀.vars.get? v = some r ∧ r.isCapture = false := by
  obtain hv | hv := List.mem_append.1 hv
  · have hfst : (f.params.zip f.paramTypes).map Prod.fst = f.params :=
      List.map_fst_zip (Nat.le_of_eq hf.params_length)
    rw [← hfst] at hv
    obtain ⟨vt, hvt, rfl⟩ := List.mem_map.1 hv
    obtain ⟨q, -, r, hr, -, -, hk, -⟩ := exists_of_forall₂ hf.params.flip hvt
    exact ⟨r, hr, by simp [Variable.isCapture, hk]⟩
  · obtain ⟨q, -, -, r, t, hr, -, -, hk, -⟩ := exists_of_forall₂ hf.locals.flip hv
    exact ⟨r, hr, by simp [Variable.isCapture, hk]⟩

theorem declares_frame (hc : CheckedOk p c t₀) {outer : List Level} {d : FunDef} {id : FunId}
    {f : Function} (hf : (t₀.facts c.classes).FunctionOk outer d id f) {s : State}
    (hs : ∀ x ∈ varNames c (f.params ++ f.captures.aliases ++ f.locals), x ∈ s.function.names) :
    Declares (t₀.facts c.classes) (Level.ofFunction id d f :: outer) s := by
  intro x v r hv hr
  have hmem := own_mem hc hf hv
  obtain ⟨r', hr', hg, -⟩ := own_record hf hmem
  cases hr.symm.trans hr'
  refine ⟨hg, ?_⟩
  rw [← var_eq hc hr]
  exact hs _ (List.mem_map_of_mem hmem)

theorem func_link {m : Code.Module} {g : Func} (hnd : (g.params ++ g.locals).Nodup)
    {ops : List Op} (h : g.body.foldlM (LinkState.link m g) {} = .ok ⟨ops.toArray, []⟩) :
    g.link m = .ok ⟨g.name, g.params.length, (g.params ++ g.locals).length, ops.toArray⟩ := by
  simp only [Func.link, h, eraseDups_of_nodup hnd]
  rfl

/-- The function of a definition at any depth. -/
theorem addFunDef_ok (hc : CheckedOk p c t₀) {outer : List FunDef} {d : FunDef}
    (hd : c.Nest outer d) {b b' : ModuleBuilder} (h : addFunDef c d b = .ok b') :
    ∃ types id f g, b' = { b with types, functions := b.functions ++ [g] } ∧
      (∀ t ∈ b.types, t ∈ types) ∧ (Signed b.types → Signed types) ∧
      (Signed b.types → Built c types d id f g) := by
  obtain ⟨id, f, hf, -, hlevel⟩ := hc.function_ok hd
  simp only [addFunDef, hf.id_eq, function_eq hc hf.record, assemble, except_bind_eq_ok,
    except_pure_eq_ok] at h
  obtain ⟨b₀, hframe, ⟨code, s'⟩, hcode, rfl⟩ := h
  obtain ⟨hb₀, hnd⟩ := frame_ok hc hf hframe
  have hrun : (do
      let boxes ← boxParams c f
      let inits ← initLocals c d.vars
      let body ← block c d.body
      return boxes ++ inits ++ body ++ [.const 0] : EmitM (List Instr)) ⟨b₀, b⟩
        = .ok (code, s') := hcode
  simp only [bind_eq_ok, pure_eq_ok, Prod.mk.injEq] at hrun
  obtain ⟨boxes, s₁, h₁, inits, s₂, h₂, body, s₃, h₃, rfl, rfl⟩ := hrun
  obtain ⟨rfl, rfl⟩ := initLocals_eq_ok h₂
  have hnames : b₀.names = varNames c (f.params ++ f.captures.aliases ++ f.locals) := by
    rw [hb₀]
    simp [FunctionBuilder.names, varNames]
  have hg₁ := boxParams_gen (c := c) (f := f) (s := ⟨b₀, b⟩) (fun v hv => by
    rw [hnames]
    exact List.mem_map_of_mem (List.mem_append_left _ (List.mem_append_left _ hv))) h₁
  have hdecl₀ : Declares (t₀.facts c.classes) (Level.ofFunction id d f :: outer.map c.level)
      ⟨b₀, b⟩ :=
    declares_frame hc hf fun x hx => hnames ▸ hx
  have hg₂ : Gen c s₂ s₂ (initCode c d.vars) _ := Gen.of_resolves fun m g hm hw => by
    refine resolves_initCode hm fun v hv => hw.names _ (hg₁.emits.function.mem ?_)
    obtain ⟨w, hw, hbind, -⟩ := exists_of_forall₂ hf.locals hv
    rw [hbind, hnames]
    exact List.mem_map_of_mem (List.mem_append_right _ hw)
  have hg₃ := block_gen hc hf.body (hdecl₀.later hg₁.emits) h₃
  have hzero : Gen c s' s' [.const 0] _ := Gen.one fun _ _ _ _ => trivial
  have hall := ((hg₁.toStmt.append hg₂.toStmt).append hg₃).append hzero.toStmt
  have hemits := hall.emits
  let g : Func := (s'.function.emitAll (boxes ++ initCode c d.vars ++ body ++ [.const 0])).build
  have hbody : g.body = boxes ++ initCode c d.vars ++ body ++ [.const 0] := by
    have hempty : s'.function.body = #[] := by rw [hemits.function.body, hb₀]
    simp [g, FunctionBuilder.emitAll, FunctionBuilder.build, hempty]
  have hgnames : g.params ++ g.locals = s'.function.names := rfl
  refine ⟨s'.module.types, id, f, g, ?_, hemits.types, hemits.signed, fun hsigned => ?_⟩
  · rw [hemits.module]
    rfl
  · refine ⟨hf.id_eq, hc.functions_eq ▸ hf.record, ?_, ?_, fun m hm htypes => ?_⟩
    · refine ⟨?_, ?_, ?_, ?_, ?_⟩
      · exact hemits.function.name.trans (by rw [hb₀])
      · exact hemits.function.params.trans (by rw [hb₀])
      · have hlocals := hemits.function.locals
        rw [hb₀] at hlocals
        exact hlocals
      · rw [hgnames]
        exact hemits.function.nodup hnd
      · rw [hgnames, ← hnames]
        exact hemits.function.made
    · obtain ⟨hboxes, -⟩ := boxParams_labels h₁
      have hhead : Code.labels (boxes ++ initCode c d.vars) = [] := by
        rw [labels_append, hboxes, labels_initCode, List.append_nil]
      rw [hbody]
      exact (((block_labels h₃).before hhead).behind rfl).nodup
    · have hw : Within m g s' :=
        ⟨fun x hx => hgnames ▸ hx, htypes, hemits.signed hsigned⟩
      obtain ⟨ops, hl, hops⟩ := hall.links m g hm hw {}
      rw [← hbody] at hl
      have hnd' : (g.params ++ g.locals).Nodup := hgnames ▸ hemits.function.nodup hnd
      refine ⟨ops.toArray, func_link hnd' (by simpa using hl), ?_⟩
      have hat := hops ops.toArray fun i op hi => by simpa using hi
      have hnext : b₀.nextLabel = 0 := by rw [hb₀]
      obtain ⟨n, b₃, ⟨_, b₂, ⟨_, b₁, ⟨hb₁, rfl⟩, hb₂, rfl⟩, hb₃⟩, hb₄, -⟩ := hat
      have hsize : ({} : LinkState).code.size + ops.length = ops.toArray.size := by simp
      rw [hnext] at hb₃
      rw [hsize] at hb₄
      exact ⟨b₁, b₂, n, b₃, hb₁, hb₂, hb₃, hb₄⟩

end

end ObjLang.Emit
