import ObjLang.Proofs.Emit.Function

/-!
# ObjLang.Proofs.Emit.Module — the code of a checked program

The module of a checked program has, beside the allocator and the entry, one function for each
function record.  It always links, and the linked functions have the code of their definitions.
-/

namespace ObjLang.Emit

open Check Check.Facts
open Code (Instr FunctionBuilder ModuleBuilder Func)

/-! ### The functions of definitions -/

/-- The functions of some definitions were added to a module. -/
structure AddsAll (c : CheckedProgram) (b b' : ModuleBuilder) (ds : List FunDef) : Prop where
  same : b' = { b with types := b'.types, functions := b'.functions }
  types : ∀ t ∈ b.types, t ∈ b'.types
  signed : Signed b.types → Signed b'.types
  functions : Signed b.types → ∃ gs, b'.functions = b.functions ++ gs ∧
    List.Forall₂ (fun d g => ∃ id f, Built c b'.types d id f g) ds gs

section

variable {p : Program} {c : CheckedProgram} {t₀ : Check.State}

theorem AddsAll.nil (b : ModuleBuilder) : AddsAll c b b [] :=
  ⟨rfl, fun _ h => h, fun h => h, fun _ => ⟨[], (List.append_nil _).symm, .nil⟩⟩

theorem AddsAll.append {b b₁ b' : ModuleBuilder} {ds es : List FunDef} (h : AddsAll c b b₁ ds)
    (h' : AddsAll c b₁ b' es) : AddsAll c b b' (ds ++ es) where
  same := by rw [h'.same, h.same]
  types := fun t ht => h'.types t (h.types t ht)
  signed := fun hs => h'.signed (h.signed hs)
  functions := by
    intro hs
    obtain ⟨gs, hgs, hds⟩ := h.functions hs
    obtain ⟨gs', hgs', hes⟩ := h'.functions (h.signed hs)
    refine ⟨gs ++ gs', by rw [hgs', hgs, List.append_assoc], ?_⟩
    refine List.rel_append (hds.imp ?_) hes
    rintro d g ⟨id, f, hb⟩
    exact ⟨id, f, hb.mono h'.types⟩

mutual

theorem addTree_ok (hc : CheckedOk p c t₀) {outer : List FunDef} {d : FunDef}
    (hd : c.Nest outer d) {b b' : ModuleBuilder} (h : addTree c b d = .ok b') :
    AddsAll c b b' d.all := by
  match d with
  | ⟨name, params, ret, decls, vars, nested, body, span, id⟩ =>
    simp only [addTree, except_bind_eq_ok] at h
    obtain ⟨b₁, h₁, h⟩ := h
    obtain ⟨types, i, f, g, rfl, htypes, hsigned, hbuilt⟩ := addFunDef_ok hc hd h₁
    have hself : AddsAll c b { b with types, functions := b.functions ++ [g] }
        [⟨name, params, ret, decls, vars, nested, body, span, id⟩] :=
      ⟨rfl, htypes, hsigned, fun hs => ⟨[g], rfl, .cons ⟨i, f, hbuilt hs⟩ .nil⟩⟩
    have hnested : AddsAll c _ b' (FunDef.allOf nested) :=
      addTrees_ok hc (fun e he => .nested hd he) h
    rw [FunDef.all_eq]
    exact hself.append hnested

theorem addTrees_ok (hc : CheckedOk p c t₀) {outer : List FunDef} {ds : List FunDef}
    (hd : ∀ d ∈ ds, c.Nest outer d) {b b' : ModuleBuilder} (h : addTrees c b ds = .ok b') :
    AddsAll c b b' (FunDef.allOf ds) := by
  match ds with
  | [] =>
    simp only [addTrees, except_pure_eq_ok] at h
    subst h
    exact .nil _
  | d :: ds =>
    simp only [addTrees, except_bind_eq_ok] at h
    obtain ⟨b₁, h₁, h⟩ := h
    have hfirst := addTree_ok hc (hd d List.mem_cons_self) h₁
    exact hfirst.append (addTrees_ok hc (fun e he => hd e (List.mem_cons_of_mem _ he)) h)

end

/-! ### The entry -/

/-- The code of the entry. -/
def EntryAt (c : CheckedProgram) (N : Names) (arr : Array Op) : Prop :=
  ∃ n b, BlockAt c N arr c.program.body 0 0 n b ∧
    CodeAt N arr [if endsInValue c.program.body then .localGet scratchName else .const 0] b arr.size

theorem scratch_mem (hc : CheckedOk p c t₀) {lv : List Level} {passes : String → Bool}
    {ret : Option Ty} {ss : List Stmt} {s s' : State} {code : List Instr}
    (hss : (t₀.facts c.classes).BlockOk lv passes ret ss)
    (hd : Declares (t₀.facts c.classes) lv s) (h : block c ss s = .ok (code, s'))
    (hend : endsInValue ss = true) : scratchName ∈ s'.function.names := by
  induction ss generalizing s code with
  | nil => exact absurd hend Bool.false_ne_true
  | cons st ss ih =>
    simp only [BlockOk] at hss
    obtain ⟨hst, hss⟩ := hss
    simp only [block, bind_eq_ok, pure_eq_ok, Prod.mk.injEq] at h
    obtain ⟨_, s₁, h₁, _, _, h₂, rfl, rfl⟩ := h
    have hg := stmt_gen hc hst hd h₁
    cases ss with
    | nil =>
      simp only [block, pure_eq_ok, Prod.mk.injEq] at h₂
      obtain ⟨rfl, rfl⟩ := h₂
      cases st with
      | expr value span =>
        simp only [StmtOk] at hst
        obtain ⟨_, he⟩ := hst
        simp only [stmt, bind_eq_ok, addLocal_eq_ok, pure_eq_ok, Prod.mk.injEq] at h₁
        obtain ⟨_, _, ⟨-, rfl⟩, _, _, h₁, rfl, rfl⟩ := h₁
        have hlist : scratchName.toList = '#' :: ['s', 'c', 'r', 'a', 't', 'c', 'h'] := by decide
        have hadd : Emits s { s with function := s.function.addLocal scratchName } :=
          emits_function (Code.FunctionBuilder.grows_addLocal _ hlist)
        exact (expr_gen hc he (hd.later hadd) h₁).emits.function.mem
          (Code.FunctionBuilder.mem_addLocal _ _)
      | _ => simp [endsInValue] at hend
    | cons st' ss =>
      exact ih hss (hd.later hg.emits) h₂ (by simpa [endsInValue, List.getLast?_cons_cons] using hend)

/-- The entry that was generated for a program. -/
structure EntryBuilt (c : CheckedProgram) (types : List Code.FuncType) (g : Func) : Prop where
  name : g.name = entryName
  params : g.params = []
  nodup : g.locals.Nodup
  made : ∀ x ∈ g.locals, ∃ rest, x.toList = '#' :: rest
  labels : (Code.labels g.body).Nodup
  links : ∀ m, Named c m → (∀ t ∈ types, (m.type? t.name).isSome = true) →
    ∃ arr, g.link m = .ok ⟨g.name, 0, g.locals.length, arr⟩ ∧ EntryAt c (m.names g) arr

theorem addEntry_ok (hc : CheckedOk p c t₀) {b b' : ModuleBuilder} (h : addEntry c b = .ok b') :
    ∃ types g, b' = { b with types, functions := b.functions ++ [g] } ∧
      (∀ t ∈ b.types, t ∈ types) ∧ (Signed b.types → Signed types) ∧
      (Signed b.types → EntryBuilt c types g) := by
  simp only [addEntry, assemble, except_bind_eq_ok, except_pure_eq_ok] at h
  obtain ⟨⟨code, s'⟩, hcode, rfl⟩ := h
  have hrun : (do
      let code ← block c c.program.body
      return code ++ (if endsInValue c.program.body then [.localGet scratchName] else [.const 0]) :
      EmitM (List Instr)) ⟨{ name := entryName }, b⟩ = .ok (code, s') := hcode
  simp only [bind_eq_ok, pure_eq_ok, Prod.mk.injEq] at hrun
  obtain ⟨body, s₁, h₁, rfl, rfl⟩ := hrun
  have hdecl : Declares (t₀.facts c.classes) [] ⟨{ name := entryName }, b⟩ := by
    rintro x v r ⟨l, outer, hl, -⟩ -
    cases hl
  have hg₁ := block_gen hc hc.body hdecl h₁
  have hlast : Gen c s' s'
      [if endsInValue c.program.body then .localGet scratchName else .const 0] _ :=
    Gen.one fun m g _ hw => by
      split
      · next hend => exact hw.names _ (scratch_mem hc hc.body hdecl h₁ hend)
      · trivial
  have hall := hg₁.append hlast.toStmt
  have hemits := hall.emits
  have hcases : (if endsInValue c.program.body then [Instr.localGet scratchName] else [.const 0])
      = [if endsInValue c.program.body then .localGet scratchName else .const 0] := by
    split <;> rfl
  rw [hcases]
  let g : Func := (s'.function.emitAll (body ++ [if endsInValue c.program.body then
    .localGet scratchName else .const 0])).build
  have hbody : g.body = body ++ [if endsInValue c.program.body then .localGet scratchName
      else .const 0] := by
    have hempty : s'.function.body = #[] := hemits.function.body
    simp [g, FunctionBuilder.emitAll, FunctionBuilder.build, hempty]
  have hparams : g.params = [] := hemits.function.params
  have hnames : s'.function.names = g.locals := by
    have hp : s'.function.params = [] := hemits.function.params
    simp [FunctionBuilder.names, hp, g, FunctionBuilder.emitAll, FunctionBuilder.build]
  have hnd : g.locals.Nodup := by
    rw [← hnames]
    exact hemits.function.nodup List.nodup_nil
  refine ⟨s'.module.types, g, ?_, hemits.types, hemits.signed, fun hsigned => ?_⟩
  · rw [hemits.module]
    rfl
  · refine ⟨hemits.function.name, hparams, hnd, fun x hx => ?_, ?_, fun m hm htypes => ?_⟩
    · rw [← hnames] at hx
      obtain hx | hx := hemits.function.made x hx
      · exact absurd hx List.not_mem_nil
      · exact hx
    · rw [hbody]
      refine ((block_labels h₁).behind ?_).nodup
      split <;> rfl
    · have hgnames : g.params ++ g.locals = s'.function.names := by
        rw [hparams, List.nil_append, hnames]
      have hw : Within m g s' :=
        ⟨fun x hx => hgnames ▸ hx, htypes, hemits.signed hsigned⟩
      obtain ⟨ops, hl, hops⟩ := hall.links m g hm hw {}
      rw [← hbody] at hl
      have hbodyLink : g.body.foldlM (LinkState.link m g) {} = .ok ⟨ops.toArray, []⟩ := by
        simpa using hl
      have hlink := func_link (by rw [hparams]; exact hnd) hbodyLink
      rw [hparams] at hlink
      refine ⟨ops.toArray, hlink, ?_⟩
      obtain ⟨n, b₁, hb₁, hb₂, -⟩ := hops ops.toArray fun i op hi => by simpa using hi
      have hsize : ({} : LinkState).code.size + ops.length = ops.toArray.size := by simp
      rw [hsize] at hb₂
      exact ⟨n, b₁, hb₁, hb₂⟩

/-! ### Modules -/

/-- The function of the root class that runs on new objects. -/
def rootFunction (c : CheckedProgram) : Func where
  name := (c.function c.rootInit).emitted
  params := varNames c (c.function c.rootInit).params
  locals := []
  body := [.const 0]

/-- The module that was generated for a checked program. -/
structure Generated (c : CheckedProgram) (o : Options) (m : Code.Module) : Prop where
  imports : m.imports = imports o
  memory : m.memory.minPages = o.memoryPages
  globals : m.globals = ⟨heapName, true, word o.heapBase⟩ ::
    c.program.vars.map fun d => ⟨d.var.name.name, true, d.init.word⟩
  table : m.table = c.classes.vtable.entries
  names : m.functionNames.Nodup
  entry : m.entry = ⟨o.entryExport, entryName, endsInValue c.program.body⟩
  signed : Signed m.types
  arities : ∀ f ∈ c.functions, ∃ t ∈ m.types, t.params = f.totalArity
  functions : ∃ gs g, m.functions = [allocFunction, rootFunction c] ++ gs ++ [g] ∧
    List.Forall₂ (fun d g => ∃ id f, Built c m.types d id f g) c.program.allFunctions gs ∧
    EntryBuilt c m.types g

theorem foldl_addGlobal (ds : List VarDef) (b : ModuleBuilder) :
    ds.foldl (fun b d => b.addGlobal d.var.name.name d.init.word) b
      = { b with globals := b.globals
            ++ ds.map fun d => ⟨d.var.name.name, true, d.init.word⟩ } := by
  induction ds generalizing b with
  | nil => simp
  | cons d ds ih =>
    rw [List.foldl_cons, ih]
    simp [ModuleBuilder.addGlobal]

theorem foldl_signature (fs : List Function) (b : ModuleBuilder) (hb : Signed b.types) :
    ∃ types, Signed types ∧ (∀ t ∈ b.types, t ∈ types) ∧
      (∀ f ∈ fs, ∃ t ∈ types, t.params = f.totalArity) ∧
      fs.foldl (fun b f => b.signature f.totalArity) b = { b with types } := by
  induction fs generalizing b with
  | nil => exact ⟨b.types, hb, fun t ht => ht, fun f hf => absurd hf List.not_mem_nil, rfl⟩
  | cons f fs ih =>
    obtain ⟨types, ht, hsub, hfs, heq⟩ := ih (b.signature f.totalArity) (signed_signature hb _)
    obtain ⟨t, htm, hparams⟩ := mem_signature b f.totalArity
    refine ⟨types, ht, fun u hu => hsub u (types_signature hu),
      List.forall_mem_cons.2 ⟨⟨t, hsub t htm, hparams⟩, hfs⟩, ?_⟩
    rw [List.foldl_cons, heq, signature_eq]

theorem skeleton_eq (c : CheckedProgram) (o : Options) : ∃ types, Signed types ∧
    (∀ f ∈ c.functions, ∃ t ∈ types, t.params = f.totalArity) ∧
    skeleton c o = {
      memory := ⟨o.memoryModule, o.memoryField, o.memoryPages⟩
      imports := imports o
      types
      globals := ⟨heapName, true, word o.heapBase⟩ ::
        c.program.vars.map fun d => ⟨d.var.name.name, true, d.init.word⟩
      table := c.classes.vtable.entries } := by
  let start : ModuleBuilder := {
    memory := ⟨o.memoryModule, o.memoryField, o.memoryPages⟩
    imports := imports o
    globals := ⟨heapName, true, word o.heapBase⟩ ::
      c.program.vars.map fun d => ⟨d.var.name.name, true, d.init.word⟩ }
  obtain ⟨types, ht, -, harities, heq⟩ := foldl_signature c.functions.toList start
    fun t ht => absurd ht List.not_mem_nil
  refine ⟨types, ht, fun f hf => harities f (Array.mem_toList_iff.2 hf), ?_⟩
  simp only [skeleton, foldl_addGlobal, ← Array.foldl_toList]
  exact congrArg (ModuleBuilder.setTable · _) heq

theorem addRootInit_ok {b b' : ModuleBuilder} (h : addRootInit c b = .ok b') :
    b' = b.addFunction (rootFunction c) := by
  simp only [addRootInit, except_bind_eq_ok, except_pure_eq_ok] at h
  obtain ⟨b₁, h₁, rfl⟩ := h
  obtain ⟨rfl, -⟩ := addParams_ok h₁ rfl
  rfl

/-- All functions of a program were added to the module. -/
structure Assembled (c : CheckedProgram) (o : Options) (b : ModuleBuilder) : Prop where
  shape : ∃ types functions, b = {
    memory := ⟨o.memoryModule, o.memoryField, o.memoryPages⟩
    imports := imports o
    types, functions
    globals := ⟨heapName, true, word o.heapBase⟩ ::
      c.program.vars.map fun d => ⟨d.var.name.name, true, d.init.word⟩
    table := c.classes.vtable.entries }
  signed : Signed b.types
  arities : ∀ f ∈ c.functions, ∃ t ∈ b.types, t.params = f.totalArity
  functions : ∃ gs g, b.functions = [allocFunction, rootFunction c] ++ gs ++ [g] ∧
    List.Forall₂ (fun d g => ∃ id f, Built c b.types d id f g) c.program.allFunctions gs ∧
    EntryBuilt c b.types g

theorem assembled (hc : CheckedOk p c t₀) {o : Options} {b₁ b₂ b₃ b₄ : ModuleBuilder}
    (h₁ : addRootInit c ((skeleton c o).addFunction allocFunction) = .ok b₁)
    (h₂ : addTrees c b₁ (c.program.classes.flatMap (·.methods)) = .ok b₂)
    (h₃ : addTrees c b₂ c.program.functions = .ok b₃) (h₄ : addEntry c b₃ = .ok b₄) :
    Assembled c o b₄ := by
  obtain ⟨types, hsigned, harities, hskeleton⟩ := skeleton_eq c o
  obtain rfl := addRootInit_ok h₁
  rw [hskeleton] at h₂
  have hmethods : ∀ d ∈ c.program.classes.flatMap (·.methods), c.Nest [] d := by
    intro d hd
    obtain ⟨k, hk, hd⟩ := List.mem_flatMap.1 hd
    exact .method hk hd
  have hadds := (addTrees_ok hc hmethods h₂).append
    (addTrees_ok hc (fun d hd => .function hd) h₃)
  rw [← allOf_append] at hadds
  obtain ⟨types', g, rfl, htypes, hsigned', hentry⟩ := addEntry_ok hc h₄
  have hs₃ : Signed b₃.types := hadds.signed hsigned
  obtain ⟨gs, hgs, hbuilt⟩ := hadds.functions hsigned
  have hsame := hadds.same
  refine ⟨⟨types', b₃.functions ++ [g], ?_⟩, hsigned' hs₃, fun f hf => ?_, gs, g, ?_, ?_,
    hentry hs₃⟩
  · rw [hsame]
    rfl
  · obtain ⟨t, ht, hparams⟩ := harities f hf
    exact ⟨t, htypes t (hadds.types t ht), hparams⟩
  · rw [hgs]
    rfl
  · refine hbuilt.imp ?_
    rintro d g ⟨id, f, hb⟩
    exact ⟨id, f, hb.mono htypes⟩

theorem module_ok (hc : CheckedOk p c t₀) {o : Options} {m : Code.Module}
    (h : Emit.module c o = .ok m) : Generated c o m := by
  simp only [Emit.module, except_bind_eq_ok] at h
  obtain ⟨b₁, h₁, b₂, h₂, b₃, h₃, b₄, h₄, h⟩ := h
  obtain ⟨⟨types, functions, rfl⟩, hsigned, harities, gs, g, hgs, hbuilt, he⟩ :=
    assembled hc h₁ h₂ h₃ h₄
  unfold ModuleBuilder.build at h
  simp only [ModuleBuilder.setEntry] at h
  split at h
  · cases h
  · next hrep =>
    cases h
    have hmem : ∀ t, t ∈ types.mergeSort (fun s t => s.params ≤ t.params) ↔ t ∈ types :=
      fun t => List.mem_mergeSort
    refine ⟨rfl, rfl, rfl, rfl, (Code.nodup_of_firstRepeated hrep).1, rfl, ?_, ?_, gs, g, hgs, ?_,
      ?_⟩
    · exact fun t ht => hsigned t ((hmem t).1 ht)
    · intro f hf
      obtain ⟨t, ht, hparams⟩ := harities f hf
      exact ⟨t, (hmem t).2 ht, hparams⟩
    · refine hbuilt.imp ?_
      rintro d g ⟨id, f, hb⟩
      exact ⟨id, f, hb.mono fun t ht => (hmem t).2 ht⟩
    · exact ⟨he.name, he.params, he.nodup, he.made, he.labels,
        fun m hm hall => he.links m hm fun t ht => hall t ((hmem t).2 ht)⟩

end

end ObjLang.Emit
