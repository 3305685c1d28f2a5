import ObjLang.Proofs.Emit.Module

/-!
# ObjLang.Proofs.Emit.Link — the linked module of a checked program

Every name in the code of a checked program leads somewhere, so its module links.  Functions have
different names; a name therefore leads to the function that was generated for it.
-/

namespace ObjLang

open Code (Func)

/-- The number of the function of a name. -/
def Code.Module.index (m : Code.Module) (x : String) : Nat :=
  (lastIndex? x m.functionNames).getD 0

namespace Emit

open Check Check.Facts
open Code (Instr)

/-- Generated functions that are written out, where all their names lead somewhere. -/
theorem plain_link {m : Code.Module} {g : Func} (hnd : (g.params ++ g.locals).Nodup)
    (h : ∀ i ∈ g.body, Resolves m g i) :
    g.link m = .ok ⟨g.name, g.params.length, (g.params ++ g.locals).length,
      (g.body.map (m.names g).op).toArray⟩ := by
  refine func_link hnd ((linkAll_of_resolves h {}).trans ?_)
  simp

/-- The linked module of a generated one. -/
structure LinkedOk (c : CheckedProgram) (o : Options) (m : Code.Module) (L : LinkedModule) :
    Prop where
  imports : L.imports = HostFunction.all.toArray
  functions : List.Forall₂ (fun g lf => g.link m = .ok lf) m.functions L.functions.toList
  globals : L.globals = (word o.heapBase :: c.program.vars.map (·.init.word)).toArray
  table : List.Forall₂ (fun x i => x ∈ m.functionNames ∧ i = m.index x)
    c.classes.vtable.entries L.table.toList
  memoryPages : L.memoryPages = o.memoryPages
  entry : L.entry = m.index entryName
  entryHasResult : L.entryHasResult = endsInValue c.program.body

theorem functionIndex_of_mem {m : Code.Module} {x : String} (h : x ∈ m.functionNames) :
    m.functionIndex x = .ok (m.index x) := by
  obtain ⟨i, hi, -⟩ := lastIndex?_of_mem h
  simp [Code.Module.functionIndex, Code.Module.index, hi]

theorem mem_functionNames {m : Code.Module} {g : Func} (hg : g ∈ m.functions) :
    g.name ∈ m.functionNames :=
  List.mem_append_right _ (List.mem_map_of_mem hg)

theorem link_imports (o : Options) : (imports o).mapM Code.Import.link = .ok HostFunction.all :=
  rfl

section

variable {p : Program} {c : CheckedProgram} {t₀ : Check.State} {o : Options} {m : Code.Module}

namespace Generated

theorem alloc_mem (h : Generated c o m) : allocFunction ∈ m.functions := by
  obtain ⟨gs, g, hgs, -, -⟩ := h.functions
  simp [hgs]

theorem root_mem (h : Generated c o m) : rootFunction c ∈ m.functions := by
  obtain ⟨gs, g, hgs, -, -⟩ := h.functions
  simp [hgs]

theorem entry_mem (h : Generated c o m) : ∃ g ∈ m.functions, EntryBuilt c m.types g := by
  obtain ⟨gs, g, hgs, -, hg⟩ := h.functions
  exact ⟨g, by simp [hgs], hg⟩

theorem definition (h : Generated c o m) {d : FunDef} (hd : d ∈ c.program.allFunctions) :
    ∃ id f, ∃ g ∈ m.functions, Built c m.types d id f g := by
  obtain ⟨gs, g', hgs, hds, -⟩ := h.functions
  obtain ⟨g, hg, id, f, hb⟩ := exists_of_forall₂ hds hd
  exact ⟨id, f, g, by simp [hgs, hg], hb⟩

/-- All names of a checked program are in its module. -/
theorem named (h : Generated c o m) (hc : CheckedOk p c t₀) : Named c m where
  functions := by
    intro id f hf
    obtain ⟨i⟩ := id
    have hi : i < c.functions.size := (Array.getElem?_eq_some_iff.1 hf).1
    obtain hroot | ⟨d, hd, hid⟩ := hc.covers i hi
    · have hname : (rootFunction c).name = f.emitted := by
        rw [rootFunction, hroot, function_eq hc (hc.functions_eq ▸ hf)]
      exact hname ▸ mem_functionNames h.root_mem
    · obtain ⟨id, f', g, hg, hb⟩ := h.definition hd
      cases hid.symm.trans hb.id_eq
      cases hf.symm.trans hb.record
      exact hb.frames.name ▸ mem_functionNames hg
  globals := by
    intro d hd
    rw [h.globals]
    refine List.mem_cons_of_mem _ ?_
    rw [List.map_map]
    exact List.mem_map_of_mem (f := fun d => d.var.name.name) hd
  hosts := by
    intro x hx
    refine List.mem_append_left _ ?_
    rw [h.imports]
    exact hx
  alloc := mem_functionNames h.alloc_mem

theorem type?_isSome {t : Code.FuncType} (ht : t ∈ m.types) :
    (m.type? t.name).isSome = true := by
  rw [Code.Module.type?, List.find?_isSome]
  exact ⟨t, ht, beq_self_eq_true _⟩

/-- A signature that is there has the number of parameters that its name says. -/
theorem arity_eq (h : Generated c o m) {k : Nat}
    (hk : (m.type? (Code.signatureName k)).isSome = true) (g : Func) :
    (m.names g).arity (Code.signatureName k) = k := by
  obtain ⟨t, ht⟩ := Option.isSome_iff_exists.1 hk
  have hname : t.name = Code.signatureName k := by simpa using List.find?_some ht
  have hmem : t ∈ m.types := List.mem_of_find?_eq_some ht
  rw [h.signed t hmem] at hname
  simp [Code.Module.names, ht, Code.signatureName_inj hname]

theorem alloc_link (h : Generated c o m) : allocFunction.link m = .ok ⟨allocName, 1, 2,
    (allocFunction.body.map (m.names allocFunction).op).toArray⟩ := by
  refine plain_link (by decide) ?_
  have hheap : heapName ∈ m.globals.map (·.name) := by
    rw [h.globals]
    exact List.mem_cons_self
  have hptr : "#ptr" ∈ allocFunction.params ++ allocFunction.locals := by decide
  have hwords : "#words" ∈ allocFunction.params ++ allocFunction.locals := by decide
  intro i hi
  simp only [allocFunction, List.mem_cons, List.not_mem_nil, or_false] at hi
  obtain rfl | rfl | rfl | rfl | rfl | rfl | rfl | rfl | rfl := hi
  · exact hheap
  · exact hptr
  · exact hheap
  · exact hwords
  · trivial
  · trivial
  · trivial
  · exact hheap
  · exact hptr

theorem root_link (hc : CheckedOk p c t₀) (m : Code.Module) : (rootFunction c).link m
    = .ok ⟨(rootFunction c).name, 1, 1, #[.const 0]⟩ := by
  obtain ⟨f, hf, -, -, -, -, -, hlen, -⟩ := hc.root
  have hparams : (rootFunction c).params.length = 1 := by
    rw [rootFunction, varNames, List.length_map, function_eq hc hf, hlen]
  have hlocals : (rootFunction c).locals = [] := rfl
  obtain ⟨x, hx⟩ := List.length_eq_one_iff.1 hparams
  have hlink := plain_link (m := m) (g := rootFunction c)
    (by rw [hx, hlocals]; exact List.nodup_singleton x)
    (by
      intro i hi
      obtain rfl := List.mem_singleton.1 hi
      trivial)
  rw [hlink, hlocals, List.append_nil, hparams]
  rfl

/-- The module of a checked program links. -/
theorem link (h : Generated c o m) (hc : CheckedOk p c t₀) :
    ∃ L, m.link = .ok L ∧ LinkedOk c o m L := by
  have hnamed := h.named hc
  have htypes : ∀ t ∈ m.types, (m.type? t.name).isSome = true := fun t ht => type?_isSome ht
  obtain ⟨lfs, hlfs, hfunctions⟩ : ∃ lfs, m.functions.mapM (Func.link m) = .ok lfs ∧
      List.Forall₂ (fun g lf => g.link m = .ok lf) m.functions lfs := by
    refine mapM_ok fun g hg => ?_
    obtain ⟨gs, g', hgs, hds, hentry⟩ := h.functions
    rw [hgs] at hg
    simp only [List.mem_append, List.mem_cons, List.not_mem_nil, or_false] at hg
    obtain ((rfl | rfl) | hg) | rfl := hg
    · exact ⟨_, h.alloc_link⟩
    · exact ⟨_, root_link hc m⟩
    · obtain ⟨d, -, id, f, hb⟩ := exists_of_forall₂ hds.flip hg
      obtain ⟨arr, harr, -⟩ := hb.links m hnamed htypes
      exact ⟨_, harr⟩
    · obtain ⟨arr, harr, -⟩ := hentry.links m hnamed htypes
      exact ⟨_, harr⟩
  have htargets : ∀ x ∈ m.table, x ∈ m.functionNames := by
    intro x hx
    rw [h.table] at hx
    obtain ⟨l, hl, hx⟩ := List.mem_flatMap.1 hx
    obtain ⟨e, he, rfl⟩ := List.mem_map.1 hx
    have hfind := ClassLayout.find?_of_mem_nodup (hc.laid.methods_nodup hl) he
    have htarget : l.target? e.name = some e.target := by
      rw [(hc.laid.indexed hl).target?_eq, hfind]
      rfl
    exact target_mem hc (hc.laid.get?_eq_some.2 ⟨hl, rfl⟩) htarget hnamed
  obtain ⟨table, htable, hall⟩ : ∃ table, m.table.mapM m.functionIndex = .ok table ∧
      List.Forall₂ (fun x i => m.functionIndex x = .ok i) m.table table :=
    mapM_ok fun x hx => ⟨_, functionIndex_of_mem (htargets x hx)⟩
  obtain ⟨g, hg, hentry⟩ := h.entry_mem
  have hentryName : entryName ∈ m.functionNames := hentry.name ▸ mem_functionNames hg
  refine ⟨⟨HostFunction.all.toArray, lfs.toArray, (m.globals.map (·.init)).toArray, table.toArray,
    m.memory.minPages, m.index entryName, endsInValue c.program.body⟩, ?_, ?_⟩
  · simp only [Code.Module.link, h.imports, link_imports, hlfs, htable, h.entry,
      functionIndex_of_mem hentryName]
    rfl
  · refine ⟨rfl, hfunctions, ?_, ?_, h.memory, rfl, rfl⟩
    · rw [h.globals]
      simp
    · rw [← h.table]
      refine List.Forall₂.imp ?_ ((List.forall₂_and_left _ _).2 ⟨htargets, hall⟩)
      rintro x i ⟨hx, hi⟩
      refine ⟨hx, ?_⟩
      rw [functionIndex_of_mem hx] at hi
      exact (Except.ok.inj hi).symm

end Generated

/-! ### Where names lead -/

/-- The host functions by their names in code. -/
def hostNames : List (String × HostFunction) :=
  [("#print_num", .printNum), ("#print_bool", .printBool), ("#print_none", .printNone),
    ("#abs", .abs), ("#min", .min), ("#max", .max), ("#pow", .pow), (checkInitName, .checkInit)]

theorem index_of_getElem? {x : String} (hnd : m.functionNames.Nodup) {i : Nat}
    (hi : m.functionNames[i]? = some x) : m.index x = i := by
  rw [Code.Module.index, lastIndex?_of_nodup hnd hi, Option.getD_some]

namespace LinkedOk

variable {L : LinkedModule}

theorem host (h : LinkedOk c o m L) (hg : Generated c o m) {x : String} {f : HostFunction}
    (hx : (x, f) ∈ hostNames) : L.import? (m.index x) = some f := by
  obtain ⟨i, hi⟩ := List.getElem?_of_mem hx
  have hnames : m.imports.map (·.name) = hostNames.map Prod.fst := by
    rw [hg.imports]
    rfl
  have hhosts : HostFunction.all = hostNames.map Prod.snd := rfl
  have hlt : i < (hostNames.map Prod.fst).length := by
    rw [List.length_map]
    exact (List.getElem?_eq_some_iff.1 hi).1
  have hname : m.functionNames[i]? = some x := by
    rw [Code.Module.functionNames, hnames, List.getElem?_append_left hlt, List.getElem?_map, hi]
    rfl
  rw [LinkedModule.import?, h.imports, index_of_getElem? hg.names hname, hhosts,
    List.getElem?_toArray, List.getElem?_map, hi]
  rfl

theorem function? (h : LinkedOk c o m L) (hg : Generated c o m) {g : Func}
    (hmem : g ∈ m.functions) : ∃ lf, g.link m = .ok lf ∧ L.import? (m.index g.name) = none ∧
      L.function? (m.index g.name) = some lf := by
  obtain ⟨i, hi⟩ := List.getElem?_of_mem hmem
  have hcount : m.imports.length = HostFunction.all.length := by
    rw [hg.imports]
    rfl
  have hname : m.functionNames[HostFunction.all.length + i]? = some g.name := by
    rw [Code.Module.functionNames, List.getElem?_append_right (by simp [hcount]),
      List.length_map, hcount, Nat.add_sub_cancel_left, List.getElem?_map, hi]
    rfl
  have hindex := index_of_getElem? hg.names hname
  have hlen := h.functions.length_eq
  have hlt := (List.getElem?_eq_some_iff.1 hi).1
  have hlf : i < L.functions.toList.length := hlen ▸ hlt
  have hlink := (List.forall₂_iff_get.1 h.functions).2 i hlt hlf
  have hget : m.functions.get ⟨i, hlt⟩ = g := (List.getElem?_eq_some_iff.1 hi).2
  rw [hget] at hlink
  refine ⟨_, hlink, ?_, ?_⟩
  · rw [LinkedModule.import?, h.imports, hindex]
    simp
  · have hsize : L.imports.size = HostFunction.all.length := by
      rw [h.imports]
      simp
    rw [LinkedModule.function?, hindex, hsize, if_neg (by omega), Nat.add_sub_cancel_left]
    simp

end LinkedOk

end

end Emit

end ObjLang
