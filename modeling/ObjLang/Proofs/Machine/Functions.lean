import ObjLang.Proofs.Class.Dispatch
import ObjLang.Proofs.Emit.Paths
import ObjLang.Proofs.Emit.Slots

/-!
# ObjLang.Proofs.Machine.Functions — the functions that a program can call

A number in linked code leads to a host function, the allocator, the method of the root class, the
entry, or the function of a definition, and to one of them only.  The dispatch table leads to
methods, never to a function nested in another one.
-/

namespace ObjLang

open Check Check.Facts

/-! ### Records of definitions -/

/-- The variables of a function in the order of their slots. -/
def Function.slots (f : Function) : List VarId := f.params ++ f.captures.aliases ++ f.locals

namespace CheckedProgram

variable (c : CheckedProgram)

/-- The record of a definition. -/
def record (d : FunDef) : Function := c.function (d.id.getD default)

/-- The slot of a variable of a function. -/
def slot (v : VarId) : Nat := (c.function ((c.var v).owner.getD default)).slots.idxOf v

/-- The number of instructions of a function that come before its statements. -/
def prologue (d : FunDef) : Nat :=
  (Emit.boxCode c (c.record d)).length + (Emit.initCode c d.vars).length

theorem mem_allFunctions {outer : List FunDef} {d : FunDef} (hd : c.Nest outer d) :
    d ∈ c.program.allFunctions := by
  induction hd with
  | method hk hm =>
    exact FunDef.mem_allOf.2 ⟨_, List.mem_append_left _ (List.mem_flatMap.2 ⟨_, hk, hm⟩),
      self_mem_all _⟩
  | function hd => exact FunDef.mem_allOf.2 ⟨_, List.mem_append_right _ hd, self_mem_all _⟩
  | nested _ hd ih => exact FunDef.mem_allOf_of_nested ih hd

end CheckedProgram

namespace CheckedOk

variable {p : Program} {c : CheckedProgram} {s : State} {outer outer' : List FunDef}
  {d d' : FunDef}

/-- What holds of a definition, about the record that it leads to. -/
theorem record_ok (h : CheckedOk p c s) (hd : c.Nest outer d) : ∃ id, d.id = some id ∧
    c.function id = c.record d ∧
    (s.facts c.classes).FunctionOk (outer.map c.level) d id (c.record d) ∧
    c.level d = .ofFunction id d (c.record d) := by
  obtain ⟨id, f, hf, -, hlevel⟩ := h.function_ok hd
  have hrecord : c.record d = f := by
    rw [CheckedProgram.record, hf.id_eq, Option.getD_some, Emit.function_eq h hf.record]
  exact ⟨id, hf.id_eq, by rw [hrecord, Emit.function_eq h hf.record], hrecord ▸ hf,
    hrecord ▸ hlevel⟩

theorem emitted_ne_made (h : CheckedOk p c s) (hp : p.Words) (hd : c.Nest outer d) {x : String}
    {rest : List Char} (hx : x.toList = '#' :: rest) : c.emitted d ≠ x := by
  rintro rfl
  exact (h.nodup_functionNames hp).2 _ (List.mem_cons_of_mem _
    (List.mem_map_of_mem (c.mem_allFunctions hd))) rest hx

theorem emitted_ne_root (h : CheckedOk p c s) (hp : p.Words) (hd : c.Nest outer d) :
    c.emitted d ≠ methodTarget rootClass initMethod := by
  intro heq
  refine (List.nodup_cons.1 (h.nodup_functionNames hp).1).1 ?_
  rw [← heq]
  exact List.mem_map_of_mem (c.mem_allFunctions hd)

/-- Definitions have different names in generated code. -/
theorem emitted_inj (h : CheckedOk p c s) (hp : p.Words) (hd : c.Nest outer d)
    (hd' : c.Nest outer' d') (heq : c.emitted d = c.emitted d') : d = d' :=
  List.inj_on_of_nodup_map (List.nodup_cons.1 (h.nodup_functionNames hp).1).2
    (c.mem_allFunctions hd) (c.mem_allFunctions hd') heq

/-- A function is the method of the root class for new objects or that of a definition. -/
theorem function_cases (h : CheckedOk p c s) {id : FunId} {f : Function}
    (hf : s.functions[id.index]? = some f) :
    (f.emitted = methodTarget rootClass initMethod ∧ f.parent = none ∧ f.paramTypes.length = 1) ∨
      ∃ outer d, c.Nest outer d ∧ d.id = some id ∧ c.record d = f := by
  have hlt : id.index < c.functions.size :=
    h.functions_eq ▸ (Array.getElem?_eq_some_iff.1 hf).1
  obtain hroot | ⟨d, hd, hid⟩ := h.covers id.index hlt
  · obtain ⟨g, hg, hp, he, -, ht, -⟩ := h.root
    rw [hroot] at hg
    cases hf.symm.trans hg
    exact .inl ⟨he, hp, by rw [ht, List.length_singleton]⟩
  · obtain ⟨outer, hnest⟩ := CheckedProgram.exists_nest hd
    refine .inr ⟨outer, d, hnest, hid, ?_⟩
    rw [CheckedProgram.record, hid, Option.getD_some]
    exact Emit.function_eq h hf

/-- A definition without functions around it has no captures. -/
theorem captures_nil (h : CheckedOk p c s) (hd : c.Nest [] d) : (c.record d).captures = [] := by
  obtain ⟨id, -, -, hf, -⟩ := h.record_ok hd
  exact h.nest.state.orphans id _ hf.record hf.parent

end CheckedOk

/-! ### Methods -/

theorem ClassDef.Provides.cases {classes : List ClassDef} {m k owner : String}
    (h : ClassDef.Provides classes m k owner) : (m = initMethod ∧ owner = rootClass) ∨
      ∃ e ∈ classes, e.name.name = owner ∧ e.Defines m := by
  induction h with
  | root hm => exact .inl ⟨hm, rfl⟩
  | own hd hdef => exact .inr ⟨_, hd, rfl, hdef⟩
  | inherited _ _ _ ih => exact ih

/-- A method that a class has is that of the root class or a definition with no functions around
it, with a parameter for the receiver; the one for new objects has no other. -/
theorem CheckedOk.target_cases {p : Program} {c : CheckedProgram} {s : State}
    (h : CheckedOk p c s) {l : ClassLayout} (hl : l ∈ c.classes.layouts) {x target : String}
    (ht : l.target? x = some target) : target = methodTarget rootClass initMethod ∨
      ∃ d, c.Nest [] d ∧ c.emitted d = target ∧ 0 < (c.record d).params.length ∧
        (x = initMethod → (c.record d).params.length = 1) := by
  rw [(h.laid.indexed hl).target?_eq] at ht
  obtain ⟨e, he, rfl⟩ := Option.map_eq_some_iff.1 ht
  obtain ⟨howner, htarget⟩ := ClassTable.Laid.provides h.laid (h.laid.laid l hl) he
  rw [htarget]
  obtain ⟨rfl, hroot⟩ | ⟨k, hk, hkn, hdef⟩ := ((howner e.owner).2 rfl).cases
  · exact .inl (by rw [hroot])
  · refine .inr ?_
    obtain ⟨k', hk', hname, -, hms⟩ := exists_of_forall₂ h.sameClasses hk
    obtain ⟨m, hm, hmx⟩ := List.mem_map.1 hdef
    obtain ⟨d, hd, hb⟩ := exists_of_forall₂ hms hm
    have hdx : d.name.name = x := by rw [hb.name, hmx]
    have hkn' : k'.name.name = e.owner := by rw [hname, hkn]
    obtain ⟨-, id, hid, f, hf, -, -, -, ⟨rest, hrest⟩, hinit, -⟩ := h.methods k' hk' d hd
    obtain ⟨id', hid', -, hfo, -⟩ := h.record_ok (.method hk' hd)
    cases hid.symm.trans hid'
    cases hf.symm.trans hfo.record
    refine ⟨d, .method hk' hd, ?_, ?_, fun hx => ?_⟩
    · rw [h.emitted_method hk' hd, methodTarget, hkn', hdx]
    · rw [hfo.params_length, hrest]
      exact Nat.zero_lt_succ _
    · rw [hfo.params_length]
      exact (hinit (hdx.trans hx)).1

/-! ### Compiled programs -/

/-- A program with all that was made of it: the checked program, its module, and the linked
module. -/
structure Compiled (p : Program) (c : CheckedProgram) (t₀ : State) (o : Options) (m : Code.Module)
    (L : LinkedModule) : Prop where
  words : p.Words
  checked : CheckedOk p c t₀
  generated : Emit.Generated c o m
  linked : Emit.LinkedOk c o m L

theorem compile_ok_iff {source : String} {o : Options} {m : Code.Module} :
    compile o source = .ok m ↔ ∃ p c, Program.parse source = .ok p ∧ p.check = .ok c ∧
      Emit.module c o = .ok m := by
  have hmap : ∀ {ε ε' α : Type} {f : ε → ε'} {x : Except ε α} {a : α},
      x.mapError f = .ok a ↔ x = .ok a := by
    intro ε ε' α f x a
    cases x <;> simp [Except.mapError]
  simp only [compile, except_bind_eq_ok, hmap, exists_and_left]

/-- What is made of a source text. -/
theorem exists_compiled {source : String} {p : Program} {c : CheckedProgram} {o : Options}
    {m : Code.Module} {L : LinkedModule} (hp : Program.parse source = .ok p)
    (hc : p.check = .ok c) (hm : Emit.module c o = .ok m) (hL : m.link = .ok L) :
    ∃ t₀, Compiled p c t₀ o m L := by
  obtain ⟨t₀, hok⟩ := Program.check_ok hc
  have hg := Emit.module_ok hok hm
  obtain ⟨L', hL', hlinked⟩ := hg.link hok
  cases hL.symm.trans hL'
  exact ⟨t₀, Program.parse_words hp, hok, hg, hlinked⟩

theorem Code.Module.index_inj {m : Code.Module} {x y : String} (hx : x ∈ m.functionNames)
    (hy : y ∈ m.functionNames) (h : m.index x = m.index y) : x = y := by
  obtain ⟨i, hi, hxi⟩ := lastIndex?_of_mem hx
  obtain ⟨j, hj, hyj⟩ := lastIndex?_of_mem hy
  rw [Code.Module.index, Code.Module.index, hi, hj, Option.getD_some, Option.getD_some] at h
  subst h
  exact Option.some.inj (hxi.symm.trans hyj)

/-- The code of a definition in a linked module. -/
structure CodeOf (c : CheckedProgram) (m : Code.Module) (L : LinkedModule) (d : FunDef)
    (g : Code.Func) (arr : Array Op) : Prop where
  mem : g ∈ m.functions
  name : g.name = c.emitted d
  frames : Emit.Frames c (c.record d) g
  function : L.function? (m.index g.name)
    = some ⟨g.name, g.params.length, (g.params ++ g.locals).length, arr⟩
  code : Emit.FunctionAt c (m.names g) arr d (c.record d)

/-- The code of a definition is its prologue, its statements, and one word behind them. -/
theorem CodeOf.layout {c : CheckedProgram} {m : Code.Module} {L : LinkedModule} {d : FunDef}
    {g : Code.Func} {arr : Array Op} (hg : CodeOf c m L d g arr) : ∃ b n b',
      CodeAt (m.names g) arr (Emit.boxCode c (c.record d)) 0 b ∧
      CodeAt (m.names g) arr (Emit.initCode c d.vars) b (c.prologue d) ∧
      Emit.BlockAt c (m.names g) arr d.body 0 (c.prologue d) n b' ∧
      arr[b']? = some (.const 0) ∧ arr.size = b' + 1 := by
  obtain ⟨b, b₂, n, b', hbox, hinit, hblock, hend⟩ := hg.code
  obtain ⟨hop, -, hsize⟩ := codeAt_singleton.1 hend
  have hb₂ : b₂ = c.prologue d := by
    rw [hinit.2.2, hbox.2.2, CheckedProgram.prologue, Nat.zero_add]
  exact ⟨b, n, b', hbox, hb₂ ▸ hinit, hb₂ ▸ hblock, hop, hsize⟩

namespace Compiled

variable {p : Program} {c : CheckedProgram} {t₀ : State} {o : Options} {m : Code.Module}
  {L : LinkedModule} {outer : List FunDef} {d : FunDef}

/-- The function of a definition is in the module. -/
theorem exists_codeOf (h : Compiled p c t₀ o m L) (hd : c.Nest outer d) :
    ∃ g arr, CodeOf c m L d g arr := by
  obtain ⟨id, hid, -, hf, -⟩ := h.checked.record_ok hd
  obtain ⟨id', f, g, hg, hb⟩ := h.generated.definition (c.mem_allFunctions hd)
  cases hid.symm.trans hb.id_eq
  have hrecord : f = c.record d := by
    have heq : t₀.functions[id.index]? = some (c.record d) := hf.record
    rw [h.checked.functions_eq] at heq
    exact Option.some.inj (hb.record.symm.trans heq)
  subst hrecord
  obtain ⟨arr, harr, hcode⟩ := hb.links m (h.generated.named h.checked) fun t ht =>
    Emit.Generated.type?_isSome ht
  obtain ⟨lf, hlf, -, hfun⟩ := h.linked.function? h.generated hg
  cases harr.symm.trans hlf
  have hname : g.name = c.emitted d := hb.frames.name
  exact ⟨g, arr, hg, hname, hb.frames, hfun, hcode⟩

/-- Where the name of a definition leads. -/
theorem definition_function (h : Compiled p c t₀ o m L) (hd : c.Nest outer d) :
    L.import? (m.index (c.emitted d)) = none ∧ ∃ g arr, CodeOf c m L d g arr ∧
      g.params.length = (c.record d).totalArity ∧ L.function? (m.index (c.emitted d))
        = some ⟨g.name, g.params.length, (g.params ++ g.locals).length, arr⟩ := by
  obtain ⟨g, arr, hg⟩ := h.exists_codeOf hd
  obtain ⟨-, -, himport, -⟩ := h.linked.function? h.generated hg.mem
  have hlen : g.params.length = (c.record d).totalArity := by
    rw [hg.frames.params, Emit.varNames, List.length_map, List.length_append, Captures.aliases,
      List.length_map, Function.totalArity]
  rw [← hg.name]
  exact ⟨himport, g, arr, hg, hlen, hg.function⟩

theorem emitted_mem (h : Compiled p c t₀ o m L) (hd : c.Nest outer d) :
    c.emitted d ∈ m.functionNames := by
  obtain ⟨g, arr, hg⟩ := h.exists_codeOf hd
  exact hg.name ▸ Emit.mem_functionNames hg.mem

theorem alloc_mem (h : Compiled p c t₀ o m L) : Emit.allocName ∈ m.functionNames :=
  Emit.mem_functionNames h.generated.alloc_mem

theorem entry_mem (h : Compiled p c t₀ o m L) : Emit.entryName ∈ m.functionNames := by
  obtain ⟨g, hg, he⟩ := h.generated.entry_mem
  exact he.name ▸ Emit.mem_functionNames hg

theorem root_name (h : Compiled p c t₀ o m L) :
    (Emit.rootFunction c).name = methodTarget rootClass initMethod := by
  obtain ⟨f, hf, -, he, -⟩ := h.checked.root
  rw [Emit.rootFunction, Emit.function_eq h.checked hf, he]

theorem root_mem (h : Compiled p c t₀ o m L) :
    methodTarget rootClass initMethod ∈ m.functionNames :=
  h.root_name ▸ Emit.mem_functionNames h.generated.root_mem

theorem host_mem (h : Compiled p c t₀ o m L) {x : String} {f : HostFunction}
    (hx : (x, f) ∈ Emit.hostNames) : x ∈ m.functionNames := by
  refine List.mem_append_left _ ?_
  rw [h.generated.imports]
  exact List.mem_map_of_mem (f := Prod.fst) hx

/-- Another function is not the guard. -/
theorem index_ne_guard (h : Compiled p c t₀ o m L) {x : String} (hx : x ∈ m.functionNames)
    (hne : x ≠ Emit.checkInitName) : m.index x ≠ m.index Emit.checkInitName := fun heq =>
  hne (Code.Module.index_inj hx (h.host_mem (f := .checkInit) (by simp [Emit.hostNames])) heq)

/-- The allocator. -/
theorem alloc_function (h : Compiled p c t₀ o m L) : L.import? (m.index Emit.allocName) = none ∧
    L.function? (m.index Emit.allocName) = some ⟨Emit.allocName, 1, 2,
      (Emit.allocFunction.body.map (m.names Emit.allocFunction).op).toArray⟩ := by
  obtain ⟨lf, hlf, himport, hfun⟩ := h.linked.function? h.generated h.generated.alloc_mem
  cases h.generated.alloc_link.symm.trans hlf
  exact ⟨himport, hfun⟩

/-- The method of the root class. -/
theorem root_function (h : Compiled p c t₀ o m L) :
    L.import? (m.index (methodTarget rootClass initMethod)) = none ∧
      ∃ x, L.function? (m.index (methodTarget rootClass initMethod))
        = some ⟨x, 1, 1, #[.const 0]⟩ := by
  obtain ⟨lf, hlf, himport, hfun⟩ := h.linked.function? h.generated h.generated.root_mem
  cases (Emit.Generated.root_link h.checked m).symm.trans hlf
  rw [h.root_name] at himport hfun
  exact ⟨himport, _, hfun⟩

/-- The entry. -/
theorem entry_function (h : Compiled p c t₀ o m L) : ∃ g ∈ m.functions, ∃ arr,
    g.name = Emit.entryName ∧ g.params = [] ∧ g.locals.Nodup ∧
      (∀ x ∈ g.locals, ∃ rest, x.toList = '#' :: rest) ∧
      L.function? L.entry = some ⟨g.name, 0, g.locals.length, arr⟩ ∧
      Emit.EntryAt c (m.names g) arr := by
  obtain ⟨g, hg, he⟩ := h.generated.entry_mem
  obtain ⟨arr, harr, hcode⟩ := he.links m (h.generated.named h.checked) fun t ht =>
    Emit.Generated.type?_isSome ht
  obtain ⟨lf, hlf, -, hfun⟩ := h.linked.function? h.generated hg
  cases harr.symm.trans hlf
  have hentry : L.entry = m.index g.name := by rw [h.linked.entry, he.name]
  exact ⟨g, hg, arr, he.name, he.params, he.nodup, he.made, hentry ▸ hfun, hcode⟩

/-- A slot of the dispatch table leads to the method of the root class or to a definition with no
functions around it. -/
theorem table_cases (h : Compiled p c t₀ o m L) {i j : Nat} (hj : L.table[i]? = some j) :
    j = m.index (methodTarget rootClass initMethod) ∨
      ∃ d, c.Nest [] d ∧ 0 < (c.record d).params.length ∧ j = m.index (c.emitted d) := by
  rw [← Array.getElem?_toList] at hj
  obtain ⟨x, hx, -, rfl⟩ := exists_of_forall₂ h.linked.table.flip (List.mem_of_getElem? hj)
  obtain ⟨l, hl, hx⟩ := List.mem_flatMap.1 hx
  obtain ⟨e, he, rfl⟩ := List.mem_map.1 hx
  have hfind := ClassLayout.find?_of_mem_nodup (h.checked.laid.methods_nodup hl) he
  have htarget : l.target? e.name = some e.target := by
    rw [(h.checked.laid.indexed hl).target?_eq, hfind]
    rfl
  obtain hroot | ⟨d, hd, hde, hpos, -⟩ := h.checked.target_cases hl htarget
  · exact .inl (by rw [hroot])
  · exact .inr ⟨d, hd, hpos, by rw [hde]⟩

/-! ### Globals -/

theorem heapName_made : Emit.heapName.toList = '#' :: ['h', 'e', 'a', 'p'] := by decide

/-- The heap pointer is the first global. -/
theorem global_heap (h : Compiled p c t₀ o m L) (g : Code.Func) :
    (m.names g).global Emit.heapName = 0 := by
  have hmem : Emit.heapName ∈ m.globals.map (·.name) := by
    rw [h.generated.globals]
    exact List.mem_cons_self
  obtain ⟨i, hi, hname⟩ := lastIndex?_of_mem hmem
  show (lastIndex? Emit.heapName (m.globals.map (·.name))).getD 0 = 0
  rw [hi, Option.getD_some]
  cases i with
  | zero => rfl
  | succ i =>
    rw [h.generated.globals, List.map_cons, List.getElem?_cons_succ, List.map_map] at hname
    obtain ⟨d, hd, heq⟩ := List.mem_map.1 (List.mem_of_getElem? hname)
    have hword : d.var.name.name = Emit.heapName := heq
    exact absurd ((congrArg String.toList hword).trans heapName_made)
      ((h.checked.global_word h.words hd).not_made _)

/-- A variable of the module is another global. -/
theorem global_ne (h : Compiled p c t₀ o m L) {d : VarDef} (hd : d ∈ c.program.vars)
    (g : Code.Func) : (m.names g).global d.var.name.name ≠ 0 := by
  have hmem : d.var.name.name ∈ m.globals.map (·.name) := by
    rw [h.generated.globals, List.map_cons, List.map_map]
    exact List.mem_cons_of_mem _ (List.mem_map_of_mem (f := fun d => d.var.name.name) hd)
  obtain ⟨i, hi, hname⟩ := lastIndex?_of_mem hmem
  show (lastIndex? d.var.name.name (m.globals.map (·.name))).getD 0 ≠ 0
  rw [hi, Option.getD_some]
  rintro rfl
  rw [h.generated.globals, List.map_cons, List.getElem?_cons_zero, Option.some.injEq] at hname
  exact (h.checked.global_word h.words hd).not_made _
    ((congrArg String.toList hname.symm).trans heapName_made)

/-! ### Slots -/

variable {g : Code.Func} {arr : Array Op} {v w : VarId}

theorem var_owner (h : Compiled p c t₀ o m L) (hd : c.Nest outer d)
    (hv : v ∈ (c.record d).slots) : (c.var v).isGlobal = false ∧ (c.var v).owner = d.id := by
  obtain ⟨id, hid, -, hf, -⟩ := h.checked.record_ok hd
  obtain ⟨r, hr, hg, ho⟩ := Emit.own_record hf hv
  rw [Emit.var_eq h.checked hr, hid]
  exact ⟨hg, ho⟩

theorem slot_eq_idxOf (h : Compiled p c t₀ o m L) (hd : c.Nest outer d)
    (hv : v ∈ (c.record d).slots) : c.slot v = (c.record d).slots.idxOf v := by
  rw [CheckedProgram.slot, (h.var_owner hd hv).2, CheckedProgram.record]

/-- Different variables of a function have different names, and different slots. -/
theorem slot_inj (h : Compiled p c t₀ o m L) (hd : c.Nest outer d)
    (hv : v ∈ (c.record d).slots) (hw : w ∈ (c.record d).slots) (heq : c.slot v = c.slot w) :
    v = w := by
  rw [h.slot_eq_idxOf hd hv, h.slot_eq_idxOf hd hw] at heq
  exact (List.idxOf_inj hv).1 heq

theorem nodup_slots (h : Compiled p c t₀ o m L) (hd : c.Nest outer d) :
    (c.record d).slots.Nodup := by
  obtain ⟨id, -, -, hf, -⟩ := h.checked.record_ok hd
  exact (Emit.nodup_varNames h.checked hf).of_map _

/-- Captures have the slots behind the parameters. -/
theorem slot_capture (h : Compiled p c t₀ o m L) (hd : c.Nest outer d) {j : Nat} {e : Capture}
    (he : (c.record d).captures[j]? = some e) :
    c.slot e.inner = (c.record d).params.length + j := by
  have hmem : e.inner ∈ (c.record d).slots :=
    List.mem_append_left _ (List.mem_append_right _ (List.mem_map_of_mem (List.mem_of_getElem? he)))
  have hget : (c.record d).slots[(c.record d).params.length + j]? = some e.inner := by
    have hlt := (List.getElem?_eq_some_iff.1 he).1
    rw [Function.slots, List.append_assoc, List.getElem?_append_right (Nat.le_add_right _ _),
      Nat.add_sub_cancel_left,
      List.getElem?_append_left (by rwa [Captures.aliases, List.length_map]), Captures.aliases, List.getElem?_map, he]
    rfl
  obtain ⟨hlt, hget⟩ := List.getElem?_eq_some_iff.1 hget
  rw [h.slot_eq_idxOf hd hmem, ← hget]
  exact (h.nodup_slots hd).idxOf_getElem _ hlt

theorem mem_slots_of_capture {f : Function} {e : Capture} (he : e ∈ f.captures) :
    e.inner ∈ f.slots :=
  List.mem_append_left _ (List.mem_append_right _ (List.mem_map_of_mem he))

theorem mem_slots_of_own {f : Function} (hv : v ∈ f.params ++ f.locals) : v ∈ f.slots := by
  simp only [Function.slots, List.mem_append] at hv ⊢
  exact hv.imp_left .inl

/-- The slot of an alias holds the address of a cell. -/
theorem capture_var (h : Compiled p c t₀ o m L) (hd : c.Nest outer d) {e : Capture}
    (he : e ∈ (c.record d).captures) : (c.var e.inner).isCapture = true ∧
      (c.var e.inner).isIndirect = true := by
  obtain ⟨id, -, -, hf, -⟩ := h.checked.record_ok hd
  obtain ⟨⟨r, hr, -, hkind, -, hboxed⟩, -⟩ := hf.captures e he
  rw [Emit.var_eq h.checked hr]
  exact ⟨by simp [Variable.isCapture, hkind], by simp [Variable.isIndirect, hboxed]⟩

/-- Parameters and variables of a definition are no aliases. -/
theorem own_var (h : Compiled p c t₀ o m L) (hd : c.Nest outer d)
    (hv : v ∈ (c.record d).params ++ (c.record d).locals) : (c.var v).isCapture = false := by
  obtain ⟨id, -, -, hf, -⟩ := h.checked.record_ok hd
  obtain ⟨r, hr, hcap⟩ := Emit.own_plain hf hv
  rw [Emit.var_eq h.checked hr, hcap]

theorem mem_aliases (h : Compiled p c t₀ o m L) (hd : c.Nest outer d)
    (hv : v ∈ (c.record d).slots) (hcap : (c.var v).isCapture = true) :
    v ∈ (c.record d).captures.aliases := by
  simp only [Function.slots, List.mem_append] at hv
  obtain (hv | hv) | hv := hv
  · have hplain := h.own_var hd (List.mem_append_left _ hv)
    rw [hcap] at hplain
    cases hplain
  · exact hv
  · have hplain := h.own_var hd (List.mem_append_right _ hv)
    rw [hcap] at hplain
    cases hplain

/-- A variable of a definition that is no alias is a parameter or declared in it. -/
theorem mem_own (h : Compiled p c t₀ o m L) (hd : c.Nest outer d)
    (hv : v ∈ (c.record d).slots) (hcap : (c.var v).isCapture = false) :
    v ∈ (c.record d).params ++ (c.record d).locals := by
  simp only [Function.slots, List.mem_append] at hv
  obtain (hv | hv) | hv := hv
  · exact List.mem_append_left _ hv
  · obtain ⟨e, he, rfl⟩ := List.mem_map.1 hv
    rw [(h.capture_var hd he).1] at hcap
    cases hcap
  · exact List.mem_append_right _ hv

theorem not_mem_aliases (h : Compiled p c t₀ o m L) (hd : c.Nest outer d)
    (hv : v ∈ (c.record d).params ++ (c.record d).locals) :
    v ∉ (c.record d).captures.aliases := by
  intro halias
  obtain ⟨e, he, rfl⟩ := List.mem_map.1 halias
  have hplain := h.own_var hd hv
  rw [(h.capture_var hd he).1] at hplain
  cases hplain

theorem names_frame (hg : CodeOf c m L d g arr) : ∃ rest, (m.names g).frame
    = Emit.varNames c (c.record d).slots ++ rest := by
  obtain ⟨rest, hrest⟩ := hg.frames.locals
  refine ⟨rest, ?_⟩
  show g.params ++ g.locals = _
  rw [hg.frames.params, ← hrest, Function.slots]
  simp only [Emit.varNames, List.map_append, List.append_assoc]

/-- The slot of a variable is the one that its name leads to. -/
theorem slot_name (h : Compiled p c t₀ o m L) (hd : c.Nest outer d) (hg : CodeOf c m L d g arr)
    (hv : v ∈ (c.record d).slots) : (m.names g).slot (c.var v).name = c.slot v := by
  obtain ⟨rest, hrest⟩ := names_frame hg
  rw [h.slot_eq_idxOf hd hv]
  refine Names.slot_eq hg.frames.nodup ?_
  have hlt := List.idxOf_lt_length_of_mem hv
  rw [hrest, List.getElem?_append_left (by rwa [Emit.varNames, List.length_map]), Emit.varNames,
    List.getElem?_map, List.getElem?_eq_getElem hlt, List.getElem_idxOf hlt]
  rfl

theorem name_mem (hg : CodeOf c m L d g arr) (hv : v ∈ (c.record d).slots) :
    (c.var v).name ∈ (m.names g).frame := by
  obtain ⟨rest, hrest⟩ := names_frame hg
  rw [hrest]
  exact List.mem_append_left _ (List.mem_map_of_mem hv)

/-- A local that the generator made up is not the slot of a variable. -/
theorem slot_made (h : Compiled p c t₀ o m L) (hd : c.Nest outer d) (hg : CodeOf c m L d g arr)
    {x : String} {rest : List Char} (hx : x.toList = '#' :: rest) (hmem : x ∈ (m.names g).frame)
    (hv : v ∈ (c.record d).slots) : (m.names g).slot x ≠ c.slot v := by
  intro heq
  rw [← h.slot_name hd hg hv] at heq
  have hname := Names.slot_inj hmem (name_mem hg hv) heq
  obtain ⟨id, -, -, hf, -⟩ := h.checked.record_ok hd
  refine (h.checked.own_words h.words hd hf x ?_).not_made rest hx
  rw [hname]
  exact List.mem_map_of_mem hv

end Compiled

end ObjLang
