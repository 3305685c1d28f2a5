import ObjLang.Proofs.Machine.Functions
import ObjLang.Proofs.Parts

/-!
# ObjLang.Proofs.Hygiene — names of generated code

The check tells variables and functions apart by numbers, and code tells them apart by names.  In the
code of a checked program nothing is lost on the way: things of one kind have different names, and
the variables that one function can reach have different names even where a global and a local might
share one.
-/

namespace ObjLang

open Check Check.Facts

/-! ### Variables that code reaches -/

/-- A variable that some statements read, write, or pass to a function that they call. -/
inductive Stmt.Uses (ss : List Stmt) (v : VarId) : Prop where
  | read {i : ExprInfo} {x : String} : Expr.OccursIn ss (.name i x (some v)) → Uses ss v
  | write {x : Ident} {value : Expr} {span : Span} :
    Stmt.OccursIn ss (.assign (.name x (some v)) value span) → Uses ss v
  | pass {i : ExprInfo} {callee : Ident} {args : List Expr} {id : FunId} {vs : List VarId} :
    Expr.OccursIn ss (.call i callee args (some (.function id vs))) → v ∈ vs → Uses ss v

/-- A variable of a function, or one that its statements use. -/
def Stmt.Reaches (own : List VarId) (ss : List Stmt) (v : VarId) : Prop := v ∈ own ∨ Stmt.Uses ss v

namespace Code.Module

/-- Things of one kind have different names in a module. -/
structure Distinct (m : Module) : Prop where
  functions : m.functionNames.Nodup
  globals : (m.globals.map (·.name)).Nodup
  frames : ∀ g ∈ m.functions, (g.params ++ g.locals).Nodup
  /-- The labels that blocks and loops open. -/
  labels : ∀ g ∈ m.functions, (Code.labels g.body).Nodup

/-- Linking leads every name of a module to the thing that is declared with it. -/
structure NamesLead (m : Module) : Prop where
  functions : ∀ i x, m.functionNames[i]? = some x → m.functionIndex x = .ok i
  globals : ∀ i x, (m.globals.map (·.name))[i]? = some x → m.globalIndex x = .ok i
  slots : ∀ g ∈ m.functions, ∀ i x, (g.params ++ g.locals)[i]? = some x → g.slot x = .ok i

theorem Distinct.namesLead {m : Module} (h : m.Distinct) : m.NamesLead where
  functions i x hx := by rw [functionIndex, lastIndex?_of_nodup h.functions hx]
  globals i x hx := by rw [globalIndex, lastIndex?_of_nodup h.globals hx]
  slots g hg i x hx := by rw [Func.slot, lastIndex?_of_nodup (h.frames g hg) hx]

end Code.Module

/-- In a function with some variables and statements every variable that is reached has a name of its
own, which leads to it. -/
structure CheckedProgram.NamedApart (c : CheckedProgram) (m : Code.Module) (g : Code.Func)
    (own : List VarId) (ss : List Stmt) : Prop where
  /-- The slots are those of the variables of the function, in their order, and of names that the
  generator made up. -/
  frame : ∃ made, g.params ++ g.locals = Emit.varNames c own ++ made ∧
    ∀ x ∈ made, ∃ rest, x.toList = '#' :: rest
  slot : ∀ v, Stmt.Reaches own ss v → (c.var v).isGlobal = false →
    ∃ i, g.slot (c.var v).name = .ok i ∧ own[i]? = some v
  /-- The first global is the heap pointer, and the others follow the definitions. -/
  global : ∀ v, Stmt.Reaches own ss v → (c.var v).isGlobal = true →
    ∃ i d, m.globalIndex (c.var v).name = .ok (i + 1) ∧ c.program.vars[i]? = some d ∧
      d.binding = some v
  distinct : ∀ v w, Stmt.Reaches own ss v → Stmt.Reaches own ss w →
    (c.var v).name = (c.var w).name → v = w
  notMade : ∀ v, Stmt.Reaches own ss v →
    (c.var v).name ∉ [Emit.scratchName, Emit.newName, Emit.cellName] ∧
      ∀ n, (c.var v).name ≠ Emit.receiverName n

namespace CheckedOk

variable {p : Program} {c : CheckedProgram} {s : State}

/-! ### What names of slots denote -/

section

variable {outer : List Level} {d : FunDef} {id : FunId} {f : Function}

theorem zip_map_left {α β : Type} (g : α → β) (as : List α) :
    (as.map g).zip as = as.map fun a => (g a, a) := by
  induction as with
  | nil => rfl
  | cons a as ih => rw [List.map_cons, List.zip_cons_cons, ih, List.map_cons]

/-- A level has the parameters and variables of its function under their names. -/
theorem level_own (h : CheckedOk p c s) (hf : (s.facts c.classes).FunctionOk outer d id f) :
    (Level.ofFunction id d f).own = (f.params ++ f.locals).map fun v => ((c.var v).name, v) := by
  have hparams := Emit.varNames_params h hf
  have hlocals := Emit.varNames_locals h hf
  rw [Level.ofFunction, ← hparams, ← hlocals, Emit.varNames, Emit.varNames, zip_map_left,
    zip_map_left, List.map_append]

theorem lookup_own (h : CheckedOk p c s) (hf : (s.facts c.classes).FunctionOk outer d id f)
    {v : VarId} (hv : v ∈ f.params ++ f.locals) :
    List.lookup (c.var v).name (Level.ofFunction id d f).own = some v := by
  have hnd : ((Level.ofFunction id d f).own.map Prod.fst).Nodup := by
    have hall := Emit.nodup_varNames h hf
    rw [h.level_own hf, List.map_map]
    refine hall.sublist (List.Sublist.map _ ?_)
    exact (List.sublist_append_left _ _).append (List.Sublist.refl _)
  refine lookup_of_mem hnd ?_
  rw [h.level_own hf]
  exact List.mem_map_of_mem hv

/-- A captured name is none of a parameter or a variable. -/
theorem lookup_capture (hf : (s.facts c.classes).FunctionOk outer d id f) {k : Capture}
    (hk : k ∈ f.captures) : List.lookup k.name (Level.ofFunction id d f).own = none := by
  cases hl : List.lookup k.name (Level.ofFunction id d f).own with
  | none => rfl
  | some w =>
    have hown : k.name ∈ d.params.map (·.name.name) ++ d.vars.map (·.var.name.name) := by
      have hmem := Bindings.mem_of_lookup hl
      simp only [Level.ofFunction, List.mem_append] at hmem ⊢
      exact hmem.imp (fun hm => (List.of_mem_zip hm).1) fun hm => (List.of_mem_zip hm).1
    exact absurd rfl ((List.nodup_append.1 hf.names).2.2 _ hown _ (List.mem_map_of_mem hk))

/-- The name of a variable of a function leads to what the variable stands for, whether the name is
read or assigned to. -/
theorem slot_denotes (h : CheckedOk p c s) (hf : (s.facts c.classes).FunctionOk outer d id f)
    {v : VarId} (hv : v ∈ f.slots) :
    nearest (s.facts c.classes).module (c.var v).name (Level.ofFunction id d f :: outer)
        = some (s.vars.home v) ∧
      denotes (s.facts c.classes).module d.passes (c.var v).name (Level.ofFunction id d f :: outer)
        = some (s.vars.home v) := by
  by_cases hown : v ∈ f.params ++ f.locals
  · -- a parameter or a variable stands for itself
    have hlook := h.lookup_own hf hown
    have hhome : s.vars.home v = v := by
      obtain ⟨r, hr, hcap⟩ := Emit.own_plain hf hown
      exact Variables.home_of_not_capture (Variables.get_eq_of_get? hr ▸ hcap)
    have hd : (Level.ofFunction id d f).declares (c.var v).name = true := by
      simp [Level.declares, hlook]
    rw [denotes_of_declared hd, nearest_of_own hlook, hhome]
    exact ⟨rfl, rfl⟩
  · -- an alias stands for the nearest variable around the function
    have halias : v ∈ f.captures.aliases := by
      simp only [Function.slots, List.mem_append, not_or] at hv hown
      exact (hv.resolve_right hown.2).resolve_left hown.1
    obtain ⟨k, hk, rfl⟩ := List.mem_map.1 halias
    obtain ⟨⟨r, hr, hname, -⟩, hnear⟩ := hf.captures k hk
    have hn : (c.var k.inner).name = k.name := by rw [Emit.var_eq h hr, hname]
    have hglobals : (Level.ofFunction id d f).globals.contains k.name = false := hf.notGlobal k hk
    have hnearest : nearest (s.facts c.classes).module k.name (Level.ofFunction id d f :: outer)
        = nearest (s.facts c.classes).module k.name outer :=
      nearest_of_nonlocal (lookup_capture hf hk) hglobals outer
    rw [hn, hnearest]
    refine ⟨hnear.symm, ?_⟩
    cases hd : (Level.ofFunction id d f).declares k.name with
    | true =>
      rw [denotes_of_declared hd, hnearest]
      exact hnear.symm
    | false =>
      cases hp : d.passes k.name with
      | true =>
        rw [denotes_of_passes hd hp]
        exact hnear.symm
      | false =>
        have hmodule : List.lookup k.name (s.facts c.classes).module = none := by
          rw [← Option.not_isSome_iff_eq_none]
          intro hsome
          have hon := hf.captured k hk hsome
          rw [FunDef.handsOn_eq, hp, Bool.and_false, Bool.or_false] at hon
          have hnonlocal : (Level.ofFunction id d f).nonlocals.contains k.name = true := hon
          rw [Level.declares, hnonlocal, Bool.or_true] at hd
          cases hd
        rw [denotes_of_not_passes hd hp, hmodule, Option.none_or]
        exact hnear.symm

/-- No variable of the module is reached under the name of a variable of the function. -/
theorem home_not_global (h : CheckedOk p c s) (hf : (s.facts c.classes).FunctionOk outer d id f)
    {v w : VarId} {r : Variable} (hv : v ∈ f.slots) (hw : s.vars.get? w = some r)
    (hg : r.isGlobal = true) : s.vars.home v ≠ w := by
  rintro rfl
  obtain ⟨q, hq, hqg, -⟩ := Emit.own_record hf hv
  obtain ⟨q', hq', hqg', -⟩ := h.nest.state.get?_home hq hqg
  cases hw.symm.trans hq'
  cases hg.symm.trans hqg'

end

/-! ### What a function reaches -/

/-- A variable that checked statements use is one of the function around them, or of the module; the
name of the latter denotes it, in a read or an assignment. -/
theorem uses_cases {F : Facts} {lv : List Level} {passes : String → Bool} {ret : Option Ty}
    {ss : List Stmt} (hss : F.BlockOk lv passes ret ss) {v : VarId} (hv : Stmt.Uses ss v) :
    (∃ x, F.IsOwn lv x v) ∨ ∃ r, F.vars.get? v = some r ∧ r.isGlobal = true ∧
      List.lookup r.name F.module = some v ∧
      (some v = denotes F.module passes r.name lv ∨
        (lv ≠ [] → some v = nearest F.module r.name lv)) := by
  cases hv with
  | read hocc =>
    obtain ⟨t, ht⟩ := exprOk_of_occursIn hss hocc
    simp only [ExprOk] at ht
    obtain ⟨-, w, hw, ⟨r, hr, rfl, hcase⟩, hdenotes, -⟩ := ht
    cases hw
    obtain ⟨hg, hm⟩ | hown := hcase
    · rw [Variables.home_of_global hr hg] at hdenotes
      exact .inr ⟨r, hr, hg, hm, .inl hdenotes⟩
    · exact .inl ⟨_, hown⟩
  | write hocc =>
    have hst := stmtOk_of_occursIn hss hocc
    simp only [StmtOk, TargetOk] at hst
    obtain ⟨-, t, -, ⟨w, q, hw, -, ⟨r, hr, hx, hcase⟩, -, -, hnear⟩, -⟩ := hst
    cases hw
    obtain ⟨hg, hm⟩ | hown := hcase
    · rw [Variables.home_of_global hr hg, ← hx] at hnear
      exact .inr ⟨r, hr, hg, hx ▸ hm, .inr hnear⟩
    · exact .inl ⟨_, hown⟩
  | pass hocc hmem =>
    obtain ⟨t, ht⟩ := exprOk_of_occursIn hss hocc
    simp only [ExprOk] at ht
    obtain ⟨-, f, -, -, -, ⟨-, rfl⟩ | ⟨l, outer, -, -, hpass⟩⟩ := ht
    · exact absurd hmem List.not_mem_nil
    · obtain ⟨k, -, -, hown, -⟩ := exists_of_forall₂ hpass hmem
      exact .inl ⟨_, hown⟩

/-! ### Globals -/

theorem nodup_globals (h : CheckedOk p c s) (hp : p.Words) {o : Options} {m : Code.Module}
    (hm : Emit.Generated c o m) : (m.globals.map (·.name)).Nodup := by
  rw [hm.globals, List.map_cons, List.map_map, List.nodup_cons]
  refine ⟨fun hmem => ?_, h.nodup_vars⟩
  obtain ⟨q, hq, heq⟩ := List.mem_map.1 hmem
  exact (h.global_word hp hq).not_made _
    ((congrArg String.toList heq).trans Compiled.heapName_made)

/-- The name of a variable of the module leads to the global of its definition. -/
theorem globalIndex_eq (h : CheckedOk p c s) (hp : p.Words) {o : Options} {m : Code.Module}
    (hm : Emit.Generated c o m) {x : String} {v : VarId}
    (hv : List.lookup x s.varEnv.module = some v) :
    ∃ i d, m.globalIndex x = .ok (i + 1) ∧ c.program.vars[i]? = some d ∧ d.binding = some v := by
  obtain ⟨d, hd, rfl, hb⟩ := h.module x v hv
  obtain ⟨i, hi⟩ := List.getElem?_of_mem hd
  have hname : (m.globals.map (·.name))[i + 1]? = some d.var.name.name := by
    rw [hm.globals, List.map_cons, List.getElem?_cons_succ, List.map_map, List.getElem?_map, hi]
    rfl
  refine ⟨i, d, ?_, hi, hb⟩
  rw [Code.Module.globalIndex, lastIndex?_of_nodup (h.nodup_globals hp hm) hname]

/-! ### Functions -/

/-- Variables with different names in a frame, beside variables of the module that are reached under
other names, are all told apart by their names. -/
theorem namedApart_of (h : CheckedOk p c s) (hp : p.Words) {o : Options} {m : Code.Module}
    (hm : Emit.Generated c o m) {g : Code.Func} {own : List VarId} {ss : List Stmt}
    (hframe : ∃ made, g.params ++ g.locals = Emit.varNames c own ++ made ∧
      ∀ x ∈ made, ∃ rest, x.toList = '#' :: rest)
    (hnd : (g.params ++ g.locals).Nodup) (hwords : ∀ x ∈ Emit.varNames c own, Word x)
    (hown : ∀ v ∈ own, (c.var v).isGlobal = false)
    (hreach : ∀ v, Stmt.Reaches own ss v → v ∈ own ∨ ((c.var v).isGlobal = true ∧
      List.lookup (c.var v).name s.varEnv.module = some v))
    (hapart : ∀ v w, Stmt.Reaches own ss v → (c.var v).isGlobal = true → w ∈ own →
      (c.var v).name ≠ (c.var w).name) : c.NamedApart m g own ss where
  frame := hframe
  slot := by
    intro v hv hg
    obtain hv | ⟨hg', -⟩ := hreach v hv
    · obtain ⟨made, heq, -⟩ := hframe
      obtain ⟨i, hi⟩ := List.getElem?_of_mem hv
      have hlt := (List.getElem?_eq_some_iff.1 hi).1
      have hname : (g.params ++ g.locals)[i]? = some (c.var v).name := by
        rw [heq, List.getElem?_append_left (by rwa [Emit.varNames, List.length_map]),
          Emit.varNames, List.getElem?_map, hi, Option.map_some]
      exact ⟨i, by rw [Code.Func.slot, lastIndex?_of_nodup hnd hname], hi⟩
    · cases hg.symm.trans hg'
  global := by
    intro v hv hg
    obtain hv | ⟨-, hlook⟩ := hreach v hv
    · cases hg.symm.trans (hown v hv)
    · exact h.globalIndex_eq hp hm hlook
  distinct := by
    intro v w hv hw heq
    obtain hvo | ⟨hvg, hvl⟩ := hreach v hv <;> obtain hwo | ⟨hwg, hwl⟩ := hreach w hw
    · obtain ⟨made, hnames, -⟩ := hframe
      rw [hnames] at hnd
      exact List.inj_on_of_nodup_map (List.nodup_append.1 hnd).1 hvo hwo heq
    · exact absurd heq.symm (hapart w v hw hwg hvo)
    · exact absurd heq (hapart v w hv hvg hwo)
    · rw [heq] at hvl
      exact Option.some.inj (hvl.symm.trans hwl)
  notMade := by
    intro v hv
    have hword : Word (c.var v).name := by
      obtain hv | ⟨-, hlook⟩ := hreach v hv
      · exact hwords _ (List.mem_map_of_mem hv)
      · obtain ⟨d, hd, hx, -⟩ := h.module _ v hlook
        exact hx ▸ h.global_word hp hd
    have hmade : ∀ {x : String}, (∃ rest, x.toList = '#' :: rest) → (c.var v).name ≠ x := by
      rintro x ⟨rest, hx⟩ rfl
      exact hword.not_made rest hx
    refine ⟨fun hmem => ?_, fun n => hmade ⟨_, Emit.toList_append_repr (by rfl) n⟩⟩
    simp only [List.mem_cons, List.not_mem_nil, or_false] at hmem
    obtain hx | hx | hx := hmem
    · exact hmade ⟨_, by rfl⟩ hx
    · exact hmade ⟨_, by rfl⟩ hx
    · exact hmade ⟨_, by rfl⟩ hx

/-- The variables that the function of a definition reaches. -/
theorem namedApart_function (h : CheckedOk p c s) (hp : p.Words) {o : Options} {m : Code.Module}
    (hm : Emit.Generated c o m) {outer : List FunDef} {d : FunDef} (hd : c.Nest outer d)
    {g : Code.Func} (hg : Emit.Frames c (c.record d) g) :
    c.NamedApart m g (c.record d).slots d.body := by
  obtain ⟨id, -, -, hf, -⟩ := h.record_ok hd
  have hown : ∀ v ∈ (c.record d).slots, (c.var v).isGlobal = false := by
    intro v hv
    obtain ⟨r, hr, hrg, -⟩ := Emit.own_record hf hv
    rw [Emit.var_eq h hr, hrg]
  have hcases : ∀ v, Stmt.Reaches (c.record d).slots d.body v → v ∈ (c.record d).slots ∨
      ∃ r, s.vars.get? v = some r ∧ r.isGlobal = true ∧
        List.lookup r.name s.varEnv.module = some v ∧
        ∀ w ∈ (c.record d).slots, r.name ≠ (c.var w).name := by
    rintro v (hv | hv)
    · exact .inl hv
    · obtain ⟨x, hv⟩ | ⟨r, hr, hrg, hrm, hname⟩ := uses_cases hf.body hv
      · exact .inl (Emit.own_mem h hf hv)
      · refine .inr ⟨r, hr, hrg, hrm, fun w hw heq => ?_⟩
        obtain ⟨hnear, hdenotes⟩ := h.slot_denotes hf hw
        rw [heq] at hname
        refine h.home_not_global hf hw hr hrg ?_
        obtain hname | hname := hname
        · exact Option.some.inj (hdenotes.symm.trans hname.symm)
        · exact Option.some.inj (hnear.symm.trans (hname (List.cons_ne_nil _ _)).symm)
  refine h.namedApart_of hp hm ?_ hg.nodup (h.own_words hp hd hf) hown ?_ ?_
  · obtain ⟨made, hmade⟩ := hg.locals
    have heq : g.params ++ g.locals = Emit.varNames c (c.record d).slots ++ made := by
      rw [hg.params, ← hmade, Function.slots]
      simp only [Emit.varNames, List.map_append, List.append_assoc]
    refine ⟨made, heq, fun x hx => ?_⟩
    have hin : x ∈ g.params ++ g.locals := heq ▸ List.mem_append_right _ hx
    refine (hg.made x hin).resolve_left fun hmem => ?_
    have hnd := hg.nodup
    rw [heq] at hnd
    exact (List.nodup_append.1 hnd).2.2 x hmem x hx rfl
  · intro v hv
    refine (hcases v hv).imp_right ?_
    rintro ⟨r, hr, hrg, hrm, -⟩
    rw [Emit.var_eq h hr]
    exact ⟨hrg, hrm⟩
  · intro v w hv hvg hw
    obtain hv | ⟨r, hr, -, -, hname⟩ := hcases v hv
    · cases hvg.symm.trans (hown v hv)
    · rw [Emit.var_eq h hr]
      exact hname w hw

/-- The variables that the entry reaches are those of the module. -/
theorem namedApart_entry (h : CheckedOk p c s) (hp : p.Words) {o : Options} {m : Code.Module}
    (hm : Emit.Generated c o m) {g : Code.Func} (hg : Emit.EntryBuilt c m.types g) :
    c.NamedApart m g [] c.program.body := by
  refine h.namedApart_of hp hm ⟨g.locals, ?_, hg.made⟩ ?_ (by simp [Emit.varNames]) (by simp) ?_
    (by simp)
  · rw [hg.params]
    rfl
  · rw [hg.params]
    exact hg.nodup
  · rintro v (hv | hv)
    · exact .inl hv
    · obtain ⟨x, l, outer, hl, -⟩ | ⟨r, hr, hrg, hrm, -⟩ := uses_cases h.body hv
      · cases hl
      · rw [Emit.var_eq h hr]
        exact .inr ⟨hrg, hrm⟩

end CheckedOk

/-! ### Modules -/

namespace Emit.Generated

variable {p : Program} {c : CheckedProgram} {s : Check.State} {o : Options} {m : Code.Module}

/-- The functions of a module: the allocator, the method of the root class, those of definitions, and
the entry. -/
theorem function_cases (h : Generated c o m) {g : Code.Func} (hg : g ∈ m.functions) :
    g = allocFunction ∨ g = rootFunction c ∨
      (∃ d ∈ c.program.allFunctions, ∃ id f, Built c m.types d id f g) ∨
      EntryBuilt c m.types g := by
  obtain ⟨gs, e, hfunctions, hbuilt, he⟩ := h.functions
  rw [hfunctions] at hg
  simp only [List.mem_append, List.mem_cons, List.not_mem_nil, or_false] at hg
  obtain ((rfl | rfl) | hg) | rfl := hg
  · exact .inl rfl
  · exact .inr (.inl rfl)
  · obtain ⟨d, hd, hb⟩ := exists_of_forall₂ hbuilt.flip hg
    exact .inr (.inr (.inl ⟨d, hd, hb⟩))
  · exact .inr (.inr (.inr he))

theorem distinct (h : Generated c o m) (hc : CheckedOk p c s) (hp : p.Words) : m.Distinct where
  functions := h.names
  globals := hc.nodup_globals hp h
  frames := by
    intro g hg
    obtain rfl | rfl | ⟨d, -, id, f, hb⟩ | he := h.function_cases hg
    · decide
    · obtain ⟨f, hf, -, -, -, -, -, hlen, -⟩ := hc.root
      rw [rootFunction, function_eq hc hf, varNames]
      obtain ⟨v, hv⟩ := List.length_eq_one_iff.1 hlen
      rw [hv]
      exact List.nodup_singleton _
    · exact hb.frames.nodup
    · rw [he.params]
      exact he.nodup
  labels := by
    intro g hg
    obtain rfl | rfl | ⟨d, -, id, f, hb⟩ | he := h.function_cases hg
    · exact List.nodup_nil
    · exact List.nodup_nil
    · exact hb.labels
    · exact he.labels

/-- A function that a program has is that of a definition, or the entry, and its variables are told
apart; the other two have no variables of the program that their code reaches. -/
theorem namedApart (h : Generated c o m) (hc : CheckedOk p c s) (hp : p.Words) {g : Code.Func}
    (hg : g ∈ m.functions) : g = allocFunction ∨ g = rootFunction c ∨
      (∃ d ∈ c.program.allFunctions, g.name = c.emitted d ∧
        c.NamedApart m g (c.record d).slots d.body) ∨
      (g.name = entryName ∧ c.NamedApart m g [] c.program.body) := by
  obtain halloc | hroot | ⟨d, hd, id, f, hb⟩ | he := h.function_cases hg
  · exact .inl halloc
  · exact .inr (.inl hroot)
  · obtain ⟨outer, hnest⟩ := CheckedProgram.exists_nest hd
    have hrecord : c.record d = f := by
      rw [CheckedProgram.record, hb.id_eq, Option.getD_some]
      exact function_eq hc (hc.functions_eq ▸ hb.record)
    refine .inr (.inr (.inl ⟨d, hd, ?_, hc.namedApart_function hp h hnest (hrecord ▸ hb.frames)⟩))
    rw [hb.frames.name, ← hrecord]
    rfl
  · exact .inr (.inr (.inr ⟨he.name, hc.namedApart_entry hp h he⟩))

end Emit.Generated

/-- In the module of a source text things of one kind have different names, linking leads every name
to the thing that has it, and in every function each variable of the program that its code reaches is
found under its name, which no other such variable has and no local that the generator made up. -/
theorem compile_distinct {o : Options} {source : String} {m : Code.Module}
    (h : compile o source = .ok m) : m.Distinct ∧ m.NamesLead ∧
      ∃ p c, Program.parse source = .ok p ∧ p.check = .ok c ∧
        ∀ g ∈ m.functions, g = Emit.allocFunction ∨ g = Emit.rootFunction c ∨
          (∃ d ∈ c.program.allFunctions, g.name = c.emitted d ∧
            c.NamedApart m g (c.record d).slots d.body) ∨
          (g.name = Emit.entryName ∧ c.NamedApart m g [] c.program.body) := by
  obtain ⟨p, c, hp, hc, hm⟩ := compile_ok_iff.1 h
  obtain ⟨s, hok⟩ := Program.check_ok hc
  have hgen := Emit.module_ok hok hm
  have hdistinct := hgen.distinct hok (Program.parse_words hp)
  exact ⟨hdistinct, hdistinct.namesLead, p, c, hp, hc,
    fun g hg => hgen.namedApart hok (Program.parse_words hp) hg⟩

/-- A variable of the module and one of a function share a name, and a function nested in the latter
changes the inner one in a loop. -/
def shadowing : String :=
  "x:int = 1\nclass A(object):\n  n:int = 0\n  def get(self:A) -> int:\n    return self.n\n" ++
  "def f(n:int) -> int:\n  x:int = 2\n  def g() -> int:\n    nonlocal x\n" ++
  "    while x < n:\n      x = x + 1\n    return x\n  if n > 0:\n    return g()\n  return x\n" ++
  "print(f(3) + x + A().get())\n"

theorem shadowing_compiles : (compile {} shadowing).toOption.any (fun m =>
    m.globals.map (·.name) == [Emit.heapName, "x"] &&
      m.functions.map (fun g => (g.name, g.params ++ g.locals, Code.labels g.body)) ==
        [("#alloc", ["#words", "#ptr"], []), ("object$__init__", ["self"], []),
          ("A$get", ["self"], []), ("f", ["n", "x", "#cell"], ["if_exit0"]),
          ("f$g", ["x", "n"], ["while_exit0", "while_loop1"]),
          ("#entry", ["#scratch", "#new", "#recv0"], [])]) = true := by
  decide +kernel

theorem compile_distinct_shadowing : ∃ m p c, compile {} shadowing = .ok m ∧
    m.globals.map (·.name) = [Emit.heapName, "x"] ∧ m.Distinct ∧ m.NamesLead ∧
    Program.parse shadowing = .ok p ∧ p.check = .ok c ∧
    ∃ g ∈ m.functions, ∃ d ∈ c.program.allFunctions, g.name = "f$g" ∧ g.name = c.emitted d ∧
      c.NamedApart m g (c.record d).slots d.body := by
  obtain ⟨m, hm, hcompiles⟩ := toOption_any_eq_true.1 shadowing_compiles
  simp only [Bool.and_eq_true, beq_iff_eq] at hcompiles
  obtain ⟨hglobals, hfunctions⟩ := hcompiles
  obtain ⟨hdistinct, hlead, p, c, hp, hc, hall⟩ := compile_distinct hm
  obtain ⟨g, hg, heq⟩ : ∃ g ∈ m.functions, (g.name, g.params ++ g.locals, Code.labels g.body)
      = ("f$g", ["x", "n"], ["while_exit0", "while_loop1"]) := by
    rw [← List.mem_map, hfunctions]
    simp
  simp only [Prod.mk.injEq] at heq
  obtain ⟨hname, hframe, -⟩ := heq
  obtain rfl | rfl | ⟨d, hd, hemitted, happart⟩ | ⟨hentry, -⟩ := hall g hg
  · exact absurd hname (by decide)
  · obtain ⟨s, hok⟩ := Program.check_ok hc
    obtain ⟨f, hf, -, he, -⟩ := hok.root
    rw [Emit.rootFunction, Emit.function_eq hok hf, he] at hname
    have hne : methodTarget rootClass initMethod ≠ "f$g" := by decide
    exact absurd hname hne
  · exact ⟨m, p, c, hm, hglobals, hdistinct, hlead, hp, hc, g, hg, d, hd, hname, hemitted,
      happart⟩
  · exact absurd (hname.symm.trans hentry) (by decide)

end ObjLang
