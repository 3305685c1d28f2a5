import Mathlib.Data.List.TakeWhile
import ObjLang.Proofs.Emit.Slots

/-!
# ObjLang.Proofs.Emit.Paths — the names of generated functions

A method goes by the name of its class, a `$` and its own name, and a nested function by the name of
the function around it, a `$` and its own name.  A name in a source text has no `$`, so the text up
to the next `$` tells where a path goes on.  Hence no two functions share a name as long as the
functions of one body, the methods of one class and the definitions of the module have different
names.
-/

namespace ObjLang

open Check Check.Facts

/-! ### Paths -/

/-- A path that ends with `e`, or goes on behind it. -/
def Under (e x : String) : Prop := x = e ∨ ∃ rest, x = e ++ "$" ++ rest

namespace Under

variable {e a b x : String}

theorem outer (h : Under (e ++ "$" ++ a) x) : Under e x := by
  obtain rfl | ⟨rest, rfl⟩ := h
  · exact .inr ⟨a, rfl⟩
  · exact .inr ⟨a ++ "$" ++ rest, by simp only [String.append_assoc]⟩

theorem ne (h : Under (e ++ "$" ++ a) x) : x ≠ e := by
  have hlt : e.toList.length < x.toList.length := by
    obtain rfl | ⟨rest, rfl⟩ := h
    · simp [String.toList_append]
    · simp only [String.toList_append, List.length_append]
      have hdollar : "$".toList.length = 1 := rfl
      omega
  rintro rfl
  exact Nat.lt_irrefl _ hlt

/-- The part of a path that stands behind `e`. -/
theorem part (ha : Word a) (h : Under (e ++ a) x) :
    (x.toList.drop e.toList.length).takeWhile (· != '$') = a.toList := by
  have hkeep : ∀ ch ∈ a.toList, (ch != '$') = true := by
    intro ch hch
    rw [bne_iff_ne]
    rintro rfl
    exact ha.dollar_not_mem hch
  obtain rfl | ⟨rest, rfl⟩ := h
  · rw [String.toList_append, List.drop_left, List.takeWhile_eq_self_iff.2 hkeep]
  · have htext : (e ++ a ++ "$" ++ rest).toList
        = e.toList ++ (a.toList ++ '$' :: rest.toList) := by
      simp [String.toList_append]
    rw [htext, List.drop_left, List.takeWhile_append_of_pos hkeep]
    simp

theorem unique (ha : Word a) (hb : Word b) (h : Under (e ++ a) x) (h' : Under (e ++ b) x) :
    a = b :=
  String.toList_inj.1 ((part ha h).symm.trans (part hb h'))

/-- A path does not start like a name that the generator makes up. -/
theorem not_made (ha : Word a) (h : Under a x) : ∀ rest, x.toList ≠ '#' :: rest := by
  intro rest hx
  have hpart := part (e := "") ha (by simpa using h)
  rw [hx] at hpart
  have hmem : '#' ∈ a.toList := by
    rw [← hpart]
    simp
  exact absurd (ha '#' hmem) (by decide)

end Under

/-- Groups of paths that go on behind `e` with different names have no path in common. -/
theorem nodup_of_under {e : String} {gs : List (String × List String)}
    (hnames : (gs.map Prod.fst).Nodup)
    (hgs : ∀ g ∈ gs, Word g.1 ∧ g.2.Nodup ∧ ∀ x ∈ g.2, Under (e ++ g.1) x) :
    (gs.flatMap Prod.snd).Nodup := by
  rw [List.nodup_flatMap]
  refine ⟨fun g hg => (hgs g hg).2.1, ?_⟩
  refine List.Pairwise.imp_of_mem ?_ (List.pairwise_map.1 hnames)
  intro g g' hg hg' hne x hx hx'
  obtain ⟨hw, -, hu⟩ := hgs g hg
  obtain ⟨hw', -, hu'⟩ := hgs g' hg'
  exact hne (Under.unique hw hw' (hu x hx) (hu' x hx'))

/-! ### Definitions and their names -/

theorem FunDef.allOf_eq (ds : List FunDef) : FunDef.allOf ds = ds.flatMap FunDef.all := by
  induction ds with
  | nil => rfl
  | cons d ds ih => rw [FunDef.allOf, ih, List.flatMap_cons]

/-- The name of a definition in generated code. -/
def CheckedProgram.emitted (c : CheckedProgram) (d : FunDef) : String :=
  (c.function (d.id.getD default)).emitted

/-- The names of the functions that are generated for a program, without those that every module
has. -/
def CheckedProgram.functionNames (c : CheckedProgram) : List String :=
  methodTarget rootClass initMethod :: c.program.allFunctions.map c.emitted

namespace CheckedOk

variable {p : Program} {c : CheckedProgram} {s : State}

theorem emitted_eq (h : CheckedOk p c s) {d : FunDef} {id : FunId} {f : Function}
    (hid : d.id = some id) (hf : s.functions[id.index]? = some f) : c.emitted d = f.emitted := by
  rw [CheckedProgram.emitted, hid, Option.getD_some, Emit.function_eq h hf]

theorem emitted_nested (h : CheckedOk p c s) {outer : List FunDef} {d e : FunDef}
    (he : c.Nest outer e) (hd : d ∈ e.nested) :
    c.emitted d = c.emitted e ++ "$" ++ d.name.name := by
  obtain ⟨i, g, hg, -⟩ := h.function_ok he
  obtain ⟨id, f, hf, -⟩ := h.function_ok (.nested he hd)
  obtain ⟨g', hg', hem⟩ := hf.emitted (c.level e) rfl
  have hlevel : (c.level e).id = i := by
    rw [h.level_eq hg.id_eq hg.record]
    rfl
  rw [hlevel] at hg'
  rw [h.emitted_eq hf.id_eq hf.record, hem, h.emitted_eq hg.id_eq hg']

theorem emitted_method (h : CheckedOk p c s) {k : ClassDef} (hk : k ∈ c.program.classes)
    {d : FunDef} (hd : d ∈ k.methods) :
    c.emitted d = k.name.name ++ "$" ++ d.name.name := by
  obtain ⟨-, id, hid, f, hf, -, hem, -⟩ := h.methods k hk d hd
  rw [h.emitted_eq hid hf, hem, methodTarget]

theorem emitted_function (h : CheckedOk p c s) {d : FunDef} (hd : d ∈ c.program.functions) :
    c.emitted d = d.name.name := by
  obtain ⟨id, hid, f, hf, hem⟩ := h.functionNames d hd
  rw [h.emitted_eq hid hf, hem]

/-- The names of a function and of those in it are paths that start with its own, all different. -/
def Spread (c : CheckedProgram) (d : FunDef) : Prop :=
  (d.all.map c.emitted).Nodup ∧ ∀ x ∈ d.all.map c.emitted, Under (c.emitted d) x

/-- The names of functions in one place, and of all functions in them. -/
theorem nodup_allOf {e : String} {ds : List FunDef} (hnames : (ds.map (·.name.name)).Nodup)
    (hds : ∀ d ∈ ds, Word d.name.name ∧ Spread c d ∧ c.emitted d = e ++ d.name.name) :
    ((FunDef.allOf ds).map c.emitted).Nodup := by
  have hgroups : (FunDef.allOf ds).map c.emitted
      = (ds.map fun d => (d.name.name, d.all.map c.emitted)).flatMap Prod.snd := by
    rw [FunDef.allOf_eq, List.map_flatMap, List.flatMap_map]
  rw [hgroups]
  refine nodup_of_under (e := e) ?_ ?_
  · rwa [List.map_map]
  · intro g hg
    obtain ⟨d, hd, rfl⟩ := List.mem_map.1 hg
    obtain ⟨hw, ⟨hnd, hu⟩, hem⟩ := hds d hd
    exact ⟨hw, hnd, fun x hx => hem ▸ hu x hx⟩

/-- If the functions in a function spread, so does it. -/
theorem Spread.of_nested (h : CheckedOk p c s) (hp : p.Words) {outer : List FunDef} {d : FunDef}
    (hd : c.Nest outer d) (hnested : ∀ e ∈ d.nested, Spread c e) : Spread c d := by
  obtain ⟨i, f, hf, -⟩ := h.function_ok hd
  have hin : ∀ e ∈ d.nested, c.emitted e = c.emitted d ++ "$" ++ e.name.name :=
    fun e he => h.emitted_nested hd he
  have hunder : ∀ x ∈ (FunDef.allOf d.nested).map c.emitted,
      ∃ e ∈ d.nested, Under (c.emitted d ++ "$" ++ e.name.name) x := by
    intro x hx
    obtain ⟨e', he', rfl⟩ := List.mem_map.1 hx
    obtain ⟨e, he, hee'⟩ := FunDef.mem_allOf.1 he'
    exact ⟨e, he, hin e he ▸ (hnested e he).2 _ (List.mem_map_of_mem hee')⟩
  unfold Spread
  rw [FunDef.all_eq, List.map_cons]
  refine ⟨List.nodup_cons.2 ⟨fun hmem => ?_, ?_⟩, fun x hx => ?_⟩
  · obtain ⟨e, -, hu⟩ := hunder _ hmem
    exact hu.ne rfl
  · refine nodup_allOf (e := c.emitted d ++ "$") hf.nestedNames fun e he => ?_
    exact ⟨(h.nest_words hp (.nested hd he)).name, hnested e he, hin e he⟩
  · obtain rfl | hx := List.mem_cons.1 hx
    · exact .inl rfl
    · obtain ⟨e, -, hu⟩ := hunder x hx
      exact hu.outer

mutual

theorem spread (h : CheckedOk p c s) (hp : p.Words) {outer : List FunDef} {d : FunDef}
    (hd : c.Nest outer d) : Spread c d := by
  match d with
  | ⟨name, params, ret, decls, vars, nested, body, span, id⟩ =>
    exact Spread.of_nested h hp hd (spreads h hp fun e he => .nested hd he)

theorem spreads (h : CheckedOk p c s) (hp : p.Words) {outer : List FunDef} {ds : List FunDef}
    (hds : ∀ d ∈ ds, c.Nest outer d) : ∀ d ∈ ds, Spread c d := by
  match ds with
  | [] => exact fun d hd => absurd hd List.not_mem_nil
  | e :: ds =>
    exact List.forall_mem_cons.2 ⟨spread h hp (hds e List.mem_cons_self),
      spreads h hp fun d hd => hds d (List.mem_cons_of_mem _ hd)⟩

end

/-! ### All names of a module -/

theorem methodNames (h : CheckedOk p c s) {k : ClassDef} (hk : k ∈ c.program.classes) :
    (k.methods.map (·.name.name)).Nodup := by
  obtain ⟨k', hk', -, -, hms⟩ := exists_of_forall₂ h.sameClasses.flip hk
  obtain ⟨_, _, _, -, -, hx⟩ := h.laid.of_class hk'
  obtain ⟨fields, methods, -, hm, -⟩ := ClassTable.extend_eq_ok.1 hx
  have hnames : k.methods.map (·.name.name) = k'.methods.map (·.name.name) :=
    Emit.forall₂_map_eq hms fun _ _ hb => congrArg Ident.name hb.name
  rw [hnames]
  exact (ClassLayout.addMethods_isOk.1 ⟨methods, hm⟩).1

theorem class_names (h : CheckedOk p c s) :
    c.program.classes.map (·.name.name) = p.classes.map (·.name.name) :=
  Emit.forall₂_map_eq h.sameClasses fun _ _ hk => congrArg Ident.name hk.1

/-- The variables of the module have different names. -/
theorem nodup_vars (h : CheckedOk p c s) : (c.program.vars.map (·.var.name.name)).Nodup := by
  have hnames : c.program.vars.map (·.var.name.name) = p.vars.map (·.var.name.name) :=
    Emit.forall₂_map_eq h.sameVars fun _ _ hd => congrArg (·.name.name) hd.1
  have hall := h.names
  rw [Program.names, List.map_append, List.map_append, List.map_map, List.map_map] at hall
  exact hnames ▸ (List.nodup_append.1 (List.nodup_append.1 hall).1).2.1

/-- The classes and functions of the module and the root class have different names. -/
theorem topNames (h : CheckedOk p c s) : (rootClass :: c.program.classes.map (·.name.name)
    ++ c.program.functions.map (·.name.name)).Nodup := by
  have hfunctions : c.program.functions.map (·.name.name) = p.functions.map (·.name.name) :=
    Emit.forall₂_map_eq h.sameFunctions fun _ _ hb => congrArg Ident.name hb.name
  have hsub : (p.classes.map (·.name.name) ++ p.functions.map (·.name.name)).Sublist p.names := by
    simp only [Program.names, List.map_append, List.map_map, List.append_assoc]
    exact List.Sublist.append_left (List.sublist_append_right _ _) _
  have hroot : rootClass ∉ p.names := fun hmem => h.reserved _ hmem (by decide)
  rw [h.class_names, hfunctions, List.cons_append]
  exact List.nodup_cons.2 ⟨fun hmem => hroot (hsub.subset hmem), hsub.nodup h.names⟩

theorem class_word (h : CheckedOk p c s) (hp : p.Words) {k : ClassDef}
    (hk : k ∈ c.program.classes) : Word k.name.name := by
  obtain ⟨k', hk', hname, -⟩ := exists_of_forall₂ h.sameClasses.flip hk
  rw [hname]
  exact (hp.classes k' hk').name

/-- The methods of a class spread behind its name. -/
theorem spread_methods (h : CheckedOk p c s) (hp : p.Words) {k : ClassDef}
    (hk : k ∈ c.program.classes) : ((FunDef.allOf k.methods).map c.emitted).Nodup ∧
      ∀ x ∈ (FunDef.allOf k.methods).map c.emitted, Under k.name.name x := by
  have hmethods : ∀ d ∈ k.methods, Word d.name.name ∧ Spread c d ∧
      c.emitted d = k.name.name ++ "$" ++ d.name.name := by
    intro d hd
    have hnest := CheckedProgram.Nest.method hk hd
    exact ⟨(h.nest_words hp hnest).name, spread h hp hnest, h.emitted_method hk hd⟩
  refine ⟨nodup_allOf (h.methodNames hk) hmethods, fun x hx => ?_⟩
  obtain ⟨e, he, rfl⟩ := List.mem_map.1 hx
  obtain ⟨d, hd, hed⟩ := FunDef.mem_allOf.1 he
  obtain ⟨-, hspread, hem⟩ := hmethods d hd
  have hunder := hspread.2 _ (List.mem_map_of_mem hed)
  rw [hem] at hunder
  exact hunder.outer

theorem nodup_functionNames (h : CheckedOk p c s) (hp : p.Words) :
    c.functionNames.Nodup ∧ ∀ x ∈ c.functionNames, ∀ rest, x.toList ≠ '#' :: rest := by
  -- One group of names for each class and each function of the module.
  let groups : List (String × List String) :=
    (rootClass, [methodTarget rootClass initMethod]) ::
      c.program.classes.map (fun k => (k.name.name, (FunDef.allOf k.methods).map c.emitted))
      ++ c.program.functions.map (fun d => (d.name.name, d.all.map c.emitted))
  have hall : c.functionNames = groups.flatMap Prod.snd := by
    simp [CheckedProgram.functionNames, Program.allFunctions, groups, FunDef.allOf_eq,
      List.flatMap_map, List.map_flatMap, List.flatMap_assoc]
  have hfst : groups.map Prod.fst = rootClass :: c.program.classes.map (·.name.name)
      ++ c.program.functions.map (·.name.name) := by
    simp [groups, Function.comp_def]
  have hgroups : ∀ g ∈ groups, Word g.1 ∧ g.2.Nodup ∧ ∀ x ∈ g.2, Under ("" ++ g.1) x := by
    simp only [String.empty_append]
    intro g hg
    obtain hg | hg := List.mem_append.1 hg
    · obtain rfl | hg := List.mem_cons.1 hg
      · refine ⟨List.all_eq_true.1 rfl, List.nodup_singleton _, fun x hx => ?_⟩
        obtain rfl := List.mem_singleton.1 hx
        exact .inr ⟨initMethod, rfl⟩
      · obtain ⟨k, hk, rfl⟩ := List.mem_map.1 hg
        exact ⟨h.class_word hp hk, h.spread_methods hp hk⟩
    · obtain ⟨d, hd, rfl⟩ := List.mem_map.1 hg
      have hnest := CheckedProgram.Nest.function (c := c) hd
      have hspread := spread h hp hnest
      refine ⟨(h.nest_words hp hnest).name, hspread.1, fun x hx => ?_⟩
      have hunder := hspread.2 x hx
      rwa [h.emitted_function hd] at hunder
  rw [hall]
  refine ⟨nodup_of_under (hfst ▸ h.topNames) hgroups, fun x hx => ?_⟩
  obtain ⟨g, hg, hx⟩ := List.mem_flatMap.1 hx
  obtain ⟨hw, -, hu⟩ := hgroups g hg
  exact Under.not_made hw (by simpa using hu x hx)

end CheckedOk

end ObjLang
