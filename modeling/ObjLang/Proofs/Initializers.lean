import ObjLang.Proofs.Check.Program

/-!
# ObjLang.Proofs.Initializers — first values of variables and fields

A check compares the literal of every variable with its type, in the module and in functions at any
depth.  Fields go another way: a layout takes over the literals of the class definitions as they are,
its own and those of its superclasses, and nothing compares them.
-/

namespace ObjLang

open Check Check.Facts

/-- A literal that can be the first value of something of a type: it has the type, or it is the
empty reference and the type is that of objects. -/
def Literal.Fits (v : Literal) (t : Ty) : Prop := v.ty = t ∨ v = .none ∧ t.isObject = true

instance (v : Literal) (t : Ty) : Decidable (v.Fits t) := inferInstanceAs (Decidable (_ ∨ _))

/-- A definition whose literal fits its written type. -/
def ClassTable.Fits (classes : ClassTable) (d : TypedName × Literal) : Prop :=
  ∃ t, Ty.ofName classes.contains d.1.type.name = .ok t ∧ d.2.Fits t

instance (classes : ClassTable) (d : TypedName × Literal) : Decidable (classes.Fits d) :=
  match h : Ty.ofName classes.contains d.1.type.name with
  | .ok t => decidable_of_iff (d.2.Fits t) ⟨fun hd => ⟨t, h, hd⟩, fun ⟨_, ht, hd⟩ => by
      cases h.symm.trans ht
      exact hd⟩
  | .error _ => isFalse fun ⟨_, ht, _⟩ => by
      cases h.symm.trans ht

/-- The variables that a program defines, in the module and in functions at any depth, with their
literals. -/
def Program.variables (p : Program) : List (TypedName × Literal) :=
  p.vars.map (fun d => (d.var, d.init))
    ++ FunDef.definitionsOf (p.classes.flatMap (·.methods) ++ p.functions)

/-! ### Variables -/

theorem initializes_iff {v : Literal} {t : Ty} : initializes v t = true ↔ v.Fits t := by
  unfold initializes Literal.Fits
  simp only [Bool.or_eq_true, beq_iff_eq, Bool.and_eq_true]
  refine or_congr_right ⟨fun ⟨ht, hv⟩ => ⟨?_, ht⟩, ?_⟩
  · cases v <;> first | rfl | cases hv
  · rintro ⟨rfl, ht⟩
    exact ⟨ht, rfl⟩

theorem Check.Facts.VarDefOk.fits {F : Facts} {d : VarDef} {t : Ty} (h : F.VarDefOk d t) :
    F.classes.Fits (d.var, d.init) :=
  ⟨t, h.1, initializes_iff.1 h.2⟩

mutual

theorem Check.Facts.FunOk.fits {F : Facts} : ∀ {outer : List Level} {d : FunDef},
    F.FunOk outer d → ∀ x ∈ d.definitions, F.classes.Fits x
  | outer, { name, params, ret, decls, vars, nested, body, span, id }, h, x, hx => by
    simp only [FunOk] at h
    obtain ⟨i, f, hf, hn⟩ := h
    simp only [FunDef.definitions, List.mem_append] at hx
    obtain hx | hx := hx
    · obtain ⟨v, hv, rfl⟩ := List.mem_map.1 hx
      obtain ⟨j, hj, rfl⟩ := List.getElem_of_mem hv
      obtain ⟨-, r, t, -, -, -, -, -, -, hok⟩ :=
        hf.locals.get hj (hf.locals.length_eq ▸ hj)
      exact hok.fits
    · exact FunsOk.fits hn x hx

theorem Check.Facts.FunsOk.fits {F : Facts} : ∀ {outer : List Level} {ds : List FunDef},
    F.FunsOk outer ds → ∀ x ∈ FunDef.definitionsOf ds, F.classes.Fits x
  | _, [], _, x, hx => absurd hx List.not_mem_nil
  | outer, d :: ds, h, x, hx => by
    simp only [FunsOk] at h
    simp only [FunDef.definitionsOf, List.mem_append] at hx
    obtain hx | hx := hx
    · exact FunOk.fits h.1 x hx
    · exact FunsOk.fits h.2 x hx

end

/-- The definitions of two lists of functions that correspond to each other. -/
theorem exists_same_definitions {ds ds' : List FunDef}
    (h : List.Forall₂ FunDef.Binds ds ds')
    {d : FunDef} (hd : d ∈ ds) : ∃ d' ∈ ds', d'.definitions = d.definitions := by
  obtain ⟨i, hi, rfl⟩ := List.getElem_of_mem hd
  have hi' := h.length_eq ▸ hi
  exact ⟨_, List.getElem_mem hi', (h.get hi hi').definitions⟩

/-- Every variable that a checked program defines has a literal that fits. -/
theorem CheckedOk.variables_fit {p : Program} {c : CheckedProgram} {s : State}
    (h : CheckedOk p c s) {x : TypedName × Literal} (hx : x ∈ p.variables) : c.classes.Fits x := by
  obtain hx | hx := List.mem_append.1 hx
  · obtain ⟨d, hd, rfl⟩ := List.mem_map.1 hx
    obtain ⟨i, hi, rfl⟩ := List.getElem_of_mem hd
    have hi' := h.sameVars.length_eq ▸ hi
    obtain ⟨hvar, hinit⟩ := h.sameVars.get hi hi'
    obtain ⟨v, r, t, -, -, -, -, -, -, -, hok⟩ := h.globals _ (List.getElem_mem hi')
    have hfits := hok.fits
    simp only [List.get_eq_getElem] at hvar hinit
    rw [hvar, hinit] at hfits
    exact hfits
  · obtain ⟨d, hd, hxd⟩ := FunDef.mem_definitionsOf.1 hx
    obtain hd | hd := List.mem_append.1 hd
    · obtain ⟨k, hk, hdk⟩ := List.mem_flatMap.1 hd
      obtain ⟨i, hi, rfl⟩ := List.getElem_of_mem hk
      have hi' := h.sameClasses.length_eq ▸ hi
      obtain ⟨-, -, hsame⟩ := h.sameClasses.get hi hi'
      obtain ⟨d', hd', hdefs⟩ := exists_same_definitions hsame hdk
      exact (h.methods _ (List.getElem_mem hi') d' hd').1.fits x (hdefs ▸ hxd)
    · obtain ⟨d', hd', hdefs⟩ := exists_same_definitions h.sameFunctions hd
      exact (h.functions d' hd').fits x (hdefs ▸ hxd)

/-! ### Fields -/

namespace ClassTable

variable {classes : List ClassDef} {t : ClassTable}

/-- A field of a layout is a copy of a field that a class defines. -/
theorem LaidOut.fieldOf (h : LaidOut classes t) {l : ClassLayout} (hl : l ∈ t.layouts)
    {f : FieldLayout} (hf : f ∈ l.fields) :
    ∃ k ∈ classes, ∃ d ∈ k.fields, ClassLayout.FieldOf t.contains k.name.name d f := by
  induction h.laid l hl with
  | root => exact absurd hf List.not_mem_nil
  | @extend p _ k b hp _ hk _ hx ih =>
    obtain ⟨fields, methods, hfs, -, rfl⟩ := extend_eq_ok.1 hx
    obtain ⟨⟨own, hlist, hown⟩, -⟩ := ClassLayout.addFields_ok (h.indexed hp.mem).fields hfs
    obtain hf | hf := List.mem_append.1 (hlist ▸ hf)
    · exact ih hp.mem hf
    · obtain ⟨i, hi, rfl⟩ := List.getElem_of_mem hf
      have hi' := hown.length_eq ▸ hi
      exact ⟨k, hk, _, List.getElem_mem hi', hown.get hi' hi⟩

/-- A field that a class defines has a copy in the layout of the class. -/
theorem LaidOut.exists_fieldOf (h : LaidOut classes t) {k : ClassDef} (hk : k ∈ classes)
    {d : VarDef} (hd : d ∈ k.fields) :
    ∃ l ∈ t.layouts, l.name = k.name.name ∧ ∃ f ∈ l.fields,
      ClassLayout.FieldOf t.contains k.name.name d f := by
  obtain ⟨l, p, b, hl, hp, hx⟩ := h.of_class hk
  obtain ⟨hmem, hname⟩ := get?_mem hl
  obtain ⟨fields, methods, hfs, -, rfl⟩ := extend_eq_ok.1 hx
  obtain ⟨⟨own, hlist, hown⟩, -⟩ :=
    ClassLayout.addFields_ok (h.indexed (get?_mem hp).1).fields hfs
  obtain ⟨i, hi, rfl⟩ := List.getElem_of_mem hd
  have hi' := hown.length_eq ▸ hi
  refine ⟨_, hmem, hname, own[i], ?_, hown.get hi hi'⟩
  rw [hlist]
  exact List.mem_append_right _ (List.getElem_mem hi')

theorem fits_iff_of_fieldOf {owner : String} {d : VarDef} {f : FieldLayout}
    (h : ClassLayout.FieldOf t.contains owner d f) : t.Fits (d.var, d.init) ↔ f.init.Fits f.ty := by
  obtain ⟨-, hty, hinit, -⟩ := h
  rw [hinit]
  constructor
  · rintro ⟨ty, hty', hfits⟩
    cases hty.symm.trans hty'
    exact hfits
  · exact fun hfits => ⟨f.ty, hty, hfits⟩

end ClassTable

/-! ### Definitions of a checked program -/

/-- Of a checked program every variable has a literal that fits its type, and every field of every
layout is a copy of one that a class defines; the literals of fields fit exactly if those in the class
definitions do. -/
theorem check_initializers {p : Program} {c : CheckedProgram} (h : p.check = .ok c) :
    (∀ x ∈ p.variables, c.classes.Fits x) ∧
      (∀ l ∈ c.classes.layouts, ∀ f ∈ l.fields, ∃ k ∈ p.classes, ∃ d ∈ k.fields,
        ClassLayout.FieldOf c.classes.contains k.name.name d f) ∧
      ((∀ l ∈ c.classes.layouts, ∀ f ∈ l.fields, f.init.Fits f.ty) ↔
        ∀ k ∈ p.classes, ∀ d ∈ k.fields, c.classes.Fits (d.var, d.init)) := by
  obtain ⟨s, hok⟩ := Program.check_ok h
  refine ⟨fun x hx => hok.variables_fit hx, fun l hl f hf => hok.laid.fieldOf hl hf, ?_, ?_⟩
  · intro hfit k hk d hd
    obtain ⟨l, hl, -, f, hf, hcopy⟩ := hok.laid.exists_fieldOf hk hd
    exact (ClassTable.fits_iff_of_fieldOf hcopy).2 (hfit l hl f hf)
  · intro hfit l hl f hf
    obtain ⟨k, hk, d, hd, hcopy⟩ := hok.laid.fieldOf hl hf
    exact (ClassTable.fits_iff_of_fieldOf hcopy).1 (hfit k hk d hd)

/-- A class with an integer field that starts as a truth value, and a variable of the class. -/
def mistypedField : Program where
  vars := [{
    var := ⟨⟨"a", default⟩, ⟨"A", default⟩⟩
    init := .none
    initSpan := default
    span := default }]
  functions := []
  classes := [{
    name := ⟨"A", default⟩
    superclass := ⟨rootClass, default⟩
    fields := [{
      var := ⟨⟨"n", default⟩, ⟨"int", default⟩⟩
      init := .bool true
      initSpan := default
      span := default }]
    methods := []
    span := default }]
  body := []
  span := default

theorem mistypedField_checked : mistypedField.check.toOption.isSome = true := by
  decide +kernel

theorem check_initializers_mistypedField : ∃ c, mistypedField.check = .ok c ∧
    (∀ x ∈ mistypedField.variables, c.classes.Fits x) ∧
    ¬ ∀ k ∈ mistypedField.classes, ∀ d ∈ k.fields, c.classes.Fits (d.var, d.init) := by
  obtain ⟨c, hc⟩ := toOption_isSome_eq_true.1 mistypedField_checked
  obtain ⟨hvars, -, -⟩ := check_initializers hc
  refine ⟨c, hc, hvars, fun hfit => ?_⟩
  obtain ⟨t, ht, hfits⟩ := hfit _ List.mem_cons_self _ List.mem_cons_self
  cases ht
  exact absurd hfits (by decide)

/-- A checked program can have a layout with a field whose literal does not fit. -/
theorem not_check_fields_fit : ¬ ∀ (p : Program) (c : CheckedProgram), p.check = .ok c →
    ∀ l ∈ c.classes.layouts, ∀ f ∈ l.fields, f.init.Fits f.ty := by
  intro hall
  obtain ⟨c, hc⟩ := toOption_isSome_eq_true.1 mistypedField_checked
  obtain ⟨s, hok⟩ := Program.check_ok hc
  obtain ⟨l, hl, -, f, hf, hcopy⟩ :=
    hok.laid.exists_fieldOf List.mem_cons_self (d := _) List.mem_cons_self
  have hfit := (ClassTable.fits_iff_of_fieldOf hcopy).2 (hall _ c hc l hl f hf)
  obtain ⟨t, ht, hfits⟩ := hfit
  cases ht
  exact absurd hfits (by decide)

end ObjLang
