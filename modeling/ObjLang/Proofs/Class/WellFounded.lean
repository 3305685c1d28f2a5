import ObjLang.Proofs.Class.Dispatch
import ObjLang.Proofs.Class.Extension
import ObjLang.Proofs.Class.Refusals

/-!
# ObjLang.Proofs.Class.WellFounded — the lists of classes that get layouts

A list of classes gets layouts exactly if it is well-founded: names are different and not reserved,
the way up from every class ends at the root class, and every class adds new names of existing types
to what it has from above.  What a class has from above is told from the list alone, along the way
up; the layouts are built breadth first, and each class is met once, behind its superclass.
-/

namespace ObjLang

/-! ### Well-founded lists of classes -/

namespace ClassDef

/-- A class has a field of this name from a class above it. -/
def InheritsField (classes : List ClassDef) (d : ClassDef) (x : String) : Prop :=
  ∃ e ∈ classes, Descends classes d.superclass.name e.name.name ∧
    x ∈ e.fields.map (·.var.name.name)

/-- A class has a method of this name from a class above it.  The method for new objects is that of
the root class, and all have it. -/
def InheritsMethod (classes : List ClassDef) (d : ClassDef) (x : String) : Prop :=
  x = initMethod ∨ ∃ e ∈ classes, Descends classes d.superclass.name e.name.name ∧ e.Defines x

/-- A class adds new names of existing types to what it has from above. -/
structure Sound (classes : List ClassDef) (d : ClassDef) : Prop where
  fieldNames : (d.fields.map (·.var.name.name)).Nodup
  newFields : ∀ f ∈ d.fields, ¬ d.InheritsField classes f.var.name.name ∧
    ¬ d.InheritsMethod classes f.var.name.name
  fieldTypes : ∀ f ∈ d.fields, f.var.type.name ∈ ["int", "bool", "None", rootClass] ∨
    f.var.type.name ∈ classes.map (·.name.name)
  methodNames : (d.methods.map (·.name.name)).Nodup
  newMethods : ∀ m ∈ d.methods, ¬ d.InheritsField classes m.name.name ∧
    m.name.name ∉ d.fields.map (·.var.name.name)

/-- Names are different and not reserved, superclasses exist, every way up ends at the root class,
and every class adds to what it has from above. -/
structure WellFounded (classes : List ClassDef) : Prop where
  names : (classes.map (·.name.name)).Nodup
  unreserved : ∀ d ∈ classes, d.name.name ∉ [rootClass, "int", "bool", "None"]
  superclasses : ∀ d ∈ classes, d.superclass.name = rootClass ∨
    d.superclass.name ∈ classes.map (·.name.name)
  chains : ∀ d ∈ classes, Descends classes d.name.name rootClass
  sound : ∀ d ∈ classes, d.Sound classes

end ClassDef

theorem Ty.ofName_isOk {isClass : String → Bool} {x : String} :
    (∃ ty, Ty.ofName isClass x = .ok ty) ↔ x ∈ ["int", "bool", "None"] ∨ isClass x = true := by
  simp only [Ty.ofName, List.mem_cons, List.not_mem_nil, or_false]
  split_ifs with h₁ h₂ h₃ h₄ <;> simp [*]

namespace ClassTable

variable {classes : List ClassDef}

/-! ### What a class has from above -/

section

variable {isClass : String → Bool} {layouts : List ClassLayout}

theorem descends_root (hres : ∀ d ∈ classes, reservedNames.contains d.name.name = false)
    {b : String} : ClassDef.Descends classes rootClass b ↔ b = rootClass := by
  constructor
  · intro h
    generalize ha : rootClass = a at h
    cases h with
    | refl => rfl
    | step hd _ => exact absurd ha.symm (ne_rootClass hres hd)
  · rintro rfl
    exact .refl

theorem descends_class (hnd : (classes.map (·.name.name)).Nodup) {d : ClassDef} (hd : d ∈ classes)
    {b : String} : ClassDef.Descends classes d.name.name b ↔
      b = d.name.name ∨ ClassDef.Descends classes d.superclass.name b := by
  constructor
  · intro h
    generalize ha : d.name.name = a at h
    cases h with
    | refl => exact .inl rfl
    | step he h =>
      obtain rfl := List.inj_on_of_nodup_map hnd hd he ha
      exact .inr h
  · rintro (rfl | h)
    · exact .refl
    · exact .step hd h

/-- The classes at or above one are the class and those at or above its superclass. -/
theorem exists_descends_class (hnd : (classes.map (·.name.name)).Nodup) {d : ClassDef}
    (hd : d ∈ classes) {P : ClassDef → Prop} :
    (∃ e ∈ classes, ClassDef.Descends classes d.name.name e.name.name ∧ P e) ↔
      P d ∨ ∃ e ∈ classes, ClassDef.Descends classes d.superclass.name e.name.name ∧ P e := by
  simp only [descends_class hnd hd]
  constructor
  · rintro ⟨e, he, heq | h, hp⟩
    · exact .inl (List.inj_on_of_nodup_map hnd he hd heq ▸ hp)
    · exact .inr ⟨e, he, h, hp⟩
  · rintro (hp | ⟨e, he, h, hp⟩)
    · exact ⟨d, hd, .inl rfl, hp⟩
    · exact ⟨e, he, .inr h, hp⟩

theorem not_exists_descends_root
    (hres : ∀ d ∈ classes, reservedNames.contains d.name.name = false) {P : ClassDef → Prop} :
    ¬ ∃ e ∈ classes, ClassDef.Descends classes rootClass e.name.name ∧ P e := by
  rintro ⟨e, he, h, -⟩
  exact ne_rootClass hres he ((descends_root hres).1 h)

/-- The way up from a class with a layout ends at the root class. -/
theorem Laid.descends_root {c : ClassLayout} (h : Laid classes isClass layouts c) :
    ClassDef.Descends classes c.name rootClass := by
  induction h with
  | root => exact .refl
  | extend _ _ hd hs hx ih =>
    rw [(extend_head hx).1]
    exact .step hd (hs ▸ ih)

/-- The fields of a layout are those that the classes on the way up define. -/
theorem Laid.mem_fieldNames (hnd : (classes.map (·.name.name)).Nodup)
    (hres : ∀ d ∈ classes, reservedNames.contains d.name.name = false) {c : ClassLayout}
    (h : Laid classes isClass layouts c) {x : String} : x ∈ c.fields.map FieldLayout.name ↔
      ∃ e ∈ classes, ClassDef.Descends classes c.name e.name.name ∧
        x ∈ e.fields.map (·.var.name.name) := by
  induction h with
  | root _ => exact iff_of_false List.not_mem_nil (not_exists_descends_root hres)
  | @extend p c d b hp _ hd hs hx ih =>
    rw [hp.indexed.fieldNames_extend hx, List.mem_append, ih, ← hs, (extend_head hx).1,
      exists_descends_class hnd hd, or_comm]

/-- The method slots of a layout are those of the root class and of the classes on the way up. -/
theorem Laid.mem_methodNames (hnd : (classes.map (·.name.name)).Nodup)
    (hres : ∀ d ∈ classes, reservedNames.contains d.name.name = false) {c : ClassLayout}
    (h : Laid classes isClass layouts c) {x : String} : x ∈ c.methods.map MethodEntry.name ↔
      x = initMethod ∨
        ∃ e ∈ classes, ClassDef.Descends classes c.name e.name.name ∧ e.Defines x := by
  induction h with
  | root _ =>
    refine List.mem_singleton.trans (or_iff_left ?_).symm
    exact not_exists_descends_root hres
  | @extend p c d b hp _ hd hs hx ih =>
    rw [hp.indexed.mem_methodNames_extend hx, ih, ← hs, (extend_head hx).1,
      exists_descends_class hnd hd, ClassDef.Defines]
    exact or_left_comm

/-- A class definition can extend the layout of its superclass exactly if it is sound. -/
theorem Laid.extendable_iff (hnd : (classes.map (·.name.name)).Nodup)
    (hres : ∀ d ∈ classes, reservedNames.contains d.name.name = false)
    (hclass : ∀ x, isClass x = true ↔ x = rootClass ∨ x ∈ classes.map (·.name.name))
    {p : ClassLayout} (hp : Laid classes isClass layouts p) {d : ClassDef}
    (hs : d.superclass.name = p.name) :
    ClassLayout.Extendable isClass p d ↔ d.Sound classes := by
  have hfield : ∀ x, x ∉ p.fields.map FieldLayout.name ↔ ¬ d.InheritsField classes x := by
    intro x
    rw [hp.mem_fieldNames hnd hres, ← hs]
    rfl
  have hmethod : ∀ x, x ∉ p.methods.map MethodEntry.name ↔ ¬ d.InheritsMethod classes x := by
    intro x
    rw [hp.mem_methodNames hnd hres, ← hs]
    rfl
  have htype : ∀ x, (∃ ty, Ty.ofName isClass x = .ok ty) ↔
      x ∈ ["int", "bool", "None", rootClass] ∨ x ∈ classes.map (·.name.name) := by
    intro x
    rw [Ty.ofName_isOk, hclass]
    simp only [List.mem_cons, List.not_mem_nil, or_false, or_assoc]
  constructor
  · intro h
    refine ⟨h.fieldNames, fun f hf => ⟨?_, ?_⟩, fun f hf => (htype _).1 (h.fieldTypes f hf),
      h.methodNames, fun m hm => ⟨(hfield _).1 (h.newMethods m hm).1, (h.newMethods m hm).2⟩⟩
    · exact (hfield _).1 (h.newFields f hf).1
    · exact (hmethod _).1 (h.newFields f hf).2
  · intro h
    refine ⟨h.fieldNames, fun f hf => ⟨?_, ?_⟩, fun f hf => (htype _).2 (h.fieldTypes f hf),
      h.methodNames, fun m hm => ⟨(hfield _).2 (h.newMethods m hm).1, (h.newMethods m hm).2⟩⟩
    · exact (hfield _).2 (h.newFields f hf).1
    · exact (hmethod _).2 (h.newFields f hf).2

end

/-! ### Rounds of sound classes -/

section

variable {isClass : String → Bool} {done queue : List ClassLayout}

theorem layKids_isOk {parent : ClassLayout} (hp : parent.Indexed) {base : Nat}
    {ds : List ClassDef} : (∃ cs, layKids isClass parent base ds = .ok cs) ↔
      ∀ d ∈ ds, ClassLayout.Extendable isClass parent d := by
  induction ds generalizing base with
  | nil => simp [layKids]
  | cons d ds ih =>
    simp only [layKids, except_bind_eq_ok, except_pure_eq_ok, List.forall_mem_cons]
    constructor
    · rintro ⟨_, c, hc, cs, hcs, -⟩
      exact ⟨hp.extend_isOk.1 ⟨c, hc⟩, ih.1 ⟨cs, hcs⟩⟩
    · rintro ⟨hd, hds⟩
      obtain ⟨c, hc⟩ := (hp.extend_isOk (b := base)).2 hd
      obtain ⟨cs, hcs⟩ : ∃ cs, layKids isClass parent c.vtableEnd ds = .ok cs := ih.2 hds
      exact ⟨c :: cs, c, hc, cs, hcs, rfl⟩

/-- A class whose way up comes to a class with a layout has one. -/
theorem Covers.mem_of_descends {layouts : List ClassLayout} (h : Covers classes layouts layouts)
    {a b : String} (hab : ClassDef.Descends classes a b)
    (hb : b ∈ layouts.map ClassLayout.name) : a ∈ layouts.map ClassLayout.name := by
  induction hab with
  | refl => exact hb
  | step hd _ ih => exact h _ hd (ih hb)

variable (hnd : (classes.map (·.name.name)).Nodup)
  (hres : ∀ d ∈ classes, reservedNames.contains d.name.name = false)

include hnd hres

/-- Sound classes are all laid out. -/
theorem grow_isOk (hsound : ∀ d ∈ classes, d.Sound classes) {n : Nat}
    (h : GrowOk classes (Listed classes) done queue) :
    ∃ layouts, grow classes (Listed classes) n done queue = .ok layouts := by
  induction n generalizing done queue with
  | zero => exact ⟨done ++ queue, rfl⟩
  | succ n ih =>
    cases queue with
    | nil => exact ⟨done, rfl⟩
    | cons parent queue =>
      have hp := h.laid parent (by simp)
      obtain ⟨kids, hk⟩ : ∃ kids, layKids (Listed classes) parent
          (slotCount (done ++ parent :: queue))
          (classes.filter (·.superclass.name == parent.name)) = .ok kids := by
        refine (layKids_isOk hp.indexed).2 fun d hd => ?_
        obtain ⟨hd, hs⟩ := List.mem_filter.1 hd
        exact (hp.extendable_iff hnd hres (fun _ => listed_iff) (beq_iff_eq.1 hs)).2 (hsound d hd)
      obtain ⟨layouts, hg⟩ := ih (h.step hnd hres hk)
      refine ⟨layouts, ?_⟩
      simp only [grow, except_bind_eq_ok]
      exact ⟨kids, hk, hg⟩

end

/-! ### Which lists get layouts -/

/-- The layouts of well-founded classes are those of the root class and of each of the classes, each
once and behind that of its superclass. -/
structure Lists (classes : List ClassDef) (t : ClassTable) : Prop where
  first : t.layouts.head? = some .root
  once : (t.layouts.map ClassLayout.name).Perm (rootClass :: classes.map (·.name.name))
  after : ∀ before c after, t.layouts = before ++ c :: after → ∀ d ∈ classes,
    d.name.name = c.name → d.superclass.name ∈ before.map ClassLayout.name

theorem LaidOut.lists {t : ClassTable} (h : LaidOut classes t) : t.Lists classes where
  first := h.root
  once := by
    have hnd : (rootClass :: classes.map (·.name.name)).Nodup := by
      refine List.nodup_cons.2 ⟨fun hmem => ?_, h.classNames⟩
      obtain ⟨d, hd, hn⟩ := List.mem_map.1 hmem
      exact h.ne_root hd hn
    refine (List.perm_ext_iff_of_nodup h.names hnd).2 fun x => ?_
    constructor
    · intro hx
      obtain ⟨c, hc, rfl⟩ := List.mem_map.1 hx
      cases h.laid c hc with
      | root => exact List.mem_cons_self
      | extend _ _ hd _ hx =>
        exact List.mem_cons_of_mem _ (List.mem_map.2 ⟨_, hd, (extend_head hx).1.symm⟩)
    · intro hx
      obtain rfl | hx := List.mem_cons.1 hx
      · exact List.mem_map.2 ⟨_, List.mem_of_head? h.root, rfl⟩
      · obtain ⟨d, hd, rfl⟩ := List.mem_map.1 hx
        obtain ⟨c, hc⟩ := contains_eq_true.1 (h.contains d hd)
        exact List.mem_map.2 ⟨c, get?_mem hc⟩
  after := by
    intro before c after hl d hd hn
    have hmem : c ∈ t.layouts := hl ▸ List.mem_append_right _ List.mem_cons_self
    have hsuper := h.superclass_eq hd (h.get?_eq_some.2 ⟨hmem, hn.symm⟩)
    obtain ⟨q, hq, hqn⟩ := h.parents before c after hl _ hsuper
    exact List.mem_map.2 ⟨q, hq, hqn⟩

/-- A class that the layouts leave out has no way up to the root class. -/
theorem not_descends_root_of_left_out (hnames : checkNames [] classes = .ok ())
    {layouts : List ClassLayout}
    (hg : grow classes (Listed classes) (classes.length + 1) [] [ClassLayout.root] = .ok layouts)
    {x : String} (hx : (ClassTable.mk layouts).contains x = false) :
    ¬ ClassDef.Descends classes x rootClass := by
  intro hup
  obtain ⟨hok, hcovers⟩ := grow_done hnames hg
  have hroot : rootClass ∈ layouts.map ClassLayout.name := by
    refine List.mem_map.2 ⟨_, List.mem_of_head? (?_ : layouts.head? = some .root), rfl⟩
    simpa using hok.root
  obtain ⟨c, hc, hn⟩ := List.mem_map.1 (hcovers.mem_of_descends hup hroot)
  have hcontains : (ClassTable.mk layouts).contains x = true :=
    List.any_eq_true.2 ⟨c, hc, beq_iff_eq.2 hn⟩
  rw [hx] at hcontains
  cases hcontains

theorem LaidOut.contains_iff {t : ClassTable} (h : LaidOut classes t) {x : String} :
    t.contains x = true ↔ x = rootClass ∨ x ∈ classes.map (·.name.name) := by
  rw [← List.mem_cons, ← h.lists.once.mem_iff, ClassTable.contains, List.any_eq_true, List.mem_map]
  exact exists_congr fun c => and_congr_right fun _ => beq_iff_eq

theorem wellFounded_of_resolve {t : ClassTable} (h : resolve classes = .ok t) :
    ClassDef.WellFounded classes := by
  have hl := resolve_ok h
  obtain ⟨hnames, hsuper, -, -⟩ := resolve_eq_ok.1 h
  obtain ⟨hnd, hres⟩ := checkNames_eq_ok.1 hnames
  refine ⟨hnd, fun d hd hmem => ?_, checkSuperclasses_eq_ok.1 hsuper, fun d hd => ?_,
    fun d hd => ?_⟩
  · have hreserved := (hres d hd).1
    rw [List.contains_iff_mem.2 (show d.name.name ∈ reservedNames from hmem)] at hreserved
    cases hreserved
  · obtain ⟨c, -, -, hc, -, -⟩ := hl.of_class hd
    obtain ⟨hmem, hn⟩ := get?_mem hc
    exact hn ▸ (hl.laid c hmem).descends_root
  · obtain ⟨c, p, b, -, hp, hx⟩ := hl.of_class hd
    obtain ⟨hmem, hn⟩ := get?_mem hp
    have hlaid := hl.laid p hmem
    exact (hlaid.extendable_iff hnd hl.reserved (fun _ => hl.contains_iff) hn.symm).1
      (hlaid.indexed.extend_isOk.1 ⟨c, hx⟩)

theorem exists_resolve (h : ClassDef.WellFounded classes) : ∃ t, resolve classes = .ok t := by
  have hres : ∀ d ∈ classes, reservedNames.contains d.name.name = false := by
    intro d hd
    have hnot : d.name.name ∉ reservedNames := h.unreserved d hd
    simpa using hnot
  have hnames : checkNames [] classes = .ok () :=
    checkNames_eq_ok.2 ⟨h.names, fun d hd => ⟨hres d hd, List.not_mem_nil⟩⟩
  obtain ⟨layouts, hgrow⟩ : ∃ layouts, grow classes (Listed classes) (classes.length + 1) []
      [ClassLayout.root] = .ok layouts :=
    grow_isOk h.names hres h.sound (growOk_start classes _)
  refine ⟨⟨layouts⟩, resolve_eq_ok.2 ⟨hnames, checkSuperclasses_eq_ok.2 h.superclasses,
    (Walk.run_eq_ok hnames).2 hgrow, ?_⟩⟩
  intro d hd
  cases hc : (ClassTable.mk layouts).contains d.name.name with
  | true => rfl
  | false => exact absurd (h.chains d hd) (not_descends_root_of_left_out hnames hgrow hc)

/-- A circle is reported for a class from which no way leads up to the root class. -/
theorem not_descends_root_of_cycle {x : String} {span : Span}
    (h : resolve classes = .error ⟨.inheritanceCycle x, span⟩) :
    ∃ d ∈ classes, d.name.name = x ∧ d.name.span = span ∧
      ¬ ClassDef.Descends classes x rootClass := by
  simp only [resolve, except_bind_eq_error] at h
  obtain hnames | ⟨⟨⟩, hnames, hsuper | ⟨⟨⟩, -, hrun | ⟨t, hrun, h⟩⟩⟩ := h
  · exact (blames_checkNames _ _ hnames).cause.elim
  · exact (blames_checkSuperclasses _ _ hsuper).cause.elim
  · exact (blames_run hnames _ _ hrun).cause.elim
  · have hgrow := (Walk.run_eq_ok hnames).1 hrun
    split at h
    · next d hfind =>
      cases h
      have hout := List.find?_some hfind
      rw [Bool.not_eq_true'] at hout
      exact ⟨d, List.mem_of_find?_eq_some hfind, rfl, rfl,
        not_descends_root_of_left_out hnames hgrow hout⟩
    · cases h

/-- The lists of classes that get layouts: exactly the well-founded ones, the root class first and
then each class once behind its superclass; a circle is reported only where the way up does not end
at the root class; and the walk through the classes ends by itself, whatever the bound on its steps
from the number of classes on. -/
theorem resolve_wellFounded (classes : List ClassDef) :
    ((∃ t, resolve classes = .ok t) ↔ ClassDef.WellFounded classes) ∧
    (∀ t, resolve classes = .ok t → t.Lists classes) ∧
    (∀ x span, resolve classes = .error ⟨.inheritanceCycle x, span⟩ → ∃ d ∈ classes,
      d.name.name = x ∧ d.name.span = span ∧ ¬ ClassDef.Descends classes x rootClass) ∧
    ∀ n, checkNames [] classes = .ok () → classes.length < n →
      Walk.run classes (Listed classes) n .start
        = Walk.run classes (Listed classes) (classes.length + 1) .start := by
  refine ⟨⟨fun ⟨_, h⟩ => wellFounded_of_resolve h, exists_resolve⟩, fun t h => (resolve_ok h).lists,
    fun x span h => not_descends_root_of_cycle h, fun n hnames hn => ?_⟩
  obtain ⟨hnd, hres⟩ := checkNames_eq_ok.1 hnames
  rw [Walk.run_start hnames, Walk.run_start hnames]
  refine congrArg _ ?_
  refine grow_eq hnd (fun d hd => (hres d hd).1) (growOk_start classes _) ?_ ?_ <;>
    rw [List.length_nil] <;> omega

/-- Two classes that descend from each other. -/
def circle : List ClassDef := [shapes.classDef "A" "B" [] [], shapes.classDef "B" "A" [] []]

theorem circle_refused : resolve circle = .error ⟨.inheritanceCycle "A", default⟩ := by
  rfl

theorem shapes_names : checkNames [] shapes = .ok () := by
  rfl

theorem shapes_laidOut : (resolve shapes).toOption.any (·.size == 3) = true := by
  decide +kernel

theorem resolve_wellFounded_shapes : (∃ t, resolve shapes = .ok t ∧ t.Lists shapes) ∧
    ClassDef.WellFounded shapes ∧ ¬ ClassDef.Descends circle "A" rootClass ∧
      Walk.run shapes (Listed shapes) 7 .start = Walk.run shapes (Listed shapes) 3 .start := by
  obtain ⟨hiff, hlists, -, hsteps⟩ := resolve_wellFounded shapes
  obtain ⟨t, ht, -⟩ := toOption_any_eq_true.1 shapes_laidOut
  obtain ⟨d, -, -, -, hcircle⟩ := (resolve_wellFounded circle).2.2.1 "A" _ circle_refused
  exact ⟨⟨t, ht, hlists t ht⟩, hiff.1 ⟨t, ht⟩, hcircle, hsteps 7 shapes_names (by decide)⟩

end ClassTable

end ObjLang
