import ObjLang.Proofs.Class.Walk

/-!
# ObjLang.Proofs.Class.Layouts — the layouts that a list of classes gets

The layouts of a table are laid by extension from the root class, one for each class, behind the
superclass, and the slots of each class start where those of the classes before it end.
-/

namespace ObjLang

namespace ClassTable

/-! ### The layouts of a program -/

/-- What holds of the layouts of some classes. -/
structure LaidOut (classes : List ClassDef) (t : ClassTable) : Prop where
  laid : ∀ c ∈ t.layouts, Laid classes t.contains t.layouts c
  names : (t.layouts.map ClassLayout.name).Nodup
  tiled : Tiled t.layouts
  parents : ParentsFirst t.layouts
  root : t.layouts.head? = some .root
  classNames : (classes.map (·.name.name)).Nodup
  reserved : ∀ d ∈ classes, reservedNames.contains d.name.name = false
  contains : ∀ d ∈ classes, t.contains d.name.name = true

/-- The root class and the classes of a list. -/
def Listed (classes : List ClassDef) (name : String) : Bool :=
  name == rootClass || (classes.map (·.name.name)).contains name

theorem resolve_eq_ok {classes : List ClassDef} {t : ClassTable} :
    resolve classes = .ok t ↔ checkNames [] classes = .ok () ∧
      checkSuperclasses (classes.map (·.name.name)) classes = .ok () ∧
      Walk.run classes (Listed classes) (classes.length + 1) .start = .ok t ∧
      ∀ d ∈ classes, t.contains d.name.name = true := by
  have hfind : ∀ t : ClassTable, (classes.find? fun d => !t.contains d.name.name) = none ↔
      ∀ d ∈ classes, t.contains d.name.name = true := by
    intro t
    simp [List.find?_eq_none]
  simp only [resolve, except_bind_eq_ok]
  constructor
  · rintro ⟨⟨⟩, hnames, ⟨⟩, hsuper, t', hrun, h⟩
    split at h
    · cases h
    · next hnone =>
      cases h
      exact ⟨hnames, hsuper, hrun, (hfind t).1 hnone⟩
  · rintro ⟨hnames, hsuper, hrun, hall⟩
    refine ⟨(), hnames, (), hsuper, t, hrun, ?_⟩
    rw [(hfind t).2 hall]
    rfl

theorem listed_iff {classes : List ClassDef} {x : String} :
    Listed classes x = true ↔ x = rootClass ∨ x ∈ classes.map (·.name.name) := by
  rw [Listed, Bool.or_eq_true, beq_iff_eq, List.contains_iff_mem]

theorem resolve_ok {classes : List ClassDef} {t : ClassTable} (h : resolve classes = .ok t) :
    LaidOut classes t := by
  obtain ⟨hnames, -, hrun, hall⟩ := resolve_eq_ok.1 h
  obtain ⟨hnd, hres⟩ := checkNames_eq_ok.1 hnames
  obtain ⟨⟨hlaid, horigin, hdistinct, htiled, hparents, hroot⟩, -⟩ :=
    grow_done hnames ((Walk.run_eq_ok hnames).1 hrun)
  simp only [List.append_nil] at hlaid horigin hdistinct htiled hparents hroot
  have hclass : Listed classes = t.contains := by
    funext x
    rw [Bool.eq_iff_iff, listed_iff]
    constructor
    · rintro (rfl | hx)
      · exact List.any_eq_true.2 ⟨_, List.mem_of_head? hroot, beq_self_eq_true rootClass⟩
      · obtain ⟨d, hd, rfl⟩ := List.mem_map.1 hx
        exact hall d hd
    · intro hx
      obtain ⟨c, hc, hcn⟩ := List.any_eq_true.1 hx
      rw [← eq_of_beq hcn]
      obtain hr | ⟨d, hd, hdn, -⟩ := horigin c hc
      · exact .inl hr
      · exact .inr (List.mem_map.2 ⟨d, hd, hdn.symm⟩)
  exact ⟨hclass ▸ hlaid, hdistinct, htiled, hparents, hroot, hnd, fun d hd => (hres d hd).1, hall⟩

section

variable {classes : List ClassDef} {t : ClassTable} {n : String} {c : ClassLayout}

theorem get?_mem (h : t.get? n = some c) : c ∈ t.layouts ∧ c.name = n :=
  ⟨List.mem_of_find?_eq_some h, by simpa using List.find?_some h⟩

theorem LaidOut.get?_eq_some (h : LaidOut classes t) :
    t.get? n = some c ↔ c ∈ t.layouts ∧ c.name = n := by
  refine ⟨get?_mem, fun ⟨hc, hn⟩ => ?_⟩
  obtain ⟨e, he⟩ : ∃ e, t.get? n = some e := by
    cases hg : t.get? n with
    | some e => exact ⟨e, rfl⟩
    | none => exact absurd (List.find?_eq_none.1 hg c hc) (by simp [hn])
  obtain ⟨hem, hen⟩ := get?_mem he
  rw [he, List.inj_on_of_nodup_map h.names hem hc (hen.trans hn.symm)]

theorem contains_eq_true : t.contains n = true ↔ ∃ c, t.get? n = some c := by
  rw [contains, List.any_eq_true, get?]
  constructor
  · rintro ⟨c, hc, hn⟩
    cases hg : t.layouts.find? (·.name == n) with
    | some e => exact ⟨e, rfl⟩
    | none => exact absurd (List.find?_eq_none.1 hg c hc) (by simpa using hn)
  · rintro ⟨c, hc⟩
    exact ⟨c, List.mem_of_find?_eq_some hc, by simpa using List.find?_some hc⟩

/-- A class has the layout of its superclass, extended. -/
theorem LaidOut.superclass (h : LaidOut classes t) {s : String} (hc : t.get? n = some c)
    (hs : c.superclass = some s) : ∃ p d b, t.get? s = some p ∧ d ∈ classes ∧ d.name.name = n ∧
      ClassLayout.extend t.contains p b d = .ok c := by
  obtain ⟨hmem, hn⟩ := h.get?_eq_some.1 hc
  cases h.laid c hmem with
  | root => cases hs
  | @extend p _ d b hp _ hd _ hx =>
    obtain ⟨hname, hsuper, -⟩ := extend_head hx
    cases hsuper.symm.trans hs
    exact ⟨p, d, b, h.get?_eq_some.2 ⟨hp.mem, rfl⟩, hd, hname.symm.trans hn, hx⟩

theorem LaidOut.of_class (h : LaidOut classes t) {d : ClassDef} (hd : d ∈ classes) :
    ∃ c p b, t.get? d.name.name = some c ∧ t.get? d.superclass.name = some p ∧
      ClassLayout.extend t.contains p b d = .ok c := by
  obtain ⟨c, hc⟩ := contains_eq_true.1 (h.contains d hd)
  obtain ⟨hmem, hn⟩ := h.get?_eq_some.1 hc
  cases h.laid c hmem with
  | root =>
    have hres := h.reserved d hd
    rw [← hn] at hres
    exact absurd hres (by decide)
  | @extend p _ e b hp _ he hs hx =>
    obtain rfl := List.inj_on_of_nodup_map h.classNames he hd ((extend_head hx).1.symm.trans hn)
    exact ⟨c, p, b, hc, h.get?_eq_some.2 ⟨hp.mem, hs.symm⟩, hx⟩

theorem LaidOut.superclass_eq (h : LaidOut classes t) {d : ClassDef} (hd : d ∈ classes)
    (hc : t.get? d.name.name = some c) : c.superclass = some d.superclass.name := by
  obtain ⟨c', p, b, hc', hp, hx⟩ := h.of_class hd
  cases hc.symm.trans hc'
  rw [(extend_head hx).2.1, (get?_mem hp).2]

end

end ClassTable

end ObjLang
