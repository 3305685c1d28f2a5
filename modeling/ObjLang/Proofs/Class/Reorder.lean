import ObjLang.Proofs.Class.WellFounded

/-!
# ObjLang.Proofs.Class.Reorder — the order of classes in a program

Layouts are built breadth first, so the order in which a program has its classes decides in which
order they are laid out and where their slots stand in the dispatch table.  Nothing else depends on
it: a layout is made of a class definition and of the layout above it, and along the way up from a
class both are the same in every order.
-/

namespace ObjLang

/-! ### Reordered classes -/

namespace ClassDef

variable {classes classes' : List ClassDef} (hperm : classes.Perm classes')

include hperm

theorem Descends.perm {a b : String} (h : Descends classes a b) : Descends classes' a b := by
  induction h with
  | refl => exact .refl
  | step hd _ ih => exact .step (hperm.mem_iff.1 hd) ih

theorem descends_perm {a b : String} : Descends classes a b ↔ Descends classes' a b :=
  ⟨fun h => h.perm hperm, fun h => h.perm hperm.symm⟩

theorem inheritsField_perm {d : ClassDef} {x : String} :
    d.InheritsField classes x ↔ d.InheritsField classes' x := by
  simp only [InheritsField, hperm.mem_iff, descends_perm hperm]

theorem inheritsMethod_perm {d : ClassDef} {x : String} :
    d.InheritsMethod classes x ↔ d.InheritsMethod classes' x := by
  simp only [InheritsMethod, hperm.mem_iff, descends_perm hperm]

/-- What a class adds is sound in every order of the classes. -/
theorem Sound.perm {d : ClassDef} (h : d.Sound classes) : d.Sound classes' where
  fieldNames := h.fieldNames
  newFields := by
    simp only [← inheritsField_perm hperm, ← inheritsMethod_perm hperm]
    exact h.newFields
  fieldTypes := by
    simp only [← (hperm.map (·.name.name)).mem_iff]
    exact h.fieldTypes
  methodNames := h.methodNames
  newMethods := by
    simp only [← inheritsField_perm hperm]
    exact h.newMethods

theorem WellFounded.perm (h : WellFounded classes) : WellFounded classes' where
  names := (hperm.map _).nodup_iff.1 h.names
  unreserved := fun d hd => h.unreserved d (hperm.mem_iff.2 hd)
  superclasses := fun d hd =>
    (h.superclasses d (hperm.mem_iff.2 hd)).imp_right (hperm.map _).mem_iff.1
  chains := fun d hd => (h.chains d (hperm.mem_iff.2 hd)).perm hperm
  sound := fun d hd => (h.sound d (hperm.mem_iff.2 hd)).perm hperm

end ClassDef

/-! ### Layouts without their places -/

namespace ClassLayout

/-- A layout without its place in the dispatch table. -/
def unplaced (c : ClassLayout) : ClassLayout := { c with vtableBase := 0 }

variable {p p' c c' : ClassLayout}

@[simp] theorem unplaced_name : c.unplaced.name = c.name := rfl

@[simp] theorem unplaced_fieldRows : c.unplaced.fieldRows = c.fieldRows := rfl

@[simp] theorem unplaced_methodRows : c.unplaced.methodRows = c.methodRows := rfl

/-- The place of a class in the dispatch table, and that of its superclass, do not matter to the
rest of its layout. -/
theorem extend_unplaced {isClass : String → Bool} {b b' : Nat} {d : ClassDef}
    (hp : p.unplaced = p'.unplaced) (h : extend isClass p b d = .ok c)
    (h' : extend isClass p' b' d = .ok c') : c.unplaced = c'.unplaced := by
  have hname : p.name = p'.name := by simpa using congrArg name hp
  have hfields : p.fieldRows = p'.fieldRows := by simpa using congrArg fieldRows hp
  have hmethods : p.methodRows = p'.methodRows := by simpa using congrArg methodRows hp
  obtain ⟨fields, methods, hf, hm, rfl⟩ := ClassTable.extend_eq_ok.1 h
  obtain ⟨fields', methods', hf', hm', rfl⟩ := ClassTable.extend_eq_ok.1 h'
  rw [hfields, hmethods] at hf
  cases hf.symm.trans hf'
  rw [hmethods] at hm
  cases hm.symm.trans hm'
  rw [unplaced, unplaced, hname]

end ClassLayout

/-! ### Layouts of reordered classes -/

namespace ClassTable

variable {classes classes' : List ClassDef} {t t' : ClassTable}

/-- A class that is laid out in one order of the classes is laid out in the other, and both layouts
have the same in them.  The induction goes down from the root class, where a class of either table
extends its superclass. -/
theorem LaidOut.exists_unplaced (hperm : classes.Perm classes') (h : LaidOut classes t)
    (h' : LaidOut classes' t') {c : ClassLayout} (hc : c ∈ t.layouts) :
    ∃ c' ∈ t'.layouts, c'.unplaced = c.unplaced := by
  have hclass : t.contains = t'.contains := by
    funext x
    rw [Bool.eq_iff_iff, h.contains_iff, h'.contains_iff, (hperm.map _).mem_iff]
  have hlaid := h.laid c hc
  induction hlaid with
  | root => exact ⟨.root, List.mem_of_head? h'.root, rfl⟩
  | @extend p c d b hp _ hd hs hx ih =>
    obtain ⟨p', hp', hup⟩ := ih hp.mem
    obtain ⟨c', q, b', hc', hq, hx'⟩ := h'.of_class (hperm.mem_iff.1 hd)
    have hname : p'.name = p.name := by simpa using congrArg ClassLayout.name hup
    cases hq.symm.trans (h'.get?_eq_some.2 ⟨hp', hname.trans hs.symm⟩)
    exact ⟨c', (get?_mem hc').1, ClassLayout.extend_unplaced hup hx' (hclass ▸ hx)⟩

theorem LaidOut.mem_unplaced (hperm : classes.Perm classes') (h : LaidOut classes t)
    (h' : LaidOut classes' t') {u : ClassLayout} :
    u ∈ t.layouts.map ClassLayout.unplaced ↔ u ∈ t'.layouts.map ClassLayout.unplaced := by
  constructor
  · intro hu
    obtain ⟨c, hc, rfl⟩ := List.mem_map.1 hu
    exact List.mem_map.2 (h.exists_unplaced hperm h' hc)
  · intro hu
    obtain ⟨c, hc, rfl⟩ := List.mem_map.1 hu
    exact List.mem_map.2 (h'.exists_unplaced hperm.symm h hc)

theorem LaidOut.nodup_unplaced (h : LaidOut classes t) :
    (t.layouts.map ClassLayout.unplaced).Nodup := by
  refine List.Nodup.of_map ClassLayout.name ?_
  rw [List.map_map]
  exact h.names

theorem LaidOut.get?_unplaced (h : LaidOut classes t) {x : String} {u : ClassLayout} :
    (t.get? x).map ClassLayout.unplaced = some u ↔
      u ∈ t.layouts.map ClassLayout.unplaced ∧ u.name = x := by
  simp only [Option.map_eq_some_iff, h.get?_eq_some, List.mem_map]
  constructor
  · rintro ⟨c, ⟨hc, hn⟩, rfl⟩
    exact ⟨⟨c, hc, rfl⟩, hn⟩
  · rintro ⟨⟨c, hc, rfl⟩, hn⟩
    exact ⟨c, ⟨hc, hn⟩, rfl⟩

/-- In whatever order a program has its classes, they get layouts or are refused alike, and every
class has the same superclass, fields, methods and positions of both; the layouts come in another
order, and have other places in the dispatch table. -/
theorem resolve_perm (classes classes' : List ClassDef) (hperm : classes.Perm classes') :
    ((∃ t, resolve classes = .ok t) ↔ ∃ t', resolve classes' = .ok t') ∧
    ∀ t t', resolve classes = .ok t → resolve classes' = .ok t' →
      (∀ x, (t.get? x).map ClassLayout.unplaced = (t'.get? x).map ClassLayout.unplaced) ∧
      (t.layouts.map ClassLayout.unplaced).Perm (t'.layouts.map ClassLayout.unplaced) := by
  refine ⟨⟨?_, ?_⟩, fun t t' h h' => ?_⟩
  · rintro ⟨t, h⟩
    exact exists_resolve ((wellFounded_of_resolve h).perm hperm)
  · rintro ⟨t, h⟩
    exact exists_resolve ((wellFounded_of_resolve h).perm hperm.symm)
  · have hl := resolve_ok h
    have hl' := resolve_ok h'
    refine ⟨fun x => Option.ext fun u => ?_, ?_⟩
    · rw [hl.get?_unplaced, hl'.get?_unplaced, hl.mem_unplaced hperm hl']
    · exact (List.perm_ext_iff_of_nodup hl.nodup_unplaced hl'.nodup_unplaced).2
        fun u => hl.mem_unplaced hperm hl'

/-- The sample classes and one beside `A`. -/
def besides : List ClassDef := shapes.classDef "C" rootClass [] ["k"] :: shapes

theorem besides_places : (resolve besides).toOption.any (fun t =>
    (resolve besides.reverse).toOption.any fun t' =>
      (t.get? "A").any (·.vtableBase == 3) && (t'.get? "A").any (·.vtableBase == 1)) = true := by
  decide +kernel

theorem resolve_perm_besides : ∃ t t', resolve besides = .ok t ∧ resolve besides.reverse = .ok t' ∧
    (t.get? "A").map ClassLayout.unplaced = (t'.get? "A").map ClassLayout.unplaced ∧
      t.get? "A" ≠ t'.get? "A" := by
  obtain ⟨t, ht, hplaces⟩ := toOption_any_eq_true.1 besides_places
  obtain ⟨t', ht', hplaces⟩ := toOption_any_eq_true.1 hplaces
  obtain ⟨-, hperm⟩ := resolve_perm besides besides.reverse (List.reverse_perm _).symm
  refine ⟨t, t', ht, ht', (hperm t t' ht ht').1 "A", fun heq => ?_⟩
  rw [heq] at hplaces
  cases hget : t'.get? "A" with
  | none => simp [hget] at hplaces
  | some c =>
    simp only [hget, Option.any_some, Bool.and_eq_true, beq_iff_eq] at hplaces
    omega

end ClassTable

end ObjLang
