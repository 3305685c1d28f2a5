import ObjLang.Proofs.Class.Inherit

/-!
# ObjLang.Proofs.Class.Subclass — assignability between the classes of a program

In the layouts of a program being a subclass is being below.  A class comes after its superclass,
so no two classes are below each other: assignability is a partial order on the types, with `None`
below all object types and the root class above them.
-/

namespace ObjLang.ClassTable

variable {classes : List ClassDef} {t : ClassTable}

theorem LaidOut.superclass? (h : LaidOut classes t) {a s : String} {c : ClassLayout}
    (hc : t.get? a = some c) (hs : c.superclass = some s) :
    t.hierarchy.superclass? a = some s := by
  obtain ⟨hmem, rfl⟩ := get?_mem hc
  have hpair : (c.name, s) ∈ t.hierarchy :=
    List.mem_filterMap.2 ⟨c, hmem, by rw [hs, Option.map_some]⟩
  obtain ⟨s', hs'⟩ : ∃ s', t.hierarchy.superclass? c.name = some s' :=
    Option.isSome_iff_exists.1 (List.lookup_isSome_iff.2 ⟨_, hpair, beq_self_eq_true c.name⟩)
  obtain ⟨c', hc', hcs⟩ := superclass?_eq_some h hs'
  cases hc.symm.trans hc'
  rw [hs', ← hcs, hs]

theorem LaidOut.isSubclass_iff (h : LaidOut classes t) {a b : String} :
    t.hierarchy.isSubclass a b = true ↔ t.Below a b := by
  refine ⟨below_of_isSubclass h, fun hab => ?_⟩
  rw [Hierarchy.isSubclass_iff_reaches]
  induction hab with
  | refl => exact .refl
  | step hc hs _ ih => exact .head (h.superclass? hc hs) ih

/-- A class comes behind all classes above it. -/
theorem LaidOut.above_before (h : LaidOut classes t) {a b : String} (hab : t.Below a b)
    {before after : List ClassLayout} {c : ClassLayout} (hl : t.layouts = before ++ c :: after)
    (hc : c.name = a) : b = a ∨ b ∈ before.map ClassLayout.name := by
  induction hab generalizing before after c with
  | refl => exact .inl rfl
  | @step a s b c' hc' hs _ ih =>
    have hmem : c ∈ t.layouts := hl ▸ List.mem_append_right _ List.mem_cons_self
    cases hc'.symm.trans (h.get?_eq_some.2 ⟨hmem, hc⟩)
    obtain ⟨p, hp, hps⟩ := h.parents before _ after hl s hs
    obtain ⟨before', between, rfl⟩ := List.append_of_mem hp
    have hl' : t.layouts = before' ++ p :: (between ++ c' :: after) := by
      rw [hl, List.append_assoc, List.cons_append]
    obtain rfl | hb := ih hl' hps
    · exact .inr (List.mem_map.2 ⟨p, hp, hps⟩)
    · rw [List.map_append]
      exact .inr (List.mem_append_left _ hb)

theorem LaidOut.below_antisymm (h : LaidOut classes t) {a b : String} (hab : t.Below a b)
    (hba : t.Below b a) : a = b := by
  cases hab with
  | refl => rfl
  | @step _ s _ c hc hs hsb =>
    obtain ⟨hmem, rfl⟩ := get?_mem hc
    obtain ⟨before, after, hl⟩ := List.append_of_mem hmem
    obtain rfl | hb := h.above_before (.step hc hs hsb) hl rfl
    · rfl
    · -- what is above `b` comes before `b`, so before the class that it is
      obtain ⟨p, hp, rfl⟩ := List.mem_map.1 hb
      obtain ⟨before', between, rfl⟩ := List.append_of_mem hp
      have hl' : t.layouts = before' ++ p :: (between ++ c :: after) := by
        rw [hl, List.append_assoc, List.cons_append]
      obtain heq | hc' := h.above_before hba hl' rfl
      · exact heq
      · have hnd := h.names
        rw [hl', List.map_append, List.nodup_append] at hnd
        exact absurd rfl (hnd.2.2 _ hc' _ (List.mem_map_of_mem (by simp)))

/-! ### Assignability -/

theorem LaidOut.isAssignable_iff (h : LaidOut classes t) {a b : Ty} :
    t.hierarchy.isAssignable a b = true ↔ a = b ∨ (a = .none ∧ b.isObject = true) ∨
      ∃ x y, a = .object x ∧ b = .object y ∧ t.Below x y := by
  cases a <;> cases b <;> simp [Hierarchy.isAssignable, Ty.isObject, h.isSubclass_iff]

theorem isAssignable_refl (t : ClassTable) (a : Ty) : t.hierarchy.isAssignable a a = true := by
  simp [Hierarchy.isAssignable]

theorem LaidOut.isAssignable_trans (h : LaidOut classes t) {a b c : Ty}
    (hab : t.hierarchy.isAssignable a b = true) (hbc : t.hierarchy.isAssignable b c = true) :
    t.hierarchy.isAssignable a c = true := by
  rw [h.isAssignable_iff] at hab hbc ⊢
  obtain rfl | ⟨rfl, hb⟩ | ⟨x, y, rfl, rfl, hxy⟩ := hab
  · exact hbc
  · obtain rfl | ⟨rfl, -⟩ | ⟨y, z, rfl, rfl, -⟩ := hbc
    · exact .inr (.inl ⟨rfl, hb⟩)
    · cases hb
    · exact .inr (.inl ⟨rfl, rfl⟩)
  · obtain rfl | ⟨hb, -⟩ | ⟨y', z, hy, rfl, hyz⟩ := hbc
    · exact .inr (.inr ⟨x, y, rfl, rfl, hxy⟩)
    · cases hb
    · cases hy
      exact .inr (.inr ⟨x, z, rfl, rfl, hxy.trans hyz⟩)

theorem LaidOut.isAssignable_antisymm (h : LaidOut classes t) {a b : Ty}
    (hab : t.hierarchy.isAssignable a b = true) (hba : t.hierarchy.isAssignable b a = true) :
    a = b := by
  rw [h.isAssignable_iff] at hab hba
  obtain hab | ⟨rfl, hb⟩ | ⟨x, y, rfl, rfl, hxy⟩ := hab
  · exact hab
  · obtain rfl | ⟨rfl, -⟩ | ⟨x, y, -, heq, -⟩ := hba
    · rfl
    · rfl
    · cases heq
  · obtain heq | ⟨heq, -⟩ | ⟨y', x', hy, hx, hyx⟩ := hba
    · exact heq.symm
    · cases heq
    · cases hy
      cases hx
      exact congrArg Ty.object (h.below_antisymm hxy hyx)

/-- Every class of a program descends from the root class. -/
theorem LaidOut.below_root (h : LaidOut classes t) {c : ClassLayout} (hc : c ∈ t.layouts) :
    t.Below c.name rootClass := by
  have hlaid := h.laid c hc
  induction hlaid with
  | root => exact .refl
  | extend hp hc _ _ hx ih =>
    exact .step (h.get?_eq_some.2 ⟨hc, rfl⟩) (extend_head hx).2.1 (ih hp.mem)

/-- Assignability is a partial order: `int` and `bool` stand alone, `None` is below all object
types, and the root class is above the classes of the program, whose superclasses are those of the
source. -/
structure Ordered (classes : List ClassDef) (t : ClassTable) : Prop where
  refl : ∀ a, t.hierarchy.isAssignable a a = true
  trans : ∀ a b c, t.hierarchy.isAssignable a b = true → t.hierarchy.isAssignable b c = true →
    t.hierarchy.isAssignable a c = true
  antisymm : ∀ a b, t.hierarchy.isAssignable a b = true → t.hierarchy.isAssignable b a = true →
    a = b
  plain : ∀ a b, a = .int ∨ a = .bool →
    (t.hierarchy.isAssignable a b = true ↔ a = b) ∧ (t.hierarchy.isAssignable b a = true ↔ a = b)
  none : ∀ c, t.hierarchy.isAssignable .none (.object c) = true
  superclass : ∀ d ∈ classes, t.hierarchy.superclass? d.name.name = some d.superclass.name
  root : ∀ d ∈ classes,
    t.hierarchy.isAssignable (.object d.name.name) (.object rootClass) = true

theorem LaidOut.ordered (h : LaidOut classes t) : t.Ordered classes where
  refl := isAssignable_refl t
  trans _ _ _ := h.isAssignable_trans
  antisymm _ _ := h.isAssignable_antisymm
  plain := by
    intro a b ha
    simp only [h.isAssignable_iff]
    obtain rfl | rfl := ha <;> cases b <;> simp [Ty.isObject]
  none := fun c => h.isAssignable_iff.2 (.inr (.inl ⟨rfl, rfl⟩))
  superclass := by
    intro d hd
    obtain ⟨c, -, -, hc, -, -⟩ := h.of_class hd
    exact h.superclass? hc (h.superclass_eq hd hc)
  root := by
    intro d hd
    obtain ⟨c, -, -, hc, -, -⟩ := h.of_class hd
    obtain ⟨hmem, hn⟩ := get?_mem hc
    exact h.isAssignable_iff.2 (.inr (.inr ⟨_, _, rfl, rfl, hn ▸ h.below_root hmem⟩))

/-- Being a subclass is being some number of superclass steps below, whatever the hierarchy; in that
of a list of classes, assignability is a partial order. -/
theorem resolve_ordered :
    (∀ (h : Hierarchy) (a b : String), h.isSubclass a b = true ↔
      Relation.ReflTransGen (fun x y => h.superclass? x = some y) a b) ∧
    ∀ (classes : List ClassDef) (t : ClassTable), resolve classes = .ok t → t.Ordered classes :=
  ⟨fun _ _ _ => Hierarchy.isSubclass_iff_reaches, fun _ _ h => (resolve_ok h).ordered⟩

/-- Two classes, the lower one first: `B` adds a field and a method to those of `A` and defines the
method `g` again. -/
def shapes : List ClassDef :=
  [classDef "B" "A" [("y", "bool")] ["g", "h"], classDef "A" rootClass [("x", "int")] ["f", "g"]]
where
  field (d : String × String) : VarDef := {
    var := ⟨⟨d.1, default⟩, ⟨d.2, default⟩⟩
    init := .none
    initSpan := default
    span := default }
  method (name : String) : FunDef := {
    name := ⟨name, default⟩
    params := []
    ret := none
    decls := []
    vars := []
    nested := []
    body := []
    span := default
    id := none }
  classDef (name superclass : String) (fields : List (String × String)) (methods : List String) :
      ClassDef := {
    name := ⟨name, default⟩
    superclass := ⟨superclass, default⟩
    fields := fields.map field
    methods := methods.map method
    span := default }

theorem resolve_ordered_shapes : ∃ t, resolve shapes = .ok t ∧ t.Ordered shapes ∧
    t.hierarchy.isAssignable (.object "B") (.object "A") = true ∧
      t.hierarchy.isAssignable (.object "A") (.object "B") = false := by
  have hup : (resolve shapes).toOption.any (fun t =>
      t.hierarchy.isAssignable (.object "B") (.object "A")) = true := by decide +kernel
  obtain ⟨t, ht, hup⟩ := toOption_any_eq_true.1 hup
  have hordered := resolve_ordered.2 shapes t ht
  refine ⟨t, ht, hordered, hup, ?_⟩
  cases hdown : t.hierarchy.isAssignable (.object "A") (.object "B") with
  | false => rfl
  | true => exact absurd (hordered.antisymm _ _ hup hdown) (by decide)

end ObjLang.ClassTable
