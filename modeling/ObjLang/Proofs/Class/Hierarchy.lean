import Mathlib.Logic.Relation
import ObjLang.Ty

/-!
# ObjLang.Proofs.Class.Hierarchy — the way up from a class

Nothing is known of a hierarchy: names may be missing, and the way up from a class may lead into a
circle, with or without the class itself on it.  The walk up ends in all cases, since it remembers
the classes that it met, and it finds exactly the classes that some number of steps leads to.
-/

namespace ObjLang.Hierarchy

/-- A class is listed with the other one as its superclass. -/
def Step (h : Hierarchy) (a b : String) : Prop := h.superclass? a = some b

variable {h : Hierarchy} {a b : String} {seen : List String}

theorem reaches_of_climbs (hab : h.climbs b seen a = true) : Relation.ReflTransGen h.Step a b := by
  fun_induction climbs h b seen a with
  | case1 => exact .refl
  | case2 => cases hab
  | case3 seen a _ _ c hc ih => exact .head hc (ih hab)
  | case4 => cases hab

/-- From classes whose superclasses are among them, only these are reached. -/
theorem not_reaches_of_closed (hclosed : ∀ x ∈ seen, ∀ y, h.Step x y → y ∈ seen) (hb : b ∉ seen)
    (ha : a ∈ seen) : ¬ Relation.ReflTransGen h.Step a b := by
  intro hab
  induction hab using Relation.ReflTransGen.head_induction_on with
  | refl => exact hb ha
  | head hstep _ ih => exact ih (hclosed _ ha _ hstep)

/-- A walk that ends without the class has met all classes on the way.  At each moment the steps
from the classes met so far lead to classes met so far, or to the present one. -/
theorem not_reaches_of_climbs (hb : b ∉ seen)
    (hseen : ∀ x ∈ seen, ∀ y, h.Step x y → y ∈ seen ∨ y = a) (hab : h.climbs b seen a = false) :
    ¬ Relation.ReflTransGen h.Step a b := by
  fun_induction climbs h b seen a with
  | case1 => cases hab
  | case2 seen a _ hmem =>
    -- the circle is closed
    have ha : a ∈ seen := by simpa using hmem
    refine not_reaches_of_closed (fun x hx y hxy => ?_) hb ha
    obtain hy | rfl := hseen x hx y hxy
    · exact hy
    · exact ha
  | case3 seen a hne _ c hc ih =>
    have hnot : ¬ Relation.ReflTransGen h.Step c b := by
      refine ih ?_ (fun x hx y hxy => ?_) hab
      · rw [List.mem_cons, not_or]
        exact ⟨fun heq => hne heq.symm, hb⟩
      · obtain rfl | hx := List.mem_cons.1 hx
        · exact .inr (Option.some.inj (hxy.symm.trans hc))
        · obtain hy | rfl := hseen x hx y hxy
          · exact .inl (List.mem_cons_of_mem _ hy)
          · exact .inl List.mem_cons_self
    intro hab
    obtain heq | ⟨d, hd, hdb⟩ := hab.cases_head
    · exact hne heq
    · cases Option.some.inj (hd.symm.trans hc)
      exact hnot hdb
  | case4 seen a hne _ hc =>
    intro hab
    obtain heq | ⟨d, hd, -⟩ := hab.cases_head
    · exact hne heq
    · cases hd.symm.trans hc

theorem isSubclass_iff_reaches :
    h.isSubclass a b = true ↔ Relation.ReflTransGen h.Step a b := by
  refine ⟨reaches_of_climbs, fun hab => ?_⟩
  cases hc : h.isSubclass a b with
  | true => rfl
  | false =>
    have hseen : ∀ x ∈ [], ∀ y, h.Step x y → y ∈ [] ∨ y = a :=
      fun x hx => absurd hx List.not_mem_nil
    exact absurd hab (not_reaches_of_climbs List.not_mem_nil hseen hc)

end ObjLang.Hierarchy
