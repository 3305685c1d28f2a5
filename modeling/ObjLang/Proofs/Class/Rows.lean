import Mathlib.Data.List.Nodup
import ObjLang.Class.Layout

/-!
# ObjLang.Proofs.Class.Rows — rows and the positions of their names

A layout keeps its rows as a list and, beside it, the positions of their names.  `Exact` says that
the two agree: a name has a position exactly if the row there has that name, so no two rows share
one.  Adding a row of a new name keeps this, and so does putting a row in the place of the one of
its name.
-/

namespace ObjLang.Rows

variable {α : Type} {name : α → String} {r : Rows α} {x : String}

/-- The positions of names are those of the rows that have them. -/
def Exact (name : α → String) (r : Rows α) : Prop :=
  ∀ x i, List.lookup x r.index = some i ↔ (r.list.map name)[i]? = some x

namespace Exact

/-- Two rows have different names, since a name has one position. -/
theorem nodup (h : r.Exact name) : (r.list.map name).Nodup := by
  rw [List.nodup_iff_getElem?_ne_getElem?]
  intro i j hij hj heq
  have hj' := (h _ j).2 (List.getElem?_eq_getElem hj)
  have hi' := (h _ i).2 (heq.trans (List.getElem?_eq_getElem hj))
  exact Nat.ne_of_lt hij (Option.some.inj (hi'.symm.trans hj'))

theorem has_iff (h : r.Exact name) : r.has x = true ↔ x ∈ r.list.map name := by
  rw [has, Option.isSome_iff_exists, List.mem_iff_getElem?]
  exact exists_congr fun i => h x i

theorem has_eq_false (h : r.Exact name) : r.has x = false ↔ x ∉ r.list.map name := by
  rw [← h.has_iff, Bool.not_eq_true]

theorem lookup_eq_none (h : r.Exact name) :
    List.lookup x r.index = none ↔ x ∉ r.list.map name := by
  rw [← h.has_eq_false, has, Option.isSome_eq_false_iff, Option.isNone_iff_eq_none]

/-- The row at the position of a name is the first one that has it. -/
theorem find?_eq (h : r.Exact name) (x : String) :
    r.list.find? (name · == x) = (List.lookup x r.index).bind (r.list[·]?) := by
  cases hx : List.lookup x r.index with
  | none =>
    refine List.find?_eq_none.2 fun a ha heq => ?_
    exact h.lookup_eq_none.1 hx (List.mem_map.2 ⟨a, ha, eq_of_beq heq⟩)
  | some i =>
    have hi := (h x i).1 hx
    rw [List.getElem?_map, Option.map_eq_some_iff] at hi
    obtain ⟨a, ha, rfl⟩ := hi
    obtain ⟨hlt, hget⟩ := List.getElem?_eq_some_iff.1 ha
    rw [Option.bind_some, ha, List.find?_eq_some_iff_getElem]
    refine ⟨beq_self_eq_true _, i, hlt, hget, fun j hj => ?_⟩
    have hj' : j < r.list.length := Nat.lt_trans hj hlt
    have hne := List.nodup_iff_getElem?_ne_getElem?.1 h.nodup j i hj (by simpa using hlt)
    rw [List.getElem?_map, List.getElem?_map, ha, List.getElem?_eq_getElem hj'] at hne
    simpa using hne

theorem push (h : r.Exact name) (row : α) (hrow : name row = x) (hnew : r.has x = false) :
    (r.push x row).Exact name := by
  have hx := h.has_eq_false.1 hnew
  intro y i
  have hlen : (r.list.map name).length = r.list.length := List.length_map _
  simp only [Rows.push, List.map_append, List.map_cons, List.map_nil, hrow]
  by_cases hy : y = x
  · -- the new name is at the end and nowhere else
    subst hy
    rw [Bindings.lookup_insert_self]
    constructor
    · rintro ⟨rfl⟩
      rw [← hlen, List.getElem?_concat_length]
    · intro hi
      rw [List.getElem?_append] at hi
      split at hi
      · exact absurd (List.mem_iff_getElem?.2 ⟨i, hi⟩) hx
      · obtain ⟨hlt, -⟩ := List.getElem?_eq_some_iff.1 hi
        rw [List.length_singleton] at hlt
        exact congrArg some (by omega)
  · rw [Bindings.lookup_insert_of_ne hy, h y i, List.getElem?_append]
    split
    · exact Iff.rfl
    · next hlt =>
      have hnone : (r.list.map name)[i]? = none := List.getElem?_eq_none (by omega)
      have hne : [x][i - (r.list.map name).length]? ≠ some y := by
        intro heq
        exact hy (List.mem_singleton.1 (List.mem_iff_getElem?.2 ⟨_, heq⟩))
      simp only [hnone, reduceCtorEq, hne]

/-- A row in the place of one of the same name leaves the names as they are. -/
theorem names_set (h : r.Exact name) {row : α} (hrow : name row = x) {i : Nat}
    (hi : List.lookup x r.index = some i) : (r.list.set i row).map name = r.list.map name := by
  obtain ⟨hlt, hget⟩ := List.getElem?_eq_some_iff.1 ((h x i).1 hi)
  rw [List.map_set, hrow, ← hget, List.set_getElem_self]

theorem put (h : r.Exact name) (row : α) (hrow : name row = x) : (r.put x row).Exact name := by
  rw [Rows.put]
  split
  · next i hi =>
    intro y j
    simp only [h.names_set hrow hi]
    exact h y j
  · next hnone =>
    exact h.push row hrow (h.has_eq_false.2 (h.lookup_eq_none.1 hnone))

theorem names_put (h : r.Exact name) (row : α) (hrow : name row = x) :
    (r.put x row).list.map name
      = if x ∈ r.list.map name then r.list.map name else r.list.map name ++ [x] := by
  rw [Rows.put]
  split
  · next i hi =>
    rw [if_pos (List.mem_iff_getElem?.2 ⟨i, (h x i).1 hi⟩)]
    exact h.names_set hrow hi
  · next hnone =>
    rw [if_neg (h.lookup_eq_none.1 hnone), Rows.push, List.map_append, List.map_cons, hrow,
      List.map_nil]

/-- Behind a name that was put in stands the new row; the other names have the rows they had. -/
theorem find?_put (h : r.Exact name) (row : α) (hrow : name row = x) (y : String) :
    (r.put x row).list.find? (name · == y)
      = if x = y then some row else r.list.find? (name · == y) := by
  rw [(h.put row hrow).find?_eq, h.find?_eq]
  cases hi : List.lookup x r.index with
  | none =>
    simp only [Rows.put, hi, Rows.push]
    by_cases hy : x = y
    · rw [if_pos hy, ← hy, Bindings.lookup_insert_self, Option.bind_some,
        List.getElem?_concat_length]
    · rw [if_neg hy, Bindings.lookup_insert_of_ne (Ne.symm hy)]
      cases hj : List.lookup y r.index with
      | none => rfl
      | some j =>
        obtain ⟨hlt, -⟩ := List.getElem?_eq_some_iff.1 ((h y j).1 hj)
        exact List.getElem?_append_left (by simpa using hlt)
  | some i =>
    obtain ⟨hlt, hget⟩ := List.getElem?_eq_some_iff.1 ((h x i).1 hi)
    simp only [Rows.put, hi]
    by_cases hy : x = y
    · rw [if_pos hy, ← hy, hi, Option.bind_some, List.getElem?_set_self (by simpa using hlt)]
    · rw [if_neg hy]
      cases hj : List.lookup y r.index with
      | none => rfl
      | some j =>
        have hne : i ≠ j := by
          rintro rfl
          exact hy (Option.some.inj (((h x i).1 hi).symm.trans ((h y i).1 hj)))
        exact List.getElem?_set_ne hne

end Exact

end ObjLang.Rows

namespace ObjLang

/-- The positions that a layout keeps are those of its fields and of its method slots. -/
structure ClassLayout.Indexed (c : ClassLayout) : Prop where
  fields : c.fieldRows.Exact FieldLayout.name
  methods : c.methodRows.Exact MethodEntry.name

end ObjLang
