import Mathlib.Data.List.Nodup
import Std.Data.String.ToNat
import ObjLang.Code.Builder
import ObjLang.Linked.Link

/-!
# ObjLang.Proofs.Code.Names — names of functions and variables in code

Linking finds a name by its last occurrence.  Where names are distinct that is the only one, so a
name leads back to the thing that was declared with it.
-/

namespace ObjLang

/-! ### Positions of names -/

theorem lastIndex?_eq_none {x : String} {xs : List String} : lastIndex? x xs = none ↔ x ∉ xs := by
  induction xs with
  | nil => simp [lastIndex?]
  | cons y ys ih =>
    simp only [lastIndex?, List.mem_cons, not_or]
    cases h : lastIndex? x ys with
    | some i =>
      have hmem : x ∈ ys := by
        by_cases hx : x ∈ ys
        · exact hx
        · rw [ih.2 hx] at h
          cases h
      simp [hmem]
    | none =>
      have hx := ih.1 h
      by_cases hy : y = x
      · simp [hy]
      · simp [hy, hx, Ne.symm hy]

theorem getElem?_of_lastIndex? {x : String} {xs : List String} {i : Nat}
    (h : lastIndex? x xs = some i) : xs[i]? = some x := by
  induction xs generalizing i with
  | nil => cases h
  | cons y ys ih =>
    simp only [lastIndex?] at h
    split at h
    · next j hj =>
      cases h
      exact ih hj
    · split at h
      · next hy =>
        cases h
        simp [hy]
      · cases h

theorem lastIndex?_of_mem {x : String} {xs : List String} (h : x ∈ xs) :
    ∃ i, lastIndex? x xs = some i ∧ xs[i]? = some x := by
  cases hi : lastIndex? x xs with
  | none => exact absurd h (lastIndex?_eq_none.1 hi)
  | some i => exact ⟨i, rfl, getElem?_of_lastIndex? hi⟩

theorem lastIndex?_of_nodup {x : String} {xs : List String} (hnd : xs.Nodup) {i : Nat}
    (h : xs[i]? = some x) : lastIndex? x xs = some i := by
  obtain ⟨hi, hx⟩ := List.getElem?_eq_some_iff.1 h
  obtain ⟨j, hj, hjx⟩ := lastIndex?_of_mem (hx ▸ List.getElem_mem hi)
  obtain ⟨hj', hxj⟩ := List.getElem?_eq_some_iff.1 hjx
  have hij : j = i := (List.Nodup.getElem_inj_iff hnd).1 (hxj.trans hx.symm)
  rw [hj, hij]

/-! ### Names without repetition -/

theorem eraseDups_of_nodup {xs : List String} (h : xs.Nodup) : xs.eraseDups = xs := by
  induction xs with
  | nil => rfl
  | cons x xs ih =>
    obtain ⟨hx, hxs⟩ := List.nodup_cons.1 h
    have hfilter : xs.filter (fun y => !y == x) = xs := by
      refine List.filter_eq_self.2 fun y hy => ?_
      have hne : y ≠ x := fun heq => hx (heq ▸ hy)
      simpa using hne
    rw [List.eraseDups_cons, hfilter, ih hxs]

namespace Code

theorem nodup_of_firstRepeated {seen names : List String}
    (h : ModuleBuilder.firstRepeated seen names = none) :
    names.Nodup ∧ ∀ n ∈ names, n ∉ seen := by
  induction names generalizing seen with
  | nil => exact ⟨List.nodup_nil, nofun⟩
  | cons n ns ih =>
    simp only [ModuleBuilder.firstRepeated] at h
    split at h
    · cases h
    · next hn =>
      obtain ⟨hnd, hall⟩ := ih h
      refine ⟨List.nodup_cons.2 ⟨fun hm => hall n hm List.mem_cons_self, hnd⟩, ?_⟩
      intro m hm
      obtain rfl | hm := List.mem_cons.1 hm
      · simpa using hn
      · exact fun hs => hall m hm (List.mem_cons_of_mem _ hs)

theorem firstRepeated_of_nodup {seen names : List String} (h : names.Nodup)
    (hseen : ∀ n ∈ names, n ∉ seen) : ModuleBuilder.firstRepeated seen names = none := by
  induction names generalizing seen with
  | nil => rfl
  | cons n ns ih =>
    obtain ⟨hn, hns⟩ := List.nodup_cons.1 h
    have hnot : seen.contains n = false := by
      simpa using hseen n List.mem_cons_self
    rw [ModuleBuilder.firstRepeated, hnot, if_neg Bool.false_ne_true]
    refine ih hns fun m hm hmem => ?_
    obtain rfl | hmem := List.mem_cons.1 hmem
    · exact hn hm
    · exact hseen m (List.mem_cons_of_mem _ hm) hmem

theorem signatureName_inj {m n : Nat} (h : signatureName m = signatureName n) : m = n := by
  unfold signatureName at h
  exact Nat.repr_inj.1 ((String.append_right_inj "#sig").1 h)

/-! ### Functions being built -/

namespace FunctionBuilder

/-- The names that a function declares, in the order of their slots. -/
def names (b : FunctionBuilder) : List String := b.params ++ b.locals

theorem declares_iff {b : FunctionBuilder} {x : String} : b.declares x = true ↔ x ∈ b.names := by
  simp [declares, names]

/-- A function with more locals and labels. -/
structure Grows (b b' : FunctionBuilder) : Prop where
  name : b'.name = b.name
  params : b'.params = b.params
  locals : b.locals <+: b'.locals
  body : b'.body = b.body
  next : b.nextLabel ≤ b'.nextLabel
  nodup : b.names.Nodup → b'.names.Nodup
  /-- New names are made up by the generator. -/
  made : ∀ x ∈ b'.names, x ∈ b.names ∨ ∃ rest, x.toList = '#' :: rest

theorem Grows.refl (b : FunctionBuilder) : Grows b b :=
  ⟨rfl, rfl, List.prefix_rfl, rfl, Nat.le_refl _, fun h => h, fun _ hx => .inl hx⟩

theorem Grows.trans {b b' d : FunctionBuilder} (h : Grows b b') (h' : Grows b' d) :
    Grows b d where
  name := h'.name.trans h.name
  params := h'.params.trans h.params
  locals := h.locals.trans h'.locals
  body := h'.body.trans h.body
  next := Nat.le_trans h.next h'.next
  nodup := fun hnd => h'.nodup (h.nodup hnd)
  made := by
    intro x hx
    obtain hx | hx := h'.made x hx
    · exact h.made x hx
    · exact .inr hx

theorem Grows.mem {b b' : FunctionBuilder} (h : Grows b b') {x : String} (hx : x ∈ b.names) :
    x ∈ b'.names := by
  unfold names at hx ⊢
  rw [h.params]
  obtain hx | hx := List.mem_append.1 hx
  · exact List.mem_append_left _ hx
  · exact List.mem_append_right _ (h.locals.subset hx)

theorem names_addLocal (b : FunctionBuilder) (x : String) :
    (b.addLocal x).names = if b.declares x then b.names else b.names ++ [x] := by
  unfold addLocal
  split
  · rfl
  · simp [names]

theorem nextLabel_addLocal (b : FunctionBuilder) (x : String) :
    (b.addLocal x).nextLabel = b.nextLabel := by
  unfold addLocal
  split <;> rfl

theorem mem_addLocal (b : FunctionBuilder) (x : String) : x ∈ (b.addLocal x).names := by
  rw [names_addLocal]
  split
  · next h => exact declares_iff.1 h
  · simp

theorem nodup_addLocal {b : FunctionBuilder} (h : b.names.Nodup) (x : String) :
    (b.addLocal x).names.Nodup := by
  rw [names_addLocal]
  split
  · exact h
  · next hx =>
    have hnot : x ∉ b.names := fun hm => hx (declares_iff.2 hm)
    refine List.nodup_append.2 ⟨h, List.nodup_singleton _, ?_⟩
    rintro y hy z hz rfl
    exact hnot (List.mem_singleton.1 hz ▸ hy)

theorem grows_addLocal (b : FunctionBuilder) {x : String} {rest : List Char}
    (hx : x.toList = '#' :: rest) : Grows b (b.addLocal x) := by
  have hlocals : b.locals <+: (b.addLocal x).locals := by
    unfold addLocal
    split
    · exact List.prefix_rfl
    · exact List.prefix_append _ _
  have hsame : (b.addLocal x).name = b.name ∧ (b.addLocal x).params = b.params ∧
      (b.addLocal x).body = b.body ∧ (b.addLocal x).nextLabel = b.nextLabel := by
    unfold addLocal
    split <;> exact ⟨rfl, rfl, rfl, rfl⟩
  obtain ⟨hn, hp, hb, hl⟩ := hsame
  refine ⟨hn, hp, hlocals, hb, Nat.le_of_eq hl.symm, fun h => nodup_addLocal h x, fun y hy => ?_⟩
  rw [names_addLocal] at hy
  split at hy
  · exact .inl hy
  · obtain hy | hy := List.mem_append.1 hy
    · exact .inl hy
    · exact .inr ⟨rest, List.mem_singleton.1 hy ▸ hx⟩

theorem grows_newLabel (b : FunctionBuilder) (start : String) : Grows b (b.newLabel start).2 :=
  ⟨rfl, rfl, List.prefix_rfl, rfl, Nat.le_succ _, fun h => h, fun _ hx => .inl hx⟩

end FunctionBuilder

end Code

end ObjLang
