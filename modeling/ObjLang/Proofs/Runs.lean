import Mathlib.Data.List.Forall2

/-!
# ObjLang.Proofs.Runs — runs of computations with state and failure

Reading a token stream, checking a program and generating code are all state transformers that may
fail.  The lemmas here open a successful run of such a computation into the runs of its parts.
-/

namespace ObjLang

variable {σ ε α β γ : Type}

theorem bind_eq_ok {x : StateT σ (Except ε) α} {f : α → StateT σ (Except ε) β} {s : σ}
    {r : β × σ} : (x >>= f) s = .ok r ↔ ∃ a s', x s = .ok (a, s') ∧ f a s' = .ok r := by
  simp only [bind, StateT.bind, Except.bind]
  cases h : x s with
  | error e => simp
  | ok p =>
    obtain ⟨a, s'⟩ := p
    constructor
    · intro hf
      exact ⟨a, s', rfl, hf⟩
    · rintro ⟨b, t, hb, hf⟩
      cases hb
      exact hf

theorem bind_eq_error {x : StateT σ (Except ε) α} {f : α → StateT σ (Except ε) β} {s : σ} {e : ε} :
    (x >>= f) s = .error e ↔ x s = .error e ∨ ∃ a s', x s = .ok (a, s') ∧ f a s' = .error e := by
  simp only [bind, StateT.bind, Except.bind]
  cases h : x s with
  | error e' => simp
  | ok p =>
    obtain ⟨a, s'⟩ := p
    simp

theorem ok_eq_ok {a b : α} : (.ok a : Except ε α) = .ok b ↔ b = a := by
  rw [Except.ok.injEq, eq_comm]

theorem pure_eq_ok {a : α} {s : σ} {r : α × σ} :
    (pure a : StateT σ (Except ε) α) s = .ok r ↔ r = (a, s) :=
  ok_eq_ok

theorem get_eq_ok {s : σ} {r : σ × σ} :
    (get : StateT σ (Except ε) σ) s = .ok r ↔ r = (s, s) :=
  ok_eq_ok

theorem set_eq_ok {s t : σ} {r : PUnit × σ} :
    (set t : StateT σ (Except ε) PUnit) s = .ok r ↔ r = ((), t) :=
  ok_eq_ok

theorem modify_eq_ok {f : σ → σ} {s : σ} {r : PUnit × σ} :
    (modify f : StateT σ (Except ε) PUnit) s = .ok r ↔ r = ((), f s) :=
  ok_eq_ok

theorem throw_eq_ok {e : ε} {s : σ} {r : α × σ} :
    (throw e : StateT σ (Except ε) α) s = .ok r ↔ False := by
  simp [throw, throwThe, MonadExceptOf.throw, StateT.lift, bind, Except.bind]

theorem forM_nil_eq_ok {f : α → StateT σ (Except ε) PUnit} {s : σ} {r : PUnit × σ} :
    List.forM [] f s = .ok r ↔ r = ((), s) :=
  pure_eq_ok

theorem forM_cons_eq_ok {f : α → StateT σ (Except ε) PUnit} {a : α} {as : List α} {s : σ}
    {r : PUnit × σ} :
    List.forM (a :: as) f s = .ok r ↔ ∃ s', f a s = .ok ((), s') ∧ List.forM as f s' = .ok r := by
  have hcons : List.forM (a :: as) f = f a >>= fun _ => List.forM as f := rfl
  rw [hcons, bind_eq_ok]
  constructor
  · rintro ⟨⟨⟩, s', ha, has⟩
    exact ⟨s', ha, has⟩
  · rintro ⟨s', ha, has⟩
    exact ⟨(), s', ha, has⟩

theorem except_bind_eq_ok {x : Except ε α} {f : α → Except ε β} {b : β} :
    (x >>= f) = .ok b ↔ ∃ a, x = .ok a ∧ f a = .ok b := by
  cases x with
  | error e => simp [bind, Except.bind]
  | ok a => simp [bind, Except.bind]

theorem except_bind_eq_error {x : Except ε α} {f : α → Except ε β} {e : ε} :
    (x >>= f) = .error e ↔ x = .error e ∨ ∃ a, x = .ok a ∧ f a = .error e := by
  cases x with
  | error e => simp [bind, Except.bind]
  | ok a => simp [bind, Except.bind]

theorem except_pure_eq_ok {a b : α} : (pure a : Except ε α) = .ok b ↔ b = a :=
  ok_eq_ok

theorem toOption_any_eq_true {x : Except ε α} {p : α → Bool} :
    x.toOption.any p = true ↔ ∃ a, x = .ok a ∧ p a = true := by
  cases x with
  | error e => simp [Except.toOption]
  | ok a => simp [Except.toOption]

theorem toOption_isSome_eq_true {x : Except ε α} : x.toOption.isSome = true ↔ ∃ a, x = .ok a := by
  cases x with
  | error e => simp [Except.toOption]
  | ok a => simp [Except.toOption]

theorem exists_of_forall₂ {R : α → β → Prop} {as : List α} {bs : List β}
    (h : List.Forall₂ R as bs) {a : α} (ha : a ∈ as) : ∃ b ∈ bs, R a b := by
  induction h with
  | nil => exact absurd ha List.not_mem_nil
  | cons hr _ ih =>
    obtain rfl | ha := List.mem_cons.1 ha
    · exact ⟨_, List.mem_cons_self, hr⟩
    · obtain ⟨b, hb, hr⟩ := ih ha
      exact ⟨b, List.mem_cons_of_mem _ hb, hr⟩

theorem forall₂_of_mapM {g : α → Except ε β} {xs : List α} {ys : List β}
    (h : xs.mapM g = .ok ys) : List.Forall₂ (fun x y => g x = .ok y) xs ys := by
  induction xs generalizing ys with
  | nil =>
    cases h
    exact .nil
  | cons x xs ih =>
    simp only [List.mapM_cons, except_bind_eq_ok, except_pure_eq_ok] at h
    obtain ⟨y, hy, ys', hys, rfl⟩ := h
    exact .cons hy (ih hys)

theorem mapM_ok {f : α → Except ε β} {as : List α}
    (h : ∀ a ∈ as, ∃ b, f a = .ok b) :
    ∃ bs, as.mapM f = .ok bs ∧ List.Forall₂ (fun a b => f a = .ok b) as bs := by
  induction as with
  | nil => exact ⟨[], rfl, .nil⟩
  | cons a as ih =>
    obtain ⟨b, hb⟩ := h a List.mem_cons_self
    obtain ⟨bs, hbs, hall⟩ := ih fun a' ha => h a' (List.mem_cons_of_mem _ ha)
    refine ⟨b :: bs, ?_, .cons hb hall⟩
    rw [List.mapM_cons, hb]
    simp only [bind, Except.bind]
    rw [hbs]
    rfl

end ObjLang
