import ObjLang.Proofs.Emit.Expr

/-!
# ObjLang.Proofs.Emit.Labels — the labels of generated code

A label is one of a few words with a number behind it, and no number is given twice in one function.
So the blocks and loops of a function have different labels, and a branch never means two of them.
-/

namespace ObjLang

/-- The label of the block or the loop that an instruction opens. -/
def Code.Instr.label? : Code.Instr → Option String
  | .block l | .loop l => some l
  | _ => none

/-- The labels that some code opens, in order. -/
def Code.labels (code : List Code.Instr) : List String := code.filterMap Code.Instr.label?

namespace Emit

open Code (Instr labels)

/-! ### Numbers of labels -/

/-- The words that labels start with. -/
def labelStarts : List String := ["if_exit", "while_exit", "while_loop"]

/-- A label that is made with a number. -/
def Numbered (n : Nat) (x : String) : Prop := ∃ start ∈ labelStarts, x = start ++ toString n

/-- Seven letters tell the words apart. -/
theorem labelStarts_take : ∀ y ∈ labelStarts, 7 ≤ y.toList.length ∧
    ∀ z ∈ labelStarts, y.toList.take 7 = z.toList.take 7 → y = z := by
  decide

/-- A label tells the number that it is made with. -/
theorem Numbered.unique {m n : Nat} {x : String} (hm : Numbered m x) (hn : Numbered n x) :
    m = n := by
  obtain ⟨y, hy, rfl⟩ := hm
  obtain ⟨z, hz, heq⟩ := hn
  obtain ⟨hylen, hyz⟩ := labelStarts_take y hy
  obtain ⟨hzlen, -⟩ := labelStarts_take z hz
  have htake := congrArg (fun x => x.toList.take 7) heq
  simp only [String.toList_append, List.take_append_of_le_length hylen,
    List.take_append_of_le_length hzlen] at htake
  obtain rfl := hyz z hz htake
  exact Nat.repr_inj.1 ((String.append_right_inj y).1 heq)

/-- Code that was generated while the next number went from `n` to `n'`: its labels are different and
made with the numbers between. -/
structure Labels (n n' : Nat) (code : List Instr) : Prop where
  le : n ≤ n'
  nodup : (labels code).Nodup
  numbered : ∀ x ∈ labels code, ∃ k, Numbered k x ∧ n ≤ k ∧ k < n'

namespace Labels

variable {n m n' : Nat} {code code' : List Instr}

/-- Code without blocks and loops. -/
theorem of_none (h : labels code = []) (hn : n ≤ n') : Labels n n' code :=
  ⟨hn, h ▸ List.nodup_nil, by simp [h]⟩

theorem mono (h : Labels m n' code) (hn : n ≤ m) : Labels n n' code := by
  refine ⟨Nat.le_trans hn h.le, h.nodup, fun x hx => ?_⟩
  obtain ⟨k, hk, hle, hlt⟩ := h.numbered x hx
  exact ⟨k, hk, Nat.le_trans hn hle, hlt⟩

theorem append (h : Labels n m code) (h' : Labels m n' code') : Labels n n' (code ++ code') := by
  have hlabels : labels (code ++ code') = labels code ++ labels code' := List.filterMap_append
  refine ⟨Nat.le_trans h.le h'.le, ?_, fun x hx => ?_⟩
  · rw [hlabels, List.nodup_append]
    refine ⟨h.nodup, h'.nodup, ?_⟩
    rintro x hx y hy rfl
    obtain ⟨i, hi, -, hlt⟩ := h.numbered x hx
    obtain ⟨j, hj, hle, -⟩ := h'.numbered x hy
    have hij := hi.unique hj
    omega
  · rw [hlabels, List.mem_append] at hx
    obtain hx | hx := hx
    · obtain ⟨k, hk, hle, hlt⟩ := h.numbered x hx
      exact ⟨k, hk, hle, Nat.lt_of_lt_of_le hlt h'.le⟩
    · obtain ⟨k, hk, hle, hlt⟩ := h'.numbered x hx
      exact ⟨k, hk, Nat.le_trans h.le hle, hlt⟩

/-- Code behind which a piece without labels comes. -/
theorem behind (h : Labels n n' code) (hc : labels code' = []) : Labels n n' (code ++ code') :=
  h.append (of_none hc (Nat.le_refl n'))

/-- Code before which a piece without labels comes. -/
theorem before (h : Labels n n' code) (hc : labels code' = []) : Labels n n' (code' ++ code) :=
  (of_none hc (Nat.le_refl n)).append h

/-- The instruction that opens a region whose label is made with the next number. -/
theorem opening {i : Instr} {x : String} (hi : i.label? = some x) (hx : Numbered n x) :
    Labels n (n + 1) [i] := by
  have hlabels : labels [i] = [x] := by
    rw [labels, List.filterMap_cons_some hi, List.filterMap_nil]
  refine ⟨Nat.le_succ n, hlabels ▸ List.nodup_singleton x, fun y hy => ?_⟩
  rw [hlabels, List.mem_singleton] at hy
  exact ⟨n, hy ▸ hx, Nat.le_refl n, Nat.lt_succ_self n⟩

end Labels

/-! ### Expressions -/

section

variable {c : CheckedProgram}

theorem labels_append (code code' : List Instr) :
    labels (code ++ code') = labels code ++ labels code' :=
  List.filterMap_append

theorem labels_flatMap {α : Type} {f : α → List Instr} {as : List α}
    (h : ∀ a ∈ as, labels (f a) = []) : labels (as.flatMap f) = [] := by
  rw [labels, List.filterMap_flatMap, List.flatMap_eq_nil_iff]
  exact h

theorem labels_loadVar (v : Variable) : labels (loadVar v) = [] := by
  unfold loadVar
  split
  · rfl
  · split <;> rfl

theorem labels_initFields (i : Nat) (fs : List FieldLayout) : labels (initFields i fs) = [] := by
  induction fs generalizing i with
  | nil => rfl
  | cons f fs ih => exact ih (i + 1)

theorem labels_construct {k : String} {s s' : State} {code : List Instr}
    (h : construct c k s = .ok (code, s')) :
    labels code = [] ∧ s'.function.nextLabel = s.function.nextLabel := by
  simp only [construct, bind_eq_ok, layoutOf_eq_ok] at h
  obtain ⟨l, s₁, ⟨hl, rfl⟩, h⟩ := h
  cases ht : l.target? initMethod with
  | none => simp [ht, stop_eq_ok] at h
  | some init =>
    simp only [ht, bind_eq_ok, addLocal_eq_ok, pure_eq_ok, Prod.mk.injEq] at h
    obtain ⟨_, _, ⟨-, rfl⟩, rfl, rfl⟩ := h
    refine ⟨?_, Code.FunctionBuilder.nextLabel_addLocal _ _⟩
    rw [labels_append, labels_append, labels_initFields]
    rfl

theorem labels_cells (vs : List VarId) :
    labels (vs.map fun v => .localGet (c.var v).name) = [] := by
  induction vs with
  | nil => rfl
  | cons v vs ih => exact ih

theorem labels_builtin {b : Builtin} {args : List Expr} {is : List Instr}
    (h : builtinCode b args = some is) : labels is = [] := by
  unfold builtinCode at h
  split at h
  all_goals cases h
  all_goals rfl

mutual

/-- The code of an expression has no labels, and may use up numbers. -/
theorem expr_labels {e : Expr} {s s' : State} {code : List Instr}
    (h : expr c e s = .ok (code, s')) :
    Labels s.function.nextLabel s'.function.nextLabel code := by
  match e with
  | .literal _ v =>
    simp only [expr, pure_eq_ok, Prod.mk.injEq] at h
    obtain ⟨rfl, rfl⟩ := h
    exact .of_none rfl (Nat.le_refl _)
  | .name _ x b =>
    simp only [expr, bind_eq_ok, bound_eq_ok, pure_eq_ok, Prod.mk.injEq] at h
    obtain ⟨_, _, ⟨v, -, rfl, rfl⟩, rfl, rfl⟩ := h
    exact .of_none (labels_loadVar _) (Nat.le_refl _)
  | .unary _ .neg operand =>
    simp only [expr, bind_eq_ok, pure_eq_ok, Prod.mk.injEq] at h
    obtain ⟨_, _, h, rfl, rfl⟩ := h
    exact ((expr_labels h).before rfl).behind rfl
  | .unary _ .not operand =>
    simp only [expr, bind_eq_ok, pure_eq_ok, Prod.mk.injEq] at h
    obtain ⟨_, _, h, rfl, rfl⟩ := h
    exact (expr_labels h).behind rfl
  | .binary _ op left right =>
    simp only [expr, bind_eq_ok, pure_eq_ok, Prod.mk.injEq] at h
    obtain ⟨_, _, hl, _, _, hr, rfl, rfl⟩ := h
    exact ((expr_labels hl).append (expr_labels hr)).behind rfl
  | .call _ callee args target =>
    cases target with
    | none => exact (stop_eq_ok.1 (by simpa only [expr] using h)).elim
    | some target =>
      cases target with
      | function id captures =>
        simp only [expr, bind_eq_ok, pure_eq_ok, Prod.mk.injEq] at h
        obtain ⟨_, _, hargs, _, _, hcells, rfl, rfl⟩ := h
        obtain ⟨rfl, rfl⟩ := loadCells_eq_ok hcells
        exact ((exprs_labels hargs).behind (labels_cells captures)).behind rfl
      | construct k =>
        simp only [expr] at h
        obtain ⟨hnone, hnext⟩ := labels_construct h
        exact .of_none hnone (Nat.le_of_eq hnext.symm)
      | builtin b =>
        simp only [expr, bind_eq_ok, pure_eq_ok, Prod.mk.injEq] at h
        obtain ⟨_, _, hargs, _, _, hb, rfl, rfl⟩ := h
        obtain ⟨rfl, hcode⟩ := builtinCall_eq_ok hb
        exact (exprs_labels hargs).behind (labels_builtin hcode)
  | .field _ object field =>
    simp only [expr, bind_eq_ok, fieldOffset_eq_ok, pure_eq_ok, Prod.mk.injEq] at h
    obtain ⟨_, _, ⟨_, _, _, _, _, rfl, rfl⟩, _, _, h, rfl, rfl⟩ := h
    exact (expr_labels h).behind rfl
  | .method _ object method args =>
    simp only [expr, bind_eq_ok, slotOf_eq_ok, newTemp_eq_ok, signature_eq_ok, pure_eq_ok,
      Prod.mk.injEq] at h
    obtain ⟨_, _, ⟨_, _, _, _, _, rfl, rfl⟩, _, s₁, ho, _, _, ⟨rfl, rfl⟩, _, s₂, hargs, _, _,
      ⟨rfl, rfl⟩, rfl, rfl⟩ := h
    have hnext : s₁.function.nextLabel ≤ (s₁.function.newTemp "#recv").2.nextLabel := by
      rw [Code.FunctionBuilder.newTemp, Code.FunctionBuilder.nextLabel_addLocal]
      exact Nat.le_succ _
    exact (((expr_labels ho).behind rfl).append ((exprs_labels hargs).mono hnext)).behind rfl

theorem exprs_labels {es : List Expr} {s s' : State} {code : List Instr}
    (h : exprs c es s = .ok (code, s')) :
    Labels s.function.nextLabel s'.function.nextLabel code := by
  match es with
  | [] =>
    simp only [exprs, pure_eq_ok, Prod.mk.injEq] at h
    obtain ⟨rfl, rfl⟩ := h
    exact .of_none rfl (Nat.le_refl _)
  | e :: es =>
    simp only [exprs, bind_eq_ok, pure_eq_ok, Prod.mk.injEq] at h
    obtain ⟨_, _, h₁, _, _, h₂, rfl, rfl⟩ := h
    exact (expr_labels h₁).append (exprs_labels h₂)

end

/-! ### Statements -/

theorem assignment_labels {value : Expr} {target : Target} {s s' : State} {code : List Instr}
    (h : assignment c value target s = .ok (code, s')) :
    Labels s.function.nextLabel s'.function.nextLabel code := by
  cases target with
  | name x b =>
    simp only [assignment, bind_eq_ok, bound_eq_ok, pure_eq_ok, Prod.mk.injEq] at h
    obtain ⟨_, _, ⟨v, -, rfl, rfl⟩, _, _, h, rfl, rfl⟩ := h
    have hvalue := expr_labels h
    unfold storeVar
    split
    · exact hvalue.behind rfl
    · split
      · exact (hvalue.before rfl).behind rfl
      · exact hvalue.behind rfl
  | field object field =>
    simp only [assignment, bind_eq_ok, fieldOffset_eq_ok, pure_eq_ok, Prod.mk.injEq] at h
    obtain ⟨_, _, ⟨_, _, _, _, _, rfl, rfl⟩, _, _, ho, _, _, hv, rfl, rfl⟩ := h
    exact (((expr_labels ho).behind rfl).append (expr_labels hv)).behind rfl

mutual

/-- The labels in the code of a statement are different. -/
theorem stmt_labels {st : Stmt} {s s' : State} {code : List Instr}
    (h : stmt c st s = .ok (code, s')) :
    Labels s.function.nextLabel s'.function.nextLabel code := by
  match st with
  | .assign target value _ =>
    simp only [stmt] at h
    exact assignment_labels h
  | .expr value _ =>
    simp only [stmt, bind_eq_ok, addLocal_eq_ok, pure_eq_ok, Prod.mk.injEq] at h
    obtain ⟨_, _, ⟨-, rfl⟩, _, _, h, rfl, rfl⟩ := h
    exact ((expr_labels h).behind rfl).mono
      (Nat.le_of_eq (Code.FunctionBuilder.nextLabel_addLocal _ _).symm)
  | .ret value _ =>
    simp only [stmt, bind_eq_ok, pure_eq_ok, Prod.mk.injEq] at h
    obtain ⟨_, _, h, rfl, rfl⟩ := h
    exact (expr_labels h).behind rfl
  | .pass _ =>
    simp only [stmt, pure_eq_ok, Prod.mk.injEq] at h
    obtain ⟨rfl, rfl⟩ := h
    exact .of_none rfl (Nat.le_refl _)
  | .cond first others otherwise _ =>
    simp only [stmt, bind_eq_ok, newLabel_eq_ok, pure_eq_ok, Prod.mk.injEq] at h
    obtain ⟨_, _, ⟨rfl, rfl⟩, _, _, h₁, _, _, h₂, _, _, h₃, rfl, rfl⟩ := h
    have hexit : Labels s.function.nextLabel (s.function.nextLabel + 1)
        [.block ("if_exit" ++ toString s.function.nextLabel)] :=
      .opening rfl ⟨"if_exit", by simp [labelStarts], rfl⟩
    exact ((((hexit.append (guarded_labels h₁)).append (guardedAll_labels h₂)).append
      (block_labels h₃))).behind rfl
  | .loop (.mk test body) _ =>
    simp only [stmt, bind_eq_ok, newLabel_eq_ok, pure_eq_ok, Prod.mk.injEq] at h
    obtain ⟨_, _, ⟨rfl, rfl⟩, _, _, ⟨rfl, rfl⟩, _, _, h₁, _, _, h₂, rfl, rfl⟩ := h
    let n := s.function.nextLabel
    have hexit : Labels n (n + 1) [.block ("while_exit" ++ toString n)] :=
      .opening rfl ⟨"while_exit", by simp [labelStarts], rfl⟩
    have hhead : Labels (n + 1) (n + 2) [.loop ("while_loop" ++ toString (n + 1))] :=
      .opening rfl ⟨"while_loop", by simp [labelStarts], rfl⟩
    exact ((((hexit.append hhead).append (expr_labels h₁)).behind rfl).append
      (block_labels h₂)).behind rfl

theorem block_labels {ss : List Stmt} {s s' : State} {code : List Instr}
    (h : block c ss s = .ok (code, s')) :
    Labels s.function.nextLabel s'.function.nextLabel code := by
  match ss with
  | [] =>
    simp only [block, pure_eq_ok, Prod.mk.injEq] at h
    obtain ⟨rfl, rfl⟩ := h
    exact .of_none rfl (Nat.le_refl _)
  | st :: ss =>
    simp only [block, bind_eq_ok, pure_eq_ok, Prod.mk.injEq] at h
    obtain ⟨_, _, h₁, _, _, h₂, rfl, rfl⟩ := h
    exact (stmt_labels h₁).append (block_labels h₂)

theorem guarded_labels {exit : String} {b : Branch} {s s' : State} {code : List Instr}
    (h : guarded c exit b s = .ok (code, s')) :
    Labels s.function.nextLabel s'.function.nextLabel code := by
  match b with
  | .mk test body =>
    simp only [guarded, bind_eq_ok, pure_eq_ok, Prod.mk.injEq] at h
    obtain ⟨_, _, h₁, _, _, h₂, rfl, rfl⟩ := h
    exact (((expr_labels h₁).behind rfl).append (block_labels h₂)).behind rfl

theorem guardedAll_labels {exit : String} {bs : List Branch} {s s' : State} {code : List Instr}
    (h : guardedAll c exit bs s = .ok (code, s')) :
    Labels s.function.nextLabel s'.function.nextLabel code := by
  match bs with
  | [] =>
    simp only [guardedAll, pure_eq_ok, Prod.mk.injEq] at h
    obtain ⟨rfl, rfl⟩ := h
    exact .of_none rfl (Nat.le_refl _)
  | b :: bs =>
    simp only [guardedAll, bind_eq_ok, pure_eq_ok, Prod.mk.injEq] at h
    obtain ⟨_, _, h₁, _, _, h₂, rfl, rfl⟩ := h
    exact (guarded_labels h₁).append (guardedAll_labels h₂)

end

end

end Emit

end ObjLang
