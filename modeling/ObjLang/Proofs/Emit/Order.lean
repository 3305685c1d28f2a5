import ObjLang.Proofs.Emit.Shape

/-!
# ObjLang.Proofs.Emit.Order — code goes forward

The code of a part of a program ends behind its start, and the numbers of temporaries go up in it.
-/

namespace ObjLang.Emit

open Code (Instr)

variable {c : CheckedProgram} {N : Names} {arr : Array Op}

theorem codeAt_le {is : List Instr} {a a' : Nat} (h : CodeAt N arr is a a') : a ≤ a' := by
  rw [h.2.2]
  exact Nat.le_add_right _ _

/-! ### Expressions -/

mutual

theorem exprAt_le {e : Expr} {n a n' a' : Nat} (h : ExprAt c N arr e n a n' a') : a ≤ a' := by
  cases e with
  | literal i v => exact codeAt_le h.1
  | name i x b =>
    obtain ⟨v, -, hcode, -⟩ := h
    exact codeAt_le hcode
  | unary i op e =>
    cases op with
    | neg =>
      obtain ⟨b₁, b₂, h₁, he, h₂⟩ := h
      exact Nat.le_trans (codeAt_le h₁) (Nat.le_trans (exprAt_le he) (codeAt_le h₂))
    | not =>
      obtain ⟨b, he, h₂⟩ := h
      exact Nat.le_trans (exprAt_le he) (codeAt_le h₂)
  | binary i op l r =>
    obtain ⟨n₁, b₁, b₂, hl, hr, h₂⟩ := h
    exact Nat.le_trans (exprAt_le hl) (Nat.le_trans (exprAt_le hr) (codeAt_le h₂))
  | call i callee args target =>
    simp only [ExprAt] at h
    split at h
    · exact h.elim
    · obtain ⟨b₁, b₂, hargs, h₁, h₂⟩ := h
      exact Nat.le_trans (exprsAt_le hargs) (Nat.le_trans (codeAt_le h₁) (codeAt_le h₂))
    · obtain ⟨l, init, -, -, hcode, -⟩ := h
      exact codeAt_le hcode
    · obtain ⟨b, is, hargs, -, hcode⟩ := h
      exact Nat.le_trans (exprsAt_le hargs) (codeAt_le hcode)
  | field i o f =>
    obtain ⟨l, k, d, b, -, -, ho, hcode⟩ := h
    exact Nat.le_trans (exprAt_le ho) (codeAt_le hcode)
  | method i o m args =>
    obtain ⟨l, slot, e, n₁, b₁, b₂, b₃, -, -, ho, h₁, hargs, h₂⟩ := h
    exact Nat.le_trans (exprAt_le ho) (Nat.le_trans (codeAt_le h₁)
      (Nat.le_trans (exprsAt_le hargs) (codeAt_le h₂)))

theorem exprsAt_le {es : List Expr} {n a n' a' : Nat} (h : ExprsAt c N arr es n a n' a') :
    a ≤ a' := by
  cases es with
  | nil => exact Nat.le_of_eq h.1.symm
  | cons e es =>
    obtain ⟨n₁, b, he, hes⟩ := h
    exact Nat.le_trans (exprAt_le he) (exprsAt_le hes)

end

mutual

/-- The numbers of temporaries go up. -/
theorem exprAt_number_le {e : Expr} {n a n' a' : Nat} (h : ExprAt c N arr e n a n' a') :
    n ≤ n' := by
  cases e with
  | literal i v => exact Nat.le_of_eq h.2.symm
  | name i x b =>
    obtain ⟨v, -, -, hn⟩ := h
    exact Nat.le_of_eq hn.symm
  | unary i op e =>
    cases op with
    | neg =>
      obtain ⟨b₁, b₂, -, he, -⟩ := h
      exact exprAt_number_le he
    | not =>
      obtain ⟨b, he, -⟩ := h
      exact exprAt_number_le he
  | binary i op l r =>
    obtain ⟨n₁, b₁, b₂, hl, hr, -⟩ := h
    exact Nat.le_trans (exprAt_number_le hl) (exprAt_number_le hr)
  | call i callee args target =>
    simp only [ExprAt] at h
    split at h
    · exact h.elim
    · obtain ⟨b₁, b₂, hargs, -⟩ := h
      exact exprsAt_number_le hargs
    · obtain ⟨l, init, -, -, -, hn⟩ := h
      exact Nat.le_of_eq hn.symm
    · obtain ⟨b, is, hargs, -⟩ := h
      exact exprsAt_number_le hargs
  | field i o f =>
    obtain ⟨l, k, d, b, -, -, ho, -⟩ := h
    exact exprAt_number_le ho
  | method i o m args =>
    obtain ⟨l, slot, e, n₁, b₁, b₂, b₃, -, -, ho, -, hargs, -⟩ := h
    exact Nat.le_trans (exprAt_number_le ho)
      (Nat.le_trans (Nat.le_succ n₁) (exprsAt_number_le hargs))

theorem exprsAt_number_le {es : List Expr} {n a n' a' : Nat} (h : ExprsAt c N arr es n a n' a') :
    n ≤ n' := by
  cases es with
  | nil => exact Nat.le_of_eq h.2.symm
  | cons e es =>
    obtain ⟨n₁, b, he, hes⟩ := h
    exact Nat.le_trans (exprAt_number_le he) (exprsAt_number_le hes)

end

/-! ### Statements -/

theorem assignAt_le {value : Expr} {g : Target} {n a n' a' : Nat}
    (h : AssignAt c N arr value g n a n' a') : a ≤ a' := by
  cases g with
  | name x b =>
    obtain ⟨v, b₁, b₂, -, h₁, he, h₂⟩ := h
    exact Nat.le_trans (codeAt_le h₁) (Nat.le_trans (exprAt_le he) (codeAt_le h₂))
  | field o f =>
    obtain ⟨l, i, d, n₁, b₁, b₂, b₃, -, -, ho, h₁, he, h₂⟩ := h
    exact Nat.le_trans (exprAt_le ho) (Nat.le_trans (codeAt_le h₁)
      (Nat.le_trans (exprAt_le he) (codeAt_le h₂)))

mutual

theorem stmtAt_le {st : Stmt} {n a n' a' : Nat} (h : StmtAt c N arr st n a n' a') : a ≤ a' := by
  cases st with
  | assign g e s => exact assignAt_le h
  | expr e s =>
    obtain ⟨b, he, hcode⟩ := h
    exact Nat.le_trans (exprAt_le he) (codeAt_le hcode)
  | ret e s =>
    obtain ⟨b, he, hcode⟩ := h
    exact Nat.le_trans (exprAt_le he) (codeAt_le hcode)
  | pass s => exact Nat.le_of_eq h.1.symm
  | cond first others otherwise s =>
    obtain ⟨n₁, n₂, b₁, b₂, hf, ho, hb⟩ := h
    exact Nat.le_trans (branchAt_le hf) (Nat.le_trans (branchesAt_le ho) (blockAt_le hb))
  | loop branch s =>
    cases branch with
    | mk test body =>
      obtain ⟨n₁, b₁, b₂, ht, -, hb, -, ha⟩ := h
      have h₁ := exprAt_le ht
      have h₂ := blockAt_le hb
      omega

theorem blockAt_le {ss : List Stmt} {n a n' a' : Nat} (h : BlockAt c N arr ss n a n' a') :
    a ≤ a' := by
  cases ss with
  | nil => exact Nat.le_of_eq h.1.symm
  | cons st ss =>
    obtain ⟨n₁, b, hs, hss⟩ := h
    exact Nat.le_trans (stmtAt_le hs) (blockAt_le hss)

theorem branchAt_le {exit : Nat} {br : Branch} {n a n' a' : Nat}
    (h : BranchAt c N arr exit br n a n' a') : a ≤ a' := by
  cases br with
  | mk test body =>
    obtain ⟨n₁, b₁, b₂, ht, -, hb, -, ha⟩ := h
    have h₁ := exprAt_le ht
    have h₂ := blockAt_le hb
    omega

theorem branchesAt_le {exit : Nat} {brs : List Branch} {n a n' a' : Nat}
    (h : BranchesAt c N arr exit brs n a n' a') : a ≤ a' := by
  cases brs with
  | nil => exact Nat.le_of_eq h.1.symm
  | cons br brs =>
    obtain ⟨n₁, k, hb, hbs⟩ := h
    exact Nat.le_trans (branchAt_le hb) (branchesAt_le hbs)

end

end ObjLang.Emit
