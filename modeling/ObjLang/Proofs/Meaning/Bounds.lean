import ObjLang.Proofs.Meaning

/-!
# ObjLang.Proofs.Meaning.Bounds — outcomes and bounds

An outcome does not depend on the number that bounds how calls nest and loops go round: a computation
that has an outcome has the same one with every higher bound.  Statements that return on every path
do not go on.
-/

namespace ObjLang

namespace Eval

variable {α β : Type} {m m' m'' : Eval α} {f f' : α → Eval β} {P : α → Prop} {Q : β → Prop}

/-- A computation has the outcomes of another one. -/
def Extends (m m' : Eval α) : Prop := ∀ σ o, m σ = some o → m' σ = some o

namespace Extends

theorem refl (m : Eval α) : m.Extends m := fun _ _ h => h

/-- A computation without an outcome. -/
theorem of_stuck : (stuck : Eval α).Extends m := fun _ _ h => by cases h

theorem bind (h : m.Extends m') (hf : ∀ a, (f a).Extends (f' a)) :
    (m >>= f).Extends (m' >>= f') := by
  intro σ o ho
  rw [bind_apply] at ho ⊢
  cases hm : m σ with
  | none =>
    rw [hm] at ho
    cases ho
  | some r =>
    obtain ⟨ls, r, σ'⟩ := r
    rw [hm] at ho
    rw [h σ _ hm]
    cases r with
    | error e => exact ho
    | ok a =>
      obtain ⟨r, hr, heq⟩ := Option.map_eq_some_iff.1 ho
      exact Option.map_eq_some_iff.2 ⟨r, hf a σ' r hr, heq⟩

end Extends

/-- All values that a computation can give have a property. -/
def Gives (m : Eval α) (P : α → Prop) : Prop :=
  ∀ σ ls a σ', m σ = some (ls, .ok a, σ') → P a

theorem gives_pure {a : α} (ha : P a) : (pure a : Eval α).Gives P := by
  intro σ ls b σ' h
  cases h
  exact ha

theorem gives_stuck : (stuck : Eval α).Gives P := by
  intro σ ls a σ' h
  cases h

theorem Gives.bind (h : m.Gives P) (hf : ∀ a, P a → (f a).Gives Q) : (m >>= f).Gives Q := by
  intro σ ls b σ' hb
  rw [bind_apply] at hb
  cases hm : m σ with
  | none =>
    rw [hm] at hb
    cases hb
  | some r =>
    obtain ⟨ls₁, r, σ₁⟩ := r
    rw [hm] at hb
    cases r with
    | error e => cases hb
    | ok a =>
      obtain ⟨⟨ls₂, r, σ₂⟩, hr, heq⟩ := Option.map_eq_some_iff.1 hb
      cases heq
      exact hf a (h σ ls₁ a σ₁ hm) σ₁ ls₂ b σ' hr

theorem gives_bind (hf : ∀ a, (f a).Gives Q) : (m >>= f).Gives Q :=
  Gives.bind (P := fun _ => True) (fun _ _ _ _ _ => trivial) fun a _ => hf a

end Eval

/-- The statements end in a `return`. -/
def Flow.Leaves (flow : Flow) : Prop := ∃ v, flow = .returns v

namespace Meaning

variable {c : CheckedProgram} {call call' : FunId → CallChain → List Value → Eval Value}
  {n n' : Nat} {sc : CallChain}

/-! ### Higher bounds -/

/-- Calls have the outcomes of other calls. -/
abbrev CallsExtend (call call' : FunId → CallChain → List Value → Eval Value) : Prop :=
  ∀ id sc args, (call id sc args).Extends (call' id sc args)

theorem method_extends (hcall : CallsExtend call call') (m : String) (r : Nat)
    (args : List Value) : (method c call m r args).Extends (method c call' m r args) := by
  refine .bind (.refl _) fun o => ?_
  split
  · exact .bind (.refl _) fun _ => hcall _ _ _
  · exact .refl _

theorem construct_extends (hcall : CallsExtend call call') (k : String) :
    (construct c call k).Extends (construct c call' k) :=
  .bind (.refl _) fun _ => .bind (.refl _) fun _ => .bind (.refl _) fun _ =>
    .bind (method_extends hcall _ _ _) fun _ => .refl _

mutual

theorem expr_extends (hcall : CallsExtend call call') (e : Expr) :
    (expr c call sc e).Extends (expr c call' sc e) := by
  cases e with
  | literal i v => exact .refl _
  | name i x b => exact .refl _
  | unary i op e =>
    simp only [expr]
    exact .bind (expr_extends hcall e) fun _ => .refl _
  | binary i op l r =>
    simp only [expr]
    exact .bind (expr_extends hcall l) fun _ => .bind (expr_extends hcall r) fun _ => .refl _
  | call i callee args target =>
    cases target with
    | none => exact .refl _
    | some target =>
      cases target with
      | function id us =>
        simp only [expr]
        exact .bind (exprs_extends hcall args) fun _ => hcall _ _ _
      | construct k =>
        simp only [expr]
        exact construct_extends hcall k
      | builtin f =>
        simp only [expr]
        exact .bind (exprs_extends hcall args) fun _ => .refl _
  | field i o f =>
    simp only [expr]
    exact .bind (expr_extends hcall o) fun _ => .refl _
  | method i o m args =>
    simp only [expr]
    exact .bind (expr_extends hcall o) fun _ => .bind (.refl _) fun _ =>
      .bind (exprs_extends hcall args) fun _ => method_extends hcall _ _ _

theorem exprs_extends (hcall : CallsExtend call call') (es : List Expr) :
    (exprs c call sc es).Extends (exprs c call' sc es) := by
  cases es with
  | nil => exact .refl _
  | cons e es =>
    simp only [exprs]
    exact .bind (expr_extends hcall e) fun _ => .bind (exprs_extends hcall es) fun _ => .refl _

end

theorem assign_extends (hcall : CallsExtend call call') (value : Expr) (t : Target) :
    (assign c call sc value t).Extends (assign c call' sc value t) := by
  cases t with
  | name x b => exact .bind (.refl _) fun _ => .bind (expr_extends hcall value) fun _ => .refl _
  | field o f =>
    exact .bind (expr_extends hcall o) fun _ => .bind (.refl _) fun _ =>
      .bind (expr_extends hcall value) fun _ => .refl _

theorem rounds_extends {m m' : Eval (Option Flow)} (hm : m.Extends m') (hn : n ≤ n') :
    (rounds m n).Extends (rounds m' n') := by
  induction n generalizing n' with
  | zero => exact .of_stuck
  | succ n ih =>
    obtain ⟨n', rfl⟩ := Nat.exists_eq_succ_of_ne_zero (by omega : n' ≠ 0)
    refine .bind hm fun flow => ?_
    split
    · exact .refl _
    · exact ih (Nat.le_of_succ_le_succ hn)
    · exact .refl _

mutual

theorem stmt_extends (hcall : CallsExtend call call') (hn : n ≤ n') (s : Stmt) :
    (stmt c call n sc s).Extends (stmt c call' n' sc s) := by
  cases s with
  | assign target value span =>
    simp only [stmt]
    exact .bind (assign_extends hcall value target) fun _ => .refl _
  | expr value span =>
    simp only [stmt]
    exact .bind (expr_extends hcall value) fun _ => .refl _
  | ret value span =>
    simp only [stmt]
    exact .bind (expr_extends hcall value) fun _ => .refl _
  | pass span => exact .refl _
  | cond first others otherwise span =>
    simp only [stmt]
    refine .bind (branch_extends hcall hn first) fun flow => ?_
    split
    · exact .refl _
    · refine .bind (branches_extends hcall hn others) fun flow => ?_
      split
      · exact .refl _
      · exact block_extends hcall hn otherwise
  | loop first span =>
    simp only [stmt]
    exact rounds_extends (branch_extends hcall hn first) hn

theorem block_extends (hcall : CallsExtend call call') (hn : n ≤ n') (ss : List Stmt) :
    (block c call n sc ss).Extends (block c call' n' sc ss) := by
  cases ss with
  | nil => exact .refl _
  | cons s ss =>
    simp only [block]
    refine .bind (stmt_extends hcall hn s) fun flow => ?_
    split
    · exact block_extends hcall hn ss
    · exact .refl _

theorem branch_extends (hcall : CallsExtend call call') (hn : n ≤ n') (b : Branch) :
    (branch c call n sc b).Extends (branch c call' n' sc b) := by
  cases b with
  | mk test body =>
    simp only [branch]
    refine .bind (expr_extends hcall test) fun v => ?_
    split
    · exact .bind (block_extends hcall hn body) fun _ => .refl _
    · exact .refl _
    · exact .refl _

theorem branches_extends (hcall : CallsExtend call call') (hn : n ≤ n') (bs : List Branch) :
    (branches c call n sc bs).Extends (branches c call' n' sc bs) := by
  cases bs with
  | nil => exact .refl _
  | cons b bs =>
    simp only [branches]
    refine .bind (branch_extends hcall hn b) fun flow => ?_
    split
    · exact .refl _
    · exact branches_extends hcall hn bs

end

/-! ### Statements that always return -/

mutual

theorem stmt_gives {s : Stmt} (h : s.alwaysReturns = true) :
    (stmt c call n sc s).Gives Flow.Leaves := by
  cases s with
  | ret value span =>
    simp only [stmt]
    exact Eval.gives_bind fun v => Eval.gives_pure ⟨v, rfl⟩
  | cond first others otherwise span =>
    simp only [Stmt.alwaysReturns, Bool.and_eq_true] at h
    obtain ⟨⟨⟨-, hfirst⟩, hothers⟩, hotherwise⟩ := h
    simp only [stmt]
    refine (branch_gives hfirst).bind fun flow? hflow => ?_
    split
    · exact Eval.gives_pure (hflow _ rfl)
    · refine (branches_gives hothers).bind fun flow? hflow => ?_
      split
      · exact Eval.gives_pure (hflow _ rfl)
      · exact block_gives hotherwise
  | _ => simp only [Stmt.alwaysReturns, Bool.false_eq_true] at h

theorem block_gives {ss : List Stmt} (h : Stmt.bodyReturns ss = true) :
    (block c call n sc ss).Gives Flow.Leaves := by
  cases ss with
  | nil => simp only [Stmt.bodyReturns, Bool.false_eq_true] at h
  | cons s ss =>
    simp only [Stmt.bodyReturns, Bool.or_eq_true] at h
    simp only [block]
    obtain hs | hss := h
    · refine (stmt_gives hs).bind fun flow hflow => ?_
      obtain ⟨v, rfl⟩ := hflow
      exact Eval.gives_pure ⟨v, rfl⟩
    · refine Eval.gives_bind fun flow => ?_
      split
      · exact block_gives hss
      · exact Eval.gives_pure ⟨_, rfl⟩

theorem branch_gives {b : Branch} (h : b.returns = true) :
    (branch c call n sc b).Gives fun flow? => ∀ flow ∈ flow?, flow.Leaves := by
  cases b with
  | mk test body =>
    simp only [Branch.returns] at h
    simp only [branch]
    refine Eval.gives_bind fun v => ?_
    split
    · refine (block_gives h).bind fun flow hflow => Eval.gives_pure fun flow' heq => ?_
      exact Option.some.inj heq ▸ hflow
    · exact Eval.gives_pure fun _ h => by cases h
    · exact Eval.gives_stuck

theorem branches_gives {bs : List Branch} (h : Branch.allReturn bs = true) :
    (branches c call n sc bs).Gives fun flow? => ∀ flow ∈ flow?, flow.Leaves := by
  cases bs with
  | nil =>
    simp only [branches]
    exact Eval.gives_pure fun _ h => by cases h
  | cons b bs =>
    simp only [Branch.allReturn, Bool.and_eq_true] at h
    simp only [branches]
    refine (branch_gives h.1).bind fun flow? hflow => ?_
    split
    · exact Eval.gives_pure hflow
    · exact branches_gives h.2

end

end Meaning

namespace CheckedProgram

variable {c : CheckedProgram} {n n' : Nat}

theorem call_extends (hn : n ≤ n') (id : FunId) (sc : CallChain) (args : List Value) :
    (c.call n id sc args).Extends (c.call n' id sc args) := by
  induction n generalizing n' id sc args with
  | zero => exact .of_stuck
  | succ n ih =>
    obtain ⟨n', rfl⟩ := Nat.exists_eq_succ_of_ne_zero (by omega : n' ≠ 0)
    have hle := Nat.le_of_succ_le_succ hn
    simp only [call]
    exact .bind (.refl _) fun _ => .bind (.refl _) fun _ => .bind (.refl _) fun _ =>
      .bind (Meaning.block_extends (fun _ _ _ => ih hle _ _ _) hle _) fun _ => .refl _

theorem main_extends (hn : n ≤ n') : (c.main n).Extends (c.main n') := by
  have hcall : Meaning.CallsExtend (c.call n) (c.call n') := call_extends hn
  unfold main
  split
  · refine .bind (Meaning.block_extends hcall hn _) fun flow => ?_
    split
    · exact .bind (Meaning.expr_extends hcall _) fun _ => .refl _
    · exact .refl _
  · exact .bind (Meaning.block_extends hcall hn _) fun _ => .refl _

/-- A program has no other outcome with a higher bound. -/
theorem outcome?_mono {fin : List String × Except Trap (Option Value)} (hn : n ≤ n')
    (h : c.outcome? n = some fin) : c.outcome? n' = some fin := by
  obtain ⟨o, ho, rfl⟩ := Option.map_eq_some_iff.1 h
  exact Option.map_eq_some_iff.2 ⟨o, main_extends hn _ o ho, rfl⟩

end CheckedProgram

end ObjLang
