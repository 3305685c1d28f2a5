import Mathlib.Logic.Relation
import ObjLang.Proofs.Emit.Height

/-!
# ObjLang.Proofs.Emit.Flow — where control goes in generated code

Expressions are straight-line code.  Control leaves the code of a statement to its end only, that of
a branch also to the exit of its conditional.  Nothing leads into the middle of the code of a statement
list from outside.  So once control is in the code of a statement list that always returns, it stays
there: neither the end of the list nor the exit of a conditional is reached, and the code behind a
`return` never runs.
-/

namespace ObjLang

open Code (Instr)

/-! ### Control flow -/

/-- Control may go from a position to another one. -/
def Flows (code : Array Op) (i j : Nat) : Prop := ∃ op, code[i]? = some op ∧ j ∈ op.next i

/-- Control may come from a position to another one. -/
abbrev FlowsOn (code : Array Op) : Nat → Nat → Prop := Relation.ReflTransGen (Flows code)

/-- Code without control flow. -/
def Straight (code : Array Op) (a b : Nat) : Prop :=
  ∀ i, a ≤ i → i < b → ∃ op, code[i]? = some op ∧ op.straight = true

/-- From a stretch of code control goes only to positions with a property. -/
def FlowsTo (code : Array Op) (a b : Nat) (P : Nat → Prop) : Prop :=
  ∀ i j, a ≤ i → i < b → Flows code i j → P j

/-- Control that is at the first position comes to the second one, or stays before it. -/
def FlowsUpTo (code : Array Op) (a b : Nat) : Prop :=
  ∀ i, FlowsOn code a i → (a ≤ i ∧ i < b) ∨ FlowsOn code b i

/-- Control that is at the first position stays before the second one. -/
def Confined (code : Array Op) (a b : Nat) : Prop := ∀ i, FlowsOn code a i → a ≤ i ∧ i < b

/-- Control comes into a stretch of code only at its start. -/
def Sealed (code : Array Op) (a b : Nat) : Prop :=
  ∀ i j, Flows code i j → a < j → j < b → a ≤ i ∧ i < b

section

variable {code : Array Op} {a b i j k A B : Nat} {op : Op} {P Q : Nat → Prop}

theorem Flows.lt (h : Flows code i j) : i < code.size := by
  obtain ⟨op, hop, -⟩ := h
  exact (Array.getElem?_eq_some_iff.1 hop).1

theorem Op.next_straight (h : op.straight = true) (i : Nat) : op.next i = [i + 1] := by
  cases op <;> first | rfl | cases h

/-! ### Straight-line code -/

theorem Straight.nil : Straight code a a := fun _ ha hb => absurd hb (Nat.not_lt.2 ha)

theorem Straight.single (hop : code[a]? = some op) (hst : op.straight = true) :
    Straight code a (a + 1) := by
  intro i ha hb
  obtain rfl : a = i := by omega
  exact ⟨op, hop, hst⟩

theorem Straight.append (h : Straight code a k) (h' : Straight code k b) : Straight code a b := by
  intro i ha hb
  obtain hk | hk := Nat.lt_or_ge i k
  · exact h i ha hk
  · exact h' i hk hb

theorem Straight.ofCode {N : Names} {is : List Instr} (h : CodeAt N code is a b)
    (his : is.all (fun i => (N.op i).straight) = true) : Straight code a b := by
  obtain ⟨hops, -, rfl⟩ := h
  intro i ha hb
  have hlt : i - a < is.length := by omega
  refine ⟨N.op is[i - a], ?_, List.all_eq_true.1 his _ (List.getElem_mem hlt)⟩
  have hat := hops (i - a) (N.op is[i - a]) (by simp [hlt])
  rwa [Nat.add_sub_cancel' ha] at hat

theorem Straight.not_ret (h : Straight code a b) (ha : a ≤ i) (hb : i < b) :
    code[i]? ≠ some .ret := by
  intro hret
  obtain ⟨op, hop, hst⟩ := h i ha hb
  cases hop.symm.trans hret
  cases hst

/-! ### Stretches of code -/

theorem FlowsTo.nil : FlowsTo code a a P := fun _ _ ha hb => absurd hb (Nat.not_lt.2 ha)

theorem FlowsTo.imp (h : FlowsTo code a b P) (hP : ∀ j, P j → Q j) : FlowsTo code a b Q :=
  fun i j ha hb hij => hP j (h i j ha hb hij)

theorem FlowsTo.append (h : FlowsTo code a k P) (h' : FlowsTo code k b P) :
    FlowsTo code a b P := by
  intro i j ha hb hij
  obtain hk | hk := Nat.lt_or_ge i k
  · exact h i j ha hk hij
  · exact h' i j hk hb hij

theorem FlowsTo.ofOp (hop : code[a]? = some op) (h : ∀ j ∈ op.next a, P j) :
    FlowsTo code a (a + 1) P := by
  rintro i j ha hb ⟨op', hop', hj⟩
  obtain rfl : a = i := by omega
  cases hop.symm.trans hop'
  exact h j hj

theorem FlowsTo.next (hop : code[a]? = some op) (hst : op.straight = true) (h : P (a + 1)) :
    FlowsTo code a (a + 1) P :=
  .ofOp hop (Op.next_straight hst a ▸ List.forall_mem_singleton.2 h)

theorem FlowsTo.ret (hop : code[a]? = some .ret) : FlowsTo code a (a + 1) P :=
  .ofOp hop fun _ hj => absurd hj List.not_mem_nil

theorem FlowsTo.jump (hop : code[a]? = some (.jump k)) (h : P k) : FlowsTo code a (a + 1) P :=
  .ofOp hop (List.forall_mem_singleton.2 h)

theorem FlowsTo.jumpIf (hop : code[a]? = some (.jumpIf k)) (h : P (a + 1)) (h' : P k) :
    FlowsTo code a (a + 1) P :=
  .ofOp hop (List.forall_mem_cons.2 ⟨h, List.forall_mem_singleton.2 h'⟩)

theorem FlowsTo.jumpUnless (hop : code[a]? = some (.jumpUnless k)) (h : P (a + 1)) (h' : P k) :
    FlowsTo code a (a + 1) P :=
  .ofOp hop (List.forall_mem_cons.2 ⟨h, List.forall_mem_singleton.2 h'⟩)

theorem Straight.flowsTo (h : Straight code a b) : FlowsTo code a b fun j => a ≤ j ∧ j ≤ b := by
  rintro i j ha hb ⟨op, hop, hj⟩
  obtain ⟨op', hop', hst⟩ := h i ha hb
  cases hop.symm.trans hop'
  rw [Op.next_straight hst, List.mem_singleton] at hj
  omega

/-! ### Paths -/

theorem FlowsUpTo.trans (h : FlowsUpTo code a k) (h' : FlowsUpTo code k b) (ha : a ≤ k)
    (hb : k ≤ b) : FlowsUpTo code a b := by
  intro i hi
  obtain hi | hi := h i hi
  · exact .inl ⟨hi.1, Nat.lt_of_lt_of_le hi.2 hb⟩
  · exact (h' i hi).imp_left fun hi => ⟨Nat.le_trans ha hi.1, hi.2⟩

theorem FlowsUpTo.confined (h : FlowsUpTo code a k) (h' : Confined code k b) (ha : a ≤ k)
    (hb : k ≤ b) : Confined code a b := by
  intro i hi
  obtain hi | hi := h i hi
  · exact ⟨hi.1, Nat.lt_of_lt_of_le hi.2 hb⟩
  · exact ⟨Nat.le_trans ha (h' i hi).1, (h' i hi).2⟩

/-- Control that can leave a stretch of code to its end only comes there, or stays in it. -/
theorem FlowsTo.upTo (h : FlowsTo code a b fun j => a ≤ j ∧ j ≤ b) (hab : a ≤ b) :
    FlowsUpTo code a b := by
  have hstep : ∀ j, a ≤ j ∧ j ≤ b → (a ≤ j ∧ j < b) ∨ FlowsOn code b j := by
    rintro j ⟨ha, hb⟩
    obtain hb | rfl := Nat.lt_or_eq_of_le hb
    · exact .inl ⟨ha, hb⟩
    · exact .inr .refl
  intro i hi
  induction hi with
  | refl => exact hstep a ⟨Nat.le_refl a, hab⟩
  | tail _ hij ih =>
    obtain ⟨ha, hb⟩ | hi := ih
    · exact hstep _ (h _ _ ha hb hij)
    · exact .inr (hi.tail hij)

theorem Confined.mono (h : Confined code a k) (hb : k ≤ b) : Confined code a b :=
  fun i hi => ⟨(h i hi).1, Nat.lt_of_lt_of_le (h i hi).2 hb⟩

theorem Confined.ret (hop : code[a]? = some .ret) : Confined code a (a + 1) := by
  intro i hi
  obtain rfl | ⟨j, ⟨op, hop', hj⟩, -⟩ := hi.cases_head
  · exact ⟨Nat.le_refl a, Nat.lt_succ_self a⟩
  · cases hop.symm.trans hop'
    cases hj

/-- A jump past code that control does not leave. -/
theorem Confined.upTo (hop : code[a]? = some (.jumpUnless b)) (h : Confined code (a + 1) k)
    (hb : k ≤ b) : FlowsUpTo code a b := by
  have hlt := (h _ .refl).2
  intro i hi
  obtain rfl | ⟨j, ⟨op, hop', hj⟩, hi⟩ := hi.cases_head
  · exact .inl ⟨Nat.le_refl a, by omega⟩
  cases hop.symm.trans hop'
  simp only [Op.next, List.mem_cons, List.not_mem_nil, or_false] at hj
  obtain rfl | rfl := hj
  · have hin := h i hi
    exact .inl ⟨by omega, by omega⟩
  · exact .inr hi

/-! ### Stretches with one way in -/

theorem Sealed.all (code : Array Op) : Sealed code 0 code.size :=
  fun i _ hij _ _ => ⟨Nat.zero_le i, hij.lt⟩

theorem Sealed.inside (h : Sealed code A B) (ha : A ≤ a) (hb : b ≤ B)
    (hbefore : FlowsTo code A a fun j => j ≤ a ∨ b ≤ j)
    (hbehind : FlowsTo code b B fun j => j ≤ a ∨ b ≤ j) : Sealed code a b := by
  intro i j hij haj hjb
  obtain ⟨hi, hi'⟩ := h i j hij (by omega) (by omega)
  constructor
  · by_contra hlt
    have hj := hbefore i j hi (by omega) hij
    omega
  · by_contra hlt
    have hj := hbehind i j (by omega) hi' hij
    omega

/-- Control that comes into such a stretch comes from its start. -/
theorem Sealed.flowsOn (h : Sealed code a b) (hi : FlowsOn code 0 i) (ha : a ≤ i) (hb : i < b) :
    FlowsOn code a i := by
  induction hi with
  | refl =>
    obtain rfl := Nat.le_zero.1 ha
    exact .refl
  | @tail j i _ hji ih =>
    obtain rfl | ha := Nat.eq_or_lt_of_le ha
    · exact .refl
    · obtain ⟨hj, hj'⟩ := h j i hji ha hb
      exact (ih hj hj').tail hji

/-- Control that has come into code that it does not leave from its start stays there. -/
theorem Sealed.stays (h : Sealed code a b) (hc : Confined code a b) (hi : FlowsOn code 0 i)
    (ha : a ≤ i) (hb : i < b) (hij : FlowsOn code i j) : a ≤ j ∧ j < b :=
  hc j ((h.flowsOn hi ha hb).trans hij)

end

namespace Emit

variable {c : CheckedProgram} {N : Names} {arr : Array Op}

/-! ### Expressions -/

theorem straight_loadVar {v : Variable} {a a' : Nat} (h : CodeAt N arr (loadVar v) a a') :
    Straight arr a a' := by
  refine .ofCode h ?_
  unfold loadVar
  split
  · rfl
  split <;> rfl

theorem straight_loadCells {vs : List VarId} {a a' : Nat}
    (h : CodeAt N arr (vs.map fun v => .localGet (c.var v).name) a a') : Straight arr a a' := by
  refine .ofCode h ?_
  rw [List.all_map, List.all_eq_true]
  exact fun _ _ => rfl

theorem all_straight_initFields {fs : List FieldLayout} {k : Nat} :
    (initFields k fs).all (fun i => (N.op i).straight) = true := by
  induction fs generalizing k with
  | nil => rfl
  | cons f fs ih => exact ih

theorem straight_construct {l : ClassLayout} {init : String} {a a' : Nat}
    (h : CodeAt N arr (constructCode l init) a a') : Straight arr a a' := by
  refine .ofCode h ?_
  simp only [constructCode, List.all_append, all_straight_initFields, Bool.and_true]
  rfl

theorem straight_builtin {b : Builtin} {args : List Expr} {is : List Instr} {a a' : Nat}
    (his : builtinCode b args = some is) (h : CodeAt N arr is a a') : Straight arr a a' := by
  refine .ofCode h ?_
  unfold builtinCode at his
  split at his <;> cases his <;> rfl

mutual

/-- The code of an expression is straight-line code. -/
theorem exprAt_straight {e : Expr} {n a n' a' : Nat} (h : ExprAt c N arr e n a n' a') :
    Straight arr a a' := by
  cases e with
  | literal i v => exact .ofCode h.1 rfl
  | name i x b =>
    obtain ⟨v, -, hcode, -⟩ := h
    exact straight_loadVar hcode
  | unary i op e =>
    cases op with
    | neg =>
      obtain ⟨b₁, b₂, h₁, he, h₂⟩ := h
      exact (Straight.ofCode h₁ rfl).append ((exprAt_straight he).append (.ofCode h₂ rfl))
    | not =>
      obtain ⟨b, he, h₂⟩ := h
      exact (exprAt_straight he).append (.ofCode h₂ rfl)
  | binary i op l r =>
    obtain ⟨n₁, b₁, b₂, hl, hr, h₂⟩ := h
    exact (exprAt_straight hl).append ((exprAt_straight hr).append (.ofCode h₂ rfl))
  | call i callee args target =>
    simp only [ExprAt] at h
    split at h
    · exact h.elim
    · obtain ⟨b₁, b₂, hargs, h₁, h₂⟩ := h
      exact (exprsAt_straight hargs).append ((straight_loadCells h₁).append (.ofCode h₂ rfl))
    · obtain ⟨l, init, -, -, hcode, -⟩ := h
      exact straight_construct hcode
    · obtain ⟨b, is, hargs, his, hcode⟩ := h
      exact (exprsAt_straight hargs).append (straight_builtin his hcode)
  | field i o f =>
    obtain ⟨l, k, d, b, -, -, ho, hcode⟩ := h
    exact (exprAt_straight ho).append (.ofCode hcode rfl)
  | method i o m args =>
    obtain ⟨l, slot, e, n₁, b₁, b₂, b₃, -, -, ho, h₁, hargs, h₂⟩ := h
    exact (exprAt_straight ho).append ((Straight.ofCode h₁ rfl).append
      ((exprsAt_straight hargs).append (.ofCode h₂ rfl)))

theorem exprsAt_straight {es : List Expr} {n a n' a' : Nat} (h : ExprsAt c N arr es n a n' a') :
    Straight arr a a' := by
  cases es with
  | nil =>
    obtain ⟨rfl, -⟩ := h
    exact .nil
  | cons e es =>
    obtain ⟨n₁, b, he, hes⟩ := h
    exact (exprAt_straight he).append (exprsAt_straight hes)

end

/-- So is that of an assignment. -/
theorem assignAt_straight {value : Expr} {g : Target} {n a n' a' : Nat}
    (h : AssignAt c N arr value g n a n' a') : Straight arr a a' := by
  cases g with
  | name x b =>
    obtain ⟨v, b₁, b₂, -, h₁, he, h₂⟩ := h
    refine (Straight.ofCode h₁ ?_).append ((exprAt_straight he).append (.ofCode h₂ ?_))
    · split <;> rfl
    · split
      · rfl
      split <;> rfl
  | field o f =>
    obtain ⟨l, i, d, n₁, b₁, b₂, b₃, -, -, ho, h₁, he, h₂⟩ := h
    exact (exprAt_straight ho).append ((Straight.ofCode h₁ rfl).append
      ((exprAt_straight he).append (.ofCode h₂ rfl)))

theorem straight_boxCode {f : Function} {a a' : Nat} (h : CodeAt N arr (boxCode c f) a a') :
    Straight arr a a' := by
  refine .ofCode h ?_
  rw [boxCode, List.all_flatMap, List.all_eq_true]
  exact fun _ _ => rfl

theorem straight_initCode {vars : List VarDef} {a a' : Nat}
    (h : CodeAt N arr (initCode c vars) a a') : Straight arr a a' := by
  refine .ofCode h ?_
  rw [initCode, List.all_flatMap, List.all_eq_true]
  intro d _
  unfold initLocal
  split <;> rfl

/-! ### Statements -/

mutual

/-- Control leaves the code of a statement to its end only. -/
theorem stmtAt_flowsTo {st : Stmt} {n a n' a' : Nat} (h : StmtAt c N arr st n a n' a') :
    FlowsTo arr a a' fun j => a ≤ j ∧ j ≤ a' := by
  cases st with
  | assign g e s => exact (assignAt_straight h).flowsTo
  | expr e s =>
    obtain ⟨b, he, hcode⟩ := h
    exact ((exprAt_straight he).append (.ofCode hcode rfl)).flowsTo
  | ret e s =>
    obtain ⟨b, he, hcode⟩ := h
    obtain ⟨hop, -, rfl⟩ := codeAt_singleton.1 hcode
    exact ((exprAt_straight he).flowsTo.imp fun j hj => by omega).append
      (.ret hop)
  | pass s =>
    obtain ⟨rfl, -⟩ := h
    exact .nil
  | cond first others otherwise s =>
    obtain ⟨n₁, n₂, b₁, b₂, hf, ho, hb⟩ := h
    have h₁ := branchAt_le hf
    have h₂ := branchesAt_le ho
    have h₃ := blockAt_le hb
    exact ((branchAt_flowsTo hf).imp fun j hj => by omega).append
      (((branchesAt_flowsTo ho).imp fun j hj => by omega).append
        ((blockAt_flowsTo hb).imp fun j hj => by omega))
  | loop branch s =>
    cases branch with
    | mk test body =>
      obtain ⟨n₁, b₁, b₂, ht, hops, hb, hback, rfl⟩ := h
      obtain ⟨heqz, hops⟩ := opsAt_cons.1 hops
      obtain ⟨hout, -⟩ := opsAt_cons.1 hops
      obtain ⟨hback, -⟩ := opsAt_cons.1 hback
      have h₁ := exprAt_le ht
      have h₂ := blockAt_le hb
      exact ((exprAt_straight ht).flowsTo.imp fun j hj => by omega).append
        ((FlowsTo.next heqz rfl (by omega)).append ((FlowsTo.jumpIf hout (by omega) (by omega)).append
          (((blockAt_flowsTo hb).imp fun j hj => by omega).append (.jump hback (by omega)))))

/-- Control leaves the code of statements to its end only. -/
theorem blockAt_flowsTo {ss : List Stmt} {n a n' a' : Nat} (h : BlockAt c N arr ss n a n' a') :
    FlowsTo arr a a' fun j => a ≤ j ∧ j ≤ a' := by
  cases ss with
  | nil =>
    obtain ⟨rfl, -⟩ := h
    exact .nil
  | cons st ss =>
    obtain ⟨n₁, b, hs, hss⟩ := h
    have h₁ := stmtAt_le hs
    have h₂ := blockAt_le hss
    exact ((stmtAt_flowsTo hs).imp fun j hj => by omega).append
      ((blockAt_flowsTo hss).imp fun j hj => by omega)

/-- Control leaves the code of a branch to its end or to the exit. -/
theorem branchAt_flowsTo {exit : Nat} {br : Branch} {n a n' a' : Nat}
    (h : BranchAt c N arr exit br n a n' a') :
    FlowsTo arr a a' fun j => (a ≤ j ∧ j ≤ a') ∨ j = exit := by
  cases br with
  | mk test body =>
    obtain ⟨n₁, b₁, b₂, ht, hskip, hb, hout, rfl⟩ := h
    obtain ⟨hskip, -⟩ := opsAt_cons.1 hskip
    obtain ⟨hout, -⟩ := opsAt_cons.1 hout
    have h₁ := exprAt_le ht
    have h₂ := blockAt_le hb
    exact ((exprAt_straight ht).flowsTo.imp fun j hj => by omega).append
      ((FlowsTo.jumpUnless hskip (by omega) (by omega)).append
        (((blockAt_flowsTo hb).imp fun j hj => by omega).append (.jump hout (.inr rfl))))

/-- Control leaves the code of branches to its end or to the exit. -/
theorem branchesAt_flowsTo {exit : Nat} {brs : List Branch} {n a n' a' : Nat}
    (h : BranchesAt c N arr exit brs n a n' a') :
    FlowsTo arr a a' fun j => (a ≤ j ∧ j ≤ a') ∨ j = exit := by
  cases brs with
  | nil =>
    obtain ⟨rfl, -⟩ := h
    exact .nil
  | cons br brs =>
    obtain ⟨n₁, k, hb, hbs⟩ := h
    have h₁ := branchAt_le hb
    have h₂ := branchesAt_le hbs
    exact ((branchAt_flowsTo hb).imp fun j hj => by omega).append
      ((branchesAt_flowsTo hbs).imp fun j hj => by omega)

end

/-! ### Statements that return -/

mutual

/-- Control that is at a statement that always returns stays in its code. -/
theorem stmtAt_confined {st : Stmt} {n a n' a' : Nat} (h : StmtAt c N arr st n a n' a')
    (hret : st.alwaysReturns = true) : Confined arr a a' := by
  cases st with
  | assign _ _ _ => cases hret
  | expr _ _ => cases hret
  | pass _ => cases hret
  | loop _ _ => cases hret
  | ret e s =>
    obtain ⟨b, he, hcode⟩ := h
    obtain ⟨hop, -, rfl⟩ := codeAt_singleton.1 hcode
    exact ((exprAt_straight he).flowsTo.upTo (exprAt_le he)).confined (.ret hop) (exprAt_le he)
      (Nat.le_succ b)
  | cond first others otherwise s =>
    obtain ⟨n₁, n₂, b₁, b₂, hf, ho, hb⟩ := h
    simp only [Stmt.alwaysReturns, Bool.and_eq_true] at hret
    obtain ⟨⟨⟨-, hfirst⟩, hothers⟩, hotherwise⟩ := hret
    have h₁ := branchAt_le hf
    have h₂ := branchesAt_le ho
    have h₃ := blockAt_le hb
    exact ((branchAt_upTo hf hfirst).trans (branchesAt_upTo ho hothers) h₁ h₂).confined
      (blockAt_confined hb hotherwise) (Nat.le_trans h₁ h₂) h₃

/-- Control that is at the start of statements that return stays in their code. -/
theorem blockAt_confined {ss : List Stmt} {n a n' a' : Nat} (h : BlockAt c N arr ss n a n' a')
    (hret : Stmt.bodyReturns ss = true) : Confined arr a a' := by
  cases ss with
  | nil => cases hret
  | cons st ss =>
    obtain ⟨n₁, b, hs, hss⟩ := h
    obtain hret | hret := Bool.or_eq_true_iff.1 hret
    · exact (stmtAt_confined hs hret).mono (blockAt_le hss)
    · exact ((stmtAt_flowsTo hs).upTo (stmtAt_le hs)).confined (blockAt_confined hss hret)
        (stmtAt_le hs) (blockAt_le hss)

/-- Control that is at a branch that returns stays in its code, or comes to the next one. -/
theorem branchAt_upTo {exit : Nat} {br : Branch} {n a n' a' : Nat}
    (h : BranchAt c N arr exit br n a n' a') (hret : br.returns = true) : FlowsUpTo arr a a' := by
  cases br with
  | mk test body =>
    obtain ⟨n₁, b₁, b₂, ht, hskip, hb, -, rfl⟩ := h
    obtain ⟨hskip, -⟩ := opsAt_cons.1 hskip
    have hle := blockAt_le hb
    exact ((exprAt_straight ht).flowsTo.upTo (exprAt_le ht)).trans
      ((blockAt_confined hb hret).upTo hskip (Nat.le_succ b₂)) (exprAt_le ht) (by omega)

theorem branchesAt_upTo {exit : Nat} {brs : List Branch} {n a n' a' : Nat}
    (h : BranchesAt c N arr exit brs n a n' a') (hret : Branch.allReturn brs = true) :
    FlowsUpTo arr a a' := by
  cases brs with
  | nil =>
    obtain ⟨rfl, -⟩ := h
    exact fun i hi => .inr hi
  | cons br brs =>
    obtain ⟨n₁, k, hb, hbs⟩ := h
    obtain ⟨hret, hrets⟩ := Bool.and_eq_true_iff.1 hret
    exact (branchAt_upTo hb hret).trans (branchesAt_upTo hbs hrets) (branchAt_le hb)
      (branchesAt_le hbs)

end

end Emit

end ObjLang
