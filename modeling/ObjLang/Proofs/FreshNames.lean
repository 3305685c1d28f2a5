import Mathlib.Data.List.Nodup
import ObjLang.Proofs.Code.Names

/-!
# ObjLang.Proofs.FreshNames — the names that a function builder makes

A label or a temporary is named by the text asked for, with the number of the call behind it.  As the
text may end in digits itself, two calls can make one name: exactly if the earlier text is the later one
with digits behind it that the later number starts with.  A temporary whose name is that of a parameter,
a local or an earlier temporary is no local of its own.
-/

namespace ObjLang.Code

/-- A step of building a function that declares a name or makes one. -/
inductive Naming where
  | param (name : String)
  | var (name : String)
  | label (start : String)
  | temp (start : String)

namespace Naming

/-- The text that a label or a temporary is asked for with. -/
def start? : Naming → Option String
  | label s => some s
  | temp s => some s
  | _ => none

/-- The texts that labels and temporaries are asked for with. -/
def starts (ops : List Naming) : List String := ops.filterMap start?

/-- The names that parameters, locals and temporaries are declared with, if the next number is `k`. -/
def declared : Nat → List Naming → List String
  | _, [] => []
  | k, param x :: ops => x :: declared k ops
  | k, var x :: ops => x :: declared k ops
  | k, label _ :: ops => declared (k + 1) ops
  | k, temp s :: ops => (s ++ toString k) :: declared (k + 1) ops

/-- The names of the temporaries among them. -/
def temps : Nat → List Naming → List String
  | _, [] => []
  | k, param _ :: ops => temps k ops
  | k, var _ :: ops => temps k ops
  | k, label _ :: ops => temps (k + 1) ops
  | k, temp s :: ops => (s ++ toString k) :: temps (k + 1) ops

end Naming

/-! ### Texts with numbers behind them -/

namespace FunctionBuilder

open Naming (starts declared temps)

/-! ### Sequences of steps -/

/-- The builder after a step; a parameter that is refused changes nothing. -/
def perform (b : FunctionBuilder) : Naming → FunctionBuilder
  | .param x =>
    match b.addParam x with
    | .ok b' => b'
    | .error _ => b
  | .var x => b.addLocal x
  | .label s => (b.newLabel s).2
  | .temp s => (b.newTemp s).2

/-- The builder after some steps. -/
def after (b : FunctionBuilder) (ops : List Naming) : FunctionBuilder := ops.foldl perform b

/-- The name that a step makes. -/
def answer? (b : FunctionBuilder) : Naming → Option String
  | .label s => some (b.newLabel s).1
  | .temp s => some (b.newTemp s).1
  | _ => none

/-- The names that some steps make. -/
def answers : FunctionBuilder → List Naming → List String
  | _, [] => []
  | b, o :: ops => (b.answer? o).toList ++ answers (b.perform o) ops

theorem after_cons (b : FunctionBuilder) (o : Naming) (ops : List Naming) :
    b.after (o :: ops) = (b.perform o).after ops := rfl

theorem perform_param (b : FunctionBuilder) (x : String) :
    b.perform (.param x) = if b.declares x then b else { b with params := b.params ++ [x] } := by
  show (match b.addParam x with | .ok b' => b' | .error _ => b) = _
  unfold addParam
  by_cases h : b.declares x = true
  · rw [if_pos h, if_pos h]
  · rw [if_neg h, if_neg h]

theorem nextLabel_perform (b : FunctionBuilder) (o : Naming) :
    (b.perform o).nextLabel = b.nextLabel + (starts [o]).length := by
  cases o with
  | param x =>
    rw [perform_param]
    split <;> rfl
  | var x => exact nextLabel_addLocal b x
  | label s => rfl
  | temp s => exact nextLabel_addLocal _ _

/-- A temporary is a new local unless its name is declared already. -/
theorem locals_temp (b : FunctionBuilder) (s : String) :
    (b.perform (.temp s)).locals =
      if s ++ toString b.nextLabel ∈ b.names then b.locals
      else b.locals ++ [s ++ toString b.nextLabel] := by
  have hdeclares : (b.newLabel s).2.declares (s ++ toString b.nextLabel) = true ↔
      s ++ toString b.nextLabel ∈ b.names := declares_iff
  show ((b.newLabel s).2.addLocal (s ++ toString b.nextLabel)).locals = _
  unfold addLocal
  by_cases h : s ++ toString b.nextLabel ∈ b.names
  · rw [if_pos h, if_pos (hdeclares.2 h)]
    rfl
  · rw [if_neg h, if_neg fun hd => h (hdeclares.1 hd)]
    rfl

/-- The name of every temporary is new when it is made. -/
def Fresh (b : FunctionBuilder) (ops : List Naming) : Prop :=
  ∀ xs s ys, ops = xs ++ .temp s :: ys → s ++ toString (b.after xs).nextLabel ∉ (b.after xs).names

theorem Fresh.tail {b : FunctionBuilder} {o : Naming} {ops : List Naming} (h : Fresh b (o :: ops)) :
    Fresh (b.perform o) ops := by
  intro xs s ys hops
  exact h (o :: xs) s ys (by rw [hops, List.cons_append])

/-- Temporaries with new names are locals of their own, behind those that were there. -/
theorem Fresh.temps {b : FunctionBuilder} {ops : List Naming} (h : Fresh b ops) :
    ∃ rest, (b.after ops).locals = b.locals ++ rest ∧ (temps b.nextLabel ops).Sublist rest := by
  induction ops generalizing b with
  | nil => exact ⟨[], (List.append_nil _).symm, List.Sublist.slnil⟩
  | cons o ops ih =>
    obtain ⟨rest, hlocals, hsub⟩ := ih h.tail
    rw [nextLabel_perform] at hsub
    rw [after_cons, hlocals]
    cases o with
    | param x =>
      refine ⟨rest, ?_, hsub⟩
      rw [perform_param]
      split <;> rfl
    | var x =>
      show ∃ rest', (b.addLocal x).locals ++ rest = _ ∧ _
      unfold addLocal
      by_cases hx : b.declares x = true
      · rw [if_pos hx]
        exact ⟨rest, rfl, hsub⟩
      · rw [if_neg hx]
        exact ⟨x :: rest, List.append_assoc _ _ _, hsub.cons x⟩
    | label s => exact ⟨rest, rfl, hsub⟩
    | temp s =>
      have hnew : s ++ toString b.nextLabel ∉ b.names := h [] s ops rfl
      rw [locals_temp, if_neg hnew]
      exact ⟨_ :: rest, List.append_assoc _ _ _, hsub.cons_cons _⟩

/-! ### What names are made -/

end FunctionBuilder

end ObjLang.Code
