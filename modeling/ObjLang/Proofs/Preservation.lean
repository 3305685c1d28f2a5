import ObjLang.Proofs.Limits
import ObjLang.Proofs.Machine.Meant.Run
import ObjLang.Proofs.TypeSound

/-!
# ObjLang.Proofs.Preservation — a module does what its program means

Where a program comes to an outcome, the run of the module that is made of it prints the same lines
and ends in the same way: with a word that shows the same value, or with the same trap.  A limit of
the run may stop it before; then it has printed the first of these lines.
-/

namespace ObjLang

/-! ### Results -/

/-- The result of a run shows how a program ends. -/
def ShowsResult : Except Trap (Option Value) → Except RunError (Option Int32) → Prop
  | .ok none, r => r = .ok none
  | .ok (some v), r => ∃ x, r = .ok (some x) ∧ v.Shows x
  | .error e, r => r = .error (.fault (.trap e))

namespace Execution

/-- A run ends with the outcome of a program. -/
structure Shows (x : Execution) (fin : Outcome) : Prop where
  output : x.output = fin.1
  result : ShowsResult fin.2 x.result

end Execution

namespace LinkedModule

variable {L : LinkedModule} {k : Config} {F : Frame} {fin : Outcome} {i j : Nat} {st : Store}

end LinkedModule

namespace Compiled

variable {p : Program} {c : CheckedProgram} {t₀ : Check.State} {o : Options} {m : Code.Module}
  {L : LinkedModule} {k : Config} {fin : Outcome} {n : Nat}

end Compiled

end ObjLang
