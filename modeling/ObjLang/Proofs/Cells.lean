import ObjLang.Proofs.Machine.Cells
import ObjLang.Proofs.Machine.Memory

/-!
# ObjLang.Proofs.Cells — the cells of captured variables

A captured variable lives in one cell in each call of the function that declares it.  The slots of
the variable and of all its aliases hold the address of this cell, so that the function and all
functions nested in it read and write the same word.
-/

namespace ObjLang

open Check Check.Facts

-- Memories are compared by the laws of their words, never byte by byte.
attribute [local irreducible] Memory.setWord

/-- The next instruction is the last one of an assignment to a name that stands for the variable `v`
of the call `q`. -/
def Trace.Assigns (c : CheckedProgram) (m : Code.Module) (s : Trace) (v : VarId)
    (q : Trace.Call) : Prop :=
  ∃ outer d g a F x u G, c.Nest outer d ∧ g ∈ m.functions ∧ g.name = c.emitted d ∧
    s.At c m 0 d a F ∧ c.prologue d ≤ F.position ∧
    Emit.EndsAt c (m.names g) F.code d.body (.name x (some u)) F.position ∧
    c.vars.home u = v ∧ s.Owns c m 0 (d :: outer) v q G

/-- A name in a definition stands for a variable of the module, or for a variable or a capture of the
definition. -/
def CheckedProgram.Names (c : CheckedProgram) (d : FunDef) (b : Option VarId) : Prop :=
  ∃ v, b = some v ∧ ((c.var v).isGlobal = true ∨ v ∈ (c.record d).slots)

namespace Compiled

variable {p : Program} {c : CheckedProgram} {t₀ : State} {o : Options} {m : Code.Module}
  {L : LinkedModule} {k : Config} {s s' : Trace} {i j : Nat} {a b q : Trace.Call} {F G : Frame}
  {d e : FunDef} {outer ds : List FunDef} {cell : Nat → VarId → Nat} {v : VarId} {g : Code.Func}

/-- The cells of all calls of the runs of a program. -/
def Cells (c : CheckedProgram) (m : Code.Module) (L : LinkedModule) (o : Options) (k : Config)
    (cell : Nat → VarId → Nat) : Prop :=
  ∀ s i outer d a F, L.Visits k s → c.Nest outer d → s.At c m i d a F →
    c.prologue d ≤ F.position → ∃ s₀ F₀ hi, Origin c m L o k d a (cell a.number) s₀ F₀ hi

section

variable (h : Compiled p c t₀ o m L) (hcell : Cells c m L o k cell) (hs : L.Visits k s)

include hcell hs

include h

end

theorem names_of_reaches (h : Compiled p c t₀ o m L) (hd : c.Nest outer d) {x : String}
    (hv : (t₀.facts c.classes).Reaches (c.level d :: outer.map c.level) x v) :
    c.Names d (some v) := by
  obtain ⟨id, -, -, hf, hlevel⟩ := h.checked.record_ok hd
  obtain ⟨r, hr, -, ⟨hg, -⟩ | hown⟩ := hv
  · exact ⟨v, rfl, .inl (Emit.var_eq h.checked hr ▸ hg)⟩
  · rw [hlevel] at hown
    exact ⟨v, rfl, .inr (Emit.own_mem h.checked hf hown)⟩

/-- Names in the statements of a definition, and the code of the statements. -/
theorem placed (h : Compiled p c t₀ o m L) (hd : c.Nest outer d) :
    (∀ i x b, Expr.OccursIn d.body (.name i x b) → c.Names d b) ∧
    (∀ x b value span, Stmt.OccursIn d.body (.assign (.name x b) value span) → c.Names d b) ∧
    ∃ g ∈ m.functions, g.name = c.emitted d ∧ ∃ f, L.function? (m.index g.name) = some f ∧
      (∀ e, Expr.OccursIn d.body e →
        Emit.ExprIn c (m.names g) f.code e (c.prologue d) f.code.size) ∧
      ∀ st, Stmt.OccursIn d.body st →
        Emit.StmtIn c (m.names g) f.code st (c.prologue d) f.code.size := by
  obtain ⟨id, -, -, hf, hlevel⟩ := h.checked.record_ok hd
  have hbody := hf.body
  rw [← hlevel] at hbody
  refine ⟨fun i x b he => ?_, fun x b value span hocc => ?_, ?_⟩
  · obtain ⟨t, -, v, rfl, hreach, -⟩ := exprOk_of_occursIn hbody he
    exact h.names_of_reaches hd hreach
  · have hok := stmtOk_of_occursIn hbody hocc
    simp only [StmtOk, TargetOk] at hok
    obtain ⟨_, _, -, ⟨v, _, rfl, -, hreach, -⟩, -⟩ := hok
    exact h.names_of_reaches hd hreach
  · obtain ⟨-, g, arr, hg, -, hfun⟩ := h.definition_function hd
    obtain ⟨b, n, b', -, -, hblock, -, hsize⟩ := hg.layout
    have hle : b' ≤ arr.size := by omega
    refine ⟨g, hg.mem, hg.name, _, hg.function, fun e he => ?_, fun st hst => ?_⟩
    · exact (Emit.exprIn_of_occursIn hbody hblock he).mono (Nat.le_refl _) hle
    · exact (Emit.stmtIn_of_occursIn hblock hst).mono (Nat.le_refl _) hle

section

variable (h : Compiled p c t₀ o m L) (hcell : Cells c m L o k cell) (hs : L.Visits k s)

include h hcell hs

end

end Compiled

end ObjLang
