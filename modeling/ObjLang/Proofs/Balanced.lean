import ObjLang.Proofs.Emit.Height
import ObjLang.Proofs.Machine.Visits

/-!
# ObjLang.Proofs.Balanced — the operand stack in the runs of programs

The module of a program links, and each position of its functions has a number of operands: none
where a statement of the source starts or ends, one where the function returns.  In every run each
call has as many operands as its position says, so no instruction ever lacks one, and each call
leaves a single word.
-/

namespace ObjLang

open Check Check.Facts

/-- How many operands there are in a linked program and in its runs. -/
structure Balanced (c : CheckedProgram) (m : Code.Module) (L : LinkedModule) : Prop where
  /-- The numbers of operands of every function agree with its jumps. -/
  functions : ∀ f ∈ L.functions.toList, f.Balanced L
  /-- Every statement of the source stands in the code of its function, and there are no operands
  where it starts and where it ends. -/
  statements : ∀ x ss start, c.Statements x ss start → ∃ g ∈ m.functions, g.name = x ∧
    ∃ f, L.function? (m.index x) = some f ∧
      (∀ s, Stmt.OccursIn ss s → ∃ a b, Emit.StandsAt c (m.names g) f.code ss start s a b) ∧
      ∀ s a b, Emit.StandsAt c (m.names g) f.code ss start s a b →
        L.height f.code a = 0 ∧ L.height f.code b = 0
  /-- All calls under way in a run have as many operands as their positions say. -/
  visits : ∀ k s, L.Visits k s → s.thread.Balanced L
  /-- A call that ends has one operand, and leaves it to its caller. -/
  leaves : ∀ k s t, L.Visits k s → s.thread.step L k.maxCallDepth = .next t →
    t.callers.length < s.thread.callers.length →
    ∃ v G, s.thread.frame.stack = [v] ∧ s.thread.callers = G :: t.callers ∧
      t.frame = { G with stack := v :: G.stack }
  /-- The run ends with the one operand of the outermost call. -/
  ends : ∀ k s st v, L.Visits k s → s.thread.step L k.maxCallDepth = .done st v →
    s.thread.frame.stack = [v] ∧ s.thread.callers = []
  /-- No run lacks an operand or a variable, or comes to an instruction that is never to be run. -/
  faults : ∀ k n f, (m.run k n).result = .error (.fault f) →
    f ≠ .trap .stackUnderflow ∧ f ≠ .trap .unreachable ∧ f ≠ .noVariable

namespace Compiled

variable {p : Program} {c : CheckedProgram} {t₀ : State} {o : Options} {m : Code.Module}
  {L : LinkedModule} {k : Config} {s : Trace}

theorem visits_balanced (h : Compiled p c t₀ o m L) (hL : m.link = .ok L) (hs : L.Visits k s) :
    s.thread.Balanced L := by
  obtain ⟨-, F, hF, hreach⟩ := hs
  exact hreach.balanced (h.balanced hL) ⟨newFrame_balanced hF, nofun, rfl⟩

theorem statements_height (h : Compiled p c t₀ o m L) {x : String} {ss : List Stmt} {start : Nat}
    (hst : c.Statements x ss start) : ∃ g ∈ m.functions, g.name = x ∧
      ∃ f, L.function? (m.index x) = some f ∧
        (∀ s, Stmt.OccursIn ss s → ∃ a b, Emit.StandsAt c (m.names g) f.code ss start s a b) ∧
        ∀ s a b, Emit.StandsAt c (m.names g) f.code ss start s a b →
          L.height f.code a = 0 ∧ L.height f.code b = 0 := by
  cases hst with
  | entry =>
    obtain ⟨g, hg, arr, hname, -, -, -, hfun, n, b, hblock, -⟩ := h.entry_function
    rw [h.linked.entry] at hfun
    exact ⟨g, hg, hname, _, hfun, fun s hs => Emit.exists_standsAt hblock hs,
      fun s a b hat => h.height_standsAt h.checked.body hat rfl⟩
  | @definition outer d hd =>
    obtain ⟨-, g, arr, hg, -, hfun⟩ := h.definition_function hd
    obtain ⟨id, -, -, hok, -⟩ := h.checked.record_ok hd
    obtain ⟨b, n, b', hbox, hinit, hblock, -⟩ := hg.layout
    have hstart : L.height arr (c.prologue d) = 0 :=
      ((h.carries_boxCode hbox).trans (h.carries_initCode hinit)).height rfl
    exact ⟨g, hg.mem, hg.name, _, hfun, fun s hs => Emit.exists_standsAt hblock hs,
      fun s a b hat => h.height_standsAt hok.body hat hstart⟩

theorem run_faults (h : Compiled p c t₀ o m L) (hL : m.link = .ok L) {n : Nat} {f : Fault}
    (hf : (m.run k n).result = .error (.fault f)) :
    f ≠ .trap .stackUnderflow ∧ f ≠ .trap .unreachable ∧ f ≠ .noVariable := by
  by_contra hbad
  have hentry : ∀ e, Thread.newFrame L k.maxCallDepth L.entry [] 0 = .error e → f ≠ .trap e := by
    rintro e he rfl
    obtain ⟨_, rfl⟩ | ⟨_, _, rfl⟩ | ⟨_, rfl⟩ := Thread.newFrame_error he <;>
      exact hbad ⟨nofun, nofun, nofun⟩
  have hrun : (L.run k n).result = .error (.fault f) := by
    rwa [Code.Module.run, hL] at hf
  obtain ⟨s, hs, st, hstep⟩ := (LinkedModule.run_fault_iff h.import?_entry hentry).1 ⟨n, hrun⟩
  exact hbad ((h.visits_balanced hL hs).not_stops (h.balanced hL) hstep)

end Compiled

/-- The module of every program that compiles links, and has the right numbers of operands at every
position and in all runs. -/
theorem compile_balanced {source : String} {o : Options} {m : Code.Module}
    (hm : compile o source = .ok m) :
    ∃ p c L, Program.parse source = .ok p ∧ p.check = .ok c ∧ m.link = .ok L ∧ Balanced c m L := by
  obtain ⟨p, c, hp, hc, hm⟩ := compile_ok_iff.1 hm
  obtain ⟨t₀, hok⟩ := Program.check_ok hc
  obtain ⟨L, hL, -⟩ := (Emit.module_ok hok hm).link hok
  obtain ⟨t₀, h⟩ := exists_compiled hp hc hm hL
  refine ⟨p, c, L, hp, hc, hL, h.balanced hL, fun x ss start => h.statements_height,
    fun k s => h.visits_balanced hL, fun k s t hs => (h.visits_balanced hL hs).leaves (h.balanced hL),
    fun k s st v hs => (h.visits_balanced hL hs).done (h.balanced hL), fun k n f => h.run_faults hL⟩

/-- A program that leaves a loop from inside a conditional. -/
def leavesLoop : String :=
  "def f(n:int) -> int:\n  s:int = 0\n  while n > 0:\n    if n % 2 == 0:\n      s = s + n\n    elif n == 5:\n" ++
  "      return s\n    else:\n      pass\n    n = n - 1\n  return s\nprint(f(6))\n"

theorem leavesLoop_runs : (compile {} leavesLoop).toOption.any (fun m =>
    (m.run {} 200).output == ["6"]) = true := by
  decide +kernel

theorem compile_balanced_leavesLoop : ∃ m p c L, compile {} leavesLoop = .ok m ∧
    (m.run {} 200).output = ["6"] ∧ Program.parse leavesLoop = .ok p ∧ p.check = .ok c ∧
    m.link = .ok L ∧ Balanced c m L := by
  obtain ⟨m, hm, hruns⟩ := toOption_any_eq_true.1 leavesLoop_runs
  obtain ⟨p, c, L, hp, hc, hL, hb⟩ := compile_balanced hm
  exact ⟨m, p, c, L, hm, beq_iff_eq.1 hruns, hp, hc, hL, hb⟩

end ObjLang
