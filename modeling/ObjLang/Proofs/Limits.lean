import ObjLang.Emit
import ObjLang.Proofs.Machine.Resized
import ObjLang.Proofs.Machine.Visits

/-!
# ObjLang.Proofs.Limits — runs do not depend on limits that they do not hit

The limits of a run are the size of its memory and the depth of its calls.  A run that ends without
hitting them ends in the same way within wider ones; one that hits them has printed what the run within
wider limits prints first.
-/

namespace ObjLang

/-- Limits that are at most as wide as others. -/
structure Config.Within (c c' : Config) : Prop where
  memory : c.memoryPages ≤ c'.memoryPages
  most : c.maxMemoryPages ≤ c'.maxMemoryPages
  calls : c.maxCallDepth ≤ c'.maxCallDepth

namespace Execution

/-- A run that was given enough steps. -/
def Ended (x : Execution) : Prop := x.result ≠ .error .unfinished

/-- A run that a limit stopped. -/
def HitsLimit (x : Execution) : Prop :=
  (∃ pages most, x.result = .error (.link (.memoryTooLarge pages most))) ∨
    ∃ f, x.result = .error (.fault f) ∧ f.IsLimit

end Execution

/-! ### What a run has printed -/

/-- The store after an invocation, or after its first steps. -/
def Store.after (p : LinkedModule) (maxDepth steps : Nat) (s : Store) (index : Nat)
    (args : List Int32) : Store :=
  match p.import? index with
  | some f =>
    match f.call args with
    | .ok (.line l) => { s with output := s.output.push l }
    | _ => s
  | none =>
    match Thread.newFrame p maxDepth index args 0 with
    | .ok frame => Thread.storeAfter p maxDepth steps { store := s, frame }
    | .error _ => s

/-- The lines that a run prints within a number of steps, whether it ends or not. -/
def LinkedModule.printed (p : LinkedModule) (c : Config) (steps : Nat) : List String :=
  if c.maxMemoryPages < p.pages c then []
  else ((Store.start p (p.pages c)).after p c.maxCallDepth steps p.entry []).output.toList

/-- The lines that a run prints within a number of steps, whether it ends or not. -/
def Code.Module.printed (m : Code.Module) (c : Config) (steps : Nat) : List String :=
  match m.link with
  | .error _ => []
  | .ok p => p.printed c steps

/-! ### Invocations -/

namespace Store

variable {p : LinkedModule} {d d' size index : Nat} {s s' : Store} {args : List Int32} {n k : Nat}
  {r : Except Fault (Option Int32)}

theorem after_of_invoke (h : s.invoke p d n index args = some (s', r)) :
    s.after p d n index args = s' := by
  unfold invoke at h
  unfold after
  cases hf : p.import? index with
  | some f =>
    rw [hf] at h
    dsimp only at h ⊢
    cases hcall : f.call args with
    | error e =>
      rw [hcall] at h
      cases h
      rfl
    | ok reply =>
      rw [hcall] at h
      cases reply <;> (cases h; rfl)
  | none =>
    rw [hf] at h
    dsimp only at h ⊢
    cases hnew : Thread.newFrame p d index args 0 with
    | error e =>
      rw [hnew] at h
      cases h
      rfl
    | ok frame =>
      rw [hnew] at h
      obtain ⟨⟨s₁, r₁⟩, hrun, heq⟩ := Option.map_eq_some_iff.1 h
      cases heq
      exact Thread.storeAfter_of_run hrun

/-- An invocation within wider limits. -/
theorem invoke_resized (hd : d ≤ d') (hsize : s.memory.size ≤ size) (hk : n ≤ k)
    (h : s.invoke p d n index args = some (s', r)) :
    ((∃ f, r = .error f ∧ f.IsLimit) ∨
        (s.resized size).invoke p d' k index args = some (s'.resized size, r)) ∧
      s'.output.toList <+: ((s.resized size).after p d' k index args).output.toList := by
  unfold invoke at h ⊢
  unfold after
  cases hf : p.import? index with
  | some f =>
    rw [hf] at h
    dsimp only at h ⊢
    cases hcall : f.call args with
    | error e =>
      rw [hcall] at h
      cases h
      exact ⟨.inr rfl, List.prefix_rfl⟩
    | ok reply =>
      rw [hcall] at h
      cases reply <;> (cases h; exact ⟨.inr rfl, List.prefix_rfl⟩)
  | none =>
    rw [hf] at h
    dsimp only at h ⊢
    obtain hframe | hframe := Thread.newFrame_widens (p := p) hd index args 0
    · rw [hframe] at h
      cases h
      refine ⟨.inl ⟨_, rfl, trivial⟩, ?_⟩
      split
      · next frame _ =>
        exact Thread.prefix_storeAfter (t := { store := s.resized size, frame }) k
      · exact List.prefix_rfl
    · rw [hframe]
      cases hnew : Thread.newFrame p d index args 0 with
      | error e =>
        rw [hnew] at h
        cases h
        exact ⟨.inr rfl, List.prefix_rfl⟩
      | ok frame =>
        rw [hnew] at h
        obtain ⟨⟨s₁, r₁⟩, hrun, heq⟩ := Option.map_eq_some_iff.1 h
        cases heq
        refine ⟨?_, Thread.prefix_resized hd hsize hk hrun⟩
        obtain ⟨f, rfl, hlimit⟩ | hrun' := Thread.run_resized hd hsize hrun
        · exact .inl ⟨f, rfl, hlimit⟩
        · refine .inr (Option.map_eq_some_iff.2 ⟨_, Thread.run_of_le hk hrun', rfl⟩)

end Store

namespace LinkedModule

variable {p : LinkedModule} {c c' : Config} {n k : Nat}

/-- What an invocation of the entry says of a run. -/
def execution (p : LinkedModule) : Option (Store × Except Fault (Option Int32)) → Execution
  | none => ⟨[], .error .unfinished⟩
  | some (s, .error f) => ⟨s.output.toList, .error (.fault f)⟩
  | some (s, .ok v) => ⟨s.output.toList, .ok (if p.entryHasResult then v else none)⟩

theorem run_eq_execution (h : ¬ c.maxMemoryPages < p.pages c) : p.run c n =
    p.execution ((Store.start p (p.pages c)).invoke p c.maxCallDepth n p.entry []) :=
  if_neg h

theorem exists_of_ended {x : Option (Store × Except Fault (Option Int32))}
    (h : (p.execution x).Ended) :
    ∃ s r, x = some (s, r) ∧ (p.execution x).output = s.output.toList := by
  obtain _ | ⟨s, f | v⟩ := x
  · exact absurd rfl h
  · exact ⟨s, _, rfl, rfl⟩
  · exact ⟨s, _, rfl, rfl⟩

theorem printed_of_ended (h : (p.run c n).Ended) : p.printed c n = (p.run c n).output := by
  by_cases hpages : c.maxMemoryPages < p.pages c
  · rw [printed, run, if_pos hpages, if_pos hpages]
  · rw [run_eq_execution hpages] at h ⊢
    obtain ⟨s, r, hinvoke, houtput⟩ := exists_of_ended h
    rw [printed, if_neg hpages, houtput, Store.after_of_invoke hinvoke]

theorem pages_within (hc' : c'.fault? = none) (hle : c.Within c')
    (hpages : p.pages c ≤ c.maxMemoryPages) :
    p.pages c ≤ p.pages c' ∧ p.pages c' ≤ c'.maxMemoryPages := by
  have hvalid : c'.memoryPages ≤ c'.maxMemoryPages := by
    unfold Config.fault? at hc'
    split at hc'
    · cases hc'
    · omega
  have hmemory := hle.memory
  have hmost := hle.most
  unfold pages at hpages ⊢
  omega

/-- A run of a linked module within wider limits. -/
theorem run_or_limit (hc' : c'.fault? = none) (hle : c.Within c') (hend : (p.run c n).Ended)
    (hk : n ≤ k) : ((p.run c n).HitsLimit ∨ p.run c' k = p.run c n) ∧
      (p.run c n).output <+: p.printed c' k := by
  by_cases hpages : c.maxMemoryPages < p.pages c
  · rw [show p.run c n = _ from if_pos hpages]
    exact ⟨.inl (.inl ⟨_, _, rfl⟩), List.nil_prefix⟩
  · obtain ⟨hlarger, hfits⟩ := pages_within (p := p) hc' hle (Nat.le_of_not_lt hpages)
    have hpages' : ¬ c'.maxMemoryPages < p.pages c' := Nat.not_lt.2 hfits
    have hsize : (Store.start p (p.pages c)).memory.size ≤ p.pages c' * pageSize :=
      Nat.mul_le_mul_right _ hlarger
    rw [run_eq_execution hpages] at hend ⊢
    obtain ⟨s, r, hinvoke, houtput⟩ := exists_of_ended hend
    obtain ⟨hrun, hprint⟩ := Store.invoke_resized hle.calls hsize hk hinvoke
    rw [houtput, printed, if_neg hpages']
    refine ⟨?_, hprint⟩
    obtain ⟨f, rfl, hlimit⟩ | hrun := hrun
    · exact .inl (.inr ⟨f, by rw [hinvoke]; rfl, hlimit⟩)
    · right
      rw [run_eq_execution hpages', hinvoke]
      exact (congrArg p.execution hrun).trans (by cases r <;> rfl)

end LinkedModule

/-- Limits show only where a run hits them.  A run that ends without hitting its limits ends in the same
way within wider ones, and the lines that a run prints are the first that the run within wider limits
prints, whether that one ends or not. -/
theorem Code.Module.run_within (m : Code.Module) {c c' : Config} (hc' : c'.fault? = none)
    (hle : c.Within c') {n k : Nat} (hend : (m.run c n).Ended) (hk : n ≤ k) :
    (¬ (m.run c n).HitsLimit → m.run c' k = m.run c n) ∧
      (m.run c n).output <+: m.printed c' k ∧
      ((m.run c' k).Ended → m.printed c' k = (m.run c' k).output) := by
  unfold run printed at *
  cases hlink : m.link with
  | error e => exact ⟨fun _ => rfl, List.prefix_rfl, fun _ => rfl⟩
  | ok p =>
    rw [hlink] at hend
    obtain ⟨hsame, hprefix⟩ := LinkedModule.run_or_limit (p := p) hc' hle hend hk
    exact ⟨hsame.resolve_left, hprefix, LinkedModule.printed_of_ended⟩

/-- A function that calls itself four times. -/
def descends : String := "def f(n:int):\n  print(n)\n  if n < 3:\n    f(n + 1)\nf(0)\n"

theorem descends_runs : (compile {} descends).toOption.any (fun m =>
    (m.run { maxCallDepth := 3 } 200).output == ["0", "1"] &&
      (m.run { maxCallDepth := 3 } 200).trap? == some (.callDepth 3) &&
      (m.run {} 200).result.toOption.isSome) = true := by
  decide +kernel

/-- With three calls allowed the first two lines are printed; a thousand calls are as many as are
needed. -/
theorem Code.Module.run_within_descends : ∃ m, compile {} descends = .ok m ∧
    ["0", "1"] <+: m.printed {} 200 ∧
    m.run { memoryPages := 2, maxCallDepth := 2000 } 200 = m.run {} 200 := by
  obtain ⟨m, hm, hruns⟩ := toOption_any_eq_true.1 descends_runs
  simp only [Bool.and_eq_true, beq_iff_eq] at hruns
  obtain ⟨⟨houtput, htrap⟩, hresult⟩ := hruns
  have hstopped : (m.run { maxCallDepth := 3 } 200).Ended := by
    rw [Execution.Ended, Execution.trap?_eq_some.1 htrap]
    rintro ⟨⟩
  obtain ⟨v, hv⟩ := toOption_isSome_eq_true.1 hresult
  have hended : (m.run {} 200).Ended := by
    rw [Execution.Ended, hv]
    rintro ⟨⟩
  have hfree : ¬ (m.run {} 200).HitsLimit := by
    rw [Execution.HitsLimit, hv]
    rintro (⟨_, _, ⟨⟩⟩ | ⟨_, ⟨⟩, _⟩)
  refine ⟨m, hm, ?_, ?_⟩
  · rw [← houtput]
    exact (m.run_within (by decide) ⟨by decide, by decide, by decide⟩ hstopped
      (Nat.le_refl 200)).2.1
  · exact (m.run_within (by decide) ⟨by decide, by decide, by decide⟩ hended
      (Nat.le_refl 200)).1 hfree

end ObjLang
