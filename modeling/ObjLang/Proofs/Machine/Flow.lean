import ObjLang.Proofs.Emit.Flow
import ObjLang.Proofs.Machine.Cells

/-!
# ObjLang.Proofs.Machine.Flow — calls go where control goes

A call starts at the first instruction of its function.  While it is under way it keeps its code, and
a step moves it only as its instruction says.  So a call goes through a run along the control flow of
its code, whatever other calls begin and end in between.
-/

namespace ObjLang

open Check Check.Facts

/-! ### Frames -/

/-- A call may come from one of its frames to another one. -/
structure Frame.FlowsTo (F F' : Frame) : Prop where
  code : F'.code = F.code
  flows : FlowsOn F.code F.position F'.position

namespace Frame.FlowsTo

variable {F F' G : Frame}

theorem refl (F : Frame) : F.FlowsTo F := ⟨rfl, .refl⟩

theorem trans (h : F.FlowsTo F') (h' : F'.FlowsTo G) : F.FlowsTo G :=
  ⟨h'.code.trans h.code, h.flows.trans (h.code ▸ h'.flows)⟩

theorem of_runs {p : LinkedModule} {op : Op} {due : Nat} (hop : F.op? = some op)
    (h : F.Runs p op due F') : F.FlowsTo F' :=
  ⟨h.code, .single ⟨op, hop, h.position⟩⟩

end Frame.FlowsTo

/-! ### Steps -/

/-- The next step ends the innermost call. -/
def Thread.Leaves (p : LinkedModule) (maxDepth : Nat) (t : Thread) : Prop :=
  (∃ t', t.step p maxDepth = .next t' ∧ t'.callers.length < t.callers.length) ∨
    ∃ st v, t.step p maxDepth = .done st v

/-- A call ends at a `return` instruction or behind its code. -/
theorem Thread.Leaves.op? {p : LinkedModule} {maxDepth : Nat} {t : Thread}
    (h : t.Leaves p maxDepth) : t.frame.op? = some .ret ∨ t.frame.op? = none := by
  obtain ⟨t', ht, hlt⟩ | ⟨st, v, ht⟩ := h
  · cases (Thread.step_moves ht).2 with
    | on _ hcallers _ =>
      rw [hcallers] at hlt
      exact absurd hlt (Nat.lt_irrefl _)
    | enter _ hcallers _ _ =>
      rw [hcallers] at hlt
      exact absurd hlt (Nat.not_lt.2 (Nat.le_succ _))
    | leave hend _ _ _ => exact hend
  · exact (Thread.step_done ht).1

namespace Trace

variable {p : LinkedModule} {maxDepth : Nat} {s s' : Trace} {a b : Call} {F' : Frame}
  {as : List Call}

/-- A call that is under way after a step began with it, or was so before and went where control
goes. -/
theorem flowsTo_of_next (h : s.next p maxDepth = some s') (hcalls : s.calls = b :: as)
    (ha : (a, F') ∈ s'.active) : (a.number = s.begun ∧ F'.position = 0) ∨
      ∃ F, (a, F) ∈ s.active ∧ F.FlowsTo F' := by
  obtain ⟨t, ht, rfl⟩ := next_eq_some.1 h
  rw [active_of_calls hcalls]
  cases (Thread.step_moves ht).2 with
  | on hop hcallers hruns =>
    rw [active_of_on hcalls hcallers] at ha
    obtain heq | ha := List.mem_cons.1 ha
    · cases heq
      exact .inr ⟨_, List.mem_cons_self, .of_runs hop hruns⟩
    · exact .inr ⟨F', List.mem_cons_of_mem _ ha, .refl F'⟩
  | enter hop hcallers hruns hnew =>
    rw [active_of_enter hcalls hcallers] at ha
    obtain heq | ha := List.mem_cons.1 ha
    · obtain ⟨rfl, rfl⟩ := Prod.mk.inj heq
      obtain ⟨f, -, -, -, hpos, -⟩ := Thread.newFrame_ok hnew
      exact .inl ⟨rfl, hpos⟩
    obtain heq | ha := List.mem_cons.1 ha
    · cases heq
      exact .inr ⟨_, List.mem_cons_self, .of_runs hop hruns⟩
    · exact .inr ⟨F', List.mem_cons_of_mem _ ha, .refl F'⟩
  | @leave v S G Fs _ _ hcallers heq =>
    have hrest : t.callers = Fs := by rw [heq]
    rw [active_of_leave hcalls hcallers hrest] at ha
    rw [hcallers]
    cases as with
    | nil => cases ha
    | cons c as =>
      obtain hhead | ha := List.mem_cons.1 ha
      · cases hhead
        rw [heq]
        exact .inr ⟨G, List.mem_cons_of_mem _ List.mem_cons_self, rfl, .refl⟩
      · exact .inr ⟨F', List.mem_cons_of_mem _ (List.mem_cons_of_mem _ ha), .refl F'⟩

end Trace

/-! ### Runs -/

namespace Compiled

variable {p : Program} {c : CheckedProgram} {t₀ : State} {o : Options} {m : Code.Module}
  {L : LinkedModule} {k : Config} {s s' : Trace} {a : Trace.Call} {F F' : Frame}

/-- There is always a call under way. -/
theorem exists_call (h : Compiled p c t₀ o m L) (hs : L.Visits k s) :
    ∃ b as, s.calls = b :: as :=
  (h.sound False (fun hf => hf.elim) hs).stacked.exists_call

/-- A call under way runs the code of its function. -/
theorem active_code (h : Compiled p c t₀ o m L) (hs : L.Visits k s) (ha : (a, F) ∈ s.active) :
    ∃ f, L.function? a.function = some f ∧ F.code = f.code :=
  (List.forall₂_iff_zip.1 (h.sound False (fun hf => hf.elim) hs).stacked.code.flip).2 ha

/-- A call goes on along the control flow of its code. -/
theorem flowsTo (h : Compiled p c t₀ o m L) (hs : L.Visits k s)
    (hr : Trace.Reaches L k.maxCallDepth s s') (ha : (a, F) ∈ s.active)
    (ha' : (a, F') ∈ s'.active) : F.FlowsTo F' := by
  induction hr generalizing F' with
  | refl =>
    obtain rfl := hs.numbered.frame_unique ha ha'
    exact .refl F
  | @step u v hu hv ih =>
    obtain ⟨b, as, hcalls⟩ := h.exists_call (hs.trans hu)
    have hlt := hs.numbered.2 a (Trace.mem_calls_of_active ha)
    have hle := hu.begun_le
    obtain ⟨hnew, -⟩ | ⟨G, hG, hflows⟩ := Trace.flowsTo_of_next hv hcalls ha'
    · omega
    · exact (ih hG).trans hflows

/-- A call under way has come to its position from the start of its code. -/
theorem flowsOn (h : Compiled p c t₀ o m L) (hs : L.Visits k s) (ha : (a, F) ∈ s.active) :
    FlowsOn F.code 0 F.position := by
  obtain ⟨hpages, F₀, hF₀, hr⟩ := hs
  induction hr generalizing a F with
  | refl =>
    obtain ⟨rfl, rfl⟩ := Prod.mk.inj (List.mem_singleton.1 ha)
    obtain ⟨f, -, -, -, hpos, -⟩ := Thread.newFrame_ok hF₀
    rw [hpos]
  | @step u v hu hv ih =>
    obtain ⟨b, as, hcalls⟩ := h.exists_call ⟨hpages, F₀, hF₀, hu⟩
    obtain ⟨-, hpos⟩ | ⟨G, hG, hflows⟩ := Trace.flowsTo_of_next hv hcalls ha
    · rw [hpos]
    · rw [hflows.code]
      exact (ih hG).trans hflows.flows

end Compiled

end ObjLang
