import ObjLang.Proofs.Machine.Memory

/-!
# ObjLang.Proofs.Machine.Resized — runs within wider limits

A thread with a larger memory, and with more calls allowed, takes the same steps, up to the first one
that the narrower limits stop.
-/

namespace ObjLang

/-! ### Limits -/

/-- A fault that comes from a limit of the run. -/
def Fault.IsLimit : Fault → Prop
  | .trap (.memoryOutOfBounds _) | .trap (.callDepth _) => True
  | _ => False

/-- The store with a memory of another size. -/
def Store.resized (size : Nat) (s : Store) : Store := { s with memory := { s.memory with size } }

/-- The thread with a memory of another size. -/
def Thread.resized (size : Nat) (t : Thread) : Thread := { t with store := t.store.resized size }

namespace Step

/-- The step with a memory of another size. -/
def resized (size : Nat) : Step → Step
  | next t => next (t.resized size)
  | done s v => done (s.resized size) v
  | fault s f => fault (s.resized size) f

/-- A step that a limit stops. -/
def AtLimit : Step → Prop
  | fault _ f => f.IsLimit
  | _ => False

/-- A step within narrow limits and what it is within wide ones. -/
def Widens (size : Nat) (narrow wide : Step) : Prop := narrow.AtLimit ∨ wide = narrow.resized size

/-- A step that may print, or that ends the run and leaves everything as it is. -/
def Follows (s : Store) : Step → Prop
  | next t => s.output.toList <+: t.store.output.toList
  | done s' _ | fault s' _ => s' = s

theorem Widens.ite {size : Nat} {c : Prop} {i i' : Decidable c} {S S' T T' : Step}
    (h : S.Widens size S') (h' : T.Widens size T') :
    (@ite _ c i S T).Widens size (@ite _ c i' S' T') := by
  by_cases hc : c
  · rwa [if_pos hc, if_pos hc]
  · rwa [if_neg hc, if_neg hc]

end Step

namespace Thread

variable {p : LinkedModule} {d d' size : Nat} {t : Thread}

@[simp] theorem resized_frame : (t.resized size).frame = t.frame := rfl

@[simp] theorem resized_callers : (t.resized size).callers = t.callers := rfl

@[simp] theorem resized_globals : (t.resized size).store.globals = t.store.globals := rfl

theorem pop_widens {k k' : Int32 → Thread → Step}
    (h : ∀ v S, (k v (t.withStack S)).Widens size (k' v ((t.withStack S).resized size))) :
    (t.pop k).Widens size ((t.resized size).pop k') := by
  simp only [pop, resized_frame]
  split
  · exact .inr rfl
  · exact h _ _

theorem setLocal_widens (k : Nat) (v : Int32) :
    (t.setLocal k v).Widens size ((t.resized size).setLocal k v) :=
  Step.Widens.ite (.inr rfl) (.inr rfl)

theorem setGlobal_widens (k : Nat) (v : Int32) :
    (t.setGlobal k v).Widens size ((t.resized size).setGlobal k v) :=
  Step.Widens.ite (.inr rfl) (.inr rfl)

theorem leave_widens : t.leave.Widens size (t.resized size).leave := by
  refine pop_widens fun v S => ?_
  dsimp only [resized_callers]
  split <;> exact .inr rfl

theorem holds_resized {i : Nat} (hsize : t.store.memory.size ≤ size)
    (h : t.store.memory.holds i = true) : (t.resized size).store.memory.holds i = true := by
  rw [Memory.holds, decide_eq_true_eq] at h ⊢
  exact Nat.le_trans h hsize

theorem load_widens (hsize : t.store.memory.size ≤ size) (address : Int32) (offset : Nat) :
    (t.load address offset).Widens size ((t.resized size).load address offset) := by
  unfold load Memory.load
  dsimp only
  by_cases h : t.store.memory.holds (Memory.position address offset) = true
  · rw [if_pos h, if_pos (holds_resized hsize h)]
    exact .inr rfl
  · rw [if_neg h]
    exact .inl trivial

theorem save_widens (hsize : t.store.memory.size ≤ size) (address : Int32) (offset : Nat)
    (v : Int32) :
    (t.save address offset v).Widens size ((t.resized size).save address offset v) := by
  unfold save
  dsimp only
  by_cases h : t.store.memory.holds (Memory.position address offset) = true
  · rw [if_pos h, if_pos (holds_resized hsize h)]
    exact .inr rfl
  · rw [if_neg h]
    exact .inl trivial

/-- A new call within wider limits. -/
theorem newFrame_widens (hd : d ≤ d') (index : Nat) (args : List Int32) (depth : Nat) :
    newFrame p d index args depth = .error (.callDepth depth) ∨
      newFrame p d' index args depth = newFrame p d index args depth := by
  unfold newFrame
  split
  · exact .inr rfl
  · split
    · exact .inr rfl
    · by_cases hdepth : d ≤ depth
      · exact .inl (if_pos hdepth)
      · rw [if_neg hdepth, if_neg fun hle => hdepth (Nat.le_trans hd hle)]
        exact .inr rfl

theorem call_widens (hd : d ≤ d') (index params : Nat) :
    (t.call p d index params).Widens size ((t.resized size).call p d' index params) := by
  refine Step.Widens.ite (.inr rfl) ?_
  cases p.import? index with
  | some f =>
    dsimp only [resized_frame]
    split <;> exact .inr rfl
  | none =>
    dsimp only [withStack, resized_frame]
    obtain h | h := newFrame_widens (p := p) hd index (t.frame.stack.take params).reverse
      (t.frame.depth + 1)
    · rw [h]
      exact .inl trivial
    · rw [h]
      split <;> exact .inr rfl

theorem callThrough_widens (hd : d ≤ d') (position : Int32) (params : Nat) :
    (t.callThrough p d position params).Widens size
      ((t.resized size).callThrough p d' position params) := by
  unfold callThrough
  dsimp only
  split
  · exact .inr rfl
  · exact .ite (call_widens hd _ _) (.inr rfl)

/-- A step within wider limits. -/
theorem step_widens (hd : d ≤ d') (hsize : t.store.memory.size ≤ size) :
    (t.step p d).Widens size ((t.resized size).step p d') := by
  simp only [step, resized_frame]
  split
  · next op hop =>
    generalize hu : t.jump (t.frame.position + 1) = u
    have husize : u.store.memory.size ≤ size := hu ▸ hsize
    rw [show (t.resized size).jump (t.frame.position + 1) = u.resized size from hu ▸ rfl]
    cases op <;> simp only [exec]
    case localGet k =>
      simp only [resized_frame]
      split <;> exact .inr rfl
    case globalGet k =>
      simp only [resized_globals]
      split <;> exact .inr rfl
    case localSet k => exact pop_widens fun v S => setLocal_widens k v
    case globalSet k => exact pop_widens fun v S => setGlobal_widens k v
    case load k => exact pop_widens fun a S => load_widens (t := u.withStack S) husize a k
    case store k =>
      exact pop_widens fun v S => pop_widens fun a S' =>
        save_widens (t := (u.withStack S).withStack S') husize a k v
    case binary op =>
      refine pop_widens fun b S => pop_widens fun a S' => ?_
      split <;> exact .inr rfl
    case call k =>
      split
      · exact call_widens hd _ _
      · exact .inr rfl
    case callIndirect n => exact pop_widens fun i S => callThrough_widens hd i n
    case ret => exact leave_widens
    case jumpIf k | jumpUnless k =>
      refine pop_widens fun v S => .inr ?_
      split <;> rfl
    case eqz | drop => exact pop_widens fun v S => .inr rfl
    case const | unreachable | jump => exact .inr rfl
  · exact leave_widens

theorem step_size {t' : Thread} (h : t.step p d = .next t') :
    t'.store.memory.size = t.store.memory.size := by
  obtain h | ⟨k, v, a, S, -, -, h⟩ := step_memory h
  · rw [h]
  · rw [h, Memory.size_setWord]

/-- A run that has ended stays as it is. -/
theorem run_of_le {n k : Nat} (hk : n ≤ k) {x : Store × Except Fault Int32}
    (h : t.run p d n = some x) : t.run p d k = some x := by
  induction n generalizing t k with
  | zero => cases h
  | succ n ih =>
    obtain ⟨k, rfl⟩ : ∃ j, k = j + 1 := ⟨k - 1, by omega⟩
    rw [run] at h ⊢
    split at h
    · exact ih (Nat.le_of_succ_le_succ hk) h
    · exact h
    · exact h

/-- A run within wider limits ends as it does within narrow ones, unless they stop it. -/
theorem run_resized (hd : d ≤ d') (hsize : t.store.memory.size ≤ size) {n : Nat} {s : Store}
    {r : Except Fault Int32} (h : t.run p d n = some (s, r)) :
    (∃ f, r = .error f ∧ f.IsLimit) ∨
      (t.resized size).run p d' n = some (s.resized size, r) := by
  induction n generalizing t with
  | zero => cases h
  | succ n ih =>
    have hstep := step_widens (p := p) hd hsize
    rw [run] at h
    split at h
    · next t' ht =>
      rw [ht] at hstep
      rw [run, hstep.resolve_left id]
      exact ih (step_size ht ▸ hsize) h
    · next ht =>
      rw [ht] at hstep
      cases h
      rw [run, hstep.resolve_left id]
      exact .inr rfl
    · next f ht =>
      rw [ht] at hstep
      cases h
      obtain hlimit | hstep := hstep
      · exact .inl ⟨f, rfl, hlimit⟩
      · rw [run, hstep]
        exact .inr rfl

/-! ### Output -/

/-- The store after at most a number of steps. -/
def storeAfter (p : LinkedModule) (maxDepth : Nat) : Nat → Thread → Store
  | 0, t => t.store
  | n + 1, t =>
    match t.step p maxDepth with
    | .next t => storeAfter p maxDepth n t
    | .done s _ | .fault s _ => s

theorem print_follows (line : String) : (Step.next (t.print line)).Follows t.store := by
  show _ <+: (t.store.output.push line).toList
  rw [Array.toList_push]
  exact List.prefix_append _ _

theorem call_follows (index params : Nat) : (t.call p d index params).Follows t.store := by
  simp only [call]
  split
  · rfl
  split
  · split
    · exact print_follows (t := t.withStack _) _
    · exact List.prefix_rfl
    · rfl
  · split
    · exact List.prefix_rfl
    · rfl

theorem leave_follows : t.leave.Follows t.store := by
  simp only [leave, pop]
  split
  · rfl
  split
  · rfl
  · exact List.prefix_rfl

/-- A step may print, and one that ends the run leaves everything as it is. -/
theorem step_follows : (t.step p d).Follows t.store := by
  unfold step
  split
  · next op _ =>
    cases op <;> simp only [exec, pop, setLocal, setGlobal, load, save, callThrough]
    case call k =>
      split
      · exact call_follows (t := t.jump _) _ _
      · rfl
    case callIndirect n =>
      split
      · rfl
      split
      · rfl
      split
      · exact call_follows (t := (t.jump _).withStack _) _ _
      · rfl
    case ret => exact leave_follows (t := t.jump _)
    all_goals
      repeat' split
      all_goals first | rfl | exact List.prefix_rfl
  · exact leave_follows

theorem storeAfter_of_run {n : Nat} {s : Store} {r : Except Fault Int32}
    (h : t.run p d n = some (s, r)) : t.storeAfter p d n = s := by
  induction n generalizing t with
  | zero => cases h
  | succ n ih =>
    rw [run] at h
    split at h
    · next ht =>
      rw [storeAfter, ht]
      exact ih h
    · next ht =>
      cases h
      rw [storeAfter, ht]
    · next ht =>
      cases h
      rw [storeAfter, ht]

/-- What was printed stays printed. -/
theorem prefix_storeAfter (n : Nat) :
    t.store.output.toList <+: (t.storeAfter p d n).output.toList := by
  induction n generalizing t with
  | zero => exact List.prefix_rfl
  | succ n ih =>
    have hstep := step_follows (p := p) (d := d) (t := t)
    rw [storeAfter]
    split
    · next t' ht =>
      rw [ht] at hstep
      exact hstep.trans ih
    · next s v ht =>
      rw [ht] at hstep
      obtain rfl : s = t.store := hstep
      exact List.prefix_rfl
    · next s f ht =>
      rw [ht] at hstep
      obtain rfl : s = t.store := hstep
      exact List.prefix_rfl

/-- What a run within narrow limits prints, a run within wider ones prints too. -/
theorem prefix_resized (hd : d ≤ d') (hsize : t.store.memory.size ≤ size) {n k : Nat} (hk : n ≤ k)
    {s : Store} {r : Except Fault Int32} (h : t.run p d n = some (s, r)) :
    s.output.toList <+: ((t.resized size).storeAfter p d' k).output.toList := by
  induction n generalizing t k with
  | zero => cases h
  | succ n ih =>
    obtain ⟨k, rfl⟩ : ∃ j, k = j + 1 := ⟨k - 1, by omega⟩
    have hstep := step_widens (p := p) hd hsize
    have hfollows := step_follows (p := p) (d := d) (t := t)
    rw [run] at h
    split at h
    · next t' ht =>
      rw [ht] at hstep
      rw [storeAfter, hstep.resolve_left id]
      exact ih (step_size ht ▸ hsize) (Nat.le_of_succ_le_succ hk) h
    · next ht =>
      rw [ht] at hstep
      cases h
      rw [storeAfter, hstep.resolve_left id]
      exact List.prefix_rfl
    · next ht =>
      rw [ht] at hfollows
      cases h
      obtain rfl : s = t.store := hfollows
      exact prefix_storeAfter (t := t.resized size) (k + 1)

end Thread

end ObjLang
