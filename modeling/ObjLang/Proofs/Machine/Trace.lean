import ObjLang.Proofs.Machine.Steps

/-!
# ObjLang.Proofs.Machine.Trace — runs with a record of their calls

A frame does not say which function it runs, nor which of two calls of one function it is, and the
heap pointer wraps around.  A trace is a thread with a record of its past that says both: for every
call under way the number of its function and how many calls began before it, and the heap pointer
as a number that only grows.

`Until Q R n s` is what is proved about runs: within `n` steps from `s` all states have the property
`Q`, until one with the property `R` is reached, if ever.
-/

namespace ObjLang

/-- The global that holds the next free address, which is the first one. -/
def Thread.heapWord (t : Thread) : Int32 := t.store.globals[0]?.getD 0

/-- The number of the function that a thread calls next, if it calls one. -/
def Thread.callee (p : LinkedModule) (t : Thread) : Nat :=
  match t.frame.code[t.frame.position]? with
  | some (.call j) => j
  | some (.callIndirect _) => (t.frame.stack.head?.bind fun v => p.table[v.toInt.toNat]?).getD 0
  | _ => 0

/-- The calls under way, innermost first. -/
def Thread.frames (t : Thread) : List Frame := t.frame :: t.callers

/-- A call under way. -/
structure Trace.Call where
  /-- The number of its function. -/
  function : Nat
  /-- How many calls began before it. -/
  number : Nat
  /-- The heap pointer at its start. -/
  start : Nat

/-- A thread with a record of its run. -/
structure Trace where
  thread : Thread
  /-- The calls under way, innermost first. -/
  calls : List Trace.Call
  /-- How many calls have begun. -/
  begun : Nat
  /-- The heap pointer, counted on where the word wraps around. -/
  heap : Nat

namespace Trace

variable {p : LinkedModule} {maxDepth : Nat} {s s' u : Trace}

/-- The record after a step to a thread. -/
def advance (p : LinkedModule) (s : Trace) (t : Thread) : Trace where
  thread := t
  calls :=
    if s.thread.callers.length < t.callers.length then
      ⟨s.thread.callee p, s.begun, s.heap⟩ :: s.calls
    else if t.callers.length < s.thread.callers.length then s.calls.tail
    else s.calls
  begun := if s.thread.callers.length < t.callers.length then s.begun + 1 else s.begun
  heap := s.heap + (t.heapWord - s.thread.heapWord).toUInt32.toNat

/-- The next state of a run that goes on. -/
def next (p : LinkedModule) (maxDepth : Nat) (s : Trace) : Option Trace :=
  match s.thread.step p maxDepth with
  | .next t => some (s.advance p t)
  | _ => none

/-- A call from outside at its start. -/
def start (t : Thread) (function : Nat) : Trace :=
  ⟨t, [⟨function, 0, t.heapWord.toUInt32.toNat⟩], 1, t.heapWord.toUInt32.toNat⟩

/-- The states that a run comes to. -/
inductive Reaches (p : LinkedModule) (maxDepth : Nat) (s : Trace) : Trace → Prop where
  | refl : Reaches p maxDepth s s
  | step {u v : Trace} : Reaches p maxDepth s u → u.next p maxDepth = some v →
      Reaches p maxDepth s v

theorem Reaches.trans (h : Reaches p maxDepth s u) (h' : Reaches p maxDepth u s') :
    Reaches p maxDepth s s' := by
  induction h' with
  | refl => exact h
  | step _ hv ih => exact ih.step hv

/-- The state after a number of steps, if a run goes on for so many. -/
def after (p : LinkedModule) (maxDepth : Nat) (s : Trace) : Nat → Option Trace
  | 0 => some s
  | n + 1 => (s.after p maxDepth n).bind fun u => u.next p maxDepth

/-- The states that a run comes to are those that counting its steps leads to. -/
theorem reaches_iff_after : Reaches p maxDepth s u ↔ ∃ n, s.after p maxDepth n = some u := by
  constructor
  · intro h
    induction h with
    | refl => exact ⟨0, rfl⟩
    | step _ hv ih =>
      obtain ⟨n, hn⟩ := ih
      exact ⟨n + 1, by rw [after, hn, Option.bind_some, hv]⟩
  · rintro ⟨n, hn⟩
    induction n generalizing u with
    | zero =>
      cases hn
      exact .refl
    | succ n ih =>
      obtain ⟨v, hv, hu⟩ := Option.bind_eq_some_iff.1 hn
      exact (ih hv).step hu

theorem next_eq_some : s.next p maxDepth = some s' ↔
    ∃ t, s.thread.step p maxDepth = .next t ∧ s' = s.advance p t := by
  unfold next
  cases s.thread.step p maxDepth with
  | next t =>
    simp only [Option.some.injEq, Step.next.injEq, exists_eq_left']
    exact eq_comm
  | done st v => simp
  | fault st f => simp

/-! ### The innermost call -/

/-- The trace with its innermost call at a position, with some operands. -/
def on (s : Trace) (i : Nat) (S : List Int32) : Trace := { s with thread := s.thread.on i S }

@[simp] theorem on_on (s : Trace) (i j : Nat) (S S' : List Int32) :
    (s.on i S).on j S' = s.on j S' := rfl

@[simp] theorem on_thread (s : Trace) (i : Nat) (S : List Int32) :
    (s.on i S).thread = s.thread.on i S := rfl

@[simp] theorem on_calls (s : Trace) (i : Nat) (S : List Int32) :
    (s.on i S).calls = s.calls := rfl

@[simp] theorem on_heap (s : Trace) (i : Nat) (S : List Int32) :
    (s.on i S).heap = s.heap := rfl

@[simp] theorem on_begun (s : Trace) (i : Nat) (S : List Int32) :
    (s.on i S).begun = s.begun := rfl

theorem heap_same {t t' : Thread} (h : t'.heapWord = t.heapWord) :
    (t'.heapWord - t.heapWord).toUInt32.toNat = 0 := by
  rw [h, Int32.sub_self]
  rfl

/-- A step within the innermost call changes in the record only the heap pointer. -/
theorem advance_of_depth {t : Thread} (hc : t.callers.length = s.thread.callers.length) :
    s.advance p t = { s with
      thread := t
      heap := s.heap + (t.heapWord - s.thread.heapWord).toUInt32.toNat } := by
  simp only [advance, hc, Nat.lt_irrefl, if_false]

theorem advance_of_same {t : Thread} (hc : t.callers.length = s.thread.callers.length)
    (hh : t.heapWord = s.thread.heapWord) : s.advance p t = { s with thread := t } := by
  rw [advance_of_depth hc, heap_same hh, Nat.add_zero]

theorem advance_on (s : Trace) (i j : Nat) (S S' : List Int32) :
    (s.on i S).advance p (s.thread.on j S') = s.on j S' :=
  advance_of_same rfl rfl

/-- The trace with another value in a slot of its innermost call. -/
def withLocal (s : Trace) (j : Nat) (v : Int32) : Trace :=
  { s with thread := s.thread.withLocal j v }

/-- The trace with another store. -/
def withStore (s : Trace) (st : Store) : Trace := { s with thread := s.thread.withStore st }

@[simp] theorem withStore_frame (s : Trace) (st : Store) :
    (s.withStore st).thread.frame = s.thread.frame := rfl

@[simp] theorem withStore_store (s : Trace) (st : Store) :
    (s.withStore st).thread.store = st := rfl

@[simp] theorem withStore_heap (s : Trace) (st : Store) : (s.withStore st).heap = s.heap := rfl

theorem advance_withLocal (s : Trace) {i j k : Nat} {S S' : List Int32}
    {v : Int32} : (s.on i S).advance p ((s.thread.withLocal j v).on k S')
      = (s.withLocal j v).on k S' :=
  advance_of_same rfl rfl

/-- A step to a store with the same heap pointer. -/
theorem advance_withStore (s : Trace) {i k : Nat} {S S' : List Int32}
    {st : Store} {t : Thread} (ht : t = (s.thread.withStore st).on k S')
    (hheap : st.globals[0]? = s.thread.store.globals[0]?) :
    (s.on i S).advance p t = (s.withStore st).on k S' := by
  subst ht
  exact advance_of_same rfl (congrArg (fun o => o.getD 0) hheap)

/-- A step that only moves on in the innermost call, with other operands. -/
theorem next_on {i j : Nat} {S S' : List Int32}
    (h : (s.thread.on i S).step p maxDepth = .next (s.thread.on j S')) :
    (s.on i S).next p maxDepth = some (s.on j S') :=
  next_eq_some.2 ⟨_, h, (advance_on s i j S S').symm⟩

@[simp] theorem on_self (s : Trace) : s.on s.thread.frame.position s.thread.frame.stack = s := rfl

/-! ### Runs up to a state -/

/-- Within a number of steps all states have the property `Q`, until one has the property `R`. -/
def Until (p : LinkedModule) (maxDepth : Nat) (Q R : Trace → Prop) : Nat → Trace → Prop
  | 0, s => R s ∨ Q s
  | n + 1, s =>
    R s ∨ (Q s ∧ ∀ s', s.next p maxDepth = some s' → Until p maxDepth Q R n s')

section

variable {Q R Q' R' : Trace → Prop} {n : Nat}

theorem Until.of_end (h : R s) : Until p maxDepth Q R n s := by
  cases n with
  | zero => exact .inl h
  | succ n => exact .inl h

theorem Until.pred (h : Until p maxDepth Q R (n + 1) s) : Until p maxDepth Q R n s := by
  induction n generalizing s with
  | zero =>
    obtain h | ⟨h, -⟩ := h
    · exact .inl h
    · exact .inr h
  | succ n ih =>
    obtain h | ⟨h, hnext⟩ := h
    · exact .inl h
    · exact .inr ⟨h, fun s' hs' => ih (hnext s' hs')⟩

theorem Until.le {k : Nat} (h : Until p maxDepth Q R n s) (hk : k ≤ n) :
    Until p maxDepth Q R k s := by
  induction hk with
  | refl => exact h
  | step _ ih => exact ih h.pred

theorem Until.imp (h : Until p maxDepth Q R n s) (hQ : ∀ s, Q s → Q' s) (hR : ∀ s, R s → R' s) :
    Until p maxDepth Q' R' n s := by
  induction n generalizing s with
  | zero => exact h.imp (hR s) (hQ s)
  | succ n ih =>
    obtain h | ⟨h, hnext⟩ := h
    · exact .inl (hR s h)
    · exact .inr ⟨hQ s h, fun s' hs' => ih (hnext s' hs')⟩

/-- A step, where what follows it has fewer steps left. -/
theorem Until.step_lt (hQ : Q s) (h : ∀ k < n, ∀ t, s.thread.step p maxDepth = .next t →
    Until p maxDepth Q R k (s.advance p t)) : Until p maxDepth Q R n s := by
  cases n with
  | zero => exact .inr hQ
  | succ n =>
    refine .inr ⟨hQ, fun s' hs' => ?_⟩
    obtain ⟨t, ht, rfl⟩ := next_eq_some.1 hs'
    exact h n (Nat.lt_succ_self n) t ht

/-- A step, where the number of steps left does not matter. -/
theorem Until.step (hQ : Q s) (h : ∀ t, s.thread.step p maxDepth = .next t →
    Until p maxDepth Q R n (s.advance p t)) : Until p maxDepth Q R n s :=
  .step_lt hQ fun _ hk t ht => (h t ht).le (Nat.le_of_lt hk)

/-- The state at the end is one that the run comes to. -/
theorem Until.reached (h : Until p maxDepth Q R n s) (hs : Reaches p maxDepth u s) :
    Until p maxDepth Q (fun s' => Reaches p maxDepth u s' ∧ R s') n s := by
  induction n generalizing s with
  | zero => exact h.imp_left fun h => ⟨hs, h⟩
  | succ n ih =>
    obtain h | ⟨h, hnext⟩ := h
    · exact .inl ⟨hs, h⟩
    · exact .inr ⟨h, fun s' hs' => ih (hnext s' hs') (hs.step hs')⟩

/-- What holds without end holds of all states that a run comes to. -/
theorem Until.reaches (h : ∀ n, Until p maxDepth Q (fun _ => False) n s)
    (hs : Reaches p maxDepth s s') : Q s' := by
  have hall : ∀ n, Until p maxDepth Q (fun _ => False) n s' := by
    induction hs with
    | refl => exact h
    | step _ hv ih =>
      intro n
      obtain hf | ⟨-, hnext⟩ := ih (n + 1)
      · exact hf.elim
      · exact hnext _ hv
  obtain hf | hq := hall 0
  · exact hf.elim
  · exact hq

end

/-! ### What a record says -/

theorem heap_advance (s : Trace) (t : Thread) : s.heap ≤ (s.advance p t).heap :=
  Nat.le_add_right _ _

theorem Reaches.heap_le (h : Reaches p maxDepth s s') : s.heap ≤ s'.heap := by
  induction h with
  | refl => exact Nat.le_refl _
  | step _ hv ih =>
    obtain ⟨t, -, rfl⟩ := next_eq_some.1 hv
    exact Nat.le_trans ih (heap_advance _ t)

theorem begun_advance (s : Trace) (t : Thread) : s.begun ≤ (s.advance p t).begun := by
  simp only [advance]
  split
  · exact Nat.le_succ _
  · exact Nat.le_refl _

theorem mem_calls_advance {t : Thread} {a : Call} (ha : a ∈ (s.advance p t).calls) :
    a ∈ s.calls ∨
      (a.number = s.begun ∧ a.start = s.heap ∧ (s.advance p t).begun = s.begun + 1) := by
  simp only [advance] at ha ⊢
  split at ha
  · next hlt =>
    obtain rfl | ha := List.mem_cons.1 ha
    · exact .inr ⟨rfl, rfl, by simp [hlt]⟩
    · exact .inl ha
  · split at ha
    · exact .inl (List.mem_of_mem_tail ha)
    · exact .inl ha

theorem Reaches.begun_le (h : Reaches p maxDepth s s') : s.begun ≤ s'.begun := by
  induction h with
  | refl => exact Nat.le_refl _
  | step _ hv ih =>
    obtain ⟨t, -, rfl⟩ := next_eq_some.1 hv
    exact Nat.le_trans ih (begun_advance _ t)

/-- A call that was not under way before began since. -/
theorem Reaches.mem_calls (h : Reaches p maxDepth s s') {a : Call} (ha : a ∈ s'.calls) :
    a ∈ s.calls ∨ (s.begun ≤ a.number ∧ s.heap ≤ a.start) := by
  induction h with
  | refl => exact .inl ha
  | step hu hv ih =>
    obtain ⟨t, -, rfl⟩ := next_eq_some.1 hv
    obtain ha | ⟨hnumber, hstart, -⟩ := mem_calls_advance ha
    · exact ih ha
    · exact .inr ⟨hnumber ▸ hu.begun_le, hstart ▸ hu.heap_le⟩

/-- Calls under way have different numbers, the inner ones the higher. -/
def Numbered (s : Trace) : Prop :=
  (s.calls.map Call.number).Pairwise (· > ·) ∧ ∀ a ∈ s.calls, a.number < s.begun

theorem numbered_start (t : Thread) (function : Nat) : (start t function).Numbered := by
  refine ⟨by simp [start], fun a ha => ?_⟩
  obtain rfl := List.mem_singleton.1 ha
  exact Nat.one_pos

theorem Numbered.advance (h : s.Numbered) (t : Thread) : (s.advance p t).Numbered := by
  obtain ⟨hpair, hlt⟩ := h
  refine ⟨?_, fun a ha => ?_⟩
  · simp only [Trace.advance]
    split
    · refine List.pairwise_cons.2 ⟨fun n hn => ?_, hpair⟩
      obtain ⟨a, ha, rfl⟩ := List.mem_map.1 hn
      exact hlt a ha
    · split
      · rw [List.map_tail]
        exact hpair.tail
      · exact hpair
  · obtain ha | ⟨hn, -, hb⟩ := mem_calls_advance ha
    · exact Nat.lt_of_lt_of_le (hlt a ha) (begun_advance s t)
    · rw [hn, hb]
      exact Nat.lt_succ_self _

theorem Reaches.numbered (h : Reaches p maxDepth s s') (hs : s.Numbered) : s'.Numbered := by
  induction h with
  | refl => exact hs
  | step _ hv ih =>
    obtain ⟨t, -, rfl⟩ := next_eq_some.1 hv
    exact ih.advance t

/-! ### Runs of the machine -/

/-- A run that ends in a fault comes to a state whose next instruction causes it. -/
theorem exists_fault {n : Nat} {st : Store} {f : Fault}
    (h : s.thread.run p maxDepth n = some (st, .error f)) :
    ∃ s', Reaches p maxDepth s s' ∧ s'.thread.step p maxDepth = .fault st f := by
  induction n generalizing s with
  | zero => cases h
  | succ n ih =>
    simp only [Thread.run] at h
    split at h
    · next t ht =>
      obtain ⟨s', hs', hf⟩ := ih (s := s.advance p t) h
      exact ⟨s', (Reaches.refl.step (next_eq_some.2 ⟨t, ht, rfl⟩)).trans hs', hf⟩
    · cases h
    · next hf =>
      cases h
      exact ⟨s, .refl, hf⟩

/-- A run goes on from each state that it comes to. -/
theorem Reaches.run (h : Reaches p maxDepth s s') :
    ∃ k, ∀ n, s.thread.run p maxDepth (k + n) = s'.thread.run p maxDepth n := by
  induction h with
  | refl => exact ⟨0, fun n => by rw [Nat.zero_add]⟩
  | step _ hv ih =>
    obtain ⟨k, hk⟩ := ih
    obtain ⟨t, ht, rfl⟩ := next_eq_some.1 hv
    refine ⟨k + 1, fun n => ?_⟩
    rw [Nat.add_assoc, Nat.add_comm 1 n, hk]
    simp only [Thread.run, ht]
    rfl

theorem run_eq_fault_iff {st : Store} {f : Fault} :
    (∃ n, s.thread.run p maxDepth n = some (st, .error f)) ↔
      ∃ s', Reaches p maxDepth s s' ∧ s'.thread.step p maxDepth = .fault st f := by
  constructor
  · rintro ⟨n, hn⟩
    exact exists_fault hn
  · rintro ⟨s', hs', hf⟩
    obtain ⟨k, hk⟩ := hs'.run
    refine ⟨k + 1, ?_⟩
    rw [hk]
    simp only [Thread.run, hf]

end Trace

end ObjLang
