import ObjLang.Proofs.Machine.Resized
import ObjLang.Proofs.Machine.Typed.Call
import ObjLang.Proofs.Meaning

/-!
# ObjLang.Proofs.Machine.Meant.Ends — runs that end as a program means

`Leads` says of a computation that from a world, and behind some printed lines, it comes to an
outcome.  `Ends` is what is to be shown of a state of a run: the run ends as the outcome says, or
because a limit is exceeded.  One lemma for each instruction reduces this to the state behind the
instruction.
-/

namespace ObjLang

open Check

/-- The lines that a program prints, and its result or the trap that ends it. -/
abbrev Outcome := List String × Except Trap (Option Value)

/-! ### Computations that come to an outcome -/

namespace Eval

variable {α : Type} {σ : World} {ls : List String} {fin : Outcome} {K : α → Eval (Option Value)}

/-- From a world and behind some lines a computation comes to an outcome. -/
def Leads (m : Eval (Option Value)) (σ : World) (ls : List String) (fin : Outcome) : Prop :=
  ∃ ls' r σ', m σ = some (ls', r, σ') ∧ fin = (ls ++ ls', r)

theorem Leads.isPrefix {m : Eval (Option Value)} (h : m.Leads σ ls fin) : ls <+: fin.1 := by
  obtain ⟨ls', r, σ', -, rfl⟩ := h
  exact List.prefix_append ls ls'

theorem leads_world {K : World → Eval (Option Value)} :
    (world >>= K).Leads σ ls fin ↔ (K σ).Leads σ ls fin := by
  unfold Leads
  rw [show (world >>= K) σ = K σ σ from Option.map_id_apply]

theorem leads_become {τ : World} {K : Unit → Eval (Option Value)} :
    (become τ >>= K).Leads σ ls fin ↔ (K ()).Leads τ ls fin := by
  unfold Leads
  rw [show (become τ >>= K) σ = K () τ from Option.map_id_apply]

theorem leads_reply_ok {ls' : List String} {a : α} :
    (reply (some (ls', .ok a)) >>= K).Leads σ ls fin ↔ (K a).Leads σ (ls ++ ls') fin := by
  unfold Leads
  rw [show (reply (some (ls', .ok a)) >>= K) σ
    = (K a σ).map fun o => (ls' ++ o.1, o.2.1, o.2.2) from rfl]
  constructor
  · rintro ⟨_, _, _, h, rfl⟩
    obtain ⟨⟨ls'', r, σ''⟩, hK, heq⟩ := Option.map_eq_some_iff.1 h
    cases heq
    exact ⟨ls'', _, _, hK, by rw [List.append_assoc]⟩
  · rintro ⟨ls'', r, σ'', h, rfl⟩
    exact ⟨ls' ++ ls'', r, σ'', by rw [h, Option.map_some], by rw [List.append_assoc]⟩

theorem leads_reply_error {ls' : List String} {e : Trap} :
    (reply (some (ls', .error e)) >>= K).Leads σ ls fin ↔ fin = (ls ++ ls', .error e) := by
  constructor
  · rintro ⟨_, _, _, h, rfl⟩
    cases h
    rfl
  · rintro rfl
    exact ⟨_, _, _, rfl, rfl⟩

theorem not_leads_reply_none : ¬ (reply none >>= K).Leads σ ls fin := by
  rintro ⟨_, _, _, h, -⟩
  cases h

theorem leads_known {o : Option α} :
    (known o >>= K).Leads σ ls fin ↔ ∃ a, o = some a ∧ (K a).Leads σ ls fin := by
  cases o with
  | none => exact ⟨fun h => absurd h not_leads_reply_none, fun ⟨_, h, _⟩ => by cases h⟩
  | some a =>
    refine leads_reply_ok.trans ?_
    rw [List.append_nil]
    exact ⟨fun h => ⟨a, rfl, h⟩, fun ⟨_, h, h'⟩ => by cases h; exact h'⟩

theorem leads_trap {e : Trap} : (trap e >>= K).Leads σ ls fin ↔ fin = (ls, .error e) := by
  refine leads_reply_error.trans ?_
  rw [List.append_nil]

theorem not_leads_stuck : ¬ (stuck >>= K).Leads σ ls fin := not_leads_reply_none

theorem leads_read {pl : Place} {K : Value → Eval (Option Value)} :
    (read pl >>= K).Leads σ ls fin ↔ (K (σ.vars pl)).Leads σ ls fin := by
  rw [read, bind_assoc, leads_world, pure_bind]

theorem leads_write {pl : Place} {v : Value} {K : Unit → Eval (Option Value)} :
    (write pl v >>= K).Leads σ ls fin ↔ (K ()).Leads (σ.write pl v) ls fin := by
  rw [write, bind_assoc, leads_world, leads_become]

theorem leads_object {number : Nat} {K : Object → Eval (Option Value)} :
    (object number >>= K).Leads σ ls fin
      ↔ ∃ o, σ.objects[number]? = some o ∧ (K o).Leads σ ls fin := by
  rw [object, bind_assoc, leads_world, leads_known]

end Eval

/-! ### Ends of runs -/

/-- A word is what a run shows of a value.  Where an object lies is not said. -/
def Value.Shows : Value → Int32 → Prop
  | .int n, x => x = n
  | .bool b, x => x = truthWord b
  | .none, x => x = 0
  | .object _, x => 0 < x

/-- A run may end so, where the program comes to an outcome. -/
def Outcome.Allows (fin : Outcome) (st : Store) : Except Fault Int32 → Prop
  | .ok x => ∃ v, fin = (st.output.toList, .ok v) ∧ ∀ u, v = some u → u.Shows x
  | .error (.trap e) =>
    fin = (st.output.toList, .error e) ∨ ((Fault.trap e).IsLimit ∧ st.output.toList <+: fin.1)
  | .error .noVariable => False

/-- A run ends as it may. -/
def Trace.Meets (p : LinkedModule) (maxDepth : Nat) (fin : Outcome) (s : Trace) : Prop :=
  ∃ n st r, s.thread.run p maxDepth n = some (st, r) ∧ fin.Allows st r

section

variable {p : LinkedModule} {maxDepth : Nat} {fin : Outcome} {s s' : Trace}

theorem Trace.Meets.next (hnext : s.next p maxDepth = some s') (h : s'.Meets p maxDepth fin) :
    s.Meets p maxDepth fin := by
  obtain ⟨n, st, r, hrun, hr⟩ := h
  obtain ⟨t, ht, rfl⟩ := Trace.next_eq_some.1 hnext
  refine ⟨n + 1, st, r, ?_, hr⟩
  simp only [Thread.run, ht]
  exact hrun

theorem Trace.Meets.fault {st : Store} {f : Fault}
    (hstep : s.thread.step p maxDepth = .fault st f) (h : fin.Allows st (.error f)) :
    s.Meets p maxDepth fin :=
  ⟨1, st, .error f, by simp only [Thread.run, hstep], h⟩

theorem Trace.Meets.done {st : Store} {x : Int32} (hstep : s.thread.step p maxDepth = .done st x)
    (h : fin.Allows st (.ok x)) : s.Meets p maxDepth fin :=
  ⟨1, st, .ok x, by simp only [Thread.run, hstep], h⟩

end

namespace Setting

/-- A run goes on from a state to an end that it may come to. -/
def Ends (w : Setting) (s₀ : Trace) (fin : Outcome) (H : Ledger) (s : Trace) : Prop :=
  Trace.Reaches w.linked w.maxDepth s₀ s →
    (∀ t ∈ H.states, Trace.Reaches w.linked w.maxDepth t s) → s.Meets w.linked w.maxDepth fin

variable {w : Setting} {s₀ : Trace} {t₀ : State} {b : Body} {Q : Trace → Prop} {fin : Outcome}
  {k lim i j : Nat} {H H' : Ledger} {s s' u : Trace} {S : List Int32} {v x y : Int32}

/-- The lines that a run has printed so far. -/
def printed (s : Trace) : List String := s.thread.store.output.toList

namespace Ends

theorem next (hnext : s.next w.linked w.maxDepth = some s') (h : w.Ends s₀ fin H s') :
    w.Ends s₀ fin H s :=
  fun hs hH => (h (hs.step hnext) fun t ht => (hH t ht).step hnext).next hnext

/-- A step to another store, with the same heap pointer. -/
theorem nextStore {st : Store} {S' : List Int32}
    (hstep : (s.thread.on i S).step w.linked w.maxDepth = .next ((s.thread.withStore st).on j S'))
    (hheap : st.globals[0]? = s.thread.store.globals[0]?)
    (h : w.Ends s₀ fin H ((s.withStore st).on j S')) : w.Ends s₀ fin H (s.on i S) :=
  h.next (Trace.next_eq_some.2 ⟨_, hstep, (s.advance_withStore rfl hheap).symm⟩)

/-- The ledger may go on in whatever the run is known to have come to. -/
theorem of_sub (h : w.Ends s₀ fin H' s)
    (hstates : ∀ t ∈ H'.states, t ∈ H.states ∨ t = s) : w.Ends s₀ fin H s := by
  refine fun hs hH => h hs fun t ht => ?_
  obtain ht | rfl := hstates t ht
  · exact hH t ht
  · exact .refl

theorem of_add {B : Block} (h : w.Ends s₀ fin (H.add B) s) : w.Ends s₀ fin H s :=
  h.of_sub fun _ ht => .inl ht

/-- A step to a trap that ends the program. -/
theorem trap {e : Trap} (hstep : s.thread.step w.linked w.maxDepth = .fault s.thread.store (.trap e))
    (h : fin = (printed s, .error e)) : w.Ends s₀ fin H s :=
  fun _ _ => .fault hstep (.inl h)

/-- A step to a trap at a limit. -/
theorem limit {e : Trap} (hstep : s.thread.step w.linked w.maxDepth = .fault s.thread.store (.trap e))
    (he : (Fault.trap e).IsLimit) (h : printed s <+: fin.1) : w.Ends s₀ fin H s :=
  fun _ _ => .fault hstep (.inr ⟨he, h⟩)

section

variable (h : w.Holds s₀ t₀ b Q k lim H s)

include h

/-! ### Operands -/

theorem const (hop : b.code[i]? = some (.const v)) (hu : w.Ends s₀ fin H (s.on (i + 1) (v :: S))) :
    w.Ends s₀ fin H (s.on i S) :=
  hu.next (Trace.next_on (Thread.step_const (h.op_eq hop)))

theorem localGet (hop : b.code[i]? = some (.localGet j)) (hv : s.thread.frame.locals[j]? = some v)
    (hu : w.Ends s₀ fin H (s.on (i + 1) (v :: S))) : w.Ends s₀ fin H (s.on i S) :=
  hu.next (Trace.next_on (Thread.step_localGet_of (h.op_eq hop) hv))

theorem globalGet (hop : b.code[i]? = some (.globalGet j))
    (hv : s.thread.store.globals[j]? = some v) (hu : w.Ends s₀ fin H (s.on (i + 1) (v :: S))) :
    w.Ends s₀ fin H (s.on i S) := by
  refine hu.next (Trace.next_on ?_)
  rw [Thread.step_on (h.op_eq hop)]
  simp only [Thread.exec, Thread.on_store, hv]
  rfl

theorem load (hop : b.code[i]? = some (.load j)) (hin : Memory.position x j + 4 ≤ w.size)
    (hu : w.Ends s₀ fin H
      (s.on (i + 1) (s.thread.store.memory.word (Memory.position x j) :: S))) :
    w.Ends s₀ fin H (s.on i (x :: S)) :=
  hu.next (Trace.next_on (Thread.step_load_of (h.op_eq hop) (h.heap.memory ▸ hin)))

theorem eqz (hop : b.code[i]? = some .eqz)
    (hu : w.Ends s₀ fin H (s.on (i + 1) (truthWord (x == 0) :: S))) :
    w.Ends s₀ fin H (s.on i (x :: S)) :=
  hu.next (Trace.next_on (Thread.step_eqz (h.op_eq hop)))

theorem drop (hop : b.code[i]? = some .drop) (hu : w.Ends s₀ fin H (s.on (i + 1) S)) :
    w.Ends s₀ fin H (s.on i (x :: S)) :=
  hu.next (Trace.next_on (Thread.step_drop (h.op_eq hop)))

theorem binary {op : WordOp} (hop : b.code[i]? = some (.binary op)) (hv : op.eval x y = .ok v)
    (hu : w.Ends s₀ fin H (s.on (i + 1) (v :: S))) : w.Ends s₀ fin H (s.on i (y :: x :: S)) := by
  refine hu.next (Trace.next_on ?_)
  rw [Thread.step_on (h.op_eq hop)]
  simp only [Thread.exec, Thread.pop_on, hv]
  rfl

/-- An operation that traps, where the program does so too. -/
theorem binary_trap {op : WordOp} {e : Trap} (hop : b.code[i]? = some (.binary op))
    (hv : op.eval x y = .error e) (hfin : fin = (printed s, .error e)) :
    w.Ends s₀ fin H (s.on i (y :: x :: S)) := by
  refine trap ?_ hfin
  rw [Trace.on_thread, Thread.step_on (h.op_eq hop)]
  simp only [Thread.exec, Thread.pop_on, hv]
  rfl

/-! ### Jumps -/

theorem jump (hop : b.code[i]? = some (.jump j)) (hu : w.Ends s₀ fin H (s.on j S)) :
    w.Ends s₀ fin H (s.on i S) :=
  hu.next (Trace.next_on (Thread.step_jump (h.op_eq hop)))

theorem jumpIf (hop : b.code[i]? = some (.jumpIf j))
    (hu : w.Ends s₀ fin H (s.on (if x = 0 then i + 1 else j) S)) :
    w.Ends s₀ fin H (s.on i (x :: S)) :=
  hu.next (Trace.next_on (Thread.step_jumpIf (h.op_eq hop)))

theorem jumpUnless (hop : b.code[i]? = some (.jumpUnless j))
    (hu : w.Ends s₀ fin H (s.on (if x = 0 then j else i + 1) S)) :
    w.Ends s₀ fin H (s.on i (x :: S)) :=
  hu.next (Trace.next_on (Thread.step_jumpUnless (h.op_eq hop)))

/-! ### Variables and memory -/

/-- A local gets a value. -/
theorem localSet (hop : b.code[i]? = some (.localSet j)) (hj : j < s.thread.frame.locals.size)
    (hu : w.Ends s₀ fin H ((s.withLocal j v).on (i + 1) S)) :
    w.Ends s₀ fin H (s.on i (v :: S)) := by
  refine hu.next (Trace.next_eq_some.2 ⟨_, ?_, s.advance_withLocal.symm⟩)
  rw [Trace.on_thread, Thread.step_on (h.op_eq hop)]
  exact if_pos hj

/-- A module variable gets a value. -/
theorem globalSet (hop : b.code[i]? = some (.globalSet j)) (hj : j ≠ 0)
    (hlt : j < s.thread.store.globals.size)
    (hu : w.Ends s₀ fin H ((s.withStore { s.thread.store with
      globals := s.thread.store.globals.setIfInBounds j v }).on (i + 1) S)) :
    w.Ends s₀ fin H (s.on i (v :: S)) := by
  refine nextStore ?_ (Array.getElem?_setIfInBounds_ne hj) hu
  rw [Thread.step_on (h.op_eq hop)]
  exact if_pos hlt

/-- A word of the memory gets a value. -/
theorem store (hop : b.code[i]? = some (.store j)) (hin : Memory.position x j + 4 ≤ w.size)
    (hu : w.Ends s₀ fin H ((s.withStore { s.thread.store with
      memory := s.thread.store.memory.setWord (Memory.position x j) v }).on (i + 1) S)) :
    w.Ends s₀ fin H (s.on i (v :: x :: S)) := by
  have hin' : Memory.position x j + 4 ≤ s.thread.store.memory.size := h.heap.memory.symm ▸ hin
  exact nextStore (Thread.step_store_of (h.op_eq hop) hin') rfl hu

/-- A word behind the memory gets a value. -/
theorem store_limit (hop : b.code[i]? = some (.store j))
    (hout : ¬ Memory.position x j + 4 ≤ w.size) (hfin : printed s <+: fin.1) :
    w.Ends s₀ fin H (s.on i (v :: x :: S)) := by
  refine limit (e := .memoryOutOfBounds (Memory.position x j)) ?_ trivial hfin
  rw [Trace.on_thread, Thread.step_on (h.op_eq hop)]
  exact if_neg fun hin => hout (h.heap.memory ▸ of_decide_eq_true hin)

end

end Ends

end Setting

end ObjLang
