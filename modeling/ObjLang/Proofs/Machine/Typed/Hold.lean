import ObjLang.Proofs.Machine.Typed.Ledger

/-!
# ObjLang.Proofs.Machine.Typed.Hold — the instructions of a call, with the types of their words

`Holds` says that a call of a function is under way whose variables suit their types by a ledger, and
that a property is to be shown of the states that follow.  One lemma for each instruction reduces
this to the state behind the instruction.  `Goes` is what is to be shown: it may be assumed that the
run has come to the state, and before it to the states of the ledger.
-/

namespace ObjLang

open Check Check.Facts

namespace Setting

/-- A property of the states that follow in a run. -/
def Goes (w : Setting) (s₀ : Trace) (Q R : Trace → Prop) (n : Nat) (H : Ledger) (s : Trace) : Prop :=
  Trace.Reaches w.linked w.maxDepth s₀ s →
    (∀ t ∈ H.states, Trace.Reaches w.linked w.maxDepth t s) →
      Trace.Until w.linked w.maxDepth Q R n s

/-- A property that typed states have in which at least `k` calls wait, and if only these wait, the
innermost call has not come to the position `lim`. -/
def Takes (w : Setting) (s₀ : Trace) (Q : Trace → Prop) (k lim : Nat) : Prop :=
  ∀ s, w.Typed s₀ s → k ≤ s.thread.callers.length →
    (s.thread.callers.length = k → s.thread.frame.position < lim) → Q s

/-- A prologue that may touch the slots of all variables of its definition. -/
def Ahead (w : Setting) (b : Body) (lim : Nat) : Prop :=
  ∀ outer d, w.program.Nest outer d →
    w.module.index b.name = w.module.index (w.program.emitted d) →
    lim ≤ w.program.prologue d ∧ b.vars = (w.program.record d).slots

/-- The innermost call is one of a function, with variables that suit their types, and `Q` is to be
shown of its states. -/
structure Holds (w : Setting) (s₀ : Trace) (t₀ : State) (b : Body) (Q : Trace → Prop) (k lim : Nat)
    (H : Ledger) (s : Trace) : Prop where
  solid : w.Solid s₀ t₀
  body : w.BodyOk t₀ b
  place : w.Past b ∨ w.Ahead b lim
  takes : w.Takes s₀ Q k lim
  code : s.thread.frame.code = b.code
  calls : ∃ a as, s.calls = a :: as ∧ a.function = w.module.index b.name ∧
    w.CallersOk s₀ H s.thread.callers as
  heap : w.HeapOk s₀ H s.thread.store s.heap
  safe : ∀ v ∈ b.vars, w.VarSafe s₀ H s.thread.frame v
  vars : w.Past b → ∀ v ∈ b.vars, w.VarOk H.blocks s.thread.frame v
  depth : s.thread.callers.length = k

/-- What is left alone between two states of one call, where temporaries with numbers from `m` on may
change. -/
structure Moves (w : Setting) (s₀ : Trace) (b : Body) (m : Nat) (H : Ledger) (s : Trace)
    (H' : Ledger) (s' : Trace) : Prop where
  sub : H.Sub H'
  calls : s'.calls = s.calls
  callers : s'.thread.callers = s.thread.callers
  code : s'.thread.frame.code = s.thread.frame.code
  heap_le : s.heap ≤ s'.heap
  heap : w.HeapOk s₀ H' s'.thread.store s'.heap
  safe : ∀ v ∈ b.vars, w.VarSafe s₀ H' s'.thread.frame v
  vars : w.Past b → ∀ v ∈ b.vars, w.VarOk H'.blocks s'.thread.frame v
  cells : w.Past b → ∀ v ∈ b.vars, (w.program.var v).isIndirect = true →
    s'.thread.frame.locals[w.program.slot v]? = s.thread.frame.locals[w.program.slot v]?
  temps : ∀ i < m, Emit.receiverName i ∈ (w.names b).frame →
    s'.thread.frame.locals[(w.names b).slot (Emit.receiverName i)]?
      = s.thread.frame.locals[(w.names b).slot (Emit.receiverName i)]?

variable {w : Setting} {s₀ : Trace} {t₀ : State} {b : Body} {Q R : Trace → Prop}
  {k lim lim' n m m' i j : Nat} {H H' H'' : Ledger} {s s' s'' u : Trace} {S S' : List Int32}
  {v x : Int32}

/-! ### Goals -/

/-- Inside a call nothing is asked of positions. -/
theorem Takes.inner (h : w.Takes s₀ Q k lim) (lim' : Nat) : w.Takes s₀ Q (k + 1) lim' :=
  fun s hs hk _ => h s hs (Nat.le_of_succ_le hk) fun heq => absurd hk (by omega)

theorem Goes.le (h : w.Goes s₀ Q R n H s) (hm : m ≤ n) : w.Goes s₀ Q R m H s :=
  fun hs hH => (h hs hH).le hm

/-- The ledger may go on in whatever the run is known to have come to. -/
theorem Goes.of_sub (h : w.Goes s₀ Q R n H' s)
    (hstates : ∀ t ∈ H'.states, t ∈ H.states ∨ t = s) : w.Goes s₀ Q R n H s := by
  refine fun hs hH => h hs fun t ht => ?_
  obtain ht | rfl := hstates t ht
  · exact hH t ht
  · exact .refl

theorem Goes.of_add {B : Block} (h : w.Goes s₀ Q R n (H.add B) s) : w.Goes s₀ Q R n H s :=
  h.of_sub fun _ ht => .inl ht

/-! ### States of one call -/

theorem Moves.trans (h : w.Moves s₀ b m H s H' s') (h' : w.Moves s₀ b m' H' s' H'' s'')
    (hm : m ≤ m') : w.Moves s₀ b m H s H'' s'' where
  sub := h.sub.trans h'.sub
  calls := h'.calls.trans h.calls
  callers := h'.callers.trans h.callers
  code := h'.code.trans h.code
  heap_le := Nat.le_trans h.heap_le h'.heap_le
  heap := h'.heap
  safe := h'.safe
  vars := h'.vars
  cells := fun hp v hv hind => (h'.cells hp v hv hind).trans (h.cells hp v hv hind)
  temps := fun i hi hmem =>
    (h'.temps i (Nat.lt_of_lt_of_le hi hm) hmem).trans (h.temps i hi hmem)

theorem Moves.le (h : w.Moves s₀ b m' H s H' s') (hm : m ≤ m') : w.Moves s₀ b m H s H' s' :=
  { h with temps := fun i hi => h.temps i (Nat.lt_of_lt_of_le hi hm) }

namespace Holds

theorem refl (h : w.Holds s₀ t₀ b Q k lim H s) (m : Nat) : w.Moves s₀ b m H s H s :=
  ⟨.refl H, rfl, rfl, rfl, Nat.le_refl _, h.heap, h.safe, h.vars, fun _ _ _ _ => rfl,
    fun _ _ _ => rfl⟩

theorem follow (h : w.Holds s₀ t₀ b Q k lim H s) (hf : w.Moves s₀ b m H s H' s') :
    w.Holds s₀ t₀ b Q k lim H' s' := by
  obtain ⟨a, as, hcalls, ha, hcallers⟩ := h.calls
  exact ⟨h.solid, h.body, h.place, h.takes, hf.code.trans h.code,
    ⟨a, as, hf.calls.trans hcalls, ha, by rw [hf.callers]; exact hcallers.mono hf.sub⟩,
    hf.heap, hf.safe, hf.vars, by rw [hf.callers, h.depth]⟩

theorem compiled (h : w.Holds s₀ t₀ b Q k lim H s) :
    ∃ p o, Compiled p w.program t₀ o w.module w.linked :=
  h.solid.compiled

/-- A call of the function of a definition has variables that suit their types, wherever it is. -/
theorem frameOk (h : w.Holds s₀ t₀ b Q k lim H s) (hi : w.Past b ∨ i < lim) {a : Trace.Call}
    (ha : a.function = w.module.index b.name) : w.FrameOk s₀ H (s.on i S).thread.frame a := by
  intro outer d hd had v hv
  obtain hpast | hahead := h.place
  · have hmem : v ∈ b.vars := (hpast outer d hd (ha.symm.trans had)).1 ▸ hv
    exact ⟨h.safe v hmem, fun _ => h.vars hpast v hmem⟩
  · obtain ⟨hle, hvars⟩ := hahead outer d hd (ha.symm.trans had)
    refine ⟨h.safe v (hvars ▸ hv), fun hpos => ?_⟩
    obtain hpast | hi := hi
    · exact h.vars hpast v (hvars ▸ hv)
    · have hposi : w.program.prologue d ≤ i := hpos
      omega

theorem typedBy (h : w.Holds s₀ t₀ b Q k lim H s) (hi : w.Past b ∨ i < lim)
    (hH : ∀ t ∈ H.states, Trace.Reaches w.linked w.maxDepth t (s.on i S)) :
    w.TypedBy s₀ H (s.on i S) := by
  obtain ⟨a, as, hcalls, ha, hcallers⟩ := h.calls
  exact ⟨hH, h.heap, a, as, hcalls, h.frameOk hi ha, hcallers⟩

/-- A step of the call that may only end in a trap that is allowed for. -/
theorem advance (h : w.Holds s₀ t₀ b Q k lim H s) (hlim : i < lim)
    (hcalm : (∀ t ∈ H.states, Trace.Reaches w.linked w.maxDepth t (s.on i S)) → ∀ st e,
      (s.thread.on i S).step w.linked w.maxDepth = .fault st (.trap e) → w.Calm s₀ (s.on i S) e)
    (hends : ∀ x n, (s.on i S).Allocates w.module x n → w.Allocated (s.on i S) x n)
    (hnext : Trace.Reaches w.linked w.maxDepth s₀ (s.on i S) → ∀ m < n, ∀ t,
      (s.thread.on i S).step w.linked w.maxDepth = .next t →
        w.Goes s₀ Q R m H ((s.on i S).advance w.linked t)) :
    w.Goes s₀ Q R n H (s.on i S) := by
  intro hs hH
  have htyped : w.Typed s₀ (s.on i S) := ⟨⟨H, h.typedBy (.inr hlim) hH⟩, hcalm hH, hends⟩
  refine .step_lt (h.takes _ htyped (Nat.le_of_eq h.depth.symm) fun _ => hlim) fun m hm t ht => ?_
  have hstep : (s.on i S).next w.linked w.maxDepth = some ((s.on i S).advance w.linked t) :=
    Trace.next_eq_some.2 ⟨t, ht, rfl⟩
  exact hnext hs m hm t ht (hs.step hstep) fun u hu => (hH u hu).step hstep

/-- A call that goes on is not at its end. -/
theorem not_ends (h : w.Holds s₀ t₀ b Q k lim H s) {op : Op} (hop : b.code[i]? = some op)
    (x y : Int32) (hx : (s.on i S).Allocates w.module x y) : w.Allocated (s.on i S) x y := by
  have hends := hx.ends
  rw [Trace.on_thread, Thread.on_code, Thread.on_position, h.code, hop] at hends
  cases hends

/-- An instruction of the call that may only end in a trap of its own. -/
theorem step (h : w.Holds s₀ t₀ b Q k lim H s) (hlim : i < lim) {op : Op}
    (hop : b.code[i]? = some op)
    (hplain : ∀ st e, (s.thread.on i S).step w.linked w.maxDepth = .fault st (.trap e) →
      e.IsPlain)
    (hnext : ∀ m < n, ∀ t, (s.thread.on i S).step w.linked w.maxDepth = .next t →
      w.Goes s₀ Q R m H ((s.on i S).advance w.linked t)) :
    w.Goes s₀ Q R n H (s.on i S) :=
  h.advance hlim (fun _ st e he => calm_of_isPlain (hplain st e he)) (h.not_ends hop)
    fun _ => hnext

theorem op_eq (h : w.Holds s₀ t₀ b Q k lim H s) {op : Op} (hop : b.code[i]? = some op) :
    s.thread.frame.code[i]? = some op := by
  rw [h.code, hop]

/-- A step that cannot trap and only moves on in the call, with other operands. -/
theorem move (h : w.Holds s₀ t₀ b Q k lim H s) (hlim : i < lim) {op : Op}
    (hop : b.code[i]? = some op)
    (hstep : (s.thread.on i S).step w.linked w.maxDepth = .next (s.thread.on j S'))
    (hu : ∀ m < n, w.Goes s₀ Q R m H (s.on j S')) : w.Goes s₀ Q R n H (s.on i S) := by
  refine h.step hlim hop (fun st e he => ?_) fun m hm t ht => ?_
  · rw [hstep] at he
    cases he
  · rw [hstep] at ht
    cases ht
    rw [Trace.advance_on]
    exact hu m hm

/-! ### Operands -/

theorem const (h : w.Holds s₀ t₀ b Q k lim H s) (hlim : i < lim)
    (hop : b.code[i]? = some (.const v)) (hu : w.Goes s₀ Q R n H (s.on (i + 1) (v :: S))) :
    w.Goes s₀ Q R n H (s.on i S) :=
  h.move hlim hop (Thread.step_const (h.op_eq hop)) fun _ hm => hu.le (Nat.le_of_lt hm)

theorem localGet_any (h : w.Holds s₀ t₀ b Q k lim H s) (hlim : i < lim)
    (hop : b.code[i]? = some (.localGet j))
    (hu : ∀ v, s.thread.frame.locals[j]? = some v → w.Goes s₀ Q R n H (s.on (i + 1) (v :: S))) :
    w.Goes s₀ Q R n H (s.on i S) := by
  refine h.step hlim hop (fun st e he => ?_) fun m hm t ht => ?_
  · rw [Thread.step_on (h.op_eq hop)] at he
    simp only [Thread.exec] at he
    split at he <;> cases he
  · obtain ⟨v, hv, rfl⟩ := Thread.step_localGet (h.op_eq hop) ht
    rw [Trace.advance_on]
    exact (hu v hv).le (Nat.le_of_lt hm)

theorem localGet (h : w.Holds s₀ t₀ b Q k lim H s) (hlim : i < lim)
    (hop : b.code[i]? = some (.localGet j)) (hv : s.thread.frame.locals[j]? = some v)
    (hu : w.Goes s₀ Q R n H (s.on (i + 1) (v :: S))) : w.Goes s₀ Q R n H (s.on i S) :=
  h.localGet_any hlim hop fun _ hv' => Option.some.inj (hv.symm.trans hv') ▸ hu

theorem globalGet (h : w.Holds s₀ t₀ b Q k lim H s) (hlim : i < lim)
    (hop : b.code[i]? = some (.globalGet j)) (hv : s.thread.store.globals[j]? = some v)
    (hu : w.Goes s₀ Q R n H (s.on (i + 1) (v :: S))) : w.Goes s₀ Q R n H (s.on i S) := by
  refine h.move hlim hop ?_ fun _ hm => hu.le (Nat.le_of_lt hm)
  rw [Thread.step_on (h.op_eq hop)]
  simp only [Thread.exec, Thread.on_store, hv]
  rfl

theorem load (h : w.Holds s₀ t₀ b Q k lim H s) (hlim : i < lim)
    (hop : b.code[i]? = some (.load j)) {a : Int32} (hin : Memory.position a j + 4 ≤ w.size)
    (hu : w.Goes s₀ Q R n H
      (s.on (i + 1) (s.thread.store.memory.word (Memory.position a j) :: S))) :
    w.Goes s₀ Q R n H (s.on i (a :: S)) :=
  h.move hlim hop (Thread.step_load_of (h.op_eq hop) (h.heap.memory ▸ hin)) fun _ hm =>
    hu.le (Nat.le_of_lt hm)

theorem eqz (h : w.Holds s₀ t₀ b Q k lim H s) (hlim : i < lim) (hop : b.code[i]? = some .eqz)
    (hu : w.Goes s₀ Q R n H (s.on (i + 1) (truthWord (x == 0) :: S))) :
    w.Goes s₀ Q R n H (s.on i (x :: S)) :=
  h.move hlim hop (Thread.step_eqz (h.op_eq hop)) fun _ hm => hu.le (Nat.le_of_lt hm)

theorem drop (h : w.Holds s₀ t₀ b Q k lim H s) (hlim : i < lim) (hop : b.code[i]? = some .drop)
    (hu : w.Goes s₀ Q R n H (s.on (i + 1) S)) : w.Goes s₀ Q R n H (s.on i (x :: S)) :=
  h.move hlim hop (Thread.step_drop (h.op_eq hop)) fun _ hm => hu.le (Nat.le_of_lt hm)

/-- An operation on two words, which may trap for its own reasons only. -/
theorem binary (h : w.Holds s₀ t₀ b Q k lim H s) (hlim : i < lim) {op : WordOp}
    (hop : b.code[i]? = some (.binary op)) {y : Int32}
    (hu : ∀ v, op.eval x y = .ok v → w.Goes s₀ Q R n H (s.on (i + 1) (v :: S))) :
    w.Goes s₀ Q R n H (s.on i (y :: x :: S)) := by
  refine h.step hlim hop (fun st e he => ?_) fun m hm t ht => ?_
  · rw [Thread.step_on (h.op_eq hop)] at he
    simp only [Thread.exec, Thread.pop_on] at he
    split at he
    · cases he
    · next e' he' =>
      cases he
      cases op <;> simp only [WordOp.eval] at he' <;> repeat' split at he'
      all_goals first | (cases he'; exact trivial) | cases he'
  · obtain ⟨v, hv, rfl⟩ := Thread.step_binary (h.op_eq hop) ht
    rw [Trace.advance_on]
    exact (hu v hv).le (Nat.le_of_lt hm)

/-! ### Jumps -/

/-- A jump, after which there are fewer steps left. -/
theorem jump (h : w.Holds s₀ t₀ b Q k lim H s) (hlim : i < lim)
    (hop : b.code[i]? = some (.jump j)) (hu : ∀ m < n, w.Goes s₀ Q R m H (s.on j S)) :
    w.Goes s₀ Q R n H (s.on i S) :=
  h.move hlim hop (Thread.step_jump (h.op_eq hop)) hu

theorem jumpIf (h : w.Holds s₀ t₀ b Q k lim H s) (hlim : i < lim)
    (hop : b.code[i]? = some (.jumpIf j)) (hu : w.Goes s₀ Q R n H (s.on (i + 1) S))
    (hu' : w.Goes s₀ Q R n H (s.on j S)) : w.Goes s₀ Q R n H (s.on i (x :: S)) := by
  refine h.move hlim hop (Thread.step_jumpIf (h.op_eq hop)) fun m hm => ?_
  by_cases hx : x = 0
  · rw [if_pos hx]
    exact hu.le (Nat.le_of_lt hm)
  · rw [if_neg hx]
    exact hu'.le (Nat.le_of_lt hm)

theorem jumpUnless (h : w.Holds s₀ t₀ b Q k lim H s) (hlim : i < lim)
    (hop : b.code[i]? = some (.jumpUnless j)) (hu : w.Goes s₀ Q R n H (s.on (i + 1) S))
    (hu' : w.Goes s₀ Q R n H (s.on j S)) : w.Goes s₀ Q R n H (s.on i (x :: S)) := by
  refine h.move hlim hop (Thread.step_jumpUnless (h.op_eq hop)) fun m hm => ?_
  by_cases hx : x = 0
  · rw [if_pos hx]
    exact hu'.le (Nat.le_of_lt hm)
  · rw [if_neg hx]
    exact hu.le (Nat.le_of_lt hm)

/-! ### Variables and memory -/

/-- A local gets a value. -/
theorem localSet (h : w.Holds s₀ t₀ b Q k lim H s) (hlim : i < lim)
    (hop : b.code[i]? = some (.localSet j))
    (hu : j < s.thread.frame.locals.size →
      w.Goes s₀ Q R n H ((s.withLocal j v).on (i + 1) S)) :
    w.Goes s₀ Q R n H (s.on i (v :: S)) := by
  refine h.step hlim hop (fun st e he => ?_) fun m hm t ht => ?_
  · rw [Thread.step_on (h.op_eq hop)] at he
    simp only [Thread.exec, Thread.pop_on, Thread.setLocal] at he
    split at he <;> cases he
  · obtain ⟨hlt, rfl⟩ := Thread.step_localSet (h.op_eq hop) ht
    rw [Trace.advance_withLocal]
    exact (hu hlt).le (Nat.le_of_lt hm)

/-- A module variable gets a value. -/
theorem globalSet (h : w.Holds s₀ t₀ b Q k lim H s) (hlim : i < lim)
    (hop : b.code[i]? = some (.globalSet j)) (hj : j ≠ 0)
    (hu : w.Goes s₀ Q R n H ((s.withStore { s.thread.store with
      globals := s.thread.store.globals.setIfInBounds j v }).on (i + 1) S)) :
    w.Goes s₀ Q R n H (s.on i (v :: S)) := by
  refine h.step hlim hop (fun st e he => ?_) fun m hm t ht => ?_
  · rw [Thread.step_on (h.op_eq hop)] at he
    simp only [Thread.exec, Thread.pop_on, Thread.setGlobal] at he
    split at he <;> cases he
  · have ht := Thread.step_globalSet (h.op_eq hop) ht
    have hheap : (s.thread.store.globals.setIfInBounds j v)[0]? = s.thread.store.globals[0]? :=
      Array.getElem?_setIfInBounds_ne hj
    rw [s.advance_withStore ht hheap]
    exact hu.le (Nat.le_of_lt hm)

/-- A word of the memory gets a value; it lies in the memory, or in a new block that does not. -/
theorem store (h : w.Holds s₀ t₀ b Q k lim H s) (hlim : i < lim)
    (hop : b.code[i]? = some (.store j)) {a : Int32}
    (hin : Memory.position a j + 4 ≤ w.size ∨ ∃ B, (∃ t ∈ H.states, w.Gets s₀ B t) ∧
      B.address ≤ Memory.position a j ∧ Memory.position a j < B.stop ∧ w.size < B.stop ∧
      B.stop = s.heap)
    (hu : Memory.position a j + 4 ≤ w.size →
      w.Goes s₀ Q R n H ((s.withStore { s.thread.store with
        memory := s.thread.store.memory.setWord (Memory.position a j) v }).on (i + 1) S)) :
    w.Goes s₀ Q R n H (s.on i (v :: a :: S)) := by
  refine h.advance hlim (fun hH st e he => ?_) (h.not_ends hop) fun _ m hm t ht => ?_
  · rw [Thread.step_on (h.op_eq hop)] at he
    simp only [Thread.exec, Thread.pop_on, Thread.save] at he
    split at he
    · cases he
    · next hout =>
      cases he
      obtain hle | ⟨B, ⟨t, ht, hgets⟩, hB⟩ := hin
      · exact absurd (decide_eq_true (h.heap.memory.symm ▸ hle)) hout
      · exact ⟨B, t, hH t ht, hgets, hB⟩
  · obtain ⟨hle, ht⟩ := Thread.step_store (h.op_eq hop) ht
    rw [s.advance_withStore ht rfl]
    exact (hu (h.heap.memory ▸ hle)).le (Nat.le_of_lt hm)

/-! ### Moves -/

/-- A local that is no variable's gets a value. -/
theorem moves_local (h : w.Holds s₀ t₀ b Q k lim H s)
    (hj : ∀ v ∈ b.vars, j ≠ w.program.slot v)
    (hm : ∀ i < m, Emit.receiverName i ∈ (w.names b).frame →
      j ≠ (w.names b).slot (Emit.receiverName i)) :
    w.Moves s₀ b m H s H (s.withLocal j x) where
  sub := .refl H
  calls := rfl
  callers := rfl
  code := rfl
  heap_le := Nat.le_refl _
  heap := h.heap
  safe := fun v hv => (h.safe v hv).mono (.refl H)
    (Array.getElem?_setIfInBounds_ne (hj v hv))
  vars := fun hp v hv => (h.vars hp v hv).mono (fun _ hB => hB)
    (Array.getElem?_setIfInBounds_ne (hj v hv))
  cells := fun _ v hv _ => Array.getElem?_setIfInBounds_ne (hj v hv)
  temps := fun i hi hmem => Array.getElem?_setIfInBounds_ne (hm i hi hmem)

/-- A variable of the function gets another word in its slot. -/
theorem moves_slot (h : w.Holds s₀ t₀ b Q k lim H s) {y : VarId} (hy : y ∈ b.vars)
    (hplain : w.Past b → (w.program.var y).isIndirect = false)
    (hx : w.VarSafe s₀ H (s.withLocal (w.program.slot y) x).thread.frame y)
    (hvar : w.Past b → w.VarOk H.blocks (s.withLocal (w.program.slot y) x).thread.frame y) :
    w.Moves s₀ b 0 H s H (s.withLocal (w.program.slot y) x) where
  sub := .refl H
  calls := rfl
  callers := rfl
  code := rfl
  heap_le := Nat.le_refl _
  heap := h.heap
  safe := fun v hv => by
    by_cases heq : v = y
    · exact heq ▸ hx
    · exact (h.safe v hv).mono (.refl H) (Array.getElem?_setIfInBounds_ne fun hslot =>
        heq (h.body.inj v hv y hy hslot.symm))
  vars := fun hp v hv => by
    by_cases heq : v = y
    · exact heq ▸ hvar hp
    · exact (h.vars hp v hv).mono (fun _ hB => hB) (Array.getElem?_setIfInBounds_ne fun hslot =>
        heq (h.body.inj v hv y hy hslot.symm))
  cells := fun hp v hv hind => by
    refine Array.getElem?_setIfInBounds_ne fun hslot => ?_
    obtain rfl := h.body.inj v hv y hy hslot.symm
    rw [hplain hp] at hind
    cases hind
  temps := fun i hi => absurd hi (Nat.not_lt_zero i)

/-- The store changes. -/
theorem moves_store (h : w.Holds s₀ t₀ b Q k lim H s) {st : Store}
    (hst : w.HeapOk s₀ H st s.heap) (m : Nat) :
    w.Moves s₀ b m H s H (s.withStore st) where
  sub := .refl H
  calls := rfl
  callers := rfl
  code := rfl
  heap_le := Nat.le_refl _
  heap := hst
  safe := h.safe
  vars := h.vars
  cells := fun _ _ _ _ => rfl
  temps := fun _ _ _ => rfl

/-- The ledger goes on. -/
theorem moves_ledger (h : w.Holds s₀ t₀ b Q k lim H s) (hsub : H.Sub H')
    (hheap : w.HeapOk s₀ H' s.thread.store s.heap) (m : Nat) : w.Moves s₀ b m H s H' s where
  sub := hsub
  calls := rfl
  callers := rfl
  code := rfl
  heap_le := Nat.le_refl _
  heap := hheap
  safe := fun v hv => (h.safe v hv).mono hsub rfl
  vars := fun hp v hv => (h.vars hp v hv).mono hsub.blocks rfl
  cells := fun _ _ _ _ => rfl
  temps := fun _ _ _ => rfl

end Holds

end Setting

end ObjLang
