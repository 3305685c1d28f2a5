import ObjLang.Proofs.Machine.Frames

/-!
# ObjLang.Proofs.Machine.Body — the instructions of a call

`Here` says that a call of a function is under way and that a property is to be shown of the states
that follow.  One lemma for each instruction reduces this to the state behind the instruction.
`Follows` is what is left alone between two states of one call: the calls below it and the slots
that hold cells.
-/

namespace ObjLang

open Check Check.Facts

/-- A function of a linked module, or its prologue. -/
structure Body where
  /-- Its name in generated code. -/
  name : String
  func : Code.Func
  code : Array Op
  /-- Its statements. -/
  source : List Stmt
  /-- The declarations around its statements, the nearest first. -/
  levels : List Level
  /-- Whether it passes through it what a name denotes. -/
  passes : String → Bool
  /-- The type of the values that it returns. -/
  ret : Option Ty
  /-- The variables whose slots it sets only where they hold no cells. -/
  vars : List VarId
  /-- The position at which it begins. -/
  start : Nat

namespace Setting

variable (w : Setting)

/-- Where the names of a function lead. -/
def names (b : Body) : Names := w.module.names b.func

/-- What holds of the names in a function of a compiled program. -/
structure BodyOk (t₀ : State) (b : Body) : Prop where
  mem : b.func ∈ w.module.functions
  name : b.func.name = b.name
  own : ∀ x v, (t₀.facts w.program.classes).IsOwn b.levels x v → v ∈ b.vars
  notGlobal : ∀ v ∈ b.vars, (w.program.var v).isGlobal = false
  slot : ∀ v ∈ b.vars, (w.names b).slot (w.program.var v).name = w.program.slot v
  inj : ∀ v ∈ b.vars, ∀ u ∈ b.vars, w.program.slot v = w.program.slot u → v = u
  made : ∀ x rest, x.toList = '#' :: rest → x ∈ (w.names b).frame → ∀ v ∈ b.vars,
    (w.names b).slot x ≠ w.program.slot v
  inner : ∀ l lv, b.levels = l :: lv → ∃ outer e, w.program.Nest outer e ∧ e.id = some l.id ∧
    b.name = w.program.emitted e ∧ b.vars = (w.program.record e).slots ∧ b.source = e.body
  typed : (t₀.facts w.program.classes).BlockOk b.levels b.passes b.ret b.source
  statements : b.source = [] ∨ w.program.Statements b.name b.source b.start

/-- The statements of a function, which begin behind its prologue. -/
def Past (b : Body) : Prop :=
  ∀ outer d, w.program.Nest outer d →
    w.module.index b.name = w.module.index (w.program.emitted d) →
    b.vars = (w.program.record d).slots ∧ b.start = w.program.prologue d

/-- A prologue, in which the slots of aliases stay as they are. -/
def Before (b : Body) (lim : Nat) : Prop :=
  ∀ outer d, w.program.Nest outer d →
    w.module.index b.name = w.module.index (w.program.emitted d) →
    b.start < w.program.prologue d ∧ lim ≤ w.program.prologue d ∧
      ∀ v ∈ (w.program.record d).slots, (w.program.var v).isCapture = true → v ∈ b.vars

/-- A call of a function, whatever its position and operands. -/
structure Steady (b : Body) (s : Trace) : Prop where
  code : s.thread.frame.code = b.code
  function : ∃ a as, s.calls = a :: as ∧ a.function = w.module.index b.name
  stacked : w.Stacked s.heap (s.on b.start []).thread.frames s.calls
  heap : s.thread.store.globals[0]? = some (Int32.ofNat s.heap)
  memory : s.thread.store.memory.size = w.size

/-- What is left alone between two states of one call. -/
structure Follows (b : Body) (s s' : Trace) : Prop where
  calls : s'.calls = s.calls
  callers : s'.thread.callers = s.thread.callers
  code : s'.thread.frame.code = s.thread.frame.code
  slots : ∀ v ∈ b.vars, (w.program.var v).isIndirect = true →
    s'.thread.frame.locals[w.program.slot v]? = s.thread.frame.locals[w.program.slot v]?
  heap_le : s.heap ≤ s'.heap
  heap : s'.thread.store.globals[0]? = some (Int32.ofNat s'.heap)
  memory : s'.thread.store.memory.size = s.thread.store.memory.size

/-- The innermost call is one of a function, and `Q` is to be shown of its states. -/
structure Here (t₀ : State) (b : Body) (Q : Trace → Prop) (k lim : Nat) (s : Trace) : Prop where
  compiled : ∃ p o, Compiled p w.program t₀ o w.module w.linked
  body : w.BodyOk t₀ b
  place : w.Past b ∨ w.Before b lim
  admits : w.Admits Q k lim
  steady : w.Steady b s
  depth : s.thread.callers.length = k

variable {w} {t₀ : State} {b : Body} {Q R : Trace → Prop} {k lim lim' n i j : Nat} {s s' u : Trace}
  {S S' : List Int32} {v : Int32}

theorem Follows.trans (h : w.Follows b s u) (h' : w.Follows b u s') : w.Follows b s s' where
  calls := h'.calls.trans h.calls
  callers := h'.callers.trans h.callers
  code := h'.code.trans h.code
  slots := fun v hv hi => (h'.slots v hv hi).trans (h.slots v hv hi)
  heap_le := Nat.le_trans h.heap_le h'.heap_le
  heap := h'.heap
  memory := h'.memory.trans h.memory

namespace Here

theorem refl (h : w.Here t₀ b Q k lim s) : w.Follows b s s :=
  ⟨rfl, rfl, rfl, fun _ _ _ => rfl, Nat.le_refl _, h.steady.heap, rfl⟩

theorem follow (h : w.Here t₀ b Q k lim s) (hf : w.Follows b s s') : w.Here t₀ b Q k lim s' := by
  obtain ⟨hc, hb, hplace, hA, ⟨hcode, ⟨a, as, hcalls, ha⟩, hst, hheap, hmem⟩, hdepth⟩ := h
  refine ⟨hc, hb, hplace, hA, ⟨hf.code.trans hcode, ⟨a, as, hf.calls.trans hcalls, ha⟩, ?_, hf.heap,
    hf.memory.trans hmem⟩, by rw [hf.callers, hdepth]⟩
  obtain ⟨p, o, hw⟩ := hc
  rw [hcalls] at hst
  rw [hf.calls, hcalls]
  refine (congrArg (fun l => w.Stacked s'.heap (_ :: l) (a :: as)) hf.callers).mpr
    (hst.top hw hf.heap_le hf.code ?_ ?_)
  · exact fun _ _ _ _ hpos => hpos
  · intro outer d hd had v hv hcase hind
    refine hf.slots v ?_ hind
    obtain hpast | hbefore := hplace
    · exact (hpast outer d hd (ha.symm.trans had)).1 ▸ hv
    · obtain ⟨hlt, -, hvars⟩ := hbefore outer d hd (ha.symm.trans had)
      obtain hcap | hle := hcase
      · exact hvars v hv hcap
      · exact absurd hlt (Nat.not_lt.2 hle)

/-- A call whose function is that of a definition is past its prologue if the function is, or at a
place in the prologue. -/
theorem past_of (h : w.Here t₀ b Q k lim s) {a : Trace.Call}
    (ha : a.function = w.module.index b.name) {outer : List FunDef} {d : FunDef} (hd : w.program.Nest outer d)
    (had : a.function = w.module.index (w.program.emitted d)) (hlim : i < lim)
    (hi : w.program.prologue d ≤ i) :
    b.vars = (w.program.record d).slots ∧ b.start = w.program.prologue d := by
  obtain hpast | hbefore := h.place
  · exact hpast outer d hd (ha.symm.trans had)
  · have hle := (hbefore outer d hd (ha.symm.trans had)).2.1
    omega

/-- The calls under way while the innermost one is at a place of its function. -/
theorem stacked (h : w.Here t₀ b Q k lim s) (hi : w.Past b ∨ i < lim) :
    w.Stacked s.heap (s.on i S).thread.frames s.calls := by
  obtain ⟨⟨p, o, hw⟩, -, hplace, -, ⟨hcode, ⟨a, as, hcalls, ha⟩, hst, hheap, hmem⟩, -⟩ := h
  rw [hcalls] at hst ⊢
  refine hst.top hw (Nat.le_refl _) rfl ?_ fun _ _ _ _ _ _ _ _ => rfl
  intro outer d hd had hpos
  obtain hpast | hbefore := hplace
  · exact Nat.le_of_eq (hpast outer d hd (ha.symm.trans had)).2.symm
  · obtain ⟨hlt, hle, -⟩ := hbefore outer d hd (ha.symm.trans had)
    obtain hpast | hi := hi
    · exact Nat.le_of_eq (hpast outer d hd (ha.symm.trans had)).2.symm
    · have hposi : w.program.prologue d ≤ i := hpos
      omega

/-- A state of the call is sound if its next instruction is. -/
theorem sound (h : w.Here t₀ b Q k lim s) (hlim : i < lim)
    (hok : ∀ op, b.code[i]? = some op → ∀ a, s.calls.head? = some a →
      a.function = w.module.index b.name → w.OpOk (s.on i S) a op) : w.Sound (s.on i S) := by
  refine ⟨h.stacked (.inr hlim), h.steady.heap, h.steady.memory, ?_⟩
  obtain ⟨a, as, hcalls, ha⟩ := h.steady.function
  intro op hop a' ha'
  rw [Trace.on_thread, Thread.on_code, Thread.on_position, h.steady.code] at hop
  rw [Trace.on_calls, hcalls] at ha'
  cases ha'
  exact hok op hop a (by rw [hcalls]; rfl) ha

/-- A step of the call. -/
theorem step (h : w.Here t₀ b Q k lim s) (hlim : i < lim) {op : Op} (hop : b.code[i]? = some op)
    (hok : ∀ a, s.calls.head? = some a → a.function = w.module.index b.name →
      w.OpOk (s.on i S) a op)
    (hnext : ∀ m < n, ∀ t, (s.thread.on i S).step w.linked w.maxDepth = .next t →
      Trace.Until w.linked w.maxDepth Q R m ((s.on i S).advance w.linked t)) :
    Trace.Until w.linked w.maxDepth Q R n (s.on i S) := by
  refine .step_lt (h.admits _ (h.sound hlim fun op' hop' => ?_) (Nat.le_of_eq h.depth.symm)
    fun _ => hlim) hnext
  cases hop.symm.trans hop'
  exact hok

/-- A step that only moves on in the call, with other operands. -/
theorem move (h : w.Here t₀ b Q k lim s) (hlim : i < lim) {op : Op}
    (hop : b.code[i]? = some op)
    (hok : ∀ a, s.calls.head? = some a → a.function = w.module.index b.name →
      w.OpOk (s.on i S) a op)
    (hnext : ∀ t, (s.thread.on i S).step w.linked w.maxDepth = .next t →
      ∃ j S', t = s.thread.on j S' ∧ Trace.Until w.linked w.maxDepth Q R n (s.on j S')) :
    Trace.Until w.linked w.maxDepth Q R n (s.on i S) := by
  refine h.step hlim hop hok fun m hm t ht => ?_
  obtain ⟨j, S', rfl, hu⟩ := hnext t ht
  rw [Trace.advance_on]
  exact hu.le (Nat.le_of_lt hm)

theorem op_eq (h : w.Here t₀ b Q k lim s) {op : Op} (hop : b.code[i]? = some op) :
    s.thread.frame.code[i]? = some op := by
  rw [h.steady.code, hop]

/-! ### Operands -/

theorem const (h : w.Here t₀ b Q k lim s) (hlim : i < lim)
    (hop : b.code[i]? = some (.const v))
    (hu : Trace.Until w.linked w.maxDepth Q R n (s.on (i + 1) (v :: S))) :
    Trace.Until w.linked w.maxDepth Q R n (s.on i S) := by
  refine h.move hlim hop (fun _ _ _ => trivial) fun t ht => ?_
  rw [Thread.step_const (h.op_eq hop)] at ht
  cases ht
  exact ⟨_, _, rfl, hu⟩

theorem localGet (h : w.Here t₀ b Q k lim s) (hlim : i < lim)
    (hop : b.code[i]? = some (.localGet j))
    (hu : ∀ v, s.thread.frame.locals[j]? = some v →
      Trace.Until w.linked w.maxDepth Q R n (s.on (i + 1) (v :: S))) :
    Trace.Until w.linked w.maxDepth Q R n (s.on i S) := by
  refine h.move hlim hop (fun _ _ _ => trivial) fun t ht => ?_
  obtain ⟨v, hv, rfl⟩ := Thread.step_localGet (h.op_eq hop) ht
  exact ⟨_, _, rfl, hu v hv⟩

theorem globalGet (h : w.Here t₀ b Q k lim s) (hlim : i < lim)
    (hop : b.code[i]? = some (.globalGet j))
    (hu : ∀ v, Trace.Until w.linked w.maxDepth Q R n (s.on (i + 1) (v :: S))) :
    Trace.Until w.linked w.maxDepth Q R n (s.on i S) := by
  refine h.move hlim hop (fun _ _ _ => trivial) fun t ht => ?_
  obtain ⟨v, -, rfl⟩ := Thread.step_globalGet (h.op_eq hop) ht
  exact ⟨_, _, rfl, hu v⟩

theorem load (h : w.Here t₀ b Q k lim s) (hlim : i < lim)
    (hop : b.code[i]? = some (.load j))
    (hu : ∀ v, Trace.Until w.linked w.maxDepth Q R n (s.on (i + 1) (v :: S))) {a : Int32} :
    Trace.Until w.linked w.maxDepth Q R n (s.on i (a :: S)) := by
  refine h.move hlim hop (fun _ _ _ => trivial) fun t ht => ?_
  obtain ⟨v, rfl⟩ := Thread.step_load (h.op_eq hop) ht
  exact ⟨_, _, rfl, hu v⟩

theorem binary (h : w.Here t₀ b Q k lim s) (hlim : i < lim) {op : WordOp}
    (hop : b.code[i]? = some (.binary op)) {x y : Int32} (hu : ∀ v, op.eval x y = .ok v →
      Trace.Until w.linked w.maxDepth Q R n (s.on (i + 1) (v :: S))) :
    Trace.Until w.linked w.maxDepth Q R n (s.on i (y :: x :: S)) := by
  refine h.move hlim hop (fun _ _ _ => trivial) fun t ht => ?_
  obtain ⟨v, hv, rfl⟩ := Thread.step_binary (h.op_eq hop) ht
  exact ⟨_, _, rfl, hu v hv⟩

theorem eqz (h : w.Here t₀ b Q k lim s) (hlim : i < lim)
    (hop : b.code[i]? = some .eqz)
    (hu : ∀ v, Trace.Until w.linked w.maxDepth Q R n (s.on (i + 1) (v :: S))) {x : Int32} :
    Trace.Until w.linked w.maxDepth Q R n (s.on i (x :: S)) := by
  refine h.move hlim hop (fun _ _ _ => trivial) fun t ht => ?_
  rw [Thread.step_eqz (h.op_eq hop)] at ht
  cases ht
  exact ⟨_, _, rfl, hu _⟩

theorem drop (h : w.Here t₀ b Q k lim s) (hlim : i < lim)
    (hop : b.code[i]? = some .drop)
    (hu : Trace.Until w.linked w.maxDepth Q R n (s.on (i + 1) S)) {x : Int32} :
    Trace.Until w.linked w.maxDepth Q R n (s.on i (x :: S)) := by
  refine h.move hlim hop (fun _ _ _ => trivial) fun t ht => ?_
  rw [Thread.step_drop (h.op_eq hop)] at ht
  cases ht
  exact ⟨_, _, rfl, hu⟩

/-! ### Jumps -/

theorem staysPast (h : w.Here t₀ b Q k lim s) (hlim : i < lim) (hj : b.start ≤ j) {a : Trace.Call}
    (ha : a.function = w.module.index b.name) : w.StaysPast a i j := by
  intro outer d hd had hi
  rw [← (h.past_of ha hd had hlim hi).2]
  exact hj

/-- A jump, after which there are fewer steps left. -/
theorem jump (h : w.Here t₀ b Q k lim s) (hlim : i < lim) (hj : b.start ≤ j)
    (hop : b.code[i]? = some (.jump j))
    (hu : ∀ m < n, Trace.Until w.linked w.maxDepth Q R m (s.on j S)) :
    Trace.Until w.linked w.maxDepth Q R n (s.on i S) := by
  refine h.step hlim hop (fun a _ ha => h.staysPast hlim hj ha) fun m hm t ht => ?_
  rw [Thread.step_jump (h.op_eq hop)] at ht
  cases ht
  rw [Trace.advance_on]
  exact hu m hm

theorem jumpIf (h : w.Here t₀ b Q k lim s) (hlim : i < lim) (hj : b.start ≤ j)
    (hop : b.code[i]? = some (.jumpIf j))
    (hu : Trace.Until w.linked w.maxDepth Q R n (s.on (i + 1) S))
    (hu' : Trace.Until w.linked w.maxDepth Q R n (s.on j S)) {x : Int32} :
    Trace.Until w.linked w.maxDepth Q R n (s.on i (x :: S)) := by
  refine h.move hlim hop (fun a _ ha => h.staysPast hlim hj ha) fun t ht => ?_
  rw [Thread.step_jumpIf (h.op_eq hop)] at ht
  cases ht
  by_cases hx : x = 0
  · exact ⟨i + 1, S, by rw [if_pos hx], hu⟩
  · exact ⟨j, S, by rw [if_neg hx], hu'⟩

theorem jumpUnless (h : w.Here t₀ b Q k lim s) (hlim : i < lim)
    (hj : b.start ≤ j) (hop : b.code[i]? = some (.jumpUnless j))
    (hu : Trace.Until w.linked w.maxDepth Q R n (s.on (i + 1) S))
    (hu' : Trace.Until w.linked w.maxDepth Q R n (s.on j S)) {x : Int32} :
    Trace.Until w.linked w.maxDepth Q R n (s.on i (x :: S)) := by
  refine h.move hlim hop (fun a _ ha => h.staysPast hlim hj ha) fun t ht => ?_
  rw [Thread.step_jumpUnless (h.op_eq hop)] at ht
  cases ht
  by_cases hx : x = 0
  · exact ⟨j, S, by rw [if_pos hx], hu'⟩
  · exact ⟨i + 1, S, by rw [if_neg hx], hu⟩

/-! ### Variables and memory -/

/-- A local that holds no cell gets a value. -/
theorem localSet (h : w.Here t₀ b Q k lim s) (hlim : i < lim)
    (hop : b.code[i]? = some (.localSet j))
    (hj : ∀ u ∈ b.vars, (w.program.var u).isIndirect = true → j ≠ w.program.slot u)
    (hu : ∀ s', w.Follows b s s' → s'.heap = s.heap → s'.thread.frame.locals[j]? = some v →
      (∀ l, l ≠ j → s'.thread.frame.locals[l]? = s.thread.frame.locals[l]?) →
      Trace.Until w.linked w.maxDepth Q R n (s'.on (i + 1) S)) :
    Trace.Until w.linked w.maxDepth Q R n (s.on i (v :: S)) := by
  refine h.step hlim hop (fun a _ ha => ?_) fun m hm t ht => ?_
  · intro outer d hd had hi u hmem hind
    exact hj u ((h.past_of ha hd had hlim hi).1 ▸ hmem) hind
  · obtain ⟨hlt, rfl⟩ := Thread.step_localSet (h.op_eq hop) ht
    rw [Trace.advance_withLocal]
    refine (hu (s.withLocal j v) ⟨rfl, rfl, rfl, ?_, Nat.le_refl _,
      h.steady.heap, rfl⟩ rfl ?_ ?_).le (Nat.le_of_lt hm)
    · intro u hmem hind
      exact Array.getElem?_setIfInBounds_ne (hj u hmem hind)
    · exact Array.getElem?_setIfInBounds_self_of_lt hlt
    · exact fun l hl => Array.getElem?_setIfInBounds_ne hl.symm

/-- A state with another store of which the heap pointer and the size of the memory are the same. -/
theorem follows_store (h : w.Here t₀ b Q k lim s) {st : Store}
    (hheap : st.globals[0]? = s.thread.store.globals[0]?)
    (hmem : st.memory.size = s.thread.store.memory.size) :
    w.Follows b s { s with thread := s.thread.withStore st } :=
  ⟨rfl, rfl, rfl, fun _ _ _ => rfl, Nat.le_refl _, hheap.trans h.steady.heap, hmem⟩

/-- A module variable gets a value. -/
theorem globalSet (h : w.Here t₀ b Q k lim s) (hlim : i < lim)
    (hop : b.code[i]? = some (.globalSet j)) (hj : j ≠ 0)
    (hu : ∀ s', w.Follows b s s' → s'.heap = s.heap →
      Trace.Until w.linked w.maxDepth Q R n (s'.on (i + 1) S)) :
    Trace.Until w.linked w.maxDepth Q R n (s.on i (v :: S)) := by
  refine h.step hlim hop (fun _ _ _ => trivial) fun m hm t ht => ?_
  have ht := Thread.step_globalSet (h.op_eq hop) ht
  have hheap : (s.thread.store.globals.setIfInBounds j v)[0]? = s.thread.store.globals[0]? :=
    Array.getElem?_setIfInBounds_ne hj
  have hf : w.Follows b s { s with thread := s.thread.withStore { s.thread.store with
      globals := s.thread.store.globals.setIfInBounds j v } } :=
    h.follows_store hheap rfl
  rw [s.advance_withStore ht hheap]
  exact (hu _ hf rfl).le (Nat.le_of_lt hm)

/-- A call may write where the heap pointer was. -/
theorem fresh (h : w.Here t₀ b Q k lim s) (hr : w.Room s) (hf : w.Follows b s s') (hlim : i < lim)
    {c : Trace.Call} (hc : s'.calls.head? = some c) (hfun : c.function = w.module.index b.name) :
    w.Stores (s'.on i S) c (Int32.ofNat s.heap) j := by
  obtain ⟨p, o, hw⟩ := h.compiled
  obtain ⟨a, as, hcalls, -⟩ := h.steady.function
  have hst := h.steady.stacked
  rw [hf.calls, hcalls] at hc
  cases hc
  rw [hcalls] at hst
  refine .fresh rfl hst.start_le (fun hfits hs => (hr hfits hs).2) fun outer d hd had hle => ?_
  obtain ⟨hvars, hstart⟩ := h.past_of hfun hd had hlim hle
  obtain ⟨_, _, _, _, -, -, hrests, -⟩ := hst.restsOn hw hd had
  refine (hrests.cells (Nat.le_of_eq hstart.symm)).mono (Nat.le_refl _) fun v hv => ?_
  obtain ⟨hmem, hind⟩ := isIndirect_of_boxed hv
  exact hf.slots v (hvars ▸ hmem) hind

/-- A word of the memory gets a value. -/
theorem store (h : w.Here t₀ b Q k lim s) (hlim : i < lim)
    (hop : b.code[i]? = some (.store j)) {a : Int32}
    (hat : ∀ c, s.calls.head? = some c → c.function = w.module.index b.name →
      w.Stores (s.on i (v :: a :: S)) c a j)
    (hu : ∀ s', w.Follows b s s' → s'.heap = s.heap →
      s'.thread.frame.locals = s.thread.frame.locals → Memory.position a j + 4 ≤ w.size →
      Trace.Until w.linked w.maxDepth Q R n (s'.on (i + 1) S)) :
    Trace.Until w.linked w.maxDepth Q R n (s.on i (v :: a :: S)) := by
  refine h.step hlim hop (fun c hc hfun => ?_) fun m hm t ht => ?_
  · intro y x S' hstack
    obtain ⟨-, hstack⟩ := List.cons.inj hstack
    obtain ⟨rfl, -⟩ := List.cons.inj hstack
    exact hat c hc hfun
  · obtain ⟨hin, ht⟩ := Thread.step_store (h.op_eq hop) ht
    have hf : w.Follows b s { s with thread := s.thread.withStore { s.thread.store with
        memory := s.thread.store.memory.setWord (Memory.position a j) v } } :=
      h.follows_store rfl (Memory.size_setWord ..)
    rw [s.advance_withStore ht rfl]
    exact (hu _ hf rfl rfl (h.steady.memory ▸ hin)).le (Nat.le_of_lt hm)

end Here

end Setting

end ObjLang
