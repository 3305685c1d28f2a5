import ObjLang.Proofs.Machine.Body

/-!
# ObjLang.Proofs.Machine.Calls — calls and returns

A call of a function puts its frame above the caller, which waits behind the instruction; a return
takes the frame away and leaves the caller as it was, but for one more operand.  The allocator gives
the heap pointer and moves it on.
-/

namespace ObjLang

open Check Check.Facts

namespace Trace

/-- A call of a function has begun. -/
def enter (s : Trace) (j : Nat) (F : Frame) : Trace where
  thread := ⟨s.thread.store, F, s.thread.frame :: s.thread.callers⟩
  calls := ⟨j, s.begun, s.heap⟩ :: s.calls
  begun := s.begun + 1
  heap := s.heap

/-- One more operand. -/
def push (s : Trace) (v : Int32) : Trace := s.on s.thread.frame.position (v :: s.thread.frame.stack)

theorem advance_enter {p : LinkedModule} {s : Trace} {i j : Nat} {S S' : List Int32} {F : Frame}
    (hj : (s.thread.on i S).callee p = j) :
    (s.on i S).advance p ⟨s.thread.store, F, (s.thread.on (i + 1) S').frame :: s.thread.callers⟩
      = (s.on (i + 1) S').enter j F := by
  have hlt : s.thread.callers.length
      < ((s.thread.on (i + 1) S').frame :: s.thread.callers).length := Nat.lt_succ_self _
  have hheap : (Thread.heapWord ⟨s.thread.store, F, (s.thread.on (i + 1) S').frame ::
      s.thread.callers⟩ - (s.thread.on i S).heapWord).toUInt32.toNat = 0 :=
    heap_same rfl
  simp only [advance, enter, on_thread, hheap, Thread.on_callers, hlt, if_true, hj, Nat.add_zero,
    on_calls, on_begun, on_heap, Thread.on_store]

/-- A caller goes on where the call above it has come to an end in a state. -/
def resume (s u : Trace) : Trace :=
  ⟨⟨u.thread.store, s.thread.frame, s.thread.callers⟩, s.calls, u.begun, u.heap⟩

/-- At the end of a call the caller goes on with its value. -/
theorem advance_leave {p : LinkedModule} {s u : Trace} {i : Nat} {S : List Int32} {v : Int32}
    (hcallers : u.thread.callers = s.thread.frame :: s.thread.callers)
    (hcalls : ∃ a, u.calls = a :: s.calls) :
    (u.on i S).advance p (Thread.push ⟨u.thread.store, s.thread.frame, s.thread.callers⟩ v)
      = (s.resume u).push v := by
  obtain ⟨a, hcalls⟩ := hcalls
  have hheap : (Thread.heapWord (Thread.push ⟨u.thread.store, s.thread.frame,
      s.thread.callers⟩ v) - (u.on i S).thread.heapWord).toUInt32.toNat = 0 :=
    heap_same rfl
  have hlt : ¬ (u.on i S).thread.callers.length < (Thread.push ⟨u.thread.store,
      s.thread.frame, s.thread.callers⟩ v).callers.length := by
    simp [Thread.push, Thread.withStack, hcallers]
  have hlt' : (Thread.push ⟨u.thread.store, s.thread.frame, s.thread.callers⟩ v).callers.length
      < (u.on i S).thread.callers.length := by
    simp [Thread.push, Thread.withStack, hcallers]
  simp only [advance, hheap, hlt, hlt', if_true, if_false, on_calls, hcalls, List.tail_cons,
    Nat.add_zero, on_begun, on_heap]
  rfl

end Trace

namespace Setting

variable {w : Setting} {t₀ : State} {b : Body} {Q R : Trace → Prop} {k lim n i j : Nat}
  {s s' u : Trace} {S : List Int32} {v : Int32}

/-- A caller that goes on after a call. -/
structure Back (s s' : Trace) : Prop where
  frame : s'.thread.frame = s.thread.frame
  callers : s'.thread.callers = s.thread.callers
  calls : s'.calls = s.calls
  heap_le : s.heap ≤ s'.heap
  heap : s'.thread.store.globals[0]? = some (Int32.ofNat s'.heap)
  memory : s'.thread.store.memory.size = s.thread.store.memory.size

theorem Back.follows {s s' : Trace} (h : Back (s.on i S) s') : w.Follows b s s' where
  calls := h.calls
  callers := h.callers
  code := by
    rw [h.frame]
    rfl
  slots := fun v _ _ => by
    rw [h.frame]
    rfl
  heap_le := h.heap_le
  heap := h.heap
  memory := h.memory

theorem Back.push_eq (h : Back (s.on i S) s') (v : Int32) : s'.push v = s'.on i (v :: S) := by
  rw [Trace.push, h.frame]
  rfl

/-- A call above a caller that waits. -/
structure Above (s u : Trace) : Prop where
  callers : u.thread.callers = s.thread.frame :: s.thread.callers
  calls : ∃ a, u.calls = a :: s.calls
  heap_le : s.heap ≤ u.heap
  memory : u.thread.store.memory.size = s.thread.store.memory.size

theorem Above.follow (h : Above s u) (hf : w.Follows b u s') : Above s s' where
  callers := hf.callers.trans h.callers
  calls := by
    rw [hf.calls]
    exact h.calls
  heap_le := Nat.le_trans h.heap_le hf.heap_le
  memory := hf.memory.trans h.memory

theorem above_enter (s : Trace) (j : Nat) (F : Frame) : Above s (s.enter j F) :=
  ⟨rfl, ⟨_, rfl⟩, Nat.le_refl _, rfl⟩

namespace Here

/-! ### Host functions -/

theorem opOk_call (hj : j ≠ w.module.index Emit.checkInitName)
    (hroom : j = w.module.index Emit.allocName → w.Room s) (a : Trace.Call) :
    w.OpOk (s.on i S) a (.call j) :=
  ⟨fun hg => absurd hg hj, hroom⟩

/-- A host function other than the guard: it prints a line, or leaves a word. -/
theorem host (h : w.Here t₀ b Q k lim s) (hlim : i < lim) (hop : b.code[i]? = some (.call j))
    {f : HostFunction} (hf : w.linked.import? j = some f)
    (hj : j ≠ w.module.index Emit.checkInitName) {args : List Int32}
    (hargs : args.length = f.params)
    (hline : f.hasResult = false → ∀ s', w.Follows b s s' → s'.heap = s.heap →
      Trace.Until w.linked w.maxDepth Q R n (s'.on (i + 1) S))
    (hvalue : f.hasResult = true → ∀ v,
      Trace.Until w.linked w.maxDepth Q R n (s.on (i + 1) (v :: S))) :
    Trace.Until w.linked w.maxDepth Q R n (s.on i (args ++ S)) := by
  have hsig : w.linked.signature? j = some (args.length, f.hasResult) := by
    rw [LinkedModule.signature?_host hf, hargs]
  have halloc : j ≠ w.module.index Emit.allocName := by
    obtain ⟨p, o, hw⟩ := h.compiled
    rintro rfl
    cases hf.symm.trans hw.alloc_function.1
  refine h.step hlim hop (fun a _ _ => opOk_call hj (fun hj => absurd hj halloc) a)
    fun m hm t ht => ?_
  rw [Thread.step_call (h.op_eq hop) hsig] at ht
  obtain ⟨l, hl, ht⟩ | ⟨v, hv, rfl⟩ := Thread.call_host hf args ht
  · have hf : w.Follows b s { s with thread := s.thread.withStore { s.thread.store with
        output := s.thread.store.output.push l } } :=
      h.follows_store rfl rfl
    rw [s.advance_withStore ht rfl]
    exact (hline (HostFunction.call_line hl) _ hf rfl).le (Nat.le_of_lt hm)
  · rw [Trace.advance_on]
    exact (hvalue (HostFunction.call_value hv) v).le (Nat.le_of_lt hm)

/-- The guard lets a receiver pass whose word is positive. -/
theorem guard (h : w.Here t₀ b Q k lim s) (hlim : i < lim)
    (hop : b.code[i]? = some (.call (w.module.index Emit.checkInitName)))
    (hat : ∃ o a, b.start ≤ a ∧ Emit.GuardAt w.program (w.names b) b.code b.source o a i)
    (hu : 0 < v → Trace.Until w.linked w.maxDepth Q R n (s.on (i + 1) (v :: S))) :
    Trace.Until w.linked w.maxDepth Q R n (s.on i (v :: S)) := by
  obtain ⟨p, o, hw⟩ := h.compiled
  have hf : w.linked.import? (w.module.index Emit.checkInitName) = some .checkInit :=
    hw.linked.host hw.generated (by simp [Emit.hostNames])
  refine h.step hlim hop (fun a _ ha => ⟨fun _ => ?_, fun heq => ?_⟩) fun m hm t ht => ?_
  · obtain ⟨e, j, hj, hat⟩ := hat
    obtain hnil | hstatements := h.body.statements
    · exact absurd (hnil ▸ hat.isReceiver.occursIn) Expr.not_occursIn_nil
    · refine ⟨b.func, h.body.mem, by rw [ha, h.body.name], b.source, b.start, e, j,
        h.body.name ▸ hstatements, hj, ?_⟩
      rw [Trace.on_thread, Thread.on_code, Thread.on_position, h.steady.code]
      exact hat
  · exact absurd heq.symm (hw.index_ne_guard hw.alloc_mem (by decide))
  · rw [Thread.step_guard (h.op_eq hop) hf] at ht
    split at ht
    · cases ht
    · next hv =>
      cases ht
      rw [Trace.advance_on]
      exact (hu (Int32.not_le.1 hv)).le (Nat.le_of_lt hm)

/-! ### Functions of the module -/

/-- A call of a function of the module. -/
theorem call (h : w.Here t₀ b Q k lim s) (hr : w.Room s) (hlim : i < lim)
    (hop : b.code[i]? = some (.call j))
    (hj : j ≠ w.module.index Emit.checkInitName) (himport : w.linked.import? j = none)
    {f : LinkedFunction} (hf : w.linked.function? j = some f) (args : List Int32)
    (hargs : args.length = f.params)
    (hu : ∀ m < n, ∀ F depth, Thread.newFrame w.linked w.maxDepth j args.reverse depth = .ok F →
      Trace.Until w.linked w.maxDepth Q R m ((s.on (i + 1) S).enter j F)) :
    Trace.Until w.linked w.maxDepth Q R n (s.on i (args ++ S)) := by
  have hsig : w.linked.signature? j = some (args.length, true) := by
    rw [LinkedModule.signature?_function himport hf, hargs]
  refine h.step hlim hop (fun a _ _ => opOk_call hj (fun _ => hr) a) fun m hm t ht => ?_
  rw [Thread.step_call (h.op_eq hop) hsig] at ht
  obtain ⟨F, hF, rfl⟩ := Thread.call_function himport ht
  have hcallee : (s.thread.on i (args ++ S)).callee w.linked = j := by
    simp only [Thread.callee, Thread.on_code, Thread.on_position, h.op_eq hop]
  exact (congrArg _ (Trace.advance_enter hcallee)).mpr (hu m hm F _ hF)

/-- A call through the dispatch table. -/
theorem callIndirect (h : w.Here t₀ b Q k lim s) (hlim : i < lim) (args : List Int32)
    (hop : b.code[i]? = some (.callIndirect args.length))
    (hu : ∀ m < n, ∀ (l j : Nat) (F : Frame) (depth : Nat), w.linked.table[l]? = some j →
      Thread.newFrame w.linked w.maxDepth j args.reverse depth = .ok F →
      Trace.Until w.linked w.maxDepth Q R m ((s.on (i + 1) S).enter j F)) :
    Trace.Until w.linked w.maxDepth Q R n (s.on i (v :: (args ++ S))) := by
  obtain ⟨p, o, hw⟩ := h.compiled
  refine h.step hlim hop (fun _ _ _ => trivial) fun m hm t ht => ?_
  obtain ⟨j, hv, htable, hsig, hcall⟩ := Thread.step_callIndirect (h.op_eq hop) ht
  have himport : w.linked.import? j = none := by
    obtain rfl | ⟨d, hd, -, rfl⟩ := hw.table_cases htable
    · exact hw.root_function.1
    · obtain ⟨g, arr, hg⟩ := hw.exists_codeOf hd
      obtain ⟨-, -, himport, -⟩ := hw.linked.function? hw.generated hg.mem
      rwa [hg.name] at himport
  obtain ⟨F, hF, rfl⟩ := Thread.call_function himport hcall
  have hcallee : (s.thread.on i (v :: (args ++ S))).callee w.linked = j := by
    simp only [Thread.callee, Thread.on_code, Thread.on_position, h.op_eq hop, Thread.on_stack,
      List.head?_cons, Option.bind_some, htable, Option.getD_some]
  exact (congrArg _ (Trace.advance_enter hcallee)).mpr (hu m hm _ j F _ htable hF)

/-- The end of a call. -/
theorem leave (h : w.Here t₀ b Q k lim u) (hlim : i < lim)
    (hop : b.code[i]? = some .ret ∨ b.code[i]? = none) (hab : Above s u)
    (hu : ∀ s', Back s s' → s'.heap = u.heap →
      Trace.Until w.linked w.maxDepth Q R n (s'.push v)) :
    Trace.Until w.linked w.maxDepth Q R n (u.on i (v :: S)) := by
  have hstep : (u.thread.on i (v :: S)).step w.linked w.maxDepth = (u.thread.on i (v :: S)).leave ∨
      (u.thread.on i (v :: S)).step w.linked w.maxDepth = (u.thread.on (i + 1) (v :: S)).leave := by
    obtain hop | hop := hop
    · exact .inr (Thread.step_on (h.op_eq hop))
    · exact .inl (Thread.step_end (by rw [h.steady.code, hop]))
  refine .step (h.admits _ (h.sound hlim fun op hop' => ?_) (Nat.le_of_eq h.depth.symm)
    fun _ => hlim) fun t ht => ?_
  · obtain hop | hop := hop
    · cases hop.symm.trans hop'
      exact fun _ _ _ => trivial
    · cases hop.symm.trans hop'
  · have hnext : ∃ G Fs, u.thread.callers = G :: Fs ∧
        t = Thread.push ⟨u.thread.store, G, Fs⟩ v := by
      obtain hstep | hstep := hstep <;> rw [Trace.on_thread, hstep] at ht <;>
        exact Thread.leave_next ht
    obtain ⟨G, Fs, hcallers, rfl⟩ := hnext
    obtain ⟨rfl, rfl⟩ := List.cons.inj (hcallers.symm.trans hab.callers)
    rw [Trace.advance_leave hab.callers hab.calls]
    exact hu _ ⟨rfl, rfl, rfl, hab.heap_le, h.steady.heap, hab.memory⟩ rfl

/-! ### The heap pointer -/

/-- The heap pointer is read. -/
theorem heapGet (h : w.Here t₀ b Q k lim s) (hlim : i < lim)
    (hop : b.code[i]? = some (.globalGet 0))
    (hu : Trace.Until w.linked w.maxDepth Q R n (s.on (i + 1) (Int32.ofNat s.heap :: S))) :
    Trace.Until w.linked w.maxDepth Q R n (s.on i S) := by
  refine h.move hlim hop (fun _ _ _ => trivial) fun t ht => ?_
  obtain ⟨v, hv, rfl⟩ := Thread.step_globalGet (h.op_eq hop) ht
  cases h.steady.heap.symm.trans hv
  exact ⟨_, _, rfl, hu⟩

/-- The heap pointer is moved on. -/
theorem heapSet (h : w.Here t₀ b Q k lim s) (hlim : i < lim)
    (hop : b.code[i]? = some (.globalSet 0)) {x : Int32} (hv : v = Int32.ofNat s.heap + x)
    (hu : ∀ s', w.Follows b s s' → s'.heap = s.heap + x.toUInt32.toNat →
      s'.thread.frame.locals = s.thread.frame.locals →
      Trace.Until w.linked w.maxDepth Q R n (s'.on (i + 1) S)) :
    Trace.Until w.linked w.maxDepth Q R n (s.on i (v :: S)) := by
  subst hv
  have hlt : 0 < s.thread.store.globals.size := by
    obtain ⟨hlt, -⟩ := Array.getElem?_eq_some_iff.1 h.steady.heap
    exact hlt
  refine h.step hlim hop (fun _ _ _ => trivial) fun m hm t ht => ?_
  have ht := Thread.step_globalSet (h.op_eq hop) ht
  subst ht
  have hnew : (s.thread.store.globals.setIfInBounds 0 (Int32.ofNat s.heap + x))[0]?
      = some (Int32.ofNat s.heap + x) := Array.getElem?_setIfInBounds_self_of_lt hlt
  have hword : Int32.ofNat s.heap + x = Int32.ofNat (s.heap + x.toUInt32.toNat) := by
    rw [Int32.ofNat_add, ofNat_address]
  have hdiff : Thread.heapWord ((s.thread.withStore { s.thread.store with
      globals := s.thread.store.globals.setIfInBounds 0 (Int32.ofNat s.heap + x) }).on (i + 1) S)
        - Thread.heapWord (s.thread.on i ((Int32.ofNat s.heap + x) :: S)) = x := by
    simp only [Thread.heapWord, Thread.on_store, Thread.withStore, hnew, h.steady.heap,
      Option.getD_some]
    rw [Int32.add_comm, Int32.add_sub_cancel]
  have hf : w.Follows b s { s with
      thread := s.thread.withStore { s.thread.store with
        globals := s.thread.store.globals.setIfInBounds 0 (Int32.ofNat s.heap + x) }
      heap := s.heap + x.toUInt32.toNat } :=
    ⟨rfl, rfl, rfl, fun _ _ _ => rfl, Nat.le_add_right _ _, hnew.trans (congrArg _ hword), rfl⟩
  rw [Trace.advance_of_depth (by rfl), Trace.on_thread, hdiff]
  exact (hu _ hf rfl rfl).le (Nat.le_of_lt hm)

end Here

end Setting

end ObjLang
