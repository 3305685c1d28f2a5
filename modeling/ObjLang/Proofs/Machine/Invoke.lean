import ObjLang.Proofs.Machine.Heap

/-!
# ObjLang.Proofs.Machine.Invoke — calls of definitions

A call of a definition runs its function and comes back with a value, if the run is long enough.
`Serves n` says so of all definitions and runs of `n` steps; a call takes a step, so that code that
runs `n` steps needs it of shorter runs only.
-/

namespace ObjLang

open Check Check.Facts

namespace Setting

/-- A caller that waits for a call. -/
structure Waits (w : Setting) (s : Trace) : Prop where
  stacked : w.Stacked s.heap s.thread.frames s.calls
  heap : s.thread.store.globals[0]? = some (Int32.ofNat s.heap)
  memory : s.thread.store.memory.size = w.size
  room : w.Room s
  waiting : ∀ c, s.calls.head? = some c → w.Waiting c s.thread.frame

/-- Calls of definitions are sound for a number of steps, and go on in the caller. -/
def Serves (w : Setting) (n : Nat) : Prop :=
  ∀ (Q R : Trace → Prop) (s : Trace) (outer : List FunDef) (d : FunDef) (F : Frame)
    (args : List Int32) (depth : Nat), w.program.Nest outer d →
    Thread.newFrame w.linked w.maxDepth (w.module.index (w.program.emitted d)) args depth = .ok F →
    w.Waits s →
    (∀ q, (w.program.record d).parent = some q → ∀ c, s.calls.head? = some c →
      w.Links d F c s.thread.frame q) →
    (∀ lim, w.Admits Q (s.thread.callers.length + 1) lim) →
    (∀ s' v, Back s s' → w.Room s' → Trace.Until w.linked w.maxDepth Q R n (s'.push v)) →
    Trace.Until w.linked w.maxDepth Q R n (s.enter (w.module.index (w.program.emitted d)) F)

variable {w : Setting} {t₀ : State} {b : Body} {Q R : Trace → Prop} {k lim n i : Nat}
  {s s' : Trace} {S : List Int32} {v x : Int32} {outer : List FunDef} {d : FunDef}

/-- Where the heap pointer has not moved there is still room. -/
theorem Room.same (h : w.Room s) (heq : s'.heap = s.heap) : w.Room s' := by
  intro hf hs
  rw [heq]
  exact h hf hs

namespace Here

/-- A function with statements is none of the generator's own. -/
theorem index_ne_helper (h : w.Here t₀ b Q k lim s) (hsource : b.source ≠ []) :
    w.module.index b.name ≠ w.module.index Emit.allocName ∧
      w.module.index b.name ≠ w.module.index (methodTarget rootClass initMethod) := by
  obtain ⟨p, o, hw⟩ := h.compiled
  have hmem : b.name ∈ w.module.functionNames :=
    h.body.name ▸ Emit.mem_functionNames h.body.mem
  have hne : b.name ≠ Emit.allocName ∧ b.name ≠ methodTarget rootClass initMethod := by
    obtain hnil | hst := h.body.statements
    · exact absurd hnil hsource
    generalize b.name = x, b.source = ss, b.start = start at hst
    cases hst with
    | entry => exact ⟨by decide, by decide⟩
    | definition hd =>
      exact ⟨hw.checked.emitted_ne_made hw.words hd
          (by decide : Emit.allocName.toList = '#' :: ['a', 'l', 'l', 'o', 'c']),
        hw.checked.emitted_ne_root hw.words hd⟩
  exact ⟨fun heq => hne.1 (Code.Module.index_inj hmem hw.alloc_mem heq),
    fun heq => hne.2 (Code.Module.index_inj hmem hw.root_mem heq)⟩

theorem waits (h : w.Here t₀ b Q k lim s) (hsource : b.source ≠ []) (hp : w.Past b)
    (hr : w.Room s) (hstart : b.start ≤ i) (S : List Int32) : w.Waits (s.on i S) := by
  refine ⟨h.stacked (.inl hp), h.steady.heap, h.steady.memory, hr, fun c hc => ?_⟩
  obtain ⟨a, as, hcalls, ha⟩ := h.steady.function
  rw [Trace.on_calls, hcalls] at hc
  cases hc
  obtain ⟨halloc, hroot⟩ := h.index_ne_helper hsource
  refine ⟨ha ▸ halloc, ha ▸ hroot, fun outer d hd hcd => ?_⟩
  rw [← (hp outer d hd (ha.symm.trans hcd)).2]
  exact hstart

theorem admits_inner (h : w.Here t₀ b Q k lim s) (lim' : Nat) :
    w.Admits Q (s.thread.callers.length + 1) lim' :=
  h.depth ▸ h.admits.inner lim'

/-- A call of a definition by name. -/
theorem invoke (h : w.Here t₀ b Q k lim s) (hserves : ∀ m < n, w.Serves m)
    (hsource : b.source ≠ []) (hp : w.Past b) (hr : w.Room s) (hstart : b.start ≤ i) (hlim : i < lim) (hd : w.program.Nest outer d)
    (hop : b.code[i]? = some (.call (w.module.index (w.program.emitted d)))) {args : List Int32}
    (hargs : args.length = (w.program.record d).totalArity)
    (hlinks : ∀ F : Frame, (∀ j < args.length, F.locals[j]? = args.reverse[j]?) →
      ∀ q, (w.program.record d).parent = some q → ∀ c, s.calls.head? = some c →
        w.Links d F c (s.on (i + 1) S).thread.frame q)
    (hu : ∀ s' v, Back (s.on (i + 1) S) s' → w.Room s' →
      Trace.Until w.linked w.maxDepth Q R n (s'.on (i + 1) (v :: S))) :
    Trace.Until w.linked w.maxDepth Q R n (s.on i (args ++ S)) := by
  obtain ⟨p, o, hw⟩ := h.compiled
  obtain ⟨himport, g, arr, hg, hlen, hfun⟩ := hw.definition_function hd
  have hne := hw.index_ne_guard (hw.emitted_mem hd) (hw.checked.emitted_ne_made hw.words hd
    (by decide : _ = '#' :: ['c', 'h', 'e', 'c', 'k', '_', 'i', 'n', 'i', 't']))
  refine h.call hr hlim hop hne himport hfun args (hargs.trans hlen.symm) fun m hm F depth hF => ?_
  refine hserves m hm Q R (s.on (i + 1) S) outer d F args.reverse depth hd hF
    (h.waits hsource hp hr (Nat.le_succ_of_le hstart) S) (hlinks F fun j hj => ?_) h.admits_inner fun s' v hb hr' => ?_
  · obtain ⟨f, hf, -, -, -, -, hlocals⟩ := Thread.newFrame_ok hF
    cases hfun.symm.trans hf
    refine hlocals j ?_ (by rwa [List.length_reverse])
    rw [List.length_append, hlen, ← hargs]
    exact Nat.lt_add_right _ hj
  · rw [hb.push_eq]
    exact (hu s' v hb hr').le (Nat.le_of_lt hm)

/-- A call through the dispatch table. -/
theorem invokeThrough (h : w.Here t₀ b Q k lim s) (hserves : ∀ m < n, w.Serves m)
    (hsource : b.source ≠ []) (hp : w.Past b) (hr : w.Room s) (hstart : b.start ≤ i) (hlim : i < lim) {args : List Int32}
    (hop : b.code[i]? = some (.callIndirect args.length))
    (hu : ∀ s' x, Back (s.on (i + 1) S) s' → w.Room s' →
      Trace.Until w.linked w.maxDepth Q R n (s'.on (i + 1) (x :: S))) :
    Trace.Until w.linked w.maxDepth Q R n (s.on i (v :: (args ++ S))) := by
  obtain ⟨p, o, hw⟩ := h.compiled
  refine h.callIndirect hlim args hop fun m hm l j F depth hj hF => ?_
  obtain rfl | ⟨d, hd, -, rfl⟩ := hw.table_cases hj
  · refine h.enter_root (.inl hp) hF fun s' hb hh => ?_
    exact (hu s' 0 hb (hr.same hh)).le (Nat.le_of_lt hm)
  · have hparent : (w.program.record d).parent = none := by
      obtain ⟨id, -, -, hf, -⟩ := hw.checked.record_ok hd
      exact hf.parent
    refine hserves m hm Q R (s.on (i + 1) S) [] d F args.reverse depth hd hF
      (h.waits hsource hp hr (Nat.le_succ_of_le hstart) S) (fun q hq => ?_) h.admits_inner fun s' v hb hr' => ?_
    · cases hparent.symm.trans hq
    · rw [hb.push_eq]
      exact (hu s' v hb hr').le (Nat.le_of_lt hm)

/-- A call of the method for new objects. -/
theorem invokeInit (h : w.Here t₀ b Q k lim s) (hserves : ∀ m < n, w.Serves m)
    (hsource : b.source ≠ []) (hp : w.Past b) (hr : w.Room s) (hstart : b.start ≤ i) (hlim : i < lim) {l : ClassLayout} (hl : l ∈ w.program.classes.layouts)
    {init : String} (hinit : l.target? initMethod = some init)
    (hop : b.code[i]? = some (.call (w.module.index init)))
    (hu : ∀ s' x, Back (s.on (i + 1) S) s' → w.Room s' →
      Trace.Until w.linked w.maxDepth Q R n (s'.on (i + 1) (x :: S))) :
    Trace.Until w.linked w.maxDepth Q R n (s.on i (x :: S)) := by
  obtain ⟨p, o, hw⟩ := h.compiled
  obtain rfl | ⟨d, hd, rfl, -, hone⟩ := hw.checked.target_cases hl hinit
  · exact h.root hr hlim (.inl hp) hop fun s' hb hh => hu s' 0 hb (hr.same hh)
  · have hparent : (w.program.record d).parent = none := by
      obtain ⟨id, -, -, hf, -⟩ := hw.checked.record_ok hd
      exact hf.parent
    have hargs : [x].length = (w.program.record d).totalArity := by
      rw [Function.totalArity, hone rfl, hw.checked.captures_nil hd]
      rfl
    refine h.invoke hserves hsource hp hr hstart hlim hd hop hargs (fun F _ q hq => ?_) hu
    cases hparent.symm.trans hq

end Here

end Setting

end ObjLang
