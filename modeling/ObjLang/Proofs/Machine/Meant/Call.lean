import ObjLang.Proofs.Machine.Meant.Scene
import ObjLang.Proofs.Machine.Operands

/-!
# ObjLang.Proofs.Machine.Meant.Call — calls that come back

A host function answers or traps as it says.  Any other call begins, unless there are too many calls
under way, and the caller goes on where it ends.  The allocator comes back with the address at which
the heap ended.
-/

namespace ObjLang

open Check

namespace Thread

variable {p : LinkedModule} {maxDepth : Nat} {t : Thread} {i k : Nat} {S args : List Int32}

theorem call_import {f : HostFunction} (hf : p.import? k = some f) :
    (t.on i (args ++ S)).call p maxDepth k args.length = match f.call args.reverse with
      | .ok (.line l) => .next ((t.withStore { t.store with output := t.store.output.push l }).on i S)
      | .ok (.value v) => .next (t.on i (v :: S))
      | .error e => .fault t.store (.trap e) := by
  simp only [call, on_stack, List.take_left, List.drop_left, List.length_reverse, Nat.lt_irrefl,
    if_false, hf]
  cases f.call args.reverse with
  | error e => rfl
  | ok reply => cases reply <;> rfl

theorem call_defined (hf : p.import? k = none) :
    (t.on i (args ++ S)).call p maxDepth k args.length
      = match newFrame p maxDepth k args.reverse (t.frame.depth + 1) with
        | .ok F => .next ⟨t.store, F, (t.on i S).frame :: t.callers⟩
        | .error e => .fault t.store (.trap e) := by
  simp only [call, on_stack, List.take_left, List.drop_left, List.length_reverse, Nat.lt_irrefl,
    if_false, hf]
  rfl

/-- A call of a function that is there, with as many words as it takes, fails only at a limit. -/
theorem newFrame_limit {f : LinkedFunction} {depth : Nat} {e : Trap} (hf : p.function? k = some f)
    (hargs : args.length = f.params) (h : newFrame p maxDepth k args depth = .error e) :
    (Fault.trap e).IsLimit := by
  rw [newFrame_callDepth hf hargs h]
  trivial

end Thread

namespace Setting

variable {w : Setting} {s₀ : Trace} {t₀ : State} {b : Body} {Q : Trace → Prop} {fin : Outcome}
  {k lim i j q : Nat} {H H' : Ledger} {s s' u : Trace} {S args : List Int32} {v x : Int32}

namespace Ends

/-- A step that calls a function of the module. -/
theorem enters {T : List Int32} (hstep : (s.thread.on i T).step w.linked w.maxDepth
      = (s.thread.on (i + 1) (args ++ S)).call w.linked w.maxDepth j args.length)
    (hcallee : (s.thread.on i T).callee w.linked = j) (himport : w.linked.import? j = none)
    {f : LinkedFunction} (hf : w.linked.function? j = some f) (hargs : args.length = f.params)
    (hfin : printed s <+: fin.1)
    (hu : ∀ F depth, Thread.newFrame w.linked w.maxDepth j args.reverse depth = .ok F →
      w.Ends s₀ fin H ((s.on (i + 1) S).enter j F)) : w.Ends s₀ fin H (s.on i T) := by
  rw [Thread.call_defined himport] at hstep
  cases hnew : Thread.newFrame w.linked w.maxDepth j args.reverse (s.thread.frame.depth + 1) with
  | ok F =>
    have hnext := hstep.trans (by rw [hnew])
    exact (hu F _ hnew).next (Trace.next_eq_some.2 ⟨_, hnext, (Trace.advance_enter hcallee).symm⟩)
  | error e =>
    have hfault := hstep.trans (by rw [hnew])
    exact limit hfault (Thread.newFrame_limit hf (List.length_reverse.trans hargs) hnew) hfin

section

variable (h : w.Holds s₀ t₀ b Q k lim H s)

include h

/-! ### Host functions -/

section

variable {f : HostFunction} (hop : b.code[i]? = some (.call j)) (hf : w.linked.import? j = some f)
  (hargs : args.length = f.params)

include hop hf hargs

theorem step_host : (s.thread.on i (args ++ S)).step w.linked w.maxDepth
    = (s.thread.on (i + 1) (args ++ S)).call w.linked w.maxDepth j args.length := by
  refine Thread.step_call (r := f.hasResult) (h.op_eq hop) ?_
  simp only [LinkedModule.signature?, hf, hargs]

/-- A host function that prints a line. -/
theorem hostLine {l : String} (hcall : f.call args.reverse = .ok (.line l))
    (hu : w.Ends s₀ fin H ((s.withStore { s.thread.store with
      output := s.thread.store.output.push l }).on (i + 1) S)) :
    w.Ends s₀ fin H (s.on i (args ++ S)) := by
  have hstep : (s.thread.on i (args ++ S)).step w.linked w.maxDepth
      = .next ((s.thread.withStore { s.thread.store with
        output := s.thread.store.output.push l }).on (i + 1) S) := by
    rw [step_host h hop hf hargs, Thread.call_import hf, hcall]
  exact nextStore hstep rfl hu

/-- A host function that leaves a word. -/
theorem hostValue (hcall : f.call args.reverse = .ok (.value v))
    (hu : w.Ends s₀ fin H (s.on (i + 1) (v :: S))) : w.Ends s₀ fin H (s.on i (args ++ S)) := by
  refine hu.next (Trace.next_on ?_)
  rw [step_host h hop hf hargs, Thread.call_import hf, hcall]

/-- A host function that refuses its arguments. -/
theorem hostTrap {e : Trap} (hcall : f.call args.reverse = .error e)
    (hfin : fin = (printed s, .error e)) : w.Ends s₀ fin H (s.on i (args ++ S)) := by
  refine trap (e := e) ?_ hfin
  rw [Trace.on_thread, step_host h hop hf hargs, Thread.call_import hf, hcall]
  rfl

end

/-! ### Functions of the module -/

/-- A call of a function of the module. -/
theorem call (hop : b.code[i]? = some (.call j)) (himport : w.linked.import? j = none)
    {f : LinkedFunction} (hf : w.linked.function? j = some f) (args : List Int32)
    (hargs : args.length = f.params) (hfin : printed s <+: fin.1)
    (hu : ∀ F depth, Thread.newFrame w.linked w.maxDepth j args.reverse depth = .ok F →
      w.Ends s₀ fin H ((s.on (i + 1) S).enter j F)) :
    w.Ends s₀ fin H (s.on i (args ++ S)) := by
  have hsig := hargs ▸ LinkedModule.signature?_function himport hf
  exact enters (Thread.step_call (h.op_eq hop) hsig) (Thread.callee_call (h.op_eq hop)) himport hf
    hargs hfin hu

/-- A call through a slot of the dispatch table that leads to a function of the module. -/
theorem callIndirect (args : List Int32) (hop : b.code[i]? = some (.callIndirect args.length))
    {l : Nat} (hl : l < 2 ^ 31) (hj : w.linked.table[l]? = some j)
    (himport : w.linked.import? j = none) {f : LinkedFunction}
    (hf : w.linked.function? j = some f) (hargs : args.length = f.params)
    (hfin : printed s <+: fin.1)
    (hu : ∀ F depth, Thread.newFrame w.linked w.maxDepth j args.reverse depth = .ok F →
      w.Ends s₀ fin H ((s.on (i + 1) S).enter j F)) :
    w.Ends s₀ fin H (s.on i (Int32.ofNat l :: (args ++ S))) := by
  have hsig := hargs ▸ LinkedModule.signature?_function himport hf
  exact enters (Thread.step_callIndirect_of (h.op_eq hop) hl hj hsig)
    (Thread.callee_callIndirect (h.op_eq hop) hl hj) himport hf hargs hfin hu

end

/-- The end of a call. -/
theorem leave (h : w.Holds s₀ t₀ b Q k lim H u)
    (hop : b.code[i]? = some .ret ∨ b.code[i]? = none) (hatop : Atop s u)
    (hu : Trace.Reaches w.linked w.maxDepth s₀ (u.on i (v :: S)) →
      (u.on i (v :: S)).next w.linked w.maxDepth = some ((s.resume u).push v) →
      w.Ends s₀ fin H ((s.resume u).push v)) : w.Ends s₀ fin H (u.on i (v :: S)) := by
  have hstep : (u.thread.on i (v :: S)).step w.linked w.maxDepth = _ :=
    Thread.step_leave (h.code ▸ hop) hatop.callers
  have hback := Trace.advance_leave (p := w.linked) (i := i) (S := v :: S) (v := v) hatop.callers
    hatop.calls
  have hnext := Trace.next_eq_some.2 ⟨_, hstep, hback.symm⟩
  exact fun hs hH => ((hu hs hnext).next hnext) hs hH

/-! ### The generator's own functions -/

/-- The heap pointer is moved on. -/
theorem heapSet (h : w.Holds s₀ t₀ b Q k lim H s) (hop : b.code[i]? = some (.globalSet 0))
    (hroom : s.heap ≤ w.size) (hq : q ≤ 2 ^ 30) (hfour : 4 ∣ q)
    (hu : ∀ s', w.Moves s₀ b 0 H s H s' → s'.heap = s.heap + q →
      s'.thread.frame = s.thread.frame → s'.thread.store = { s.thread.store with
        globals := s.thread.store.globals.setIfInBounds 0 (Int32.ofNat (s.heap + q)) } →
      w.Ends s₀ fin H (s'.on (i + 1) S)) :
    w.Ends s₀ fin H (s.on i (Int32.ofNat (s.heap + q) :: S)) := by
  obtain ⟨p, o, hw⟩ := h.compiled
  have hpointer := h.heap.pointer
  obtain ⟨hlt, -⟩ := Array.getElem?_eq_some_iff.1 hpointer
  have hstep : (s.thread.on i (Int32.ofNat (s.heap + q) :: S)).step w.linked w.maxDepth
      = .next ((s.thread.withStore { s.thread.store with
        globals := s.thread.store.globals.setIfInBounds 0 (Int32.ofNat (s.heap + q)) }).on
          (i + 1) S) := by
    rw [Thread.step_on (h.op_eq hop)]
    exact if_pos hlt
  have hnew : (s.thread.store.globals.setIfInBounds 0 (Int32.ofNat (s.heap + q)))[0]?
      = some (Int32.ofNat (s.heap + q)) := Array.getElem?_setIfInBounds_self_of_lt hlt
  have hdiff : (Thread.heapWord ((s.thread.withStore { s.thread.store with
      globals := s.thread.store.globals.setIfInBounds 0 (Int32.ofNat (s.heap + q)) }).on (i + 1) S)
        - Thread.heapWord (s.thread.on i (Int32.ofNat (s.heap + q) :: S))).toUInt32.toNat = q := by
    simp only [Thread.heapWord, Thread.on_store, Thread.withStore, hnew, hpointer,
      Option.getD_some]
    rw [Int32.ofNat_add, Int32.add_comm, Int32.add_sub_cancel, address_ofNat]
    exact Nat.mod_eq_of_lt (by omega)
  have hheap := h.heap.move (Nat.le_add_right s.heap q) (by omega)
    ((Nat.dvd_add_right h.heap.aligned).2 hfour) fun d hd => hw.global_ne hd b.func
  refine next (Trace.next_eq_some.2 ⟨_, hstep, rfl⟩) ?_
  rw [Trace.advance_of_depth (by rfl), Trace.on_thread, hdiff]
  refine hu { s with
      thread := s.thread.withStore { s.thread.store with
        globals := s.thread.store.globals.setIfInBounds 0 (Int32.ofNat (s.heap + q)) }
      heap := s.heap + q } ?_ rfl rfl rfl
  exact ⟨.refl H, rfl, rfl, rfl, Nat.le_add_right _ _, hheap, h.safe, h.vars, fun _ _ _ _ => rfl,
    fun _ _ _ => rfl⟩

/-- A call of the allocator. -/
theorem alloc (h : w.Holds s₀ t₀ b Q k lim H s) (hout : w.Outside b)
    (hi : w.Past b ∨ i + 1 < lim)
    (hop : b.code[i]? = some (.call (w.module.index Emit.allocName))) (hq : q ≤ 2 ^ 28)
    (hfin : printed s <+: fin.1) {m : Nat}
    (hu : ∀ s' t, t = s'.on (i + 1) (Int32.ofNat s.heap :: S) → w.Moves s₀ b m H s (H.saw t) s' →
      s'.heap = s.heap + 4 * q → s'.thread.frame = s.thread.frame → s.heap ≤ w.size →
      s'.thread.store = { s.thread.store with
        globals := s.thread.store.globals.setIfInBounds 0 (Int32.ofNat (s.heap + 4 * q)) } →
      w.Hands s₀ s.heap q t → w.Ends s₀ fin (H.saw t) t) :
    w.Ends s₀ fin H (s.on i (Emit.word q :: S)) := by
  intro hs hH
  obtain ⟨p, o, hw⟩ := h.compiled
  obtain ⟨himport, hfun⟩ := hw.alloc_function
  obtain ⟨c, cs, hcalls, hc, -⟩ := h.calls
  have hroom : s.heap ≤ w.size := by
    have hop' : (s.on i (Emit.word q :: S)).thread.frame.code[
        (s.on i (Emit.word q :: S)).thread.frame.position]?
        = some (.call (w.module.index Emit.allocName)) := h.op_eq hop
    have hok := (h.solid.sound _ hs).op _ hop' c (by rw [Trace.on_calls, hcalls]; rfl)
    exact (hok.2 rfl h.solid.fits (Nat.lt_trans h.solid.size (by decide))).2
  refine call h hop himport hfun [Emit.word q] rfl hfin (fun F depth hF => ?_) hs hH
  obtain ⟨f, hf, -, hcode, -, -, hlocals⟩ := Thread.newFrame_ok hF
  cases hfun.symm.trans hf
  have harr := alloc_code hw
  have hx : F.locals[0]? = some (Emit.word q) := hlocals 0 Nat.two_pos Nat.one_pos
  have hsize : F.locals.size = 2 := by
    obtain ⟨f, hf, -, hsize⟩ := Thread.newFrame_locals hF
    cases hfun.symm.trans hf
    exact hsize
  have hin := h.helper (S := S) hi hout hw.generated.alloc_mem (past_alloc hw) (hcode.trans harr) 10
  have hatop := atop_enter (s.on (i + 1) S) (w.module.index Emit.allocName) F
  have hwords : Emit.word q * 4 = Int32.ofNat (4 * q) := by
    rw [Nat.mul_comm, Int32.ofNat_mul]
    rfl
  rw [← on_enter hF]
  refine globalGet hin rfl hin.heap.pointer ?_
  have hlt : 1 < F.locals.size := by rw [hsize]; exact Nat.one_lt_two
  refine localSet hin rfl hlt ?_
  have hm₁ := hin.moves_local (j := 1) (x := Int32.ofNat s.heap) (m := 0)
    (fun v hv => absurd hv List.not_mem_nil) fun i hi => absurd hi (Nat.not_lt_zero i)
  have h₁ := hin.follow hm₁
  refine globalGet h₁ rfl h₁.heap.pointer ?_
  refine localGet h₁ rfl ((Array.getElem?_setIfInBounds_ne (by decide)).trans hx) ?_
  refine const h₁ rfl ?_
  refine binary h₁ rfl rfl ?_
  refine binary h₁ rfl rfl ?_
  rw [hwords, ← Int32.ofNat_add]
  refine heapSet h₁ rfl hroom (by omega) (Nat.dvd_mul_right 4 q) fun s₂ hm₂ hh₂ hf₂ hst₂ => ?_
  have h₂ := h₁.follow hm₂
  have hptr : s₂.thread.frame.locals[1]? = some (Int32.ofNat s.heap) := by
    rw [hf₂]
    exact Array.getElem?_setIfInBounds_self_of_lt hlt
  refine localGet h₂ rfl hptr ?_
  have hasked : s₂.thread.frame.locals[0]? = some (Emit.word q) := by
    rw [hf₂]
    exact (Array.getElem?_setIfInBounds_ne (by decide)).trans hx
  have hcalls₂ : s₂.calls = ⟨w.module.index Emit.allocName, s.begun, s.heap⟩ :: s.calls := hm₂.calls
  refine leave h₂ (.inr rfl) ((hatop.follow hm₁).follow hm₂) fun hs₂ hnext => ?_
  refine (hu (s.resume s₂) _ rfl (h.moves_resume (H.sub_saw _) ?_ (hm₂.heap.saw _) m) hh₂ rfl
    hroom hst₂ ⟨hs₂.step hnext, ⟨_, hs₂, hnext, ?_⟩, rfl⟩).of_sub ?_
  · exact Nat.le_trans (Nat.le_add_right _ _) (Nat.le_of_eq hh₂.symm)
  · refine ⟨⟨_, by rw [Trace.on_calls, hcalls₂]; rfl, rfl⟩, ?_, rfl, hasked⟩
    rw [Trace.on_thread, Thread.on_code, Thread.on_position, h₂.code]
    rfl
  · intro t ht
    obtain rfl | ht := List.mem_cons.1 ht
    · exact .inr rfl
    · exact .inl ht

/-- The method of the root class has been called. -/
theorem enter_root (h : w.Holds s₀ t₀ b Q k lim H s) (hout : w.Outside b)
    (hi : w.Past b ∨ i < lim) {args : List Int32} {depth : Nat} {F : Frame}
    (hF : Thread.newFrame w.linked w.maxDepth
      (w.module.index (methodTarget rootClass initMethod)) args depth = .ok F)
    (hu : ∀ u, u.heap = s.heap → u.thread.store = s.thread.store →
      w.Ends s₀ fin H ((s.resume u).on i (0 :: S))) :
    w.Ends s₀ fin H
      ((s.on i S).enter (w.module.index (methodTarget rootClass initMethod)) F) := by
  obtain ⟨p, o, hw⟩ := h.compiled
  obtain ⟨himport, y, hfun⟩ := hw.root_function
  obtain ⟨f, hf, -, hcode, -, -, -⟩ := Thread.newFrame_ok hF
  cases hfun.symm.trans hf
  have hname := hw.root_name
  rw [← hname] at hfun hF ⊢
  have hin := h.helper (S := S) hi hout hw.generated.root_mem (past_root hw) hcode 2
  have hatop := atop_enter (s.on i S) (w.module.index (Emit.rootFunction w.program).name) F
  rw [← on_enter hF]
  refine const hin rfl ?_
  exact leave hin (.inr rfl) hatop fun _ _ => hu _ rfl rfl

end Ends

end Setting

end ObjLang
