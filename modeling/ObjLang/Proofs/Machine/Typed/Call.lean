import ObjLang.Proofs.Machine.Heap
import ObjLang.Proofs.Machine.Typed.Hold

/-!
# ObjLang.Proofs.Machine.Typed.Call — calls that know what they call

A call can only trap because there are too many of them, or because a host function refuses its
arguments: the function called is there, and gets as many words as it takes.  The allocator gives the
address at which the heap ended and moves the end on by the words that it was asked for.
-/

namespace ObjLang

open Check Check.Facts

/-! ### Traps of calls -/

theorem HostFunction.call_isPlain {f : HostFunction} {args : List Int32} {e : Trap}
    (h : f.call args = .error e) : e.IsPlain := by
  unfold HostFunction.call at h
  split at h
  case h_7 | h_8 =>
    split at h
    · cases h
      trivial
    · cases h
  case h_9 =>
    cases h
    trivial
  all_goals cases h

namespace Thread

variable {p : LinkedModule} {maxDepth : Nat} {t : Thread} {i k l : Nat} {S args : List Int32}

section

variable {f : LinkedFunction} {depth : Nat} {e : Trap} (hf : p.function? k = some f)
  (hargs : args.length = f.params) (h : newFrame p maxDepth k args depth = .error e)

include hf hargs h

/-- A call of a function that is there, with as many words as it takes, can only be one too many. -/
theorem newFrame_callDepth : e = .callDepth depth := by
  simp only [newFrame, hf, hargs, ne_eq, not_true_eq_false, if_false] at h
  split at h
  · cases h
    rfl
  · cases h

theorem newFrame_isPlain : e.IsPlain := by
  rw [newFrame_callDepth hf hargs h]
  trivial

end

/-- A call of a function that is there, with as many words as it takes. -/
theorem call_isPlain {st : Store} {e : Trap}
    (hk : p.import? k = none → ∃ f, p.function? k = some f ∧ args.length = f.params)
    (h : (t.on i (args ++ S)).call p maxDepth k args.length = .fault st (.trap e)) : e.IsPlain := by
  simp only [call, on_stack, List.take_left, List.drop_left, List.length_reverse, Nat.lt_irrefl,
    if_false] at h
  split at h
  · split at h
    · cases h
    · cases h
    · next e' he =>
      cases h
      exact HostFunction.call_isPlain he
  · next hnone =>
    obtain ⟨f, hf, hlen⟩ := hk hnone
    split at h
    · cases h
    · next e' he =>
      cases h
      exact newFrame_isPlain hf (by rw [List.length_reverse, hlen]) he

/-- A call through a slot of the table that leads to a function with the right number of
parameters. -/
theorem step_callIndirect_of {n : Nat} (hop : t.frame.code[i]? = some (.callIndirect n))
    (hl : l < 2 ^ 31) {j : Nat} (hj : p.table[l]? = some j)
    (hsig : p.signature? j = some (n, true)) :
    (t.on i (Int32.ofNat l :: S)).step p maxDepth = (t.on (i + 1) S).call p maxDepth j n := by
  have hint : (Int32.ofNat l).toInt = l := Int32.toInt_ofNat_of_lt hl
  have hpos : ¬ Int32.ofNat l < 0 := by
    rw [Int32.lt_iff_toInt_lt, hint]
    exact Int.not_lt.2 (Int.natCast_nonneg l)
  rw [step_on hop]
  simp only [exec, pop_on, callThrough, if_neg hpos, hint, Int.toNat_natCast, hj, Option.bind_some,
    hsig, Option.map_some, and_self, if_true]

theorem callee_call {j : Nat} (hop : t.frame.code[i]? = some (.call j)) :
    (t.on i S).callee p = j := by
  simp only [callee, on_code, on_position, hop]

theorem callee_callIndirect {n : Nat} (hop : t.frame.code[i]? = some (.callIndirect n))
    (hl : l < 2 ^ 31) {j : Nat} (hj : p.table[l]? = some j) :
    (t.on i (Int32.ofNat l :: S)).callee p = j := by
  have hint : (Int32.ofNat l).toInt = l := Int32.toInt_ofNat_of_lt hl
  simp only [callee, on_code, on_position, hop, on_stack, List.head?_cons, Option.bind_some, hint,
    Int.toNat_natCast, hj, Option.getD_some]

end Thread

namespace Setting

variable {w : Setting} {s₀ : Trace} {t₀ : State} {b : Body} {Q R : Trace → Prop}
  {k lim n m i j : Nat} {H H' : Ledger} {s s' u : Trace} {S : List Int32} {v x : Int32}
  {g : Code.Func} {arr : Array Op}

/-- A call directly above a caller. -/
structure Atop (s u : Trace) : Prop where
  callers : u.thread.callers = s.thread.frame :: s.thread.callers
  calls : ∃ a, u.calls = a :: s.calls

theorem atop_enter (s : Trace) (j : Nat) (F : Frame) : Atop s (s.enter j F) := ⟨rfl, _, rfl⟩

theorem Atop.follow (h : Atop s u) (hm : w.Moves s₀ b m H u H' s') : Atop s s' :=
  ⟨hm.callers.trans h.callers, by rw [hm.calls]; exact h.calls⟩

/-- A body is that of another function than the allocator. -/
def Outside (w : Setting) (b : Body) : Prop :=
  w.module.index b.name ≠ w.module.index Emit.allocName

namespace Holds

/-! ### Host functions -/

/-- A host function other than the guard: it prints a line, or leaves a word. -/
theorem host (h : w.Holds s₀ t₀ b Q k lim H s) (hlim : i < lim) (hop : b.code[i]? = some (.call j))
    {f : HostFunction} (hf : w.linked.import? j = some f) {args : List Int32}
    (hargs : args.length = f.params)
    (hline : f.hasResult = false → ∀ s', w.Moves s₀ b m H s H s' →
      w.Goes s₀ Q R n H (s'.on (i + 1) S))
    (hvalue : f.hasResult = true → ∀ v, w.Goes s₀ Q R n H (s.on (i + 1) (v :: S))) :
    w.Goes s₀ Q R n H (s.on i (args ++ S)) := by
  have hsig : w.linked.signature? j = some (args.length, f.hasResult) := by
    simp only [LinkedModule.signature?, hf, hargs]
  refine h.step hlim hop (fun st e he => ?_) fun m' hm t ht => ?_
  · rw [Thread.step_call (h.op_eq hop) hsig] at he
    refine Thread.call_isPlain (fun hnone => ?_) he
    cases hf.symm.trans hnone
  rw [Thread.step_call (h.op_eq hop) hsig] at ht
  obtain ⟨l, hl, ht⟩ | ⟨v, hv, rfl⟩ := Thread.call_host hf args ht
  · rw [s.advance_withStore ht rfl]
    exact (hline (HostFunction.call_line hl) _ (h.moves_store (h.heap.print _) m)).le
      (Nat.le_of_lt hm)
  · rw [Trace.advance_on]
    exact (hvalue (HostFunction.call_value hv) v).le (Nat.le_of_lt hm)

/-- The guard lets a receiver pass whose word is positive. -/
theorem guard (h : w.Holds s₀ t₀ b Q k lim H s) (hlim : i < lim)
    (hop : b.code[i]? = some (.call (w.module.index Emit.checkInitName)))
    (hu : 0 < v → w.Goes s₀ Q R n H (s.on (i + 1) (v :: S))) :
    w.Goes s₀ Q R n H (s.on i (v :: S)) := by
  obtain ⟨p, o, hw⟩ := h.compiled
  have hf : w.linked.import? (w.module.index Emit.checkInitName) = some .checkInit :=
    hw.linked.host hw.generated (by simp [Emit.hostNames])
  refine h.step hlim hop (fun st e he => ?_) fun m hm t ht => ?_
  · rw [Thread.step_guard (h.op_eq hop) hf] at he
    split at he
    · cases he
      trivial
    · cases he
  · rw [Thread.step_guard (h.op_eq hop) hf] at ht
    split at ht
    · cases ht
    · next hv =>
      cases ht
      rw [Trace.advance_on]
      exact (hu (Int32.not_le.1 hv)).le (Nat.le_of_lt hm)

/-! ### Functions of the module -/

/-- A step that calls a function of the module. -/
theorem enters (h : w.Holds s₀ t₀ b Q k lim H s) (hlim : i < lim) {op : Op} {T args : List Int32}
    (hop : b.code[i]? = some op) (hstep : (s.thread.on i T).step w.linked w.maxDepth
      = (s.thread.on (i + 1) (args ++ S)).call w.linked w.maxDepth j args.length)
    (hcallee : (s.thread.on i T).callee w.linked = j) (himport : w.linked.import? j = none)
    {f : LinkedFunction} (hf : w.linked.function? j = some f) (hargs : args.length = f.params)
    (hu : ∀ m < n, ∀ F depth, Thread.newFrame w.linked w.maxDepth j args.reverse depth = .ok F →
      w.Goes s₀ Q R m H ((s.on (i + 1) S).enter j F)) :
    w.Goes s₀ Q R n H (s.on i T) := by
  refine h.step hlim hop (fun st e he => ?_) fun m hm t ht => ?_
  · rw [hstep] at he
    exact Thread.call_isPlain (fun _ => ⟨f, hf, hargs⟩) he
  rw [hstep] at ht
  obtain ⟨F, hF, rfl⟩ := Thread.call_function himport ht
  exact (congrArg _ (Trace.advance_enter hcallee)).mpr (hu m hm F _ hF)

/-- A call of a function of the module. -/
theorem call (h : w.Holds s₀ t₀ b Q k lim H s) (hlim : i < lim)
    (hop : b.code[i]? = some (.call j)) (himport : w.linked.import? j = none)
    {f : LinkedFunction} (hf : w.linked.function? j = some f) (args : List Int32)
    (hargs : args.length = f.params)
    (hu : ∀ m < n, ∀ F depth, Thread.newFrame w.linked w.maxDepth j args.reverse depth = .ok F →
      w.Goes s₀ Q R m H ((s.on (i + 1) S).enter j F)) :
    w.Goes s₀ Q R n H (s.on i (args ++ S)) := by
  have hsig := hargs ▸ LinkedModule.signature?_function himport hf
  exact h.enters hlim hop (Thread.step_call (h.op_eq hop) hsig) (Thread.callee_call (h.op_eq hop))
    himport hf hargs hu

/-- A call through a slot of the dispatch table that leads to a function of the module. -/
theorem callIndirect (h : w.Holds s₀ t₀ b Q k lim H s) (hlim : i < lim) (args : List Int32)
    (hop : b.code[i]? = some (.callIndirect args.length)) {l : Nat} (hl : l < 2 ^ 31)
    (hj : w.linked.table[l]? = some j) (himport : w.linked.import? j = none)
    {f : LinkedFunction} (hf : w.linked.function? j = some f) (hargs : args.length = f.params)
    (hu : ∀ m < n, ∀ F depth, Thread.newFrame w.linked w.maxDepth j args.reverse depth = .ok F →
      w.Goes s₀ Q R m H ((s.on (i + 1) S).enter j F)) :
    w.Goes s₀ Q R n H (s.on i (Int32.ofNat l :: (args ++ S))) := by
  have hsig := hargs ▸ LinkedModule.signature?_function himport hf
  exact h.enters hlim hop (Thread.step_callIndirect_of (h.op_eq hop) hl hj hsig)
    (Thread.callee_callIndirect (h.op_eq hop) hl hj) himport hf hargs hu

/-- The end of a call. -/
theorem leave (h : w.Holds s₀ t₀ b Q k lim H u) (hlim : i < lim)
    (hop : b.code[i]? = some .ret ∨ b.code[i]? = none) (hatop : Atop s u)
    (hends : ∀ x n, (u.on i (v :: S)).Allocates w.module x n → w.Allocated (u.on i (v :: S)) x n)
    (hu : Trace.Reaches w.linked w.maxDepth s₀ (u.on i (v :: S)) →
      (u.on i (v :: S)).next w.linked w.maxDepth = some ((s.resume u).push v) →
      w.Goes s₀ Q R n H ((s.resume u).push v)) :
    w.Goes s₀ Q R n H (u.on i (v :: S)) := by
  have hstep : (u.thread.on i (v :: S)).step w.linked w.maxDepth = _ :=
    Thread.step_leave (h.code ▸ hop) hatop.callers
  have hback := Trace.advance_leave (p := w.linked) (i := i) (S := v :: S) (v := v) hatop.callers
    hatop.calls
  refine h.advance hlim (fun _ st e he => ?_) hends fun hs m hm t ht => ?_
  · rw [hstep] at he
    cases he
  · rw [hstep] at ht
    cases ht
    rw [hback]
    exact (hu hs (Trace.next_eq_some.2 ⟨_, hstep, hback.symm⟩)).le (Nat.le_of_lt hm)

/-- Only a call of the allocator is one. -/
theorem not_allocates (h : w.Holds s₀ t₀ b Q k lim H s) (hout : w.Outside b) (x y : Int32)
    (hx : (s.on i S).Allocates w.module x y) : w.Allocated (s.on i S) x y := by
  obtain ⟨a, as, hcalls, ha, -⟩ := h.calls
  obtain ⟨a', ha', hfun⟩ := hx.function
  rw [Trace.on_calls, hcalls] at ha'
  cases ha'
  exact absurd (ha.symm.trans hfun) hout

/-! ### The caller -/

/-- The caller goes on behind a call. -/
theorem moves_resume (h : w.Holds s₀ t₀ b Q k lim H s) (hsub : H.Sub H') (hle : s.heap ≤ u.heap)
    (hheap : w.HeapOk s₀ H' u.thread.store u.heap) (m : Nat) :
    w.Moves s₀ b m H s H' (s.resume u) where
  sub := hsub
  calls := rfl
  callers := rfl
  code := rfl
  heap_le := hle
  heap := hheap
  safe := fun v hv => (h.safe v hv).mono hsub rfl
  vars := fun hp v hv => (h.vars hp v hv).mono hsub.blocks rfl
  cells := fun _ _ _ _ => rfl
  temps := fun _ _ _ => rfl

/-- The caller waits. -/
theorem callersOk (h : w.Holds s₀ t₀ b Q k lim H s) (hi : w.Past b ∨ i < lim)
    (hout : w.Outside b) :
    w.CallersOk s₀ H (s.on i S).thread.frames (s.on i S).calls := by
  obtain ⟨a, as, hcalls, ha, hcallers⟩ := h.calls
  rw [Trace.on_calls, hcalls]
  exact .cons ⟨h.frameOk hi ha, ha ▸ hout⟩ hcallers

/-- A call of the allocator or of the method of the root class has begun. -/
theorem helper (h : w.Holds s₀ t₀ b Q k lim H s) (hi : w.Past b ∨ i < lim) (hout : w.Outside b)
    (hg : g ∈ w.module.functions) (hpast : w.Past (Setting.helper g arr)) {F : Frame}
    (hcode : F.code = arr) (lim' : Nat) :
    w.Holds s₀ t₀ (Setting.helper g arr) Q (k + 1) lim' H
      ((s.on i S).enter (w.module.index g.name) F) where
  solid := h.solid
  body := bodyOk_helper hg
  place := .inl hpast
  takes := h.takes.inner lim'
  code := hcode
  calls := ⟨_, _, rfl, rfl, h.callersOk hi hout⟩
  heap := h.heap
  safe := fun _ hv => absurd hv List.not_mem_nil
  vars := fun _ _ hv => absurd hv List.not_mem_nil
  depth := congrArg (· + 1) h.depth

/-! ### The heap pointer -/

/-- The heap pointer is moved on. -/
theorem heapSet (h : w.Holds s₀ t₀ b Q k lim H s) (hlim : i < lim)
    (hop : b.code[i]? = some (.globalSet 0)) (hroom : s.heap ≤ w.size) {q : Nat}
    (hq : q ≤ 2 ^ 30) (hfour : 4 ∣ q)
    (hu : ∀ s', w.Moves s₀ b m H s H s' → s'.heap = s.heap + q →
      s'.thread.frame = s.thread.frame → w.Goes s₀ Q R n H (s'.on (i + 1) S)) :
    w.Goes s₀ Q R n H (s.on i (Int32.ofNat (s.heap + q) :: S)) := by
  obtain ⟨p, o, hw⟩ := h.compiled
  have hpointer := h.heap.pointer
  obtain ⟨hlt, -⟩ := Array.getElem?_eq_some_iff.1 hpointer
  refine h.step hlim hop (fun st e he => ?_) fun m' hm t ht => ?_
  · rw [Thread.step_on (h.op_eq hop)] at he
    simp only [Thread.exec, Thread.pop_on, Thread.setGlobal] at he
    split at he <;> cases he
  have ht := Thread.step_globalSet (h.op_eq hop) ht
  subst ht
  have hnew : (s.thread.store.globals.setIfInBounds 0 (Int32.ofNat (s.heap + q)))[0]?
      = some (Int32.ofNat (s.heap + q)) := Array.getElem?_setIfInBounds_self_of_lt hlt
  have hdiff : (Thread.heapWord ((s.thread.withStore { s.thread.store with
      globals := s.thread.store.globals.setIfInBounds 0 (Int32.ofNat (s.heap + q)) }).on (i + 1) S)
        - Thread.heapWord (s.thread.on i (Int32.ofNat (s.heap + q) :: S))).toUInt32.toNat = q := by
    simp only [Thread.heapWord, Thread.on_store, Thread.withStore, hnew, hpointer,
      Option.getD_some]
    rw [Int32.ofNat_add, Int32.add_comm, Int32.add_sub_cancel, address_ofNat]
    exact Nat.mod_eq_of_lt (by omega)
  have hheap := h.heap.move (Nat.le_add_right s.heap q) (by omega)
    ((Nat.dvd_add_right h.heap.aligned).2 hfour) fun d hd => hw.global_ne hd b.func
  rw [Trace.advance_of_depth (by rfl), Trace.on_thread, hdiff]
  refine (hu { s with
      thread := s.thread.withStore { s.thread.store with
        globals := s.thread.store.globals.setIfInBounds 0 (Int32.ofNat (s.heap + q)) }
      heap := s.heap + q } ?_ rfl rfl).le (Nat.le_of_lt hm)
  exact ⟨.refl H, rfl, rfl, rfl, Nat.le_add_right _ _, hheap, h.safe, h.vars, fun _ _ _ _ => rfl,
    fun _ _ _ => rfl⟩

/-! ### The generator's own functions -/

/-- A call of the allocator. -/
theorem alloc (h : w.Holds s₀ t₀ b Q k lim H s) (hout : w.Outside b) (hlim : i < lim)
    (hi : w.Past b ∨ i + 1 < lim)
    (hop : b.code[i]? = some (.call (w.module.index Emit.allocName))) {q : Nat} (hq : q ≤ 2 ^ 28)
    (hu : ∀ s' t, t = s'.on (i + 1) (Int32.ofNat s.heap :: S) → w.Moves s₀ b m H s (H.saw t) s' →
      s'.heap = s.heap + 4 * q → s'.thread.frame = s.thread.frame → s.heap ≤ w.size →
      w.Hands s₀ s.heap q t → w.Goes s₀ Q R n (H.saw t) t) :
    w.Goes s₀ Q R n H (s.on i (Emit.word q :: S)) := by
  intro hs hH
  obtain ⟨p, o, hw⟩ := h.compiled
  obtain ⟨himport, hfun⟩ := hw.alloc_function
  obtain ⟨c, cs, hcalls, hc, -⟩ := h.calls
  have hroom : s.heap ≤ w.size := by
    have hop' : (s.on i (Emit.word q :: S)).thread.frame.code[
        (s.on i (Emit.word q :: S)).thread.frame.position]?
        = some (.call (w.module.index Emit.allocName)) := h.op_eq hop
    have hok := (h.solid.sound _ hs).op _ hop' c (by rw [Trace.on_calls, hcalls]; rfl)
    exact (hok.2 rfl h.solid.fits (Nat.lt_trans h.solid.size (by decide))).2
  refine h.call hlim hop himport hfun [Emit.word q] rfl (fun m' hm F depth hF => ?_) hs hH
  obtain ⟨f, hf, -, hcode, -, -, hlocals⟩ := Thread.newFrame_ok hF
  cases hfun.symm.trans hf
  have harr := alloc_code hw
  have hx : F.locals[0]? = some (Emit.word q) := hlocals 0 Nat.two_pos Nat.one_pos
  have hin := h.helper (S := S) hi hout hw.generated.alloc_mem (past_alloc hw) (hcode.trans harr) 10
  have hatop := atop_enter (s.on (i + 1) S) (w.module.index Emit.allocName) F
  have hwords : Emit.word q * 4 = Int32.ofNat (4 * q) := by
    rw [Nat.mul_comm, Int32.ofNat_mul]
    rfl
  rw [← on_enter hF]
  refine hin.globalGet (by decide) rfl hin.heap.pointer ?_
  refine hin.localSet (by decide) rfl fun hlt => ?_
  have hm₁ := hin.moves_local (j := 1) (x := Int32.ofNat s.heap) (m := 0)
    (fun v hv => absurd hv List.not_mem_nil) fun i hi => absurd hi (Nat.not_lt_zero i)
  have h₁ := hin.follow hm₁
  refine h₁.globalGet (by decide) rfl h₁.heap.pointer ?_
  refine h₁.localGet (by decide) rfl ((Array.getElem?_setIfInBounds_ne (by decide)).trans hx) ?_
  refine h₁.const (by decide) rfl ?_
  refine h₁.binary (by decide) rfl fun y hy => ?_
  cases hy
  refine h₁.binary (by decide) rfl fun y hy => ?_
  cases hy
  rw [hwords, ← Int32.ofNat_add]
  refine h₁.heapSet (m := 0) (by decide) rfl hroom (by omega) (Nat.dvd_mul_right 4 q)
    fun s₂ hm₂ hh₂ hf₂ => ?_
  have h₂ := h₁.follow hm₂
  have hptr : s₂.thread.frame.locals[1]? = some (Int32.ofNat s.heap) := by
    rw [hf₂]
    exact Array.getElem?_setIfInBounds_self_of_lt hlt
  refine h₂.localGet (by decide) rfl hptr ?_
  have hasked : s₂.thread.frame.locals[0]? = some (Emit.word q) := by
    rw [hf₂]
    exact (Array.getElem?_setIfInBounds_ne (by decide)).trans hx
  have hcalls₂ : s₂.calls = ⟨w.module.index Emit.allocName, s.begun, s.heap⟩ :: s.calls := hm₂.calls
  refine h₂.leave (by decide) (.inr rfl) ((hatop.follow hm₁).follow hm₂) (fun y z hyz => ?_)
    fun hs₂ hnext => ?_
  · obtain rfl : Int32.ofNat s.heap = y := Option.some.inj hyz.value
    obtain rfl : Emit.word q = z := Option.some.inj (hasked.symm.trans hyz.words)
    have hqword : (Emit.word q).toUInt32.toNat = q := by
      rw [Emit.word, address_ofNat]
      exact Nat.mod_eq_of_lt (by omega)
    refine ⟨_, _, hcalls₂, rfl, h.heap.low, hroom, h.heap.aligned, ?_, fun c hc => ?_⟩
    · rw [hqword]
      exact hh₂
    · obtain ⟨F, -, -, hne⟩ := exists_of_forall₂ (h.callersOk (i := i + 1) (S := S) hi hout).flip hc
      exact hne
  · refine ((hu (s.resume s₂) _ rfl (h.moves_resume (H.sub_saw _) ?_ (hm₂.heap.saw _) m) hh₂ rfl
      hroom ⟨hs₂.step hnext, ⟨_, hs₂, hnext, ?_⟩, rfl⟩).of_sub ?_).le (Nat.le_of_lt hm)
    · exact Nat.le_trans (Nat.le_add_right _ _) (Nat.le_of_eq hh₂.symm)
    · refine ⟨⟨_, by rw [Trace.on_calls, hcalls₂]; rfl, rfl⟩, ?_, rfl, hasked⟩
      rw [Trace.on_thread, Thread.on_code, Thread.on_position, h₂.code]
      rfl
    · intro t ht
      obtain rfl | ht := List.mem_cons.1 ht
      · exact .inr rfl
      · exact .inl ht

/-- The method of the root class has been called. -/
theorem enter_root (h : w.Holds s₀ t₀ b Q k lim H s) (hout : w.Outside b)
    (hi : w.Past b ∨ i < lim) {args : List Int32} {depth : Nat} {F : Frame}
    (hF : Thread.newFrame w.linked w.maxDepth
      (w.module.index (methodTarget rootClass initMethod)) args depth = .ok F)
    (hu : ∀ u, u.heap = s.heap → u.thread.store = s.thread.store →
      w.Goes s₀ Q R n H ((s.resume u).on i (0 :: S))) :
    w.Goes s₀ Q R n H
      ((s.on i S).enter (w.module.index (methodTarget rootClass initMethod)) F) := by
  obtain ⟨p, o, hw⟩ := h.compiled
  obtain ⟨himport, y, hfun⟩ := hw.root_function
  obtain ⟨f, hf, -, hcode, -, -, -⟩ := Thread.newFrame_ok hF
  cases hfun.symm.trans hf
  have hname := hw.root_name
  have hne : w.Outside (Setting.helper (Emit.rootFunction w.program) #[.const 0]) := by
    intro heq
    have hsame := Code.Module.index_inj hw.root_mem hw.alloc_mem (hname ▸ heq)
    exact absurd hsame (by decide)
  rw [← hname] at hfun hF ⊢
  have hin := h.helper (S := S) hi hout hw.generated.root_mem (past_root hw) hcode 2
  have hatop := atop_enter (s.on i S) (w.module.index (Emit.rootFunction w.program).name) F
  rw [← on_enter hF]
  refine hin.const (by decide) rfl ?_
  exact hin.leave (by decide) (.inr rfl) hatop (hin.not_allocates hne) fun _ _ => hu _ rfl rfl

end Holds

end Setting

end ObjLang
