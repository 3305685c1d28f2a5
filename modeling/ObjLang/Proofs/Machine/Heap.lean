import ObjLang.Proofs.Machine.Calls

/-!
# ObjLang.Proofs.Machine.Heap — calls of the generator's own functions

The allocator leaves the heap pointer and moves it on by the words that were asked for; the method
of the root class leaves zero and changes nothing.
-/

namespace ObjLang

open Check Check.Facts

namespace Setting

variable {w : Setting} {p : Program} {o : Options} {t₀ : State} {b : Body} {Q R : Trace → Prop}
  {k lim n i : Nat} {s s' : Trace} {S : List Int32} {x : Int32} {g : Code.Func} {arr : Array Op}

/-! ### Functions without a definition -/

/-- A function of the generator's own. -/
def helper (g : Code.Func) (code : Array Op) : Body :=
  ⟨g.name, g, code, [], [], fun _ => false, none, [], 0⟩

theorem bodyOk_helper (hg : g ∈ w.module.functions) : w.BodyOk t₀ (helper g arr) where
  mem := hg
  name := rfl
  own := by
    rintro x v ⟨l, outer, hl, -⟩
    cases hl
  notGlobal := fun v hv => absurd hv List.not_mem_nil
  slot := fun v hv => absurd hv List.not_mem_nil
  inj := fun v hv => absurd hv List.not_mem_nil
  made := fun _ _ _ _ v hv => absurd hv List.not_mem_nil
  inner := by
    rintro l lv hl
    cases hl
  typed := by simp only [helper, BlockOk]
  statements := .inl rfl

theorem past_helper (hw : Compiled p w.program t₀ o w.module w.linked)
    (hg : g ∈ w.module.functions)
    (hne : ∀ outer d, w.program.Nest outer d → w.program.emitted d ≠ g.name) :
    w.Past (helper g arr) := by
  intro outer d hd heq
  exact absurd (Code.Module.index_inj (Emit.mem_functionNames hg) (hw.emitted_mem hd) heq).symm
    (hne outer d hd)

theorem past_alloc (hw : Compiled p w.program t₀ o w.module w.linked) :
    w.Past (helper Emit.allocFunction arr) :=
  past_helper hw hw.generated.alloc_mem fun _ _ hd =>
    hw.checked.emitted_ne_made hw.words hd
      (by decide : Emit.allocName.toList = '#' :: ['a', 'l', 'l', 'o', 'c'])

theorem past_root (hw : Compiled p w.program t₀ o w.module w.linked) :
    w.Past (helper (Emit.rootFunction w.program) arr) :=
  past_helper hw hw.generated.root_mem fun _ _ hd =>
    hw.root_name ▸ hw.checked.emitted_ne_root hw.words hd

/-- The code of the allocator. -/
theorem alloc_code (hw : Compiled p w.program t₀ o w.module w.linked) :
    (Emit.allocFunction.body.map (w.module.names Emit.allocFunction).op).toArray
      = #[.globalGet 0, .localSet 1, .globalGet 0, .localGet 0, .const 4, .binary .mul,
        .binary .add, .globalSet 0, .localGet 1] := by
  have hnd : (w.module.names Emit.allocFunction).frame.Nodup :=
    (by decide : (Emit.allocFunction.params ++ Emit.allocFunction.locals).Nodup)
  have hptr : (w.module.names Emit.allocFunction).slot "#ptr" = 1 := Names.slot_eq hnd rfl
  have hwords : (w.module.names Emit.allocFunction).slot "#words" = 0 := Names.slot_eq hnd rfl
  have hbody : Emit.allocFunction.body.map (w.module.names Emit.allocFunction).op
      = [.globalGet ((w.module.names Emit.allocFunction).global Emit.heapName),
        .localSet ((w.module.names Emit.allocFunction).slot "#ptr"),
        .globalGet ((w.module.names Emit.allocFunction).global Emit.heapName),
        .localGet ((w.module.names Emit.allocFunction).slot "#words"), .const 4, .binary .mul,
        .binary .add, .globalSet ((w.module.names Emit.allocFunction).global Emit.heapName),
        .localGet ((w.module.names Emit.allocFunction).slot "#ptr")] := rfl
  rw [hbody, hptr, hwords, hw.global_heap]

theorem on_enter {j depth : Nat} {F : Frame} {args : List Int32}
    (hF : Thread.newFrame w.linked w.maxDepth j args depth = .ok F) (s : Trace) :
    (s.enter j F).on 0 [] = s.enter j F := by
  simp only [Trace.on, Trace.enter, Thread.on, Thread.newFrame_start hF]

namespace Here

/-- A call of the allocator or of the method of the root class has begun. -/
theorem helper (h : w.Here t₀ b Q k lim s) (hi : w.Past b ∨ i < lim) (hg : g ∈ w.module.functions)
    (hname : g.name = Emit.allocName ∨ g.name = methodTarget rootClass initMethod)
    (hpast : w.Past (Setting.helper g arr)) {f : LinkedFunction}
    (hf : w.linked.function? (w.module.index g.name) = some f) {F : Frame} (hcode : F.code = f.code)
    (harr : f.code = arr) (lim' : Nat) :
    w.Here t₀ (Setting.helper g arr) Q (k + 1) lim'
      ((s.on i S).enter (w.module.index g.name) F) := by
  obtain ⟨a, as, hcalls, ha⟩ := h.steady.function
  have hst := h.stacked (S := S) hi
  have hfun : (⟨w.module.index g.name, s.begun, s.heap⟩ : Trace.Call).function
      = w.module.index g.name := rfl
  refine ⟨h.compiled, bodyOk_helper hg, .inl hpast, h.admits.inner lim',
    ⟨hcode.trans harr, ⟨_, _, rfl, hfun⟩, ?_, h.steady.heap, h.steady.memory⟩, ?_⟩
  · rw [hcalls] at hst
    refine (congrArg (fun l => w.Stacked s.heap _ (_ :: l)) hcalls).mpr ?_
    exact .helper hname ⟨rfl, f, hf, hcode⟩ (Nat.le_refl _) hst
  · exact congrArg (· + 1) h.depth

/-- A call of the allocator. -/
theorem alloc (h : w.Here t₀ b Q k lim s) (hr : w.Room s) (hlim : i < lim)
    (hi : w.Past b ∨ i + 1 < lim)
    (hop : b.code[i]? = some (.call (w.module.index Emit.allocName)))
    (hu : ∀ s', Back (s.on (i + 1) S) s' → s'.heap = s.heap + (x * 4).toUInt32.toNat →
      Trace.Until w.linked w.maxDepth Q R n (s'.on (i + 1) (Int32.ofNat s.heap :: S))) :
    Trace.Until w.linked w.maxDepth Q R n (s.on i (x :: S)) := by
  obtain ⟨p, o, hw⟩ := h.compiled
  obtain ⟨himport, hfun⟩ := hw.alloc_function
  have hne := hw.index_ne_guard hw.alloc_mem (by decide)
  refine h.call hr hlim hop hne himport hfun [x] rfl fun m hm F depth hF => ?_
  obtain ⟨f, hf, -, hcode, -, -, hlocals⟩ := Thread.newFrame_ok hF
  cases hfun.symm.trans hf
  have harr := alloc_code hw
  have hx : F.locals[0]? = some x := hlocals 0 Nat.two_pos Nat.one_pos
  have hin := h.helper (S := S) hi hw.generated.alloc_mem (.inl rfl) (past_alloc hw) hfun hcode harr
    10
  have habove := above_enter (s.on (i + 1) S) (w.module.index Emit.allocName) F
  rw [← on_enter hF]
  refine hin.heapGet (by decide) rfl ?_
  refine hin.localSet (by decide) rfl (fun _ hu => absurd hu List.not_mem_nil)
    fun s₁ hf₁ hh₁ hptr hl₁ => ?_
  have h₁ := hin.follow hf₁
  refine h₁.heapGet (by decide) rfl ?_
  refine h₁.localGet (by decide) rfl fun v hv => ?_
  obtain rfl : x = v := Option.some.inj (hx.symm.trans ((hl₁ 0 (by decide)).symm.trans hv))
  refine h₁.const (by decide) rfl ?_
  refine h₁.binary (by decide) rfl fun y hy => ?_
  cases hy
  refine h₁.binary (by decide) rfl fun y hy => ?_
  cases hy
  refine h₁.heapSet (by decide) rfl rfl fun s₂ hf₂ hh₂ hl₂ => ?_
  have h₂ := h₁.follow hf₂
  refine h₂.localGet (by decide) rfl fun v hv => ?_
  rw [hl₂, hptr] at hv
  cases hv
  refine h₂.leave (by decide) (.inr rfl) ((habove.follow hf₁).follow hf₂) fun s' hb hh => ?_
  rw [hb.push_eq]
  refine (hu s' hb ?_).le (Nat.le_of_lt hm)
  rw [hh, hh₂, hh₁]
  rfl

/-- The method of the root class has been called. -/
theorem enter_root (h : w.Here t₀ b Q k lim s) (hi : w.Past b ∨ i < lim) {args : List Int32}
    {depth : Nat} {F : Frame} (hF : Thread.newFrame w.linked w.maxDepth
      (w.module.index (methodTarget rootClass initMethod)) args depth = .ok F)
    (hu : ∀ s', Back (s.on i S) s' → s'.heap = s.heap →
      Trace.Until w.linked w.maxDepth Q R n (s'.on i (0 :: S))) :
    Trace.Until w.linked w.maxDepth Q R n
      ((s.on i S).enter (w.module.index (methodTarget rootClass initMethod)) F) := by
  obtain ⟨p, o, hw⟩ := h.compiled
  obtain ⟨himport, y, hfun⟩ := hw.root_function
  obtain ⟨f, hf, -, hcode, -, -, -⟩ := Thread.newFrame_ok hF
  cases hfun.symm.trans hf
  have hname := hw.root_name
  rw [← hname] at hfun hF ⊢
  have hin := h.helper (S := S) hi hw.generated.root_mem (.inr hname) (past_root hw) hfun hcode rfl
    2
  have habove := above_enter (s.on i S) (w.module.index (Emit.rootFunction w.program).name) F
  rw [← on_enter hF]
  refine hin.const (by decide) rfl ?_
  refine hin.leave (by decide) (.inr rfl) habove fun s' hb hh => ?_
  rw [hb.push_eq]
  exact hu s' hb hh

/-- A call of the method of the root class. -/
theorem root (h : w.Here t₀ b Q k lim s) (hr : w.Room s) (hlim : i < lim)
    (hi : w.Past b ∨ i + 1 < lim)
    (hop : b.code[i]? = some (.call (w.module.index (methodTarget rootClass initMethod))))
    (hu : ∀ s', Back (s.on (i + 1) S) s' → s'.heap = s.heap →
      Trace.Until w.linked w.maxDepth Q R n (s'.on (i + 1) (0 :: S))) :
    Trace.Until w.linked w.maxDepth Q R n (s.on i (x :: S)) := by
  obtain ⟨p, o, hw⟩ := h.compiled
  obtain ⟨himport, y, hfun⟩ := hw.root_function
  have hne := hw.index_ne_guard hw.root_mem (by decide)
  refine h.call hr hlim hop hne himport hfun [x] rfl fun m hm F depth hF => ?_
  exact h.enter_root hi hF fun s' hb hh => (hu s' hb hh).le (Nat.le_of_lt hm)

end Here

end Setting

end ObjLang
