import ObjLang.Proofs.Machine.Typed.Effect

/-!
# ObjLang.Proofs.Machine.Typed.Opening — cells before the statements

The prologue of a definition moves its captured parameters into new cells and gives its variables
their first values.  Behind it the slot of every variable holds a word of its type, or the address of
a cell with one.
-/

namespace ObjLang

open Check Check.Facts

namespace Setting

variable {w : Setting} {p : Program} {o : Options} {s₀ : Trace} {t₀ : State} {b : Body}
  {Q R : Trace → Prop} {k lim n m i a a' : Nat} {H H' : Ledger} {s s' : Trace} {S : List Int32}
  {v u : VarId} {x : Int32} {outer : List FunDef} {d : FunDef} {g : Code.Func} {arr : Array Op}
  {vs : List VarId}

/-- The prologue of a definition, with the slots of all its variables. -/
def preamble (w : Setting) (d : FunDef) (g : Code.Func) (arr : Array Op) : Body :=
  { helper g arr with vars := (w.program.record d).slots }

theorem bodyOk_preamble (hw : Compiled p w.program t₀ o w.module w.linked)
    (hd : w.program.Nest outer d) (hg : CodeOf w.program w.module w.linked d g arr) :
    w.BodyOk t₀ (w.preamble d g arr) := by
  refine ⟨hg.mem, rfl, ?_, fun u hu => (hw.var_owner hd hu).1,
    fun u hu => hw.slot_name hd hg hu, fun u hu u' hu' => hw.slot_inj hd hu hu',
    fun y rest hy hmem u hu => hw.slot_made hd hg hy hmem hu, ?_, ?_, .inl rfl⟩
  · rintro y u ⟨l, lv, hl, -⟩
    cases hl
  · intro l lv hl
    cases hl
  · simp only [preamble, helper, BlockOk]

/-- The definition of a function. -/
theorem eq_of_index (hw : Compiled p w.program t₀ o w.module w.linked)
    (hd : w.program.Nest outer d) (hg : CodeOf w.program w.module w.linked d g arr)
    {outer' : List FunDef} {d' : FunDef} (hd' : w.program.Nest outer' d')
    (heq : w.module.index g.name = w.module.index (w.program.emitted d')) : d = d' := by
  have hname : g.name = w.program.emitted d' :=
    Code.Module.index_inj (Emit.mem_functionNames hg.mem) (hw.emitted_mem hd') heq
  exact hw.checked.emitted_inj hw.words hd hd' (hg.name.symm.trans hname)

theorem ahead_preamble (hw : Compiled p w.program t₀ o w.module w.linked)
    (hd : w.program.Nest outer d) (hg : CodeOf w.program w.module w.linked d g arr) :
    w.Ahead (w.preamble d g arr) (w.program.prologue d) := by
  intro outer' d' hd' heq
  obtain rfl := eq_of_index hw hd hg hd' heq
  exact ⟨Nat.le_refl _, rfl⟩

theorem not_past_preamble (hd : w.program.Nest outer d)
    (hg : CodeOf w.program w.module w.linked d g arr) (hpos : 0 < w.program.prologue d) :
    ¬ w.Past (w.preamble d g arr) := by
  intro hp
  have hstart : 0 = w.program.prologue d := (hp outer d hd (congrArg _ hg.name)).2
  omega

theorem outside_preamble (hw : Compiled p w.program t₀ o w.module w.linked)
    (hd : w.program.Nest outer d) (hg : CodeOf w.program w.module w.linked d g arr) :
    w.Outside (w.preamble d g arr) := by
  intro heq
  have hname := Code.Module.index_inj (Emit.mem_functionNames hg.mem) hw.alloc_mem heq
  exact hw.checked.emitted_ne_made hw.words hd
    (by decide : Emit.allocName.toList = '#' :: ['a', 'l', 'l', 'o', 'c'])
    (hg.name.symm.trans hname)

/-- A parameter or variable of a definition lives in a cell if it is captured. -/
theorem own_indirect (hw : Compiled p w.program t₀ o w.module w.linked)
    (hd : w.program.Nest outer d)
    (hv : v ∈ (w.program.record d).params ++ (w.program.record d).locals) :
    (w.program.var v).isIndirect = (w.program.var v).refed := by
  obtain ⟨id, -, -, hf, -⟩ := hw.checked.record_ok hd
  have hplain : ∃ r t, t₀.vars.get? v = some r ∧ r.ty = .plain t := by
    obtain hv | hv := List.mem_append.1 hv
    · have hfst : ((w.program.record d).params.zip (w.program.record d).paramTypes).map Prod.fst
          = (w.program.record d).params := List.map_fst_zip (Nat.le_of_eq hf.params_length)
      rw [← hfst] at hv
      obtain ⟨vt, hvt, rfl⟩ := List.mem_map.1 hv
      obtain ⟨q, -, r, hr, -, hty, -⟩ := exists_of_forall₂ hf.params.flip hvt
      exact ⟨r, _, hr, hty⟩
    · obtain ⟨e, -, -, r, t, hr, -, hty, -⟩ := exists_of_forall₂ hf.locals.flip hv
      exact ⟨r, t, hr, hty⟩
  obtain ⟨r, t, hr, hty⟩ := hplain
  rw [Emit.var_eq hw.checked hr, Variable.isIndirect, hty]
  rfl

/-- What the prologue has done for a variable: its slot holds what it should, and the slots of the
others hold what they did. -/
structure Prepares (w : Setting) (d : FunDef) (vs : List VarId) (s : Trace) (H' : Ledger)
    (s' : Trace) : Prop where
  ready : ∀ v ∈ vs, w.VarOk H'.blocks s'.thread.frame v
  others : ∀ u ∈ (w.program.record d).slots, u ∉ vs →
    s'.thread.frame.locals[w.program.slot u]? = s.thread.frame.locals[w.program.slot u]?

theorem Prepares.trans {us : List VarId} {H₁ H₂ : Ledger} {s₁ s₂ : Trace}
    (h : w.Prepares d vs s H₁ s₁) (h' : w.Prepares d us s₁ H₂ s₂) (hsub : H₁.Sub H₂)
    (hvs : ∀ v ∈ vs, v ∈ (w.program.record d).slots ∧ v ∉ us) :
    w.Prepares d (vs ++ us) s H₂ s₂ where
  ready := fun v hv => by
    obtain hv | hv := List.mem_append.1 hv
    · exact (h.ready v hv).mono hsub.blocks (h'.others v (hvs v hv).1 (hvs v hv).2)
    · exact h'.ready v hv
  others := fun u hu hne => by
    obtain ⟨hv, hu'⟩ := not_or.1 (mt List.mem_append.2 hne)
    exact (h'.others u hu hu').trans (h.others u hu hv)

namespace Holds

/-- A new cell with its first value comes into the ledger. -/
theorem addCell (h : w.Holds s₀ t₀ b Q k lim H s) {q : Nat}
    (hgets : ∃ t ∈ H.states, w.Gets s₀ ⟨q, .cell v⟩ t) (hlow : w.base ≤ q) (hfour : 4 ∣ q)
    (hheap : s.heap = q + 4) (hsize : q + 4 ≤ w.size) (hblocks : ∀ B ∈ H.blocks, B.stop ≤ q)
    (hx : w.program.Suits H.blocks x (w.program.typeOf v))
    (hword : s.thread.store.memory.word q = x) :
    w.Moves s₀ b m H s (H.add ⟨q, .cell v⟩) s := by
  refine h.moves_ledger (H.sub_add _) (h.heap.add hgets hlow hfour ?_ hsize hblocks ?_) m
  · exact Nat.le_of_eq hheap.symm
  · intro j hj
    obtain rfl : j = 0 := Nat.lt_one_iff.1 hj
    show w.program.Suits (H.add ⟨q, .cell v⟩).blocks (s.thread.store.memory.word (q + 4 * 0))
      (w.program.typeOf v)
    rw [Nat.mul_zero, Nat.add_zero, hword]
    exact hx.mono (H.sub_add _).blocks

section

variable (hd : w.program.Nest outer d) (hg : CodeOf w.program w.module w.linked d g arr)

include hd hg

/-- What the innermost call has just asked for a block for is a cell. -/
theorem wants_cell (h : w.Holds s₀ t₀ (w.preamble d g arr) Q k lim H s)
    (hv : v ∈ w.program.boxed d)
    (hcode : CodeAt (w.module.names g) arr (Emit.boxParam (w.program.var v)) a a' ∨
      ∃ x, CodeAt (w.module.names g) arr (Emit.initLocal (w.program.var v) x) a a') :
    w.Wants (s.on (a + 2) S) (.cell v) := by
  obtain ⟨c, cs, hcalls, hc, -⟩ := h.calls
  have hcode' : CodeAt (w.module.names g) (s.on (a + 2) S).thread.frame.code
        (Emit.boxParam (w.program.var v)) a a' ∨
      ∃ x, CodeAt (w.module.names g) (s.on (a + 2) S).thread.frame.code
        (Emit.initLocal (w.program.var v) x) a a' := by
    rw [Trace.on_thread, Thread.on_code, h.code]
    exact hcode
  refine .cell hd hv hg.mem hg.name ⟨c, ?_, hc⟩ hcode' rfl
  rw [Trace.on_calls, hcalls]
  rfl

/-- The slot of a variable gets the address of its cell. -/
theorem setCell (h : w.Holds s₀ t₀ (w.preamble d g arr) Q k lim H s)
    (hpos : 0 < w.program.prologue d) (hv : v ∈ (w.program.record d).slots)
    (hind : (w.program.var v).isIndirect = true) {q : Nat} (hB : ⟨q, .cell v⟩ ∈ H.blocks)
    (hlim : i < lim)
    (hop : arr[i]? = some (.localSet ((w.module.names g).slot (w.program.var v).name)))
    (hu : ∀ s', w.Moves s₀ (w.preamble d g arr) 0 H s H s' → w.Prepares d [v] s H s' →
      w.Goes s₀ Q R n H (s'.on (i + 1) S)) :
    w.Goes s₀ Q R n H (s.on i (Int32.ofNat q :: S)) := by
  obtain ⟨p, o, hw⟩ := h.compiled
  have hnot := not_past_preamble hd hg hpos
  rw [hw.slot_name hd hg hv] at hop
  refine h.localSet hlim hop fun hlt => ?_
  have hok : w.VarOk H.blocks
      (s.withLocal (w.program.slot v) (Int32.ofNat q)).thread.frame v := by
    refine ⟨_, Array.getElem?_setIfInBounds_self_of_lt hlt, ?_⟩
    rw [if_pos hind]
    exact ⟨_, hB, v, rfl, rfl, rfl, rfl⟩
  refine hu _ (h.moves_slot hv (fun hp => absurd hp hnot) (.inl hok) fun hp => absurd hp hnot)
    ⟨fun u hu => List.mem_singleton.1 hu ▸ hok, fun u hu hne => ?_⟩
  exact Array.getElem?_setIfInBounds_ne fun heq =>
    hne (List.mem_singleton.2 (hw.slot_inj hd hu hv heq.symm))

/-- A captured parameter moves into a new cell. -/
theorem boxParam (h : w.Holds s₀ t₀ (w.preamble d g arr) Q k lim H s)
    (hpos : 0 < w.program.prologue d) (hv : v ∈ w.program.boxed d)
    (hx : s.thread.frame.locals[w.program.slot v]? = some x)
    (hsuits : w.program.Suits H.blocks x (w.program.typeOf v))
    (hcode : CodeAt (w.module.names g) arr (Emit.boxParam (w.program.var v)) a a')
    (hlim : a' ≤ lim)
    (hu : ∀ H' s', w.Moves s₀ (w.preamble d g arr) 0 H s H' s' → w.Prepares d [v] s H' s' →
      w.Goes s₀ Q R n H' (s'.on a' S)) : w.Goes s₀ Q R n H (s.on a S) := by
  obtain ⟨p, o, hw⟩ := h.compiled
  obtain ⟨hown, href⟩ := List.mem_filter.1 hv
  have hslots := Compiled.mem_slots_of_own hown
  have hslot := hw.slot_name hd hg hslots
  have hind : (w.program.var v).isIndirect = true := (own_indirect hw hd hown).trans href
  have hwhole := hcode
  obtain ⟨hat, rfl⟩ := Emit.codeAt_boxParam hcode
  have hmade : ∀ u ∈ (w.program.record d).slots,
      (w.module.names g).slot Emit.cellName ≠ w.program.slot u := fun u hu =>
    hw.slot_made hd hg (by decide : _ = '#' :: ['c', 'e', 'l', 'l']) hat.declared hu
  have hblocks : ∀ B ∈ H.blocks, B.stop ≤ s.heap := fun B hB => (h.heap.inside B hB).2.2.1
  refine h.const (by omega) hat.words ?_
  refine h.alloc (m := 0) (outside_preamble hw hd hg) (by omega) (.inr (by omega)) hat.alloc
    (q := 1) (by omega) fun s₁ t ht hm₁ hh₁ hf₁ hroom hhands => ?_
  subst ht
  have h₁ := h.follow hm₁
  have hwants : w.Wants (s₁.on (a + 2) (Int32.ofNat s.heap :: S)) (.cell v) :=
    wants_cell hd hg h₁ hv (.inl hwhole)
  generalize hH₁ : H.saw (s₁.on (a + 1 + 1) (Int32.ofNat s.heap :: S)) = H₁ at hm₁ h₁ ⊢
  have hblocks₁ : H₁.blocks = H.blocks := hH₁ ▸ rfl
  refine h₁.setMade (m := 0) (by decide : _ = '#' :: ['c', 'e', 'l', 'l']) hat.declared (by omega) hat.keep
    (fun j hj => absurd hj (Nat.not_lt_zero j)) fun s₂ hm₂ hs₂ hcell₂ => ?_
  have h₂ := h₁.follow hm₂
  have hh₂ : s₂.heap = s₁.heap := by rw [hs₂]; rfl
  have hkeeps₂ : ∀ u ∈ (w.program.record d).slots, s₂.thread.frame.locals[w.program.slot u]?
      = s.thread.frame.locals[w.program.slot u]? := by
    intro u hu
    rw [hs₂, ← hf₁]
    exact Array.getElem?_setIfInBounds_ne (hmade u hu)
  refine h₂.localGet (by omega) hat.cell hcell₂ ?_
  refine h₂.localGet (by omega) hat.value (hslot ▸ (hkeeps₂ v hslots).trans hx) ?_
  have hgets : ∃ t ∈ H₁.states, w.Gets s₀ ⟨s.heap, .cell v⟩ t :=
    ⟨_, hH₁ ▸ List.mem_cons_self, hhands, hwants⟩
  refine h₂.storeFresh (m := 0) (j := 0) (by omega) hat.fill hgets Nat.one_pos (hblocks₁ ▸ hblocks)
    hroom (hh₂.trans hh₁).symm fun s₃ hm₃ hs₃ hin => ?_
  have h₃ := h₂.follow hm₃
  have hf₃ : s₃.thread.frame = s₂.thread.frame := by
    rw [hs₃, Trace.withStore_frame]
  have hh₃ : s₃.heap = s₂.heap := by rw [hs₃, Trace.withStore_heap]
  have hm₄ : w.Moves s₀ (w.preamble d g arr) 0 H₁ s₃ (H₁.add ⟨s.heap, .cell v⟩) s₃ := by
    refine h₃.addCell (x := x) hgets h.heap.low
      h.heap.aligned ?_ hin (hblocks₁ ▸ hblocks) (hblocks₁ ▸ hsuits) ?_
    · rw [hh₃, hh₂, hh₁]
    · rw [hs₃]
      exact Memory.word_setWord ..
  have h₄ := h₃.follow hm₄
  refine Goes.of_add (B := ⟨s.heap, .cell v⟩) ?_
  refine h₄.localGet (by omega) hat.again (hf₃ ▸ hcell₂) ?_
  refine setCell hd hg h₄ hpos hslots hind List.mem_cons_self (by omega) hat.move
    fun s₅ hm₅ hprep => ?_
  refine hu _ s₅ (((hm₁.trans hm₂ (Nat.le_refl 0)).trans (hm₃.trans hm₄ (Nat.le_refl 0))
    (Nat.le_refl 0)).trans hm₅ (Nat.le_refl 0)) ⟨hprep.ready, fun u hu hne => ?_⟩
  rw [hprep.others u hu hne, hf₃, hkeeps₂ u hu]

/-- A captured variable gets a new cell with its first value. -/
theorem initCell (h : w.Holds s₀ t₀ (w.preamble d g arr) Q k lim H s)
    (hpos : 0 < w.program.prologue d) (hv : v ∈ w.program.boxed d) {y : Literal}
    (hy : y.Fits (w.program.typeOf v))
    (hcode : CodeAt (w.module.names g) arr (Emit.initLocal (w.program.var v) y) a a')
    (hlim : a' ≤ lim)
    (hu : ∀ H' s', w.Moves s₀ (w.preamble d g arr) 0 H s H' s' → w.Prepares d [v] s H' s' →
      w.Goes s₀ Q R n H' (s'.on a' S)) : w.Goes s₀ Q R n H (s.on a S) := by
  obtain ⟨p, o, hw⟩ := h.compiled
  obtain ⟨hown, href⟩ := List.mem_filter.1 hv
  have hslots := Compiled.mem_slots_of_own hown
  have hslot := hw.slot_name hd hg hslots
  have hind : (w.program.var v).isIndirect = true := (own_indirect hw hd hown).trans href
  have hnot := not_past_preamble hd hg hpos
  have hwhole := hcode
  obtain ⟨hat, rfl⟩ := Emit.codeAt_initLocal href hcode
  have hblocks : ∀ B ∈ H.blocks, B.stop ≤ s.heap := fun B hB => (h.heap.inside B hB).2.2.1
  refine h.const (by omega) hat.words ?_
  refine h.alloc (m := 0) (outside_preamble hw hd hg) (by omega) (.inr (by omega)) hat.alloc
    (q := 1) (by omega) fun s₁ t ht hm₁ hh₁ hf₁ hroom hhands => ?_
  subst ht
  have h₁ := h.follow hm₁
  have hwants : w.Wants (s₁.on (a + 2) (Int32.ofNat s.heap :: S)) (.cell v) :=
    wants_cell hd hg h₁ hv (.inr ⟨y, hwhole⟩)
  generalize hH₁ : H.saw (s₁.on (a + 1 + 1) (Int32.ofNat s.heap :: S)) = H₁ at hm₁ h₁ ⊢
  have hblocks₁ : H₁.blocks = H.blocks := hH₁ ▸ rfl
  have hgets : ∃ t ∈ H₁.states, w.Gets s₀ ⟨s.heap, .cell v⟩ t :=
    ⟨_, hH₁ ▸ List.mem_cons_self, hhands, hwants⟩
  have hkeep : arr[a + 1 + 1]? = some (.localSet (w.program.slot v)) :=
    hat.keep.trans (congrArg (some ∘ Op.localSet) hslot)
  have hcell : arr[a + 1 + 1 + 1]? = some (.localGet (w.program.slot v)) :=
    hat.cell.trans (congrArg (some ∘ Op.localGet) hslot)
  -- The cell has no value yet, so it is not in the ledger when its address goes into the slot.
  refine h₁.localSet (by omega) hkeep fun hlt => ?_
  have hset : (s₁.withLocal (w.program.slot v) (Int32.ofNat s.heap)).thread.frame.locals[
      w.program.slot v]? = some (Int32.ofNat s.heap) :=
    Array.getElem?_setIfInBounds_self_of_lt hlt
  have hm₂ := h₁.moves_slot (x := Int32.ofNat s.heap) hslots (fun hp => absurd hp hnot)
    (.inr ⟨_, hset, .inr ⟨s.heap, rfl, hgets⟩⟩) fun hp => absurd hp hnot
  generalize hs₂ : s₁.withLocal (w.program.slot v) (Int32.ofNat s.heap) = s₂ at hset hm₂ ⊢
  have hh₂ : s₂.heap = s₁.heap := hs₂ ▸ rfl
  have h₂ := h₁.follow hm₂
  refine h₂.localGet (by omega) hcell hset ?_
  refine h₂.const (by omega) hat.value ?_
  refine h₂.storeFresh (m := 0) (j := 0) (by omega) hat.fill hgets Nat.one_pos (hblocks₁ ▸ hblocks)
    hroom (hh₂.trans hh₁).symm fun s₃ hm₃ hs₃ hin => ?_
  have h₃ := h₂.follow hm₃
  have hm₄ : w.Moves s₀ (w.preamble d g arr) 0 H₁ s₃ (H₁.add ⟨s.heap, .cell v⟩) s₃ := by
    refine h₃.addCell (x := y.word) hgets h.heap.low h.heap.aligned ?_ hin (hblocks₁ ▸ hblocks)
      (CheckedProgram.suits_word hy) ?_
    · rw [hs₃, Trace.withStore_heap]
      exact hh₂.trans hh₁
    · rw [hs₃]
      exact Memory.word_setWord ..
  refine Goes.of_add (B := ⟨s.heap, .cell v⟩) ?_
  refine hu _ s₃ ((hm₁.trans hm₂ (Nat.le_refl 0)).trans (hm₃.trans hm₄ (Nat.le_refl 0))
    (Nat.le_refl 0)) ⟨fun u hu => ?_, fun u hu hne => ?_⟩
  · obtain rfl := List.mem_singleton.1 hu
    refine ⟨Int32.ofNat s.heap, ?_, ?_⟩
    · rw [hs₃, Trace.withStore_frame]
      exact hset
    · rw [if_pos hind]
      exact ⟨_, List.mem_cons_self, u, rfl, rfl, rfl, rfl⟩
  · rw [hs₃, Trace.withStore_frame, ← hf₁, ← hs₂]
    exact Array.getElem?_setIfInBounds_ne fun heq =>
      hne (List.mem_singleton.2 (hw.slot_inj hd hu hslots heq.symm))

/-- Another variable gets its first value. -/
theorem initPlain (h : w.Holds s₀ t₀ (w.preamble d g arr) Q k lim H s)
    (hpos : 0 < w.program.prologue d)
    (hv : v ∈ (w.program.record d).params ++ (w.program.record d).locals)
    (href : (w.program.var v).refed = false) {y : Literal} (hy : y.Fits (w.program.typeOf v))
    (hcode : CodeAt (w.module.names g) arr (Emit.initLocal (w.program.var v) y) a a')
    (hlim : a' ≤ lim)
    (hu : ∀ s', w.Moves s₀ (w.preamble d g arr) 0 H s H s' → w.Prepares d [v] s H s' →
      w.Goes s₀ Q R n H (s'.on a' S)) : w.Goes s₀ Q R n H (s.on a S) := by
  obtain ⟨p, o, hw⟩ := h.compiled
  have hslots := Compiled.mem_slots_of_own hv
  have hnot := not_past_preamble hd hg hpos
  rw [Emit.initLocal, href, if_neg Bool.false_ne_true] at hcode
  obtain ⟨hop₁, -, hcode⟩ := codeAt_cons.1 hcode
  obtain ⟨hop₂, -, rfl⟩ := codeAt_singleton.1 hcode
  have hop₂' : arr[a + 1]? = some (.localSet (w.program.slot v)) :=
    hop₂.trans (congrArg (some ∘ Op.localSet) (hw.slot_name hd hg hslots))
  refine h.const (by omega) hop₁ ?_
  refine h.localSet (by omega) hop₂' fun hlt => ?_
  have hok : w.VarOk H.blocks (s.withLocal (w.program.slot v) y.word).thread.frame v := by
    refine ⟨_, Array.getElem?_setIfInBounds_self_of_lt hlt, ?_⟩
    rw [own_indirect hw hd hv, href, if_neg Bool.false_ne_true]
    exact CheckedProgram.suits_word hy
  refine hu _ (h.moves_slot hslots (fun hp => absurd hp hnot) (.inl hok) fun hp => absurd hp hnot)
    ⟨fun u hu => List.mem_singleton.1 hu ▸ hok, fun u hu hne => ?_⟩
  exact Array.getElem?_setIfInBounds_ne fun heq =>
    hne (List.mem_singleton.2 (hw.slot_inj hd hu hslots heq.symm))

/-- All captured parameters move into new cells. -/
theorem boxParams (h : w.Holds s₀ t₀ (w.preamble d g arr) Q k lim H s)
    (hpos : 0 < w.program.prologue d) (hvs : ∀ v ∈ vs, v ∈ w.program.boxed d) (hnd : vs.Nodup)
    (hraw : ∀ v ∈ vs, ∃ x, s.thread.frame.locals[w.program.slot v]? = some x ∧
      w.program.Suits H.blocks x (w.program.typeOf v))
    (hcode : CodeAt (w.module.names g) arr ((vs.map w.program.var).flatMap Emit.boxParam) a a')
    (hlim : a' ≤ lim)
    (hu : ∀ H' s', w.Moves s₀ (w.preamble d g arr) 0 H s H' s' → w.Prepares d vs s H' s' →
      w.Goes s₀ Q R n H' (s'.on a' S)) : w.Goes s₀ Q R n H (s.on a S) := by
  induction vs generalizing H s a with
  | nil =>
    obtain rfl := codeAt_nil.1 hcode
    exact hu H s (h.refl 0) ⟨fun v hv => absurd hv List.not_mem_nil, fun _ _ _ => rfl⟩
  | cons v vs ih =>
    obtain ⟨b₁, hfirst, hrest⟩ := codeAt_append.1 hcode
    have hle := Emit.codeAt_le hrest
    obtain ⟨hnot, hnd⟩ := List.nodup_cons.1 hnd
    obtain ⟨⟨x, hx, hsuits⟩, hraw⟩ := List.forall_mem_cons.1 hraw
    obtain ⟨hv, hvs⟩ := List.forall_mem_cons.1 hvs
    have hslots : ∀ u ∈ w.program.boxed d, u ∈ (w.program.record d).slots := fun u hu =>
      Compiled.mem_slots_of_own (List.mem_of_mem_filter hu)
    refine boxParam hd hg h hpos hv hx hsuits hfirst (by omega) fun H₁ s₁ hm₁ hprep₁ => ?_
    refine ih (h.follow hm₁) hvs hnd (fun u hu => ?_) hrest fun H₂ s₂ hm₂ hprep₂ => ?_
    · obtain ⟨y, hy, hsuits⟩ := hraw u hu
      have hne : u ∉ [v] := fun heq => hnot (List.mem_singleton.1 heq ▸ hu)
      exact ⟨y, (hprep₁.others u (hslots u (hvs u hu)) hne).trans hy, hsuits.mono hm₁.sub.blocks⟩
    · refine hu H₂ s₂ (hm₁.trans hm₂ (Nat.le_refl 0)) (hprep₁.trans hprep₂ hm₂.sub fun u hu => ?_)
      exact List.mem_singleton.1 hu ▸ ⟨hslots v hv, hnot⟩

/-- All variables of the definition get their first values. -/
theorem initLocals (h : w.Holds s₀ t₀ (w.preamble d g arr) Q k lim H s)
    (hpos : 0 < w.program.prologue d) {ds : List VarDef}
    (hds : List.Forall₂ (fun e v => e.binding = some v ∧ e.init.Fits (w.program.typeOf v)) ds vs)
    (hvs : ∀ v ∈ vs, v ∈ (w.program.record d).params ++ (w.program.record d).locals)
    (hnd : vs.Nodup)
    (hcode : CodeAt (w.module.names g) arr (Emit.initCode w.program ds) a a') (hlim : a' ≤ lim)
    (hu : ∀ H' s', w.Moves s₀ (w.preamble d g arr) 0 H s H' s' → w.Prepares d vs s H' s' →
      w.Goes s₀ Q R n H' (s'.on a' S)) : w.Goes s₀ Q R n H (s.on a S) := by
  induction hds generalizing H s a with
  | nil =>
    obtain rfl := codeAt_nil.1 hcode
    exact hu H s (h.refl 0) ⟨fun v hv => absurd hv List.not_mem_nil, fun _ _ _ => rfl⟩
  | @cons e v ds vs he hds ih =>
    obtain ⟨hbinding, hfits⟩ := he
    obtain ⟨b₁, hfirst, hrest⟩ := codeAt_append.1 hcode
    simp only [hbinding, Option.getD_some] at hfirst
    have hle := Emit.codeAt_le hrest
    obtain ⟨hnot, hnd⟩ := List.nodup_cons.1 hnd
    obtain ⟨hv, hvs⟩ := List.forall_mem_cons.1 hvs
    have hnext : ∀ H₁ s₁, w.Moves s₀ (w.preamble d g arr) 0 H s H₁ s₁ →
        w.Prepares d [v] s H₁ s₁ → w.Goes s₀ Q R n H₁ (s₁.on b₁ S) := by
      intro H₁ s₁ hm₁ hprep₁
      refine ih (h.follow hm₁) hvs hnd hrest fun H₂ s₂ hm₂ hprep₂ => ?_
      refine hu H₂ s₂ (hm₁.trans hm₂ (Nat.le_refl 0)) (hprep₁.trans hprep₂ hm₂.sub fun u hu => ?_)
      exact List.mem_singleton.1 hu ▸ ⟨Compiled.mem_slots_of_own hv, hnot⟩
    cases href : (w.program.var v).refed with
    | true =>
      exact initCell hd hg h hpos (List.mem_filter.2 ⟨hv, href⟩) hfits hfirst (by omega) hnext
    | false => exact initPlain hd hg h hpos hv href hfits hfirst (by omega) (hnext H)

/-- A call of a definition comes to its statements with all variables in place. -/
theorem prologue (h : w.Holds s₀ t₀ (w.preamble d g arr) Q k lim H s)
    (hpos : 0 < w.program.prologue d) {b₁ b₂ : Nat}
    (hbox : CodeAt (w.module.names g) arr (Emit.boxCode w.program (w.program.record d)) 0 b₁)
    (hinit : CodeAt (w.module.names g) arr (Emit.initCode w.program d.vars) b₁ b₂) (hlim : b₂ ≤ lim)
    (hparams : ∀ v ∈ (w.program.record d).params, ∃ x,
      s.thread.frame.locals[w.program.slot v]? = some x ∧
        w.program.Suits H.blocks x (w.program.typeOf v))
    (haliases : ∀ v ∈ (w.program.record d).captures.aliases,
      w.VarOk H.blocks s.thread.frame v)
    (hu : ∀ H' s', w.Moves s₀ (w.preamble d g arr) 0 H s H' s' →
      (∀ v ∈ (w.program.record d).slots, w.VarOk H'.blocks s'.thread.frame v) →
      w.Goes s₀ Q R n H' (s'.on b₂ S)) : w.Goes s₀ Q R n H (s.on 0 S) := by
  obtain ⟨p, o, hw⟩ := h.compiled
  obtain ⟨id, -, -, hf, -⟩ := hw.checked.record_ok hd
  have hle := Emit.codeAt_le hinit
  have hnd : ((w.program.record d).params ++ (w.program.record d).locals).Nodup :=
    (hw.nodup_slots hd).sublist
      (List.Sublist.append_right (List.sublist_append_left _ _) _)
  obtain ⟨hndp, hndl, hapart⟩ := List.nodup_append.1 hnd
  have hboxed : ∀ v ∈ (w.program.record d).params.filter fun v => (w.program.var v).refed,
      v ∈ w.program.boxed d := fun v hv => by
    obtain ⟨hv, href⟩ := List.mem_filter.1 hv
    exact List.mem_filter.2 ⟨List.mem_append_left _ hv, href⟩
  rw [Emit.boxCode, List.filter_map] at hbox
  refine boxParams hd hg h hpos hboxed (hndp.sublist List.filter_sublist)
    (fun v hv => hparams v (List.mem_of_mem_filter hv)) hbox (by omega) fun H₁ s₁ hm₁ hprep₁ => ?_
  refine initLocals hd hg (h.follow hm₁) hpos (hf.locals.imp fun e v hl => ?_)
    (fun v hv => List.mem_append_right _ hv) hndl hinit hlim fun H₂ s₂ hm₂ hprep₂ => ?_
  · obtain ⟨hbinding, r, t, hr, -, hty, -, -, -, -, hfits⟩ := hl
    refine ⟨hbinding, ?_⟩
    rw [hw.checked.typeOf_eq hr, hty]
    exact initializes_iff.1 hfits
  refine hu H₂ s₂ (hm₁.trans hm₂ (Nat.le_refl 0)) fun v hv => ?_
  have hprep := hprep₁.trans hprep₂ hm₂.sub fun v hv =>
    ⟨Compiled.mem_slots_of_own (List.mem_of_mem_filter (hboxed v hv)), fun hl =>
      hapart v (List.mem_of_mem_filter hv) v hl rfl⟩
  by_cases hdone : v ∈ (w.program.record d).params.filter (fun v => (w.program.var v).refed)
      ++ (w.program.record d).locals
  · exact hprep.ready v hdone
  have hsub := (hm₁.trans hm₂ (Nat.le_refl 0)).sub
  -- The slots of the other variables have stayed as they were.
  obtain hv' | hv' := List.mem_append.1 hv
  · obtain hparam | halias := List.mem_append.1 hv'
    · have href : (w.program.var v).refed = false := by
        refine Bool.eq_false_iff.2 fun href => hdone (List.mem_append_left _ ?_)
        exact List.mem_filter.2 ⟨hparam, href⟩
      obtain ⟨x, hx, hsuits⟩ := hparams v hparam
      refine ⟨x, (hprep.others v hv hdone).trans hx, ?_⟩
      rw [own_indirect hw hd (List.mem_append_left _ hparam), href, if_neg Bool.false_ne_true]
      exact hsuits.mono hsub.blocks
    · exact (haliases v halias).mono hsub.blocks (hprep.others v hv hdone)
  · exact absurd (List.mem_append_right _ hv') hdone

end

end Holds

end Setting

end ObjLang
