import ObjLang.Proofs.Machine.Meant.Effect
import ObjLang.Proofs.Machine.Typed.Opening

/-!
# ObjLang.Proofs.Machine.Meant.Opening — first values

A new call of a definition has the first values of all its variables at once in the world.  The
prologue moves captured parameters into new cells and gives the variables their first values one
after the other; behind it every slot holds what its variable denotes.
-/

namespace ObjLang

open Check Check.Facts

-- Memories are compared by the laws of their words, never byte by byte.
attribute [local irreducible] Memory.setWord

namespace Setting

variable {w : Setting} {p : Program} {o : Options} {s₀ : Trace} {t₀ : State} {fin : Outcome}
  {sc : CallChain} {V V' V'' : Scene} {k i a a' q : Nat} {S : List Int32} {v u : VarId} {x : Int32}
  {outer : List FunDef} {d : FunDef} {g : Code.Func} {arr : Array Op} {vs us : List VarId}
  {id : FunId}

/-- A call of a definition is in its prologue. -/
structure Begins (w : Setting) (s₀ : Trace) (t₀ : State) (d : FunDef) (g : Code.Func)
    (arr : Array Op) (fin : Outcome) (V : Scene) : Prop where
  holds : w.Holds s₀ t₀ (w.preamble d g arr) (fun _ => True) V.trace.thread.callers.length
    (w.program.prologue d) V.ledger V.trace
  mirrors : w.Mirrors V.image V.world V.ledger.blocks V.trace.thread.store
  locals : ∀ y ∈ (w.module.names g).frame,
    (w.module.names g).slot y < V.trace.thread.frame.locals.size
  lines : printed V.trace <+: fin.1

/-- The prologue of a call goes on, in the same world. -/
structure Stays (w : Setting) (s₀ : Trace) (d : FunDef) (g : Code.Func) (arr : Array Op)
    (V V' : Scene) : Prop where
  moves : w.Moves s₀ (w.preamble d g arr) 0 V.ledger V.trace V'.ledger V'.trace
  image : V.image.Sub V'.image
  world : V'.world = V.world
  lines : printed V'.trace = printed V.trace
  mirrors : w.Mirrors V'.image V'.world V'.ledger.blocks V'.trace.thread.store
  locals : V'.trace.thread.frame.locals.size = V.trace.thread.frame.locals.size

theorem Stays.trans (h : w.Stays s₀ d g arr V V') (h' : w.Stays s₀ d g arr V' V'') :
    w.Stays s₀ d g arr V V'' :=
  ⟨h.moves.trans h'.moves (Nat.le_refl 0), h.image.trans h'.image, h'.world.trans h.world,
    h'.lines.trans h.lines, h'.mirrors, h'.locals.trans h.locals⟩

/-- What the prologue has done for some variables of the call `k`: their slots hold what they
denote, and it has given cells to no others. -/
structure Readies (w : Setting) (s₀ : Trace) (d : FunDef) (g : Code.Func) (arr : Array Op)
    (sc : CallChain) (k : Nat) (vs : List VarId) (V V' : Scene) : Prop
    extends w.Stays s₀ d g arr V V' where
  ready : ∀ v ∈ vs, w.VarShows sc V'.image V'.world V'.trace.thread.frame v
  others : ∀ u ∈ (w.program.record d).slots, u ∉ vs →
    V'.trace.thread.frame.locals[w.program.slot u]? = V.trace.thread.frame.locals[w.program.slot u]?
  cells : ∀ u ∉ vs, V'.image.cell k u = V.image.cell k u

theorem Readies.trans (h : w.Readies s₀ d g arr sc k vs V V')
    (h' : w.Readies s₀ d g arr sc k us V' V'')
    (hvs : ∀ v ∈ vs, v ∈ (w.program.record d).slots ∧ v ∉ us) :
    w.Readies s₀ d g arr sc k (vs ++ us) V V'' where
  toStays := h.toStays.trans h'.toStays
  ready := fun v hv => by
    obtain hv | hv := List.mem_append.1 hv
    · exact (h.ready v hv).mono h'.image (h'.others v (hvs v hv).1 (hvs v hv).2)
        fun _ => by rw [h'.world]
    · exact h'.ready v hv
  others := fun u hu hne => by
    obtain ⟨hv, hu'⟩ := not_or.1 (mt List.mem_append.2 hne)
    exact (h'.others u hu hu').trans (h.others u hu hv)
  cells := fun u hne => by
    obtain ⟨hv, hu'⟩ := not_or.1 (mt List.mem_append.2 hne)
    exact (h'.cells u hu').trans (h.cells u hv)

/-- A slot that holds what its variable denotes holds a word of the type of the variable, or the
address of a cell of it. -/
theorem VarShows.varOk {I : Image} {σ : World} {bs : List Block} {st : Store} {F : Frame}
    (h : w.VarShows sc I σ F v) (hc : CheckedOk p w.program t₀) (hm : w.Mirrors I σ bs st)
    {r : Variable} (hr : t₀.vars.get? v = some r) (hg : r.isGlobal = false) : w.VarOk bs F v := by
  obtain ⟨x, hx, hok⟩ := h
  refine ⟨x, hx, ?_⟩
  split at hok
  · next hind =>
    rw [if_pos hind]
    exact hok.cellOf hc hm hr hg
  · next hind =>
    rw [if_neg hind]
    exact hm.suits hok.2

/-- The slot of a variable of a definition that is not captured holds what the variable denotes. -/
theorem varShows_own {I : Image} {σ : World} {F : Frame}
    (hw : Compiled p w.program t₀ o w.module w.linked) (hd : w.program.Nest outer d)
    (hid : d.id = some id) (hv : v ∈ (w.program.record d).params ++ (w.program.record d).locals)
    (href : (w.program.var v).refed = false) (hx : F.locals[w.program.slot v]? = some x)
    (hstands : (σ.vars ⟨some k, v⟩).Stands w.program I x (w.program.typeOf v)) :
    w.VarShows ((id, k) :: sc) I σ F v := by
  refine ⟨x, hx, ?_⟩
  rw [own_indirect hw hd hv, href, if_neg Bool.false_ne_true]
  exact ⟨hw.place?_own hd hid hv, hstands⟩

namespace Begins

section

variable (h : w.Begins s₀ t₀ d g arr fin V)

include h

theorem stays : w.Stays s₀ d g arr V V :=
  ⟨h.holds.refl 0, .refl _, rfl, rfl, h.mirrors, rfl⟩

theorem refl : w.Readies s₀ d g arr sc k [] V V :=
  ⟨h.stays, fun _ hv => absurd hv List.not_mem_nil, fun _ _ _ => rfl, fun _ _ => rfl⟩

theorem follow (hs : w.Stays s₀ d g arr V V') : w.Begins s₀ t₀ d g arr fin V' where
  holds := by
    rw [hs.moves.callers]
    exact h.holds.follow hs.moves
  mirrors := hs.mirrors
  locals := fun y hy => (h.locals y hy).trans_eq hs.locals.symm
  lines := hs.lines.symm ▸ h.lines

/-- The first word of a new cell is written.  The cell then stands for a variable of the call. -/
theorem storeCell (hop : arr[i]? = some (.store 0))
    (hgets : ∃ t ∈ V.ledger.states, w.Gets s₀ ⟨q, .cell v⟩ t) (hlow : w.base ≤ q) (hfour : 4 ∣ q)
    (hroom : q ≤ w.size) (hheap : V.trace.heap = q + 4)
    (hblocks : ∀ B ∈ V.ledger.blocks, B.stop ≤ q) (hk : k < V.world.calls)
    (hnone : V.image.cell k v = none)
    (hx : (V.world.vars ⟨some k, v⟩).Stands w.program V.image x (w.program.typeOf v))
    (hu : ∀ s', s'.thread.frame = V.trace.thread.frame → w.Stays s₀ d g arr V
        ⟨V.ledger.add ⟨q, .cell v⟩, s', V.image.addCell k v q, V.world⟩ →
      w.Ends s₀ fin (V.ledger.add ⟨q, .cell v⟩) (s'.on (i + 1) S)) :
    w.Ends s₀ fin V.ledger (V.trace.on i (x :: Int32.ofNat q :: S)) := by
  refine Ends.storeFresh (m := 0) (j := 0) h.holds h.mirrors hop hblocks hroom h.lines
    fun s' hs' hm hmirrors hin => ?_
  have hframe : s'.thread.frame = V.trace.thread.frame := by
    rw [hs', Trace.withStore_frame]
  have hheap' : s'.heap = q + 4 := by
    rw [hs', Trace.withStore_heap, hheap]
  have hword : s'.thread.store.memory.word q = x := by
    rw [hs']
    exact Memory.word_setWord ..
  have hprinted : printed s' = printed V.trace := by
    rw [hs']
    rfl
  have hadd := (h.holds.follow hm).addCell (m := 0) hgets hlow hfour hheap' hin hblocks
    (h.mirrors.suits hx) hword
  refine .of_add (hu s' hframe ⟨hm.trans hadd (Nat.le_refl 0), Image.sub_addCell hnone q, rfl,
    hprinted, ?_, congrArg (fun F => F.locals.size) hframe⟩)
  refine (hmirrors.blocks (V.ledger.sub_add _).blocks).addCell List.mem_cons_self hk hnone
    (fun c y hy => ?_) (hword ▸ hx)
  have hle := hblocks _ (h.mirrors.cell c y q hy).1
  have hstop : (Block.mk q (.cell y)).stop = q + 4 * 1 := rfl
  omega

end

section

variable (hd : w.program.Nest outer d) (hg : CodeOf w.program w.module w.linked d g arr)
  (h : w.Begins s₀ t₀ d g arr fin V)

include hd hg h

/-- A call of the allocator for a cell. -/
theorem alloc (hi : i + 1 < w.program.prologue d)
    (hop : arr[i]? = some (.call (w.module.index Emit.allocName)))
    (hu : ∀ s' t, t = s'.on (i + 1) (Int32.ofNat V.trace.heap :: S) →
      w.Stays s₀ d g arr V ⟨V.ledger.saw t, s', V.image, V.world⟩ →
      s'.heap = V.trace.heap + 4 → s'.thread.frame = V.trace.thread.frame →
      V.trace.heap ≤ w.size → w.Hands s₀ V.trace.heap 1 t →
      w.Ends s₀ fin (V.ledger.saw t) t) :
    w.Ends s₀ fin V.ledger (V.trace.on i (Emit.word 1 :: S)) := by
  obtain ⟨p, o, hw⟩ := h.holds.compiled
  refine .alloc (m := 0) h.holds (outside_preamble hw hd hg) (.inr hi) hop (by omega) h.lines
    fun s' t ht hm hheap hframe hroom hstore hhands => ?_
  refine hu s' t ht ⟨hm, .refl _, rfl, congrArg (fun st => st.output.toList) hstore, ?_,
    congrArg (fun F => F.locals.size) hframe⟩ hheap hframe hroom hhands
  rw [hstore]
  exact h.mirrors.heapPointer (fun d hd => hw.global_ne hd g) _

/-- The slot of a variable gets a word. -/
theorem setSlot (hpos : 0 < w.program.prologue d) (hv : v ∈ (w.program.record d).slots)
    (hop : arr[i]? = some (.localSet ((w.module.names g).slot (w.program.var v).name)))
    (hshows : ∀ F : Frame, F.locals[w.program.slot v]? = some x →
      w.VarShows sc V.image V.world F v)
    (hu : ∀ s', w.Readies s₀ d g arr sc k [v] V { V with trace := s' } →
      w.Ends s₀ fin V.ledger (s'.on (i + 1) S)) :
    w.Ends s₀ fin V.ledger (V.trace.on i (x :: S)) := by
  obtain ⟨p, o, hw⟩ := h.holds.compiled
  have hnot := not_past_preamble hd hg hpos
  obtain ⟨id, -, -, hf, -⟩ := hw.checked.record_ok hd
  obtain ⟨r, hr, hrg, -⟩ := Emit.own_record hf hv
  have hslot := hw.slot_name hd hg hv
  rw [hslot] at hop
  have hlt : w.program.slot v < V.trace.thread.frame.locals.size :=
    hslot ▸ h.locals _ (Compiled.name_mem hg hv)
  have hset := hshows (V.trace.withLocal (w.program.slot v) x).thread.frame
    (Array.getElem?_setIfInBounds_self_of_lt hlt)
  have hok := hset.varOk hw.checked h.mirrors hr hrg
  refine .localSet h.holds hop hlt (hu _ ⟨⟨h.holds.moves_slot hv (fun hp => absurd hp hnot)
    (.inl hok) fun hp => absurd hp hnot, .refl _, rfl, rfl, h.mirrors, Array.size_setIfInBounds⟩,
    fun u hu => List.mem_singleton.1 hu ▸ hset, fun u hu hne => ?_, fun _ _ => rfl⟩)
  exact Array.getElem?_setIfInBounds_ne fun heq =>
    hne (List.mem_singleton.2 (hw.slot_inj hd hu hv heq.symm))

section

variable (hid : d.id = some id) (hpos : 0 < w.program.prologue d)

include hid hpos

/-- A variable that is not captured gets its first value. -/
theorem initPlain (hv : v ∈ (w.program.record d).params ++ (w.program.record d).locals)
    (href : (w.program.var v).refed = false) {y : Literal}
    (hstands : (V.world.vars ⟨some k, v⟩).Stands w.program V.image y.word (w.program.typeOf v))
    (hcode : CodeAt (w.module.names g) arr (Emit.initLocal (w.program.var v) y) a a')
    (hu : ∀ V', w.Readies s₀ d g arr ((id, k) :: sc) k [v] V V' →
      w.Ends s₀ fin V'.ledger (V'.trace.on a' S)) :
    w.Ends s₀ fin V.ledger (V.trace.on a S) := by
  obtain ⟨p, o, hw⟩ := h.holds.compiled
  rw [Emit.initLocal, href, if_neg Bool.false_ne_true] at hcode
  obtain ⟨hop₁, -, hcode⟩ := codeAt_cons.1 hcode
  obtain ⟨hop₂, -, rfl⟩ := codeAt_singleton.1 hcode
  refine .const h.holds hop₁ ?_
  exact h.setSlot (k := k) hd hg hpos (Compiled.mem_slots_of_own hv) hop₂
    (fun F hF => varShows_own hw hd hid hv href hF hstands) fun s' hr => hu _ hr

variable (hk : k < V.world.calls)

include hk

/-- A captured parameter moves into a new cell. -/
theorem boxParam (hv : v ∈ w.program.boxed d) (hnone : V.image.cell k v = none)
    (hx : V.trace.thread.frame.locals[w.program.slot v]? = some x)
    (hstands : (V.world.vars ⟨some k, v⟩).Stands w.program V.image x (w.program.typeOf v))
    (hcode : CodeAt (w.module.names g) arr (Emit.boxParam (w.program.var v)) a a')
    (hlim : a' ≤ w.program.prologue d)
    (hu : ∀ V', w.Readies s₀ d g arr ((id, k) :: sc) k [v] V V' →
      w.Ends s₀ fin V'.ledger (V'.trace.on a' S)) :
    w.Ends s₀ fin V.ledger (V.trace.on a S) := by
  obtain ⟨p, o, hw⟩ := h.holds.compiled
  obtain ⟨hown, href⟩ := List.mem_filter.1 hv
  have hslots := Compiled.mem_slots_of_own hown
  have hslot := hw.slot_name hd hg hslots
  have hind : (w.program.var v).isIndirect = true := (own_indirect hw hd hown).trans href
  have hwhole := hcode
  obtain ⟨hat, rfl⟩ := Emit.codeAt_boxParam hcode
  have hmade : ∀ u ∈ (w.program.record d).slots,
      (w.module.names g).slot Emit.cellName ≠ w.program.slot u := fun u hu =>
    hw.slot_made hd hg (by decide : _ = '#' :: ['c', 'e', 'l', 'l']) hat.declared hu
  have hblocks : ∀ B ∈ V.ledger.blocks, B.stop ≤ V.trace.heap := fun B hB =>
    (h.holds.heap.inside B hB).2.2.1
  refine .const h.holds hat.words ?_
  refine h.alloc hd hg (by omega) hat.alloc fun s₁ t ht hs₁ hh₁ hf₁ hroom hhands => ?_
  subst ht
  have h₁ := h.follow hs₁
  have hwants : w.Wants (s₁.on (a + 2) (Int32.ofNat V.trace.heap :: S)) (.cell v) :=
    Holds.wants_cell hd hg h₁.holds hv (.inl hwhole)
  generalize hH₁ : V.ledger.saw (s₁.on (a + 1 + 1) (Int32.ofNat V.trace.heap :: S)) = H₁
    at hs₁ h₁ ⊢
  have hblocks₁ : H₁.blocks = V.ledger.blocks := hH₁ ▸ rfl
  have hgets : ∃ t ∈ H₁.states, w.Gets s₀ ⟨V.trace.heap, .cell v⟩ t :=
    ⟨_, hH₁ ▸ List.mem_cons_self, hhands, hwants⟩
  have hlt := h₁.locals _ hat.declared
  -- The address is kept in a local of its own.
  obtain ⟨s₂, hs₂eq⟩ : ∃ s₂, s₂ = s₁.withLocal ((w.module.names g).slot Emit.cellName)
    (Int32.ofNat V.trace.heap) := ⟨_, rfl⟩
  have hs₂ : w.Stays s₀ d g arr ⟨H₁, s₁, V.image, V.world⟩ ⟨H₁, s₂, V.image, V.world⟩ := by
    rw [hs₂eq]
    exact ⟨h₁.holds.moves_local hmade fun i hi => absurd hi (Nat.not_lt_zero i), .refl _, rfl, rfl,
      h₁.mirrors, Array.size_setIfInBounds⟩
  have h₂ := h₁.follow hs₂
  have hh₂ : s₂.heap = s₁.heap := by rw [hs₂eq]; rfl
  have hcell₂ : s₂.thread.frame.locals[(w.module.names g).slot Emit.cellName]?
      = some (Int32.ofNat V.trace.heap) := by
    rw [hs₂eq]
    exact Array.getElem?_setIfInBounds_self_of_lt hlt
  have hkeeps₂ : ∀ u ∈ (w.program.record d).slots, s₂.thread.frame.locals[w.program.slot u]?
      = V.trace.thread.frame.locals[w.program.slot u]? := by
    intro u hu
    rw [hs₂eq, ← hf₁]
    exact Array.getElem?_setIfInBounds_ne (hmade u hu)
  refine .localSet h₁.holds hat.keep hlt ?_
  rw [← hs₂eq]
  refine .localGet h₂.holds hat.cell hcell₂ ?_
  refine .localGet h₂.holds hat.value (hslot ▸ (hkeeps₂ v hslots).trans hx) ?_
  refine h₂.storeCell hat.fill hgets h.holds.heap.low h.holds.heap.aligned hroom (hh₂.trans hh₁)
    (hblocks₁ ▸ hblocks) hk hnone hstands fun s₃ hf₃ hs₃ => ?_
  have h₃ := h₂.follow hs₃
  have hshows : ∀ F : Frame, F.locals[w.program.slot v]? = some (Int32.ofNat V.trace.heap) →
      w.VarShows ((id, k) :: sc) (V.image.addCell k v V.trace.heap) V.world F v := by
    intro F hF
    refine ⟨_, hF, ?_⟩
    rw [if_pos hind]
    exact ⟨_, k, _, hw.place?_own hd hid hown, rfl, href, rfl, Image.addCell_self .., rfl⟩
  refine .localGet h₃.holds hat.again (hf₃ ▸ hcell₂) ?_
  refine h₃.setSlot (k := k) hd hg hpos hslots hat.move hshows fun s₅ hr₅ => ?_
  refine hu _ ⟨((hs₁.trans hs₂).trans hs₃).trans hr₅.toStays, hr₅.ready, fun u hu hne => ?_,
    fun u hne => ?_⟩
  · rw [hr₅.others u hu hne, ← hkeeps₂ u hu, ← hf₃]
  · refine (hr₅.cells u hne).trans (if_neg ?_)
    exact fun heq => hne (List.mem_singleton.2 heq.2)

/-- A captured variable gets a new cell with its first value. -/
theorem initCell (hv : v ∈ w.program.boxed d) (hnone : V.image.cell k v = none) {y : Literal}
    (hstands : (V.world.vars ⟨some k, v⟩).Stands w.program V.image y.word (w.program.typeOf v))
    (hcode : CodeAt (w.module.names g) arr (Emit.initLocal (w.program.var v) y) a a')
    (hlim : a' ≤ w.program.prologue d)
    (hu : ∀ V', w.Readies s₀ d g arr ((id, k) :: sc) k [v] V V' →
      w.Ends s₀ fin V'.ledger (V'.trace.on a' S)) :
    w.Ends s₀ fin V.ledger (V.trace.on a S) := by
  obtain ⟨p, o, hw⟩ := h.holds.compiled
  obtain ⟨hown, href⟩ := List.mem_filter.1 hv
  have hslots := Compiled.mem_slots_of_own hown
  have hslot := hw.slot_name hd hg hslots
  have hind : (w.program.var v).isIndirect = true := (own_indirect hw hd hown).trans href
  have hnot := not_past_preamble hd hg hpos
  have hwhole := hcode
  obtain ⟨hat, rfl⟩ := Emit.codeAt_initLocal href hcode
  have hblocks : ∀ B ∈ V.ledger.blocks, B.stop ≤ V.trace.heap := fun B hB =>
    (h.holds.heap.inside B hB).2.2.1
  refine .const h.holds hat.words ?_
  refine h.alloc hd hg (by omega) hat.alloc fun s₁ t ht hs₁ hh₁ hf₁ hroom hhands => ?_
  subst ht
  have h₁ := h.follow hs₁
  have hwants : w.Wants (s₁.on (a + 2) (Int32.ofNat V.trace.heap :: S)) (.cell v) :=
    Holds.wants_cell hd hg h₁.holds hv (.inr ⟨y, hwhole⟩)
  generalize hH₁ : V.ledger.saw (s₁.on (a + 1 + 1) (Int32.ofNat V.trace.heap :: S)) = H₁
    at hs₁ h₁ ⊢
  have hblocks₁ : H₁.blocks = V.ledger.blocks := hH₁ ▸ rfl
  have hgets : ∃ t ∈ H₁.states, w.Gets s₀ ⟨V.trace.heap, .cell v⟩ t :=
    ⟨_, hH₁ ▸ List.mem_cons_self, hhands, hwants⟩
  have hkeep : arr[a + 1 + 1]? = some (.localSet (w.program.slot v)) :=
    hat.keep.trans (congrArg (some ∘ Op.localSet) hslot)
  have hcell : arr[a + 1 + 1 + 1]? = some (.localGet (w.program.slot v)) :=
    hat.cell.trans (congrArg (some ∘ Op.localGet) hslot)
  have hlt : w.program.slot v < s₁.thread.frame.locals.size :=
    hslot ▸ h₁.locals _ (Compiled.name_mem hg hslots)
  -- The cell has no value yet, so it is not in the ledger when its address goes into the slot.
  obtain ⟨s₂, hs₂eq⟩ : ∃ s₂, s₂ = s₁.withLocal (w.program.slot v) (Int32.ofNat V.trace.heap) :=
    ⟨_, rfl⟩
  have hset : s₂.thread.frame.locals[w.program.slot v]? = some (Int32.ofNat V.trace.heap) := by
    rw [hs₂eq]
    exact Array.getElem?_setIfInBounds_self_of_lt hlt
  have hs₂ : w.Stays s₀ d g arr ⟨H₁, s₁, V.image, V.world⟩ ⟨H₁, s₂, V.image, V.world⟩ := by
    have hsafe : w.VarSafe s₀ H₁ s₂.thread.frame v :=
      .inr ⟨_, hset, .inr ⟨V.trace.heap, rfl, hgets⟩⟩
    rw [hs₂eq] at hsafe ⊢
    exact ⟨h₁.holds.moves_slot hslots (fun hp => absurd hp hnot) hsafe fun hp => absurd hp hnot,
      .refl _, rfl, rfl, h₁.mirrors, Array.size_setIfInBounds⟩
  have h₂ := h₁.follow hs₂
  have hh₂ : s₂.heap = s₁.heap := by rw [hs₂eq]; rfl
  refine .localSet h₁.holds hkeep hlt ?_
  rw [← hs₂eq]
  refine .localGet h₂.holds hcell hset ?_
  refine .const h₂.holds hat.value ?_
  refine h₂.storeCell hat.fill hgets h.holds.heap.low h.holds.heap.aligned hroom (hh₂.trans hh₁)
    (hblocks₁ ▸ hblocks) hk hnone hstands fun s₃ hf₃ hs₃ => ?_
  refine hu ⟨H₁.add ⟨V.trace.heap, .cell v⟩, s₃, V.image.addCell k v V.trace.heap, V.world⟩
    ⟨(hs₁.trans hs₂).trans hs₃, fun u hu => ?_, fun u hu hne => ?_, fun u hne => ?_⟩
  · obtain rfl := List.mem_singleton.1 hu
    refine ⟨Int32.ofNat V.trace.heap, hf₃ ▸ hset, ?_⟩
    rw [if_pos hind]
    exact ⟨_, k, _, hw.place?_own hd hid hown, rfl, href, rfl, Image.addCell_self .., rfl⟩
  · rw [hf₃, ← hf₁, hs₂eq]
    exact Array.getElem?_setIfInBounds_ne fun heq =>
      hne (List.mem_singleton.2 (hw.slot_inj hd hu hslots heq.symm))
  · exact if_neg fun heq => hne (List.mem_singleton.2 heq.2)

/-- All captured parameters move into new cells. -/
theorem boxParams (hvs : ∀ v ∈ vs, v ∈ w.program.boxed d) (hnd : vs.Nodup)
    (hnone : ∀ v ∈ vs, V.image.cell k v = none)
    (hraw : ∀ v ∈ vs, ∃ x, V.trace.thread.frame.locals[w.program.slot v]? = some x ∧
      (V.world.vars ⟨some k, v⟩).Stands w.program V.image x (w.program.typeOf v))
    (hcode : CodeAt (w.module.names g) arr ((vs.map w.program.var).flatMap Emit.boxParam) a a')
    (hlim : a' ≤ w.program.prologue d)
    (hu : ∀ V', w.Readies s₀ d g arr ((id, k) :: sc) k vs V V' →
      w.Ends s₀ fin V'.ledger (V'.trace.on a' S)) :
    w.Ends s₀ fin V.ledger (V.trace.on a S) := by
  induction vs generalizing V a with
  | nil =>
    obtain rfl := codeAt_nil.1 hcode
    exact hu V h.refl
  | cons v vs ih =>
    obtain ⟨b₁, hfirst, hrest⟩ := codeAt_append.1 hcode
    have hle := Emit.codeAt_le hrest
    obtain ⟨hnot, hnd⟩ := List.nodup_cons.1 hnd
    obtain ⟨⟨x, hx, hstands⟩, hraw⟩ := List.forall_mem_cons.1 hraw
    obtain ⟨hnonev, hnone⟩ := List.forall_mem_cons.1 hnone
    obtain ⟨hv, hvs⟩ := List.forall_mem_cons.1 hvs
    have hslots : ∀ u ∈ w.program.boxed d, u ∈ (w.program.record d).slots := fun u hu =>
      Compiled.mem_slots_of_own (List.mem_of_mem_filter hu)
    have hne : ∀ u ∈ vs, u ∉ [v] := fun u hu heq => hnot (List.mem_singleton.1 heq ▸ hu)
    refine h.boxParam hd hg hid hpos hk hv hnonev hx hstands hfirst (by omega)
      fun V₁ (hr₁ : w.Readies s₀ d g arr ((id, k) :: sc) k [v] V V₁) => ?_
    refine ih (h.follow hr₁.toStays) (hr₁.world ▸ hk) hvs hnd
      (fun u hu => (hr₁.cells u (hne u hu)).trans (hnone u hu)) (fun u hu => ?_) hrest
      fun V₂ hr₂ => hu V₂ (hr₁.trans hr₂ fun u hu => ?_)
    · obtain ⟨y, hy, hstands⟩ := hraw u hu
      refine ⟨y, (hr₁.others u (hslots u (hvs u hu)) (hne u hu)).trans hy, ?_⟩
      rw [hr₁.world]
      exact hstands.mono hr₁.image
    · exact List.mem_singleton.1 hu ▸ ⟨hslots v hv, hnot⟩

/-- All variables of the definition get their first values. -/
theorem initLocals {ds : List VarDef}
    (hds : List.Forall₂ (fun e v => e.binding = some v ∧ e.init.Fits (w.program.typeOf v) ∧
      V.world.vars ⟨some k, v⟩ = e.init.value) ds vs)
    (hvs : ∀ v ∈ vs, v ∈ (w.program.record d).params ++ (w.program.record d).locals)
    (hnd : vs.Nodup) (hnone : ∀ v ∈ vs, V.image.cell k v = none)
    (hcode : CodeAt (w.module.names g) arr (Emit.initCode w.program ds) a a')
    (hlim : a' ≤ w.program.prologue d)
    (hu : ∀ V', w.Readies s₀ d g arr ((id, k) :: sc) k vs V V' →
      w.Ends s₀ fin V'.ledger (V'.trace.on a' S)) :
    w.Ends s₀ fin V.ledger (V.trace.on a S) := by
  induction ds generalizing V a vs with
  | nil =>
    cases hds
    obtain rfl := codeAt_nil.1 hcode
    exact hu V h.refl
  | cons e ds ih =>
    cases hds with
    | @cons _ v _ vs he hds =>
    obtain ⟨hbinding, hfits, hvalue⟩ := he
    obtain ⟨b₁, hfirst, hrest⟩ := codeAt_append.1 hcode
    simp only [hbinding, Option.getD_some] at hfirst
    have hle := Emit.codeAt_le hrest
    obtain ⟨hnot, hnd⟩ := List.nodup_cons.1 hnd
    obtain ⟨hnonev, hnone⟩ := List.forall_mem_cons.1 hnone
    obtain ⟨hv, hvs⟩ := List.forall_mem_cons.1 hvs
    have hstands : (V.world.vars ⟨some k, v⟩).Stands w.program V.image e.init.word
        (w.program.typeOf v) := hvalue ▸ Value.stands_fits hfits
    have hnext : ∀ V₁, w.Readies s₀ d g arr ((id, k) :: sc) k [v] V V₁ →
        w.Ends s₀ fin V₁.ledger (V₁.trace.on b₁ S) := by
      intro V₁ hr₁
      refine ih (h.follow hr₁.toStays) (hr₁.world ▸ hk) (hds.imp fun _ _ he => ?_) hvs hnd
        (fun u hu => ?_) hrest fun V₂ hr₂ => hu V₂ (hr₁.trans hr₂ fun u hu => ?_)
      · rw [hr₁.world]
        exact he
      · exact (hr₁.cells u fun heq => hnot (List.mem_singleton.1 heq ▸ hu)).trans (hnone u hu)
      · exact List.mem_singleton.1 hu ▸ ⟨Compiled.mem_slots_of_own hv, hnot⟩
    cases href : (w.program.var v).refed with
    | true =>
      exact h.initCell hd hg hid hpos hk (List.mem_filter.2 ⟨hv, href⟩) hnonev hstands hfirst
        (by omega) hnext
    | false => exact h.initPlain hd hg hid hpos hv href hstands hfirst hnext

/-- A call of a definition comes to its statements with all variables in place. -/
theorem prologue {b₁ b₂ : Nat}
    (hbox : CodeAt (w.module.names g) arr (Emit.boxCode w.program (w.program.record d)) 0 b₁)
    (hinit : CodeAt (w.module.names g) arr (Emit.initCode w.program d.vars) b₁ b₂)
    (hlim : b₂ ≤ w.program.prologue d) (hnone : ∀ v, V.image.cell k v = none)
    (hparams : ∀ v ∈ (w.program.record d).params, ∃ x,
      V.trace.thread.frame.locals[w.program.slot v]? = some x ∧
        (V.world.vars ⟨some k, v⟩).Stands w.program V.image x (w.program.typeOf v))
    (haliases : ∀ v ∈ (w.program.record d).captures.aliases,
      w.VarShows ((id, k) :: sc) V.image V.world V.trace.thread.frame v)
    (hlocals : List.Forall₂ (fun (e : VarDef) v => V.world.vars ⟨some k, v⟩ = e.init.value) d.vars
      (w.program.record d).locals)
    (hu : ∀ V', w.Stays s₀ d g arr V V' →
      (∀ v ∈ (w.program.record d).slots,
        w.VarShows ((id, k) :: sc) V'.image V'.world V'.trace.thread.frame v) →
      w.Ends s₀ fin V'.ledger (V'.trace.on b₂ S)) : w.Ends s₀ fin V.ledger (V.trace.on 0 S) := by
  obtain ⟨p, o, hw⟩ := h.holds.compiled
  obtain ⟨id', -, -, hf, -⟩ := hw.checked.record_ok hd
  have hle := Emit.codeAt_le hinit
  have hnd : ((w.program.record d).params ++ (w.program.record d).locals).Nodup :=
    (hw.nodup_slots hd).sublist
      (List.Sublist.append_right (List.sublist_append_left _ _) _)
  obtain ⟨hndp, hndl, hapart⟩ := List.nodup_append.1 hnd
  have hboxed : ∀ v ∈ (w.program.record d).params.filter fun v => (w.program.var v).refed,
      v ∈ w.program.boxed d := fun v hv => by
    obtain ⟨hv, href⟩ := List.mem_filter.1 hv
    exact List.mem_filter.2 ⟨List.mem_append_left _ hv, href⟩
  have hfresh : ∀ v ∈ (w.program.record d).locals,
      v ∉ (w.program.record d).params.filter fun v => (w.program.var v).refed :=
    fun v hl hv => hapart v (List.mem_of_mem_filter hv) v hl rfl
  rw [Emit.boxCode, List.filter_map] at hbox
  refine h.boxParams hd hg hid hpos hk hboxed (hndp.sublist List.filter_sublist)
    (fun v _ => hnone v) (fun v hv => hparams v (List.mem_of_mem_filter hv)) hbox (by omega)
    fun V₁ (hr₁ : w.Readies s₀ d g arr ((id, k) :: sc) k _ V V₁) => ?_
  refine (h.follow hr₁.toStays).initLocals hd hg hid hpos (hr₁.world ▸ hk)
    (List.forall₂_iff_get.2 ⟨hlocals.length_eq, fun j hj hj' => ?_⟩)
    (fun v hv => List.mem_append_right _ hv) hndl
    (fun v hv => (hr₁.cells v (hfresh v hv)).trans (hnone v)) hinit hlim
    fun V₂ (hr₂ : w.Readies s₀ d g arr ((id, k) :: sc) k _ V₁ V₂) => ?_
  · obtain ⟨hbinding, r, t, hr, -, hty, -, -, -, -, hfits⟩ :=
      (List.forall₂_iff_get.1 hf.locals).2 j hj hj'
    refine ⟨hbinding, ?_, ?_⟩
    · rw [hw.checked.typeOf_eq hr, hty]
      exact initializes_iff.1 hfits
    · rw [hr₁.world]
      exact (List.forall₂_iff_get.1 hlocals).2 j hj hj'
  have hr := hr₁.trans hr₂ fun v hv =>
    ⟨Compiled.mem_slots_of_own (List.mem_of_mem_filter (hboxed v hv)), fun hl => hfresh v hl hv⟩
  refine hu V₂ hr.toStays fun v hv => ?_
  by_cases hdone : v ∈ (w.program.record d).params.filter (fun v => (w.program.var v).refed)
      ++ (w.program.record d).locals
  · exact hr.ready v hdone
  -- The slots of the other variables have stayed as they were.
  have hslot := hr.others v hv hdone
  obtain hv' | hv' := List.mem_append.1 hv
  · obtain hparam | halias := List.mem_append.1 hv'
    · have href : (w.program.var v).refed = false := by
        refine Bool.eq_false_iff.2 fun href => hdone (List.mem_append_left _ ?_)
        exact List.mem_filter.2 ⟨hparam, href⟩
      have hown := List.mem_append_left (w.program.record d).locals hparam
      obtain ⟨x, hx, hstands⟩ := hparams v hparam
      exact varShows_own hw hd hid hown href (hslot.trans hx) (hr.world ▸ hstands.mono hr.image)
    · exact (haliases v halias).mono hr.image hslot fun _ => by rw [hr.world]
  · exact absurd (List.mem_append_right _ hv') hdone

end

end

end Begins

end Setting

end ObjLang
