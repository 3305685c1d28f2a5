import ObjLang.Proofs.Machine.Typed.Access

/-!
# ObjLang.Proofs.Machine.Typed.Object — new objects

An object lies where the heap ended.  Once its first word and the first values of its fields are
written it comes into the ledger, and the method for new objects runs on it.
-/

namespace ObjLang

open Check Check.Facts

namespace Setting

variable {w : Setting} {s₀ : Trace} {t₀ : State} {b : Body} {Q R : Trace → Prop}
  {k lim n m i a a' q : Nat} {H H' : Ledger} {s s' : Trace} {S : List Int32} {v x : Int32}
  {l : ClassLayout} {g : Code.Func} {ss : List Stmt}

/-- The first words of an object at an address have been written. -/
def Filled (w : Setting) (l : ClassLayout) (q j : Nat) (s : Trace) : Prop :=
  q + 4 * j ≤ w.size ∧ ∀ i < j, ∀ bs,
    (BlockKind.object l).Takes w.program bs i (s.thread.store.memory.word (q + 4 * i))

/-- The next word is written. -/
theorem Filled.snoc (h : w.Filled l q j s) (hin : q + 4 * j + 4 ≤ w.size)
    (hv : ∀ bs, (BlockKind.object l).Takes w.program bs j v) :
    w.Filled l q (j + 1) (s.withStore { s.thread.store with
      memory := s.thread.store.memory.setWord (q + 4 * j) v }) := by
  refine ⟨by omega, fun i hi bs => ?_⟩
  show (BlockKind.object l).Takes w.program bs i
    ((s.thread.store.memory.setWord (q + 4 * j) v).word (q + 4 * i))
  obtain hlt | rfl := Nat.lt_or_eq_of_le (Nat.le_of_lt_succ hi)
  · rw [Memory.word_setWord_of_apart (by omega)]
    exact h.2 i hlt bs
  · rw [Memory.word_setWord]
    exact hv bs

namespace Holds

/-- A word of a new block is written, behind all blocks of the ledger; it lies in the memory, or the
new block does not. -/
theorem storeFresh (h : w.Holds s₀ t₀ b Q k lim H s) (hlim : i < lim) {j : Nat}
    (hop : b.code[i]? = some (.store (4 * j))) {kind : BlockKind}
    (hgets : ∃ t ∈ H.states, w.Gets s₀ ⟨q, kind⟩ t) (hj : j < kind.words)
    (hblocks : ∀ B ∈ H.blocks, B.stop ≤ q) (hq : q ≤ w.size)
    (hheap : (Block.mk q kind).stop = s.heap)
    (hu : ∀ s', w.Moves s₀ b m H s H s' → s' = s.withStore { s.thread.store with
      memory := s.thread.store.memory.setWord (q + 4 * j) v } → q + 4 * j + 4 ≤ w.size →
      w.Goes s₀ Q R n H (s'.on (i + 1) S)) :
    w.Goes s₀ Q R n H (s.on i (v :: Int32.ofNat q :: S)) := by
  have hlt := h.solid.size
  have hstop : (Block.mk q kind).stop = q + 4 * kind.words := rfl
  have hpos : Memory.position (Int32.ofNat q) (4 * j) = q + 4 * j :=
    Memory.position_ofNat (by omega) _
  refine h.store hlim hop ?_ fun hin => ?_
  · rw [hpos]
    by_cases hin : q + 4 * j + 4 ≤ w.size
    · exact .inl hin
    · exact .inr ⟨_, hgets, Nat.le_add_right _ _, by omega, by omega, hheap⟩
  · rw [hpos] at hin ⊢
    refine hu _ (h.moves_store (h.heap.writeFresh (fun B hB => ?_) v) m) rfl hin
    exact Nat.le_trans (hblocks B hB) (Nat.le_add_right _ _)

/-- A word of a new object is written. -/
theorem fill (h : w.Holds s₀ t₀ b Q k lim H s) (hlim : i < lim) {j : Nat}
    (hop : b.code[i]? = some (.store (4 * j)))
    (hgets : ∃ t ∈ H.states, w.Gets s₀ ⟨q, .object l⟩ t) (hj : j < l.words)
    (hblocks : ∀ B ∈ H.blocks, B.stop ≤ q) (hq : q ≤ w.size) (hheap : q + 4 * l.words = s.heap)
    (hfilled : w.Filled l q j s) (hv : ∀ bs, (BlockKind.object l).Takes w.program bs j v)
    (hu : ∀ s', w.Moves s₀ b m H s H s' → s'.thread.frame = s.thread.frame → s'.heap = s.heap →
      w.Filled l q (j + 1) s' → w.Goes s₀ Q R n H (s'.on (i + 1) S)) :
    w.Goes s₀ Q R n H (s.on i (v :: Int32.ofNat q :: S)) := by
  refine h.storeFresh (m := m) hlim hop hgets hj hblocks hq hheap fun s' hm hs' hin => ?_
  subst hs'
  exact hu _ hm (s.withStore_frame _) (s.withStore_heap _) (hfilled.snoc hin hv)

/-- The fields of a new object get their first values. -/
theorem initFields (h : w.Holds s₀ t₀ b Q k lim H s) (hl : l ∈ w.program.classes.layouts)
    {fs : List FieldLayout} {j : Nat} (hfs : l.fields.drop j = fs)
    (hcode : CodeAt (w.names b) b.code (Emit.initFields j fs) a a') (hlim : a' ≤ lim)
    (hgets : ∃ t ∈ H.states, w.Gets s₀ ⟨q, .object l⟩ t) (hblocks : ∀ B ∈ H.blocks, B.stop ≤ q)
    (hq : q ≤ w.size) (hheap : q + 4 * l.words = s.heap)
    (hnew : s.thread.frame.locals[(w.names b).slot Emit.newName]? = some (Int32.ofNat q))
    (hfilled : w.Filled l q (j + 1) s)
    (hu : ∀ s', w.Moves s₀ b m H s H s' → s'.thread.frame = s.thread.frame → s'.heap = s.heap →
      w.Filled l q l.words s' → w.Goes s₀ Q R n H (s'.on a' S)) :
    w.Goes s₀ Q R n H (s.on a S) := by
  have hwords : l.words = l.fields.length + 1 := rfl
  induction fs generalizing s j a with
  | nil =>
    obtain rfl := codeAt_nil.1 hcode
    refine hu s (h.refl m) rfl rfl ⟨?_, fun i hi => hfilled.2 i ?_⟩
    all_goals
      have hle := List.drop_eq_nil_iff.1 hfs
      have hin := hfilled.1
      omega
  | cons f fs ih =>
    have hlt : j < l.fields.length := by
      refine Nat.lt_of_not_le fun hle => ?_
      rw [List.drop_eq_nil_of_le hle] at hfs
      cases hfs
    rw [List.drop_eq_getElem_cons hlt] at hfs
    obtain ⟨rfl, hrest⟩ := List.cons.inj hfs
    obtain ⟨hop₁, -, hcode⟩ := codeAt_cons.1 hcode
    obtain ⟨hop₂, -, hcode⟩ := codeAt_cons.1 hcode
    obtain ⟨hop₃, -, hcode⟩ := codeAt_cons.1 hcode
    have hle := Emit.codeAt_le hcode
    refine h.localGet (by omega) hop₁ hnew ?_
    refine h.const (by omega) hop₂ ?_
    refine h.fill (m := m) (j := j + 1) (by omega) hop₃ hgets (by omega) hblocks hq hheap hfilled
      (fun bs f hf => ?_) fun s₁ hm₁ hf₁ hh₁ hfilled₁ => ?_
    · obtain ⟨hlt', rfl⟩ := List.getElem?_eq_some_iff.1 hf
      exact CheckedProgram.suits_word ((h.solid.fields l hl).2 _ (List.getElem_mem hlt'))
    · refine ih (h.follow hm₁) hrest hcode (by omega) (hf₁ ▸ hnew) hfilled₁ fun s₂ hm₂ hf₂ hh₂ => ?_
      exact hu s₂ (hm₁.trans hm₂ (Nat.le_refl m)) (hf₂.trans hf₁) (hh₂.trans hh₁)

/-- What the innermost call has just asked for a block for is an object. -/
theorem wants_object (h : w.Holds s₀ t₀ b Q k lim H s) {e : ExprInfo} {callee : Ident}
    {args : List Expr} {y : String} (hl : w.program.classes.get? y = some l)
    (hocc : Expr.OccursIn b.source (.call e callee args (some (.construct y)))) {c c' : Nat}
    (hat : Emit.ExprAt w.program (w.names b) b.code (.call e callee args (some (.construct y)))
      c a c' a') (hstart : b.start ≤ a) : w.Wants (s.on (a + 2) S) (.object l) := by
  obtain ⟨x, xs, hcalls, hx, -⟩ := h.calls
  have hat' : Emit.ExprAt w.program (w.names b) (s.on (a + 2) S).thread.frame.code
      (.call e callee args (some (.construct y))) c a c' a' := by
    rw [Trace.on_thread, Thread.on_code, h.code]
    exact hat
  refine .object ⟨h.body.mem, ⟨x, ?_, ?_⟩, b.start, ?_, ?_⟩ hocc hl hat' rfl
  · rw [Trace.on_calls, hcalls]
    rfl
  · rw [hx, h.body.name]
  · rw [h.body.name]
    exact h.body.statements.resolve_left hocc.source_ne_nil
  · rw [Trace.on_thread, Thread.on_position]
    omega

/-- A new object. -/
theorem construct (h : w.Holds s₀ t₀ b Q k lim H s) (hsup : ∀ m < n, w.Supplies s₀ m)
    (hp : w.Past b) {e : ExprInfo} {callee : Ident} {args : List Expr} {y : String}
    (hocc : Expr.OccursIn b.source (.call e callee args (some (.construct y)))) {c c' : Nat}
    (hat : Emit.ExprAt w.program (w.names b) b.code (.call e callee args (some (.construct y)))
      c a c' a') (hstart : b.start ≤ a) (hlim : a' ≤ lim)
    (hgo : w.Gives s₀ b Q R n m H s a' S (.object y)) : w.Goes s₀ Q R n H (s.on a S) := by
  obtain ⟨p, o, hw⟩ := h.compiled
  have hout := h.outside hocc.source_ne_nil
  have hwhole := hat
  obtain ⟨l, init, hget, hinit, hcode, -⟩ := hat
  obtain ⟨hl, hname⟩ := ClassTable.get?_mem hget
  obtain ⟨b₁, hat, rfl⟩ := Emit.codeAt_construct hcode
  have hle := Emit.codeAt_le hat.fields
  have hwords : l.words = l.fields.length + 1 := rfl
  have hfew := (h.solid.fields l hl).1
  have hblocks : ∀ B ∈ H.blocks, B.stop ≤ s.heap := fun B hB => (h.heap.inside B hB).2.2.1
  refine h.const (by omega) hat.words ?_
  refine h.alloc (m := m) hout (by omega) (.inl hp) hat.alloc (by omega)
    fun s₁ t ht hm₁ hh₁ hf₁ hroom hhands => ?_
  subst ht
  have h₁ := h.follow hm₁
  have hwants : w.Wants (s₁.on (a + 2) (Int32.ofNat s.heap :: S)) (.object l) :=
    h₁.wants_object hget hocc hwhole hstart
  generalize hH₁ : H.saw (s₁.on (a + 1 + 1) (Int32.ofNat s.heap :: S)) = H₁ at hm₁ h₁ ⊢
  have hblocks₁ : H₁.blocks = H.blocks := hH₁ ▸ rfl
  refine h₁.setMade (m := m) (by decide : _ = '#' :: ['n', 'e', 'w']) hat.declared (by omega) hat.keep
    (fun j _ => receiverName_ne (by decide : _ = '#' :: 'n' :: ['e', 'w']) (by decide) j)
    fun s₂ hm₂ hs₂ hnew₂ => ?_
  have h₂ := h₁.follow hm₂
  have hh₂ : s₂.heap = s₁.heap := by rw [hs₂]; rfl
  refine h₂.localGet (by omega) hat.object hnew₂ ?_
  refine h₂.const (by omega) hat.base ?_
  have hgets : ∃ t ∈ H₁.states, w.Gets s₀ ⟨s.heap, .object l⟩ t :=
    ⟨_, hH₁ ▸ List.mem_cons_self, hhands, hwants⟩
  refine h₂.fill (m := m) (j := 0) (by omega) hat.tag hgets (Nat.succ_pos _) (hblocks₁ ▸ hblocks)
    hroom (hh₂.trans hh₁).symm ⟨hroom, fun i hi => absurd hi (Nat.not_lt_zero i)⟩ (fun bs => rfl)
    fun s₃ hm₃ hf₃ hh₃ hfilled₃ => ?_
  have h₃ := h₂.follow hm₃
  refine h₃.initFields (m := m) hl rfl hat.fields (by omega) hgets (hblocks₁ ▸ hblocks) hroom
    (hh₃.trans (hh₂.trans hh₁)).symm (hf₃ ▸ hnew₂) hfilled₃ fun s₄ hm₄ hf₄ hh₄ hfilled₄ => ?_
  have h₄ := h₃.follow hm₄
  have hnew₄ : s₄.thread.frame.locals[(w.names b).slot Emit.newName]?
      = some (Int32.ofNat s.heap) := by rw [hf₄, hf₃, hnew₂]
  -- All words of the object have been written, so it comes into the ledger.
  have hheap₄ : w.HeapOk s₀ (H₁.add ⟨s.heap, .object l⟩) s₄.thread.store s₄.heap := by
    refine h₄.heap.add hgets h.heap.low h.heap.aligned ?_
      hfilled₄.1 (hblocks₁ ▸ hblocks) fun j hj => hfilled₄.2 j hj _
    rw [hh₄, hh₃, hh₂, hh₁]
    exact Nat.le_refl _
  have hm₅ := h₄.moves_ledger (H₁.sub_add _) hheap₄ m
  have h₅ := h₄.follow hm₅
  have hobject : ∀ owner, w.program.classes.Below l.name owner → ∀ bs,
      (∀ B ∈ (H₁.add ⟨s.heap, .object l⟩).blocks, B ∈ bs) →
      w.program.Suits bs (Int32.ofNat s.heap) (.object owner) := fun owner hbelow bs hbs =>
    .inr ⟨_, hbs _ List.mem_cons_self, rfl, l, rfl, hbelow⟩
  refine Goes.of_add (B := ⟨s.heap, .object l⟩) ?_
  refine h₅.localGet (by omega) hat.receiver hnew₄ ?_
  obtain ⟨id, f, owner, hf, hemitted, hparams, hcaptures, hbelow⟩ :=
    hw.checked.exists_init hw.words hl hinit
  have hcall : b.code[b₁ + 1]? = some (.call (w.module.index f.emitted)) := hemitted ▸ hat.call
  have hargs : List.Forall₂ (w.program.Suits (H₁.add ⟨s.heap, .object l⟩).blocks)
      [Int32.ofNat s.heap] f.paramTypes :=
    hparams ▸ .cons (hobject owner hbelow _ fun _ hB => hB) .nil
  have hcells : List.Forall₂ (fun x e => w.CellOf (H₁.add ⟨s.heap, .object l⟩).blocks x e.inner)
      [] f.captures :=
    hcaptures ▸ .nil
  refine h₅.invoke (m := m) hsup hout (by omega) (.inl hp) hf hcall hargs hcells
    fun H' u v hm₆ _ => ?_
  have h₆ := h₅.follow hm₆
  refine h₆.drop (by omega) hat.drop ?_
  refine h₆.localGet (by omega) hat.result hnew₄ ?_
  have hm : w.Moves s₀ b m H s H' (s₄.resume u) :=
    ((((hm₁.trans hm₂ (Nat.le_refl m)).trans hm₃ (Nat.le_refl m)).trans hm₄ (Nat.le_refl m)).trans
      hm₅ (Nat.le_refl m)).trans hm₆ (Nat.le_refl m)
  exact hgo H' _ _ hm (hobject y (hname ▸ .refl) _ hm₆.sub.blocks)

end Holds

end Setting

end ObjLang
