import ObjLang.Proofs.Machine.Meant.Invoke

/-!
# ObjLang.Proofs.Machine.Meant.Object — new objects that stand for objects

An object lies where the heap ended.  Once its first word and the first values of its fields are
written it stands for a new object of the world, and the method for new objects runs on it.
-/

namespace ObjLang

open Check Check.Facts

-- Memories are compared by the laws of their words, never byte by byte.
attribute [local irreducible] Memory.setWord

/-- The first words of an object: the start of its class in the dispatch table, and the first values
of its fields. -/
def ClassLayout.firstWord (l : ClassLayout) : Nat → Int32
  | 0 => Emit.word l.vtableBase
  | j + 1 => (l.fields[j]?.map fun f => f.init.word).getD 0

namespace Setting

variable {w : Setting} {s₀ : Trace} {t₀ : State} {b : Body} {Q : Trace → Prop} {fin : Outcome}
  {sc : CallChain} {I : Image} {σ : World} {V : Scene} {k lim n m i j a a' q : Nat} {H : Ledger}
  {s : Trace} {S : List Int32} {v : Int32} {l : ClassLayout}
  {K : Value → Eval (Option Value)}

/-! ### New blocks -/

/-- A word of a new block is written, behind all blocks of the ledger, unless there is no room for
it. -/
theorem Ends.storeFresh (h : w.Holds s₀ t₀ b Q k lim H s)
    (hmirrors : w.Mirrors I σ H.blocks s.thread.store) (hop : b.code[i]? = some (.store (4 * j)))
    (hblocks : ∀ B ∈ H.blocks, B.stop ≤ q) (hq : q ≤ w.size) (hfin : printed s <+: fin.1)
    (hu : ∀ s', s' = s.withStore { s.thread.store with
        memory := s.thread.store.memory.setWord (q + 4 * j) v } → w.Moves s₀ b m H s H s' →
      w.Mirrors I σ H.blocks s'.thread.store → q + 4 * j + 4 ≤ w.size →
      w.Ends s₀ fin H (s'.on (i + 1) S)) :
    w.Ends s₀ fin H (s.on i (v :: Int32.ofNat q :: S)) := by
  have hlt := h.solid.size
  have hpos : Memory.position (Int32.ofNat q) (4 * j) = q + 4 * j :=
    Memory.position_ofNat (by omega) _
  by_cases hin : q + 4 * j + 4 ≤ w.size
  · refine store h hop (hpos.symm ▸ hin) ?_
    rw [hpos]
    refine hu _ rfl (h.moves_store (h.heap.writeFresh (fun B hB => ?_) v) m) ?_ hin
    · exact Nat.le_trans (hblocks B hB) (Nat.le_add_right _ _)
    · refine hmirrors.store (fun B hB j' hj' => ?_) fun _ _ => rfl
      have hstop : B.stop = B.address + 4 * B.kind.words := rfl
      have hle := hblocks B hB
      exact Memory.word_setWord_of_apart (by omega)
  · exact store_limit h hop (hpos.symm ▸ hin) hfin

/-- The heap pointer does not matter to what stands for the world. -/
theorem Mirrors.heapPointer (h : w.Mirrors I σ H.blocks s.thread.store)
    (hglobals : ∀ d ∈ w.program.program.vars, w.globalIndex d.var.name.name ≠ 0) (x : Int32) :
    w.Mirrors I σ H.blocks { s.thread.store with
      globals := s.thread.store.globals.setIfInBounds 0 x } :=
  h.store (fun _ _ _ _ => rfl) fun d hd => Array.getElem?_setIfInBounds_ne (hglobals d hd).symm

/-- The first words of a new object have been written. -/
def Written (w : Setting) (l : ClassLayout) (q j : Nat) (s : Trace) : Prop :=
  q + 4 * j ≤ w.size ∧ ∀ i < j, s.thread.store.memory.word (q + 4 * i) = l.firstWord i

/-- The next word is written. -/
theorem Written.snoc (h : w.Written l q j s) (hin : q + 4 * j + 4 ≤ w.size)
    (hv : v = l.firstWord j) :
    w.Written l q (j + 1) (s.withStore { s.thread.store with
      memory := s.thread.store.memory.setWord (q + 4 * j) v }) := by
  refine ⟨by omega, fun i hi => ?_⟩
  show (s.thread.store.memory.setWord (q + 4 * j) v).word (q + 4 * i) = l.firstWord i
  obtain hlt | rfl := Nat.lt_or_eq_of_le (Nat.le_of_lt_succ hi)
  · rw [Memory.word_setWord_of_apart (by omega)]
    exact h.2 i hlt
  · rw [Memory.word_setWord]
    exact hv

/-- The first words of an object suit their places. -/
theorem Solid.takes_firstWord (hsolid : w.Solid s₀ t₀) (hl : l ∈ w.program.classes.layouts)
    (bs : List Block) (j : Nat) :
    (BlockKind.object l).Takes w.program bs j (l.firstWord j) := by
  cases j with
  | zero => exact rfl
  | succ j =>
    intro f hf
    rw [ClassLayout.firstWord, hf]
    exact CheckedProgram.suits_word ((hsolid.fields l hl).2 f (List.mem_of_getElem? hf))

namespace Meant

variable (h : w.Meant s₀ t₀ b sc V)

include h

/-- A call of the allocator. -/
theorem alloc (hout : w.Outside b)
    (hop : b.code[i]? = some (.call (w.module.index Emit.allocName))) (hq : q ≤ 2 ^ 28)
    (hfin : printed V.trace <+: fin.1)
    (hu : ∀ s' t, t = s'.on (i + 1) (Int32.ofNat V.trace.heap :: S) →
      w.Turns s₀ b sc m V ⟨V.ledger.saw t, s', V.image, V.world⟩ →
      s'.heap = V.trace.heap + 4 * q → V.trace.heap ≤ w.size →
      printed s' = printed V.trace → w.Hands s₀ V.trace.heap q t →
      w.Ends s₀ fin (V.ledger.saw t) t) :
    w.Ends s₀ fin V.ledger (V.trace.on i (Emit.word q :: S)) := by
  obtain ⟨p, o, hw⟩ := h.compiled
  refine .alloc (m := m) h.holds hout (.inl h.past) hop hq hfin
    fun s' t ht hm hheap hframe hroom hstore hhands => ?_
  refine hu s' t ht (h.turns hm ?_ (fun v _ => hframe ▸ rfl) (hframe ▸ rfl)) hheap hroom
    (congrArg (fun st => st.output.toList) hstore) hhands
  rw [hstore]
  exact h.mirrors.heapPointer (fun d hd => hw.global_ne hd b.func) _

/-- A word of a new object is written. -/
theorem fill (hop : b.code[i]? = some (.store (4 * j)))
    (hblocks : ∀ B ∈ V.ledger.blocks, B.stop ≤ q) (hq : q ≤ w.size)
    (hwritten : w.Written l q j V.trace) (hfin : printed V.trace <+: fin.1)
    (hu : ∀ s', w.Turns s₀ b sc m V { V with trace := s' } →
      s'.thread.frame = V.trace.thread.frame → s'.heap = V.trace.heap →
      printed s' = printed V.trace → w.Written l q (j + 1) s' →
      w.Ends s₀ fin V.ledger (s'.on (i + 1) S)) :
    w.Ends s₀ fin V.ledger (V.trace.on i (l.firstWord j :: Int32.ofNat q :: S)) := by
  refine .storeFresh (m := m) h.holds h.mirrors hop hblocks hq hfin
    fun s' hs' hm hmirrors hin => ?_
  have hframe : s'.thread.frame = V.trace.thread.frame := by rw [hs', Trace.withStore_frame]
  have hheap : s'.heap = V.trace.heap := by rw [hs', Trace.withStore_heap]
  have hprinted : printed s' = printed V.trace := by
    rw [hs']
    rfl
  have hwritten' : w.Written l q (j + 1) s' := by
    rw [hs']
    exact hwritten.snoc hin rfl
  exact hu s' (h.turns hm hmirrors (fun _ _ => hframe ▸ rfl) (hframe ▸ rfl)) hframe hheap hprinted
    hwritten'

/-- The fields of a new object get their first values. -/
theorem initFields {fs : List FieldLayout} (hfs : l.fields.drop j = fs)
    (hcode : CodeAt (w.names b) b.code (Emit.initFields j fs) a a')
    (hblocks : ∀ B ∈ V.ledger.blocks, B.stop ≤ q) (hq : q ≤ w.size)
    (hnew : V.trace.thread.frame.locals[(w.names b).slot Emit.newName]? = some (Int32.ofNat q))
    (hwritten : w.Written l q (j + 1) V.trace) (hfin : printed V.trace <+: fin.1)
    (hu : ∀ s', w.Turns s₀ b sc m V { V with trace := s' } →
      s'.thread.frame = V.trace.thread.frame → s'.heap = V.trace.heap →
      printed s' = printed V.trace → w.Written l q l.words s' →
      w.Ends s₀ fin V.ledger (s'.on a' S)) :
    w.Ends s₀ fin V.ledger (V.trace.on a S) := by
  have hwords : l.words = l.fields.length + 1 := rfl
  induction fs generalizing V j a with
  | nil =>
    obtain rfl := codeAt_nil.1 hcode
    have hle := List.drop_eq_nil_iff.1 hfs
    refine hu V.trace (h.refl m) rfl rfl rfl ⟨?_, fun i hi => hwritten.2 i ?_⟩
    · exact Nat.le_trans (by omega) hwritten.1
    · omega
  | cons f fs ih =>
    have hlt : j < l.fields.length := by
      refine Nat.lt_of_not_le fun hle => ?_
      rw [List.drop_eq_nil_of_le hle] at hfs
      cases hfs
    rw [List.drop_eq_getElem_cons hlt] at hfs
    obtain ⟨rfl, hrest⟩ := List.cons.inj hfs
    obtain ⟨hop₁, -, hcode⟩ := codeAt_cons.1 hcode
    obtain ⟨hop₂, -, hcode⟩ := codeAt_cons.1 hcode
    obtain ⟨hop₃, -, hcode⟩ := codeAt_cons.1 hcode
    have hword : l.fields[j].init.word = l.firstWord (j + 1) := by
      rw [ClassLayout.firstWord, List.getElem?_eq_getElem hlt]
      rfl
    refine .localGet h.holds hop₁ hnew ?_
    refine .const h.holds hop₂ ?_
    rw [hword]
    refine h.fill (m := m) hop₃ hblocks hq hwritten hfin
      fun s₁ ht₁ hf₁ hh₁ hp₁ hwritten₁ => ?_
    refine ih (h.follow ht₁) hrest hcode hblocks (hf₁ ▸ hnew) hwritten₁ (hp₁ ▸ hfin)
      fun s₂ ht₂ hf₂ hh₂ hp₂ => ?_
    exact hu s₂ (ht₁.trans ht₂ (Nat.le_refl m)) (hf₂.trans hf₁) (hh₂.trans hh₁) (hp₂.trans hp₁)

/-- A block all of whose words have been written stands for a new object. -/
theorem make {c : String} (hl : w.program.classes.get? c = some l)
    (hgets : ∃ t ∈ V.ledger.states, w.Gets s₀ ⟨q, .object l⟩ t) (hlow : w.base ≤ q)
    (hfour : 4 ∣ q) (hheap : V.trace.heap = q + 4 * l.words)
    (hblocks : ∀ B ∈ V.ledger.blocks, B.stop ≤ q) (hwritten : w.Written l q l.words V.trace)
    {o : Object} (ho : w.program.newObject? c = some o) :
    w.Turns s₀ b sc m V ⟨V.ledger.add ⟨q, .object l⟩, V.trace, V.image.add ⟨q, .object l⟩,
      V.world.make o⟩ := by
  obtain ⟨p, op, hw⟩ := h.compiled
  obtain ⟨hmem, hname⟩ := ClassTable.get?_mem hl
  have hsub := V.ledger.sub_add ⟨q, .object l⟩
  have hmoves := h.holds.moves_ledger hsub (h.heapOk.add hgets hlow hfour (Nat.le_of_eq hheap.symm)
    hwritten.1 hblocks fun j hj => by
      show (BlockKind.object l).Takes w.program _ j (V.trace.thread.store.memory.word (q + 4 * j))
      rw [hwritten.2 j hj]
      exact h.solid.takes_firstWord hmem _ j) m
  have hobject : o = ⟨c, l.fields.map fun f => (f.name, f.init.value)⟩ := by
    rw [CheckedProgram.newObject?, hl] at ho
    exact (Option.some.inj ho).symm
  -- No object of the world lies where the heap ended.
  have hnew : ⟨q, .object l⟩ ∉ V.image.objects := by
    intro hB
    have hle := hblocks _ (h.mirrors.mem_blocks _ hB)
    have hstop : (Block.mk q (.object l)).stop = q + 4 * l.words := rfl
    have hwords : l.words = l.fields.length + 1 := rfl
    omega
  refine ⟨hmoves, V.image.sub_add _, ⟨Nat.le_refl _, fun _ _ _ _ _ => rfl⟩,
    (h.mirrors.blocks hsub.blocks).make List.mem_cons_self hnew rfl ?_ fun j f hf => ?_,
    fun v hv => (h.vars v hv).mono (V.image.sub_add _) rfl fun _ => rfl, rfl⟩
  · rw [hobject, hname]
  · refine ⟨f.init.value, ?_, ?_⟩
    · rw [hobject]
      refine lookup_of_mem ?_ (List.mem_map_of_mem (List.mem_of_getElem? hf))
      rw [List.map_map]
      exact hw.checked.field_names_nodup hmem
    · show Value.Stands w.program V.image f.init.value
        (V.trace.thread.store.memory.word (q + 4 * (j + 1))) f.ty
      have hlt := (List.getElem?_eq_some_iff.1 hf).1
      have hword : l.firstWord (j + 1) = f.init.word := by
        rw [ClassLayout.firstWord, hf]
        rfl
      rw [hwritten.2 (j + 1) (Nat.succ_lt_succ hlt), hword]
      exact Value.stands_fits ((h.solid.fields l hmem).2 f (List.mem_of_getElem? hf))

/-- A new object. -/
theorem construct (hper : w.Performs s₀ fin n) {e : ExprInfo} {callee : Ident} {args : List Expr}
    {y : String} (hocc : Expr.OccursIn b.source (.call e callee args (some (.construct y))))
    {c c' : Nat} (hat : Emit.ExprAt w.program (w.names b) b.code
      (.call e callee args (some (.construct y))) c a c' a') (hstart : b.start ≤ a)
    (hlead : (Meaning.construct w.program (w.program.call n) y >>= K).Leads V.world
      (printed V.trace) fin)
    (hgo : w.Yields s₀ b sc fin m V a' S (.object y) K) : w.Ends s₀ fin V.ledger (V.trace.on a S) := by
  obtain ⟨p, o, hw⟩ := h.compiled
  have hout := h.holds.outside hocc.source_ne_nil
  have hwhole := hat
  obtain ⟨l, init, hget, hinit, hcode, -⟩ := hat
  obtain ⟨hl, hname⟩ := ClassTable.get?_mem hget
  obtain ⟨b₁, hat, rfl⟩ := Emit.codeAt_construct hcode
  have hwords : l.words = l.fields.length + 1 := rfl
  have hfew := (h.solid.fields l hl).1
  have hblocks : ∀ B ∈ V.ledger.blocks, B.stop ≤ V.trace.heap := fun B hB =>
    (h.heapOk.inside B hB).2.2.1
  have hfin := hlead.isPrefix
  refine .const h.holds hat.words ?_
  refine h.alloc (m := m) hout hat.alloc (by omega) hfin fun s₁ t ht ht₁ hh₁ hroom hp₁ hhands => ?_
  subst ht
  have h₁ := h.follow ht₁
  have hwants : w.Wants (s₁.on (a + 2) (Int32.ofNat V.trace.heap :: S)) (.object l) :=
    h₁.holds.wants_object hget hocc hwhole hstart
  generalize hH₁ : V.ledger.saw (s₁.on (a + 1 + 1) (Int32.ofNat V.trace.heap :: S)) = H₁
    at ht₁ h₁ ⊢
  have hblocks₁ : H₁.blocks = V.ledger.blocks := hH₁ ▸ rfl
  refine h₁.setMade (m := m) (by decide : _ = '#' :: ['n', 'e', 'w']) hat.declared hat.keep
    (fun j _ => Holds.receiverName_ne (by decide : _ = '#' :: 'n' :: ['e', 'w']) (by decide) j)
    fun s₂ hs₂ ht₂ hnew₂ => ?_
  have h₂ := h₁.follow ht₂
  have hh₂ : s₂.heap = s₁.heap := by rw [hs₂]; rfl
  have hp₂ : printed s₂ = printed s₁ := by rw [hs₂]; rfl
  refine .localGet h₂.holds hat.object hnew₂ ?_
  refine .const h₂.holds hat.base ?_
  refine h₂.fill (m := m) (l := l) (j := 0) hat.tag (hblocks₁ ▸ hblocks) hroom
    ⟨hroom, fun i hi => absurd hi (Nat.not_lt_zero i)⟩ ((hp₂.trans hp₁).symm ▸ hfin)
    fun s₃ ht₃ hf₃ hh₃ hp₃ hwritten₃ => ?_
  have h₃ := h₂.follow ht₃
  refine h₃.initFields (m := m) rfl hat.fields (hblocks₁ ▸ hblocks) hroom (hf₃ ▸ hnew₂) hwritten₃
    ((hp₃.trans (hp₂.trans hp₁)).symm ▸ hfin) fun s₄ ht₄ hf₄ hh₄ hp₄ hwritten₄ => ?_
  have h₄ := h₃.follow ht₄
  have hp : printed s₄ = printed V.trace := hp₄.trans (hp₃.trans (hp₂.trans hp₁))
  have hnew₄ : s₄.thread.frame.locals[(w.names b).slot Emit.newName]?
      = some (Int32.ofNat V.trace.heap) := by rw [hf₄, hf₃, hnew₂]
  -- All words of the object have been written, so it stands for a new object of the world.
  simp only [Meaning.construct, bind_assoc, Eval.leads_world, Eval.leads_known, Eval.leads_become]
    at hlead
  obtain ⟨ob, hob, hlead⟩ := hlead
  have ht₅ := h₄.make (m := m) (q := V.trace.heap) hget
    ⟨_, hH₁ ▸ List.mem_cons_self, hhands, hwants⟩ h.heapOk.low h.heapOk.aligned
    (hh₄.trans (hh₃.trans (hh₂.trans hh₁))) (hblocks₁ ▸ hblocks) hwritten₄ hob
  have h₅ := h₄.follow ht₅
  have hlength : V.image.objects.length = V.world.objects.length := h.mirrors.length
  have hr : (V.image.add ⟨V.trace.heap, .object l⟩).objects[V.world.objects.length]?
      = some ⟨V.trace.heap, .object l⟩ :=
    hlength ▸ List.getElem?_concat_length
  refine Ends.of_add (B := ⟨V.trace.heap, .object l⟩) ?_
  refine .localGet h₅.holds hat.receiver hnew₄ ?_
  -- The method for new objects is called by its name.
  have hinit' := hinit
  rw [(hw.checked.laid.indexed hl).target?_eq] at hinit'
  obtain ⟨el, hel, rfl⟩ := Option.map_eq_some_iff.1 hinit'
  obtain ⟨id, f, hentry⟩ := hw.checked.exists_entry hl hel
  obtain ⟨ts, hts⟩ := hentry.receiver
  obtain rfl : ts = [] := by
    obtain ⟨id', f', owner, hf', hem', hparams', -⟩ := hw.checked.exists_init hw.words hl hinit
    obtain rfl := hw.checked.id_of_emitted hw.words hf' hentry.record
      (hem'.trans hentry.emitted.symm)
    cases hf'.symm.trans hentry.record
    exact (List.cons.inj (hts.symm.trans hparams')).2
  obtain ⟨himport, g, hg, hlen⟩ := exists_linked hw hentry.record
  rw [hentry.emitted] at himport hg
  have hone : [Int32.ofNat V.trace.heap].length = g.params := by
    rw [hlen, hts, hw.checked.captures_of_entry hentry]
    rfl
  have hall : w.Ends s₀ fin (H₁.add ⟨V.trace.heap, .object l⟩)
      (s₄.on (b₁ + 1) ([Int32.ofNat V.trace.heap] ++ S)) := by
    refine .call h₅.holds hat.call himport hg _ hone (hp ▸ hfin) fun F depth hF => ?_
    refine h₅.enterMethod (m := m) hper hout hr rfl hel hentry hts .nil hF (hp ▸ hlead)
      fun V' v x ht₆ hf₆ _ hK => ?_
    have h₆ := h₅.follow ht₆
    refine .drop h₆.holds hat.drop ?_
    refine .localGet h₆.holds hat.result (hf₆ ▸ hnew₄) ?_
    rw [pure_bind] at hK
    have ht : w.Turns s₀ b sc m V V' :=
      ((((ht₁.trans ht₂ (Nat.le_refl m)).trans ht₃ (Nat.le_refl m)).trans ht₄
        (Nat.le_refl m)).trans ht₅ (Nat.le_refl m)).trans ht₆ (Nat.le_refl m)
    exact hgo V' _ _ ht (.inr ⟨_, _, l, rfl, ht₆.image.objects _ _ hr, rfl, rfl, hname ▸ .refl⟩) hK
  exact hall

end Meant

end Setting

end ObjLang
