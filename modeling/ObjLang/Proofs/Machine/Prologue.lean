import ObjLang.Proofs.Machine.Invoke
import ObjLang.Proofs.Emit.Order

/-!
# ObjLang.Proofs.Machine.Prologue — how a call of a definition begins

Before its statements a function moves its captured parameters into new cells and gives its variables
their first values, the captured ones in new cells.  After it each captured variable of the function
has a cell of its own, and the captures are as the caller passed them.
-/

namespace ObjLang

open Check Check.Facts

namespace Setting

variable {w : Setting} {p : Program} {o : Options} {t₀ : State} {b : Body} {Q R : Trace → Prop}
  {k lim n a a' lo : Nat} {s s' : Trace} {S : List Int32} {outer : List FunDef} {d : FunDef}
  {g : Code.Func} {arr : Array Op} {v : VarId} {vs : List VarId}

/-! ### Cells -/

/-- A variable got a new cell. -/
structure Opens (w : Setting) (d : FunDef) (v : VarId) (s s' : Trace) : Prop where
  slot : s'.thread.frame.locals[w.program.slot v]? = some (Int32.ofNat s.heap)
  others : ∀ u ∈ (w.program.record d).slots, u ≠ v →
    s'.thread.frame.locals[w.program.slot u]? = s.thread.frame.locals[w.program.slot u]?
  heap : s'.heap = s.heap + 4
  inside : Memory.position (Int32.ofNat s.heap) 0 + 4 ≤ w.size

theorem Opens.room (h : w.Opens d v s s') (hr : w.Room s) : w.Room s' := by
  intro hf hs
  obtain ⟨hbase, htop⟩ := hr hf hs
  have haddress : (Int32.ofNat s.heap).toUInt32.toNat = s.heap := by
    rw [address_ofNat]
    exact Nat.mod_eq_of_lt (Nat.lt_of_le_of_lt htop hs)
  have hin := h.inside
  rw [Memory.position, haddress] at hin
  have hheap := h.heap
  omega

/-- A new cell beside those that there are. -/
theorem Opens.cells (h : w.Opens d v s s') (hr : w.Room s)
    (hcells : w.Cells vs s.thread.frame lo s.heap) (hlo : lo ≤ s.heap) (hv : v ∉ vs)
    (hvs : ∀ u ∈ vs, u ∈ (w.program.record d).slots) :
    w.Cells (vs ++ [v]) s'.thread.frame lo s'.heap := by
  obtain ⟨cell, hcell, hapart⟩ := hcells
  have hne : ∀ u ∈ vs, u ≠ v := fun u hu heq => hv (heq ▸ hu)
  have hheap := h.heap
  refine ⟨fun u => if u = v then s.heap else cell u, fun u hu => ?_, fun u hu u' hu' huu => ?_⟩
  · obtain hu | hu := List.mem_append.1 hu
    · simp only [if_neg (hne u hu)]
      have hc := hcell u hu
      exact ⟨(h.others u (hvs u hu) (hne u hu)).trans hc.slot, hc.lo, by have := hc.hi; omega,
        hc.inside, hc.fits⟩
    · obtain rfl := List.mem_singleton.1 hu
      simp only [if_true]
      refine ⟨h.slot, hlo, by omega, h.inside, fun hf hs => ?_⟩
      have htop := (h.room hr hf hs).2
      omega
  · obtain hin | hin := List.mem_append.1 hu
    · have hc := (hcell u hin).hi
      obtain hin' | hin' := List.mem_append.1 hu'
      · simp only [if_neg (hne u hin), if_neg (hne u' hin')]
        exact hapart u hin u' hin' huu
      · have heq := List.mem_singleton.1 hin'
        simp only [if_neg (hne u hin), if_pos heq]
        exact .inl hc
    · have heq := List.mem_singleton.1 hin
      obtain hin' | hin' := List.mem_append.1 hu'
      · have hc := (hcell u' hin').hi
        simp only [if_neg (hne u' hin'), if_pos heq]
        exact .inr hc
      · exact absurd (heq.trans (List.mem_singleton.1 hin').symm) huu

/-! ### The code before the statements -/

/-- The prologue of a definition. -/
def opening (g : Code.Func) (arr : Array Op) (f : Function) : Body :=
  { helper g arr with vars := f.captures.aliases }

theorem bodyOk_opening (hw : Compiled p w.program t₀ o w.module w.linked)
    (hd : w.program.Nest outer d) (hg : CodeOf w.program w.module w.linked d g arr) :
    w.BodyOk t₀ (opening g arr (w.program.record d)) := by
  have hslots : ∀ u ∈ (w.program.record d).captures.aliases, u ∈ (w.program.record d).slots :=
    fun u hu => List.mem_append_left _ (List.mem_append_right _ hu)
  refine ⟨hg.mem, rfl, ?_, fun u hu => (hw.var_owner hd (hslots u hu)).1,
    fun u hu => hw.slot_name hd hg (hslots u hu),
    fun u hu u' hu' => hw.slot_inj hd (hslots u hu) (hslots u' hu'),
    fun y rest hy hmem u hu => hw.slot_made hd hg hy hmem (hslots u hu), ?_, ?_, .inl rfl⟩
  · rintro y u ⟨l, lv, hl, -⟩
    cases hl
  · intro l lv hl
    cases hl
  · simp only [opening, helper, BlockOk]

theorem before_opening (hw : Compiled p w.program t₀ o w.module w.linked)
    (hd : w.program.Nest outer d) (hg : CodeOf w.program w.module w.linked d g arr)
    (hpos : 0 < w.program.prologue d) :
    w.Before (opening g arr (w.program.record d)) (w.program.prologue d) := by
  intro outer' d' hd' heq
  have hname : g.name = w.program.emitted d' :=
    Code.Module.index_inj (Emit.mem_functionNames hg.mem) (hw.emitted_mem hd') heq
  obtain rfl := hw.checked.emitted_inj hw.words hd hd' (hg.name.symm.trans hname)
  exact ⟨hpos, Nat.le_refl _, fun u hu hcap => hw.mem_aliases hd hu hcap⟩

namespace Here

/-- A parameter or variable of the definition has not the slot of an alias. -/
theorem ne_alias (h : w.Here t₀ (opening g arr (w.program.record d)) Q k lim s)
    (hd : w.program.Nest outer d) (hg : CodeOf w.program w.module w.linked d g arr)
    (hv : v ∈ (w.program.record d).params ++ (w.program.record d).locals) :
    ∀ u ∈ (w.program.record d).captures.aliases, (w.program.var u).isIndirect = true →
      (w.module.names g).slot (w.program.var v).name ≠ w.program.slot u := by
  obtain ⟨p, o, hw⟩ := h.compiled
  have hslots := Compiled.mem_slots_of_own hv
  intro u hu _ heq
  have hmem : u ∈ (w.program.record d).slots :=
    List.mem_append_left _ (List.mem_append_right _ hu)
  obtain rfl := hw.slot_inj hd hslots hmem ((hw.slot_name hd hg hslots).symm.trans heq)
  exact hw.not_mem_aliases hd hv hu

/-- A captured parameter moves into a new cell. -/
theorem boxParam (h : w.Here t₀ (opening g arr (w.program.record d)) Q k lim s) (hr : w.Room s)
    (hd : w.program.Nest outer d) (hg : CodeOf w.program w.module w.linked d g arr)
    (hv : v ∈ (w.program.record d).params ++ (w.program.record d).locals)
    (hcode : CodeAt (w.module.names g) arr (Emit.boxParam (w.program.var v)) a a') (hlim : a' ≤ lim)
    (hu : ∀ s', w.Follows (opening g arr (w.program.record d)) s s' → w.Opens d v s s' →
      Trace.Until w.linked w.maxDepth Q R n (s'.on a' S)) :
    Trace.Until w.linked w.maxDepth Q R n (s.on a S) := by
  obtain ⟨p, o, hw⟩ := h.compiled
  have hslots := Compiled.mem_slots_of_own hv
  have hslot := hw.slot_name hd hg hslots
  obtain ⟨hat, rfl⟩ := Emit.codeAt_boxParam hcode
  have hmade : ∀ u ∈ (w.program.record d).slots,
      w.program.slot u ≠ (w.module.names g).slot Emit.cellName := fun u hu =>
    (hw.slot_made hd hg (by decide : _ = '#' :: ['c', 'e', 'l', 'l']) hat.declared hu).symm
  refine h.const (by omega) hat.words ?_
  refine h.alloc hr (by omega) (.inr (by omega)) hat.alloc fun s₁ hb₁ hh₁ => ?_
  have hf₁ : w.Follows (opening g arr (w.program.record d)) s s₁ := hb₁.follows
  have h₁ := h.follow hf₁
  refine h₁.localSet (by omega) hat.keep (fun u hu _ heq => ?_) fun s₂ hf₂ hh₂ hcell₂ hl₂ => ?_
  · exact hmade u (List.mem_append_left _ (List.mem_append_right _ hu)) heq.symm
  have h₂ := h₁.follow hf₂
  refine h₂.localGet (by omega) hat.cell fun x hx => ?_
  obtain rfl := Option.some.inj (hcell₂.symm.trans hx)
  refine h₂.localGet (by omega) hat.value fun y _ => ?_
  refine h₂.store (by omega) hat.fill
    (fun c hc hfun => h.fresh hr (hf₁.trans hf₂) (by omega) hc hfun)
    fun s₃ hf₃ hh₃ hl₃ hin₃ => ?_
  have h₃ := h₂.follow hf₃
  refine h₃.localGet (by omega) hat.again fun x hx => ?_
  rw [hl₃, hcell₂] at hx
  cases hx
  refine h₃.localSet (by omega) hat.move (h.ne_alias hd hg hv) fun s₄ hf₄ hh₄ hv₄ hl₄ => ?_
  refine hu s₄ ((hf₁.trans hf₂).trans (hf₃.trans hf₄)) ⟨hslot ▸ hv₄, fun u hu hne => ?_, ?_, hin₃⟩
  · have hne' : w.program.slot u ≠ (w.module.names g).slot (w.program.var v).name := fun heq =>
      hne (hw.slot_inj hd hu hslots (heq.trans hslot))
    rw [hl₄ _ hne', hl₃, hl₂ _ (hmade u hu), hb₁.frame]
    rfl
  · rw [hh₄, hh₃, hh₂, hh₁]
    rfl

/-- A captured variable gets a new cell with its first value. -/
theorem initCell (h : w.Here t₀ (opening g arr (w.program.record d)) Q k lim s) (hr : w.Room s)
    (hd : w.program.Nest outer d) (hg : CodeOf w.program w.module w.linked d g arr)
    (hv : v ∈ (w.program.record d).params ++ (w.program.record d).locals) {x : Literal}
    (href : (w.program.var v).refed = true)
    (hcode : CodeAt (w.module.names g) arr (Emit.initLocal (w.program.var v) x) a a')
    (hlim : a' ≤ lim)
    (hu : ∀ s', w.Follows (opening g arr (w.program.record d)) s s' → w.Opens d v s s' →
      Trace.Until w.linked w.maxDepth Q R n (s'.on a' S)) :
    Trace.Until w.linked w.maxDepth Q R n (s.on a S) := by
  obtain ⟨p, o, hw⟩ := h.compiled
  have hslots := Compiled.mem_slots_of_own hv
  have hslot := hw.slot_name hd hg hslots
  obtain ⟨hat, rfl⟩ := Emit.codeAt_initLocal href hcode
  refine h.const (by omega) hat.words ?_
  refine h.alloc hr (by omega) (.inr (by omega)) hat.alloc fun s₁ hb₁ hh₁ => ?_
  have hf₁ : w.Follows (opening g arr (w.program.record d)) s s₁ := hb₁.follows
  have h₁ := h.follow hf₁
  refine h₁.localSet (by omega) hat.keep (h.ne_alias hd hg hv) fun s₂ hf₂ hh₂ hv₂ hl₂ => ?_
  have h₂ := h₁.follow hf₂
  refine h₂.localGet (by omega) hat.cell fun y hy => ?_
  obtain rfl := Option.some.inj (hv₂.symm.trans hy)
  refine h₂.const (by omega) hat.value ?_
  refine h₂.store (by omega) hat.fill
    (fun c hc hfun => h.fresh hr (hf₁.trans hf₂) (by omega) hc hfun)
    fun s₃ hf₃ hh₃ hl₃ hin₃ => ?_
  refine hu s₃ ((hf₁.trans hf₂).trans hf₃) ⟨?_, fun u hu hne => ?_, ?_, hin₃⟩
  · rw [hl₃, ← hslot]
    exact hv₂
  · have hne' : w.program.slot u ≠ (w.module.names g).slot (w.program.var v).name := fun heq =>
      hne (hw.slot_inj hd hu hslots (heq.trans hslot))
    rw [hl₃, hl₂ _ hne', hb₁.frame]
    rfl
  · rw [hh₃, hh₂, hh₁]
    rfl

/-- Another variable gets its first value. -/
theorem initPlain (h : w.Here t₀ (opening g arr (w.program.record d)) Q k lim s)
    (hd : w.program.Nest outer d) (hg : CodeOf w.program w.module w.linked d g arr)
    (hv : v ∈ (w.program.record d).params ++ (w.program.record d).locals) {x : Literal}
    (href : (w.program.var v).refed = false)
    (hcode : CodeAt (w.module.names g) arr (Emit.initLocal (w.program.var v) x) a a')
    (hlim : a' ≤ lim)
    (hu : ∀ s', w.Follows (opening g arr (w.program.record d)) s s' → s'.heap = s.heap →
      (∀ u ∈ (w.program.record d).slots, u ≠ v →
        s'.thread.frame.locals[w.program.slot u]? = s.thread.frame.locals[w.program.slot u]?) →
      Trace.Until w.linked w.maxDepth Q R n (s'.on a' S)) :
    Trace.Until w.linked w.maxDepth Q R n (s.on a S) := by
  obtain ⟨p, o, hw⟩ := h.compiled
  have hslots := Compiled.mem_slots_of_own hv
  have hslot := hw.slot_name hd hg hslots
  rw [Emit.initLocal, href, if_neg Bool.false_ne_true] at hcode
  obtain ⟨hop₁, -, hcode⟩ := codeAt_cons.1 hcode
  obtain ⟨hop₂, -, rfl⟩ := codeAt_singleton.1 hcode
  refine h.const (by omega) hop₁ ?_
  refine h.localSet (by omega) hop₂ (h.ne_alias hd hg hv) fun s₁ hf₁ hh₁ _ hl₁ => ?_
  refine hu s₁ hf₁ hh₁ fun u hu hne => hl₁ _ fun heq => ?_
  exact hne (hw.slot_inj hd hu hslots (heq.trans hslot))

/-- All captured parameters move into new cells. -/
theorem boxParams (h : w.Here t₀ (opening g arr (w.program.record d)) Q k lim s) (hr : w.Room s)
    (hd : w.program.Nest outer d) (hg : CodeOf w.program w.module w.linked d g arr)
    (hvs : ∀ v ∈ vs, v ∈ (w.program.record d).params ++ (w.program.record d).locals)
    {done : List VarId} (hdone : ∀ v ∈ done, v ∈ (w.program.record d).slots)
    (hnd : (done ++ vs).Nodup)
    (hcode : CodeAt (w.module.names g) arr ((vs.map w.program.var).flatMap Emit.boxParam) a a')
    (hlim : a' ≤ lim) (hlo : lo ≤ s.heap) (hcells : w.Cells done s.thread.frame lo s.heap)
    (hu : ∀ s', w.Follows (opening g arr (w.program.record d)) s s' → w.Room s' →
      w.Cells (done ++ vs) s'.thread.frame lo s'.heap →
      Trace.Until w.linked w.maxDepth Q R n (s'.on a' S)) :
    Trace.Until w.linked w.maxDepth Q R n (s.on a S) := by
  induction vs generalizing s a done with
  | nil =>
    obtain rfl := codeAt_nil.1 hcode
    rw [List.append_nil] at hu
    exact hu s h.refl hr hcells
  | cons v vs ih =>
    obtain ⟨b₁, hfirst, hrest⟩ := codeAt_append.1 hcode
    have hle := Emit.codeAt_le hrest
    have hv := hvs v List.mem_cons_self
    have hnot : v ∉ done := fun hmem =>
      (List.nodup_append.1 hnd).2.2 v hmem v List.mem_cons_self rfl
    have happend : done ++ v :: vs = (done ++ [v]) ++ vs := by rw [List.append_assoc]; rfl
    refine h.boxParam hr hd hg hv hfirst (by omega) fun s₁ hf₁ ho₁ => ?_
    refine ih (h.follow hf₁) (ho₁.room hr) (fun u hu => hvs u (List.mem_cons_of_mem _ hu))
      (fun u hu => ?_) (happend ▸ hnd) hrest (Nat.le_trans hlo hf₁.heap_le)
      (ho₁.cells hr hcells hlo hnot hdone) fun s₂ hf₂ hr₂ hcells₂ => ?_
    · obtain hu | hu := List.mem_append.1 hu
      · exact hdone u hu
      · exact List.mem_singleton.1 hu ▸ Compiled.mem_slots_of_own hv
    · exact hu s₂ (hf₁.trans hf₂) hr₂ (happend ▸ hcells₂)

/-- All variables of the definition get their first values. -/
theorem initLocals (h : w.Here t₀ (opening g arr (w.program.record d)) Q k lim s) (hr : w.Room s)
    (hd : w.program.Nest outer d) (hg : CodeOf w.program w.module w.linked d g arr)
    {ds : List VarDef} (hds : List.Forall₂ (fun e v => e.binding = some v) ds vs)
    (hvs : ∀ v ∈ vs, v ∈ (w.program.record d).params ++ (w.program.record d).locals)
    {done : List VarId} (hdone : ∀ v ∈ done, v ∈ (w.program.record d).slots)
    (hnd : (done ++ vs).Nodup)
    (hcode : CodeAt (w.module.names g) arr (Emit.initCode w.program ds) a a')
    (hlim : a' ≤ lim) (hlo : lo ≤ s.heap) (hcells : w.Cells done s.thread.frame lo s.heap)
    (hu : ∀ s', w.Follows (opening g arr (w.program.record d)) s s' → w.Room s' →
      w.Cells (done ++ vs.filter fun v => (w.program.var v).refed) s'.thread.frame lo s'.heap →
      Trace.Until w.linked w.maxDepth Q R n (s'.on a' S)) :
    Trace.Until w.linked w.maxDepth Q R n (s.on a S) := by
  induction hds generalizing s a done with
  | nil =>
    obtain rfl := codeAt_nil.1 hcode
    rw [List.filter_nil, List.append_nil] at hu
    exact hu s h.refl hr hcells
  | @cons e v ds vs he hds ih =>
    obtain ⟨b₁, hfirst, hrest⟩ := codeAt_append.1 hcode
    simp only [he, Option.getD_some] at hfirst
    have hle := Emit.codeAt_le hrest
    have hv := hvs v List.mem_cons_self
    have hvs' : ∀ u ∈ vs, u ∈ (w.program.record d).params ++ (w.program.record d).locals :=
      fun u hu => hvs u (List.mem_cons_of_mem _ hu)
    have hnot : v ∉ done := fun hmem =>
      (List.nodup_append.1 hnd).2.2 v hmem v List.mem_cons_self rfl
    have happend : done ++ v :: vs = (done ++ [v]) ++ vs := by rw [List.append_assoc]; rfl
    cases href : (w.program.var v).refed with
    | true =>
      refine h.initCell hr hd hg hv href hfirst (by omega) fun s₁ hf₁ ho₁ => ?_
      refine ih (h.follow hf₁) (ho₁.room hr) hvs' (fun u hu => ?_) (happend ▸ hnd) hrest
        (Nat.le_trans hlo hf₁.heap_le) (ho₁.cells hr hcells hlo hnot hdone)
        fun s₂ hf₂ hr₂ hcells₂ => ?_
      · obtain hu | hu := List.mem_append.1 hu
        · exact hdone u hu
        · exact List.mem_singleton.1 hu ▸ Compiled.mem_slots_of_own hv
      · refine hu s₂ (hf₁.trans hf₂) hr₂ ?_
        rw [List.filter_cons, href, if_pos rfl]
        rwa [List.append_assoc] at hcells₂
    | false =>
      refine h.initPlain hd hg hv href hfirst (by omega) fun s₁ hf₁ hh₁ hothers => ?_
      have hcells₁ : w.Cells done s₁.thread.frame lo s₁.heap :=
        hcells.mono (Nat.le_of_eq hh₁.symm) fun u hu =>
          hothers u (hdone u hu) fun heq => hnot (heq ▸ hu)
      refine ih (h.follow hf₁) (hr.same hh₁) hvs' hdone ?_ hrest (hh₁ ▸ hlo) hcells₁
        fun s₂ hf₂ hr₂ hcells₂ => ?_
      · exact hnd.sublist (List.Sublist.append_left (List.sublist_cons_self v vs) done)
      · refine hu s₂ (hf₁.trans hf₂) hr₂ ?_
        rw [List.filter_cons, href, if_neg Bool.false_ne_true]
        exact hcells₂

/-- A call of a definition comes to its statements with a cell for each captured variable. -/
theorem prologue (h : w.Here t₀ (opening g arr (w.program.record d)) Q k lim s) (hr : w.Room s)
    (hd : w.program.Nest outer d) (hg : CodeOf w.program w.module w.linked d g arr) {b₁ b₂ : Nat}
    (hbox : CodeAt (w.module.names g) arr (Emit.boxCode w.program (w.program.record d)) 0 b₁)
    (hinit : CodeAt (w.module.names g) arr (Emit.initCode w.program d.vars) b₁ b₂) (hlim : b₂ ≤ lim)
    (hu : ∀ s', w.Follows (opening g arr (w.program.record d)) s s' → w.Room s' →
      w.Cells (w.program.boxed d) s'.thread.frame s.heap s'.heap →
      Trace.Until w.linked w.maxDepth Q R n (s'.on b₂ S)) :
    Trace.Until w.linked w.maxDepth Q R n (s.on 0 S) := by
  obtain ⟨p, o, hw⟩ := h.compiled
  obtain ⟨id, -, -, hf, -⟩ := hw.checked.record_ok hd
  have hle := Emit.codeAt_le hinit
  have hnd : ((w.program.record d).params ++ (w.program.record d).locals).Nodup :=
    (hw.nodup_slots hd).sublist
      (List.Sublist.append_right (List.sublist_append_left _ _) _)
  have hparams : ∀ v ∈ (w.program.record d).params.filter fun v => (w.program.var v).refed,
      v ∈ (w.program.record d).params ++ (w.program.record d).locals :=
    fun v hv => List.mem_append_left _ (List.mem_of_mem_filter hv)
  rw [Emit.boxCode, List.filter_map] at hbox
  refine h.boxParams hr hd hg hparams (fun v hv => absurd hv List.not_mem_nil) ?_ hbox (by omega)
    (Nat.le_refl _) ⟨fun _ => 0, fun v hv => absurd hv List.not_mem_nil,
      fun v hv => absurd hv List.not_mem_nil⟩ fun s₁ hf₁ hr₁ hcells₁ => ?_
  · exact (List.nodup_append.1 hnd).1.sublist List.filter_sublist
  · refine (h.follow hf₁).initLocals hr₁ hd hg (hf.locals.imp fun _ _ hl => hl.1)
      (fun v hv => List.mem_append_right _ hv)
      (fun v hv => Compiled.mem_slots_of_own (hparams v hv)) ?_ hinit hlim hf₁.heap_le hcells₁
      fun s₂ hf₂ hr₂ hcells₂ => ?_
    · exact hnd.sublist (List.Sublist.append_right List.filter_sublist _)
    · refine hu s₂ (hf₁.trans hf₂) hr₂ ?_
      rw [CheckedProgram.boxed, List.filter_append]
      exact hcells₂

end Here

end Setting

end ObjLang
