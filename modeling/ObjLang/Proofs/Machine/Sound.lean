import ObjLang.Proofs.Machine.Prologue
import ObjLang.Proofs.Machine.Stmt

/-!
# ObjLang.Proofs.Machine.Sound — runs of compiled programs

Calls of definitions are sound for any number of steps, and so are all states that a run of the entry
comes to.
-/

namespace ObjLang

open Check Check.Facts

namespace Setting

variable {w : Setting} {p : Program} {o : Options} {t₀ : State} {b : Body} {Q R : Trace → Prop}
  {k lim n i : Nat} {s s' u : Trace} {S : List Int32} {outer : List FunDef} {d : FunDef}
  {g : Code.Func} {arr : Array Op}

/-! ### The statements of a definition -/

/-- The statements of a definition. -/
def statements (w : Setting) (outer : List FunDef) (d : FunDef) (g : Code.Func)
    (arr : Array Op) : Body :=
  ⟨g.name, g, arr, d.body, w.program.level d :: outer.map w.program.level, d.passes,
    some (w.program.record d).ret, (w.program.record d).slots, w.program.prologue d⟩

theorem bodyOk_statements (hw : Compiled p w.program t₀ o w.module w.linked)
    (hd : w.program.Nest outer d) (hg : CodeOf w.program w.module w.linked d g arr) :
    w.BodyOk t₀ (w.statements outer d g arr) := by
  obtain ⟨id, hid, hfun, hf, hlevel⟩ := hw.checked.record_ok hd
  refine ⟨hg.mem, rfl, fun y v hv => ?_, fun v hv => (hw.var_owner hd hv).1,
    fun v hv => hw.slot_name hd hg hv, fun v hv u hu => hw.slot_inj hd hv hu,
    fun y rest hy hmem v hv => hw.slot_made hd hg hy hmem hv, fun l lv hl => ?_, ?_, .inr ?_⟩
  · have hlevels : (w.statements outer d g arr).levels
        = .ofFunction id d (w.program.record d) :: outer.map w.program.level := by
      rw [statements, hlevel]
    rw [hlevels] at hv
    exact Emit.own_mem hw.checked hf hv
  · obtain ⟨rfl, -⟩ := List.cons.inj hl
    have hl : (w.program.level d).id = id := by rw [hlevel]; rfl
    exact ⟨outer, d, hd, hid.trans (by rw [hl]), hg.name, rfl, rfl⟩
  · have hbody := hf.body
    rwa [← hlevel] at hbody
  · rw [statements, hg.name]
    exact .definition hd

theorem past_statements (hw : Compiled p w.program t₀ o w.module w.linked)
    (hd : w.program.Nest outer d) (hg : CodeOf w.program w.module w.linked d g arr) :
    w.Past (w.statements outer d g arr) := by
  intro outer' d' hd' heq
  have hname : g.name = w.program.emitted d' :=
    Code.Module.index_inj (Emit.mem_functionNames hg.mem) (hw.emitted_mem hd') heq
  obtain rfl := hw.checked.emitted_inj hw.words hd hd' (hg.name.symm.trans hname)
  exact ⟨rfl, rfl⟩

/-! ### Calls of definitions -/

/-- A definition without a prologue has no variables but its parameters. -/
theorem locals_eq_nil (hw : Compiled p w.program t₀ o w.module w.linked)
    (hd : w.program.Nest outer d) (h : w.program.prologue d = 0) :
    (w.program.record d).locals = [] := by
  obtain ⟨id, -, -, hf, -⟩ := hw.checked.record_ok hd
  obtain ⟨-, hinit⟩ := Nat.add_eq_zero_iff.1 h
  refine List.eq_nil_iff_forall_not_mem.2 fun v hv => ?_
  obtain ⟨e, he, -⟩ := exists_of_forall₂ hf.locals.flip hv
  have hnil := List.flatMap_eq_nil_iff.1 (List.length_eq_zero_iff.1 hinit) e he
  unfold Emit.initLocal at hnil
  split at hnil <;> cases hnil

/-- A definition without a prologue has no captured variables. -/
theorem boxed_eq_nil (hw : Compiled p w.program t₀ o w.module w.linked)
    (hd : w.program.Nest outer d) (h : w.program.prologue d = 0) : w.program.boxed d = [] := by
  obtain ⟨hbox, -⟩ := Nat.add_eq_zero_iff.1 h
  rw [CheckedProgram.boxed, locals_eq_nil hw hd h, List.append_nil]
  refine List.filter_eq_nil_iff.2 fun v hv href => ?_
  have hmem : w.program.var v ∈ ((w.program.record d).params.map w.program.var).filter (·.refed) :=
    List.mem_filter.2 ⟨List.mem_map_of_mem hv, href⟩
  have hnil := List.flatMap_eq_nil_iff.1 (List.length_eq_zero_iff.1 hbox) _ hmem
  cases hnil

/-- A call of a definition above the caller that waits for it. -/
theorem Waits.body (hs : w.Waits s) (hd : w.program.Nest outer d) {F : Frame} {c : Trace.Call}
    (hruns : w.Runs (w.program.emitted d) c F) (hc : c.start = s.heap)
    (hlinks : ∀ q, (w.program.record d).parent = some q → ∀ c, s.calls.head? = some c →
      w.Links d F c s.thread.frame q) {hi : Nat} (hhi : s.heap ≤ hi)
    (hcells : w.program.prologue d ≤ F.position → w.Cells (w.program.boxed d) F s.heap hi) :
    w.Stacked hi (F :: s.thread.frames) (c :: s.calls) := by
  have hst := hs.stacked
  obtain ⟨c', as, hcalls⟩ := hst.exists_call
  rw [hcalls] at hst hlinks ⊢
  exact .body hd hruns (fun q hq => hlinks q hq c' rfl) (hs.waiting c' (by rw [hcalls]; rfl))
    (hc ▸ hcells) (hc ▸ hhi) (hc ▸ hst)

section

variable (hw : Compiled p w.program t₀ o w.module w.linked) (hd : w.program.Nest outer d)
  (hg : CodeOf w.program w.module w.linked d g arr) (hs : w.Waits s) {F : Frame}
  (hcode : F.code = arr)
  (hlinks : ∀ q, (w.program.record d).parent = some q → ∀ c, s.calls.head? = some c →
    w.Links d F c s.thread.frame q)
  (hadmits : ∀ lim, w.Admits Q (s.thread.callers.length + 1) lim)

include hw hd hg hs hcode hlinks hadmits

/-- A call of a definition at its start. -/
theorem here_opening (hpos : 0 < w.program.prologue d) :
    w.Here t₀ (opening g arr (w.program.record d)) Q (s.thread.callers.length + 1)
      (w.program.prologue d) (s.enter (w.module.index g.name) F) := by
  refine ⟨⟨p, o, hw⟩, bodyOk_opening hw hd hg, .inr (before_opening hw hd hg hpos), hadmits _,
    ⟨hcode, ⟨_, _, rfl, rfl⟩, ?_, hs.heap, hs.memory⟩, rfl⟩
  refine hs.body hd ⟨hg.name ▸ rfl, ?_⟩ rfl (fun q hq c hc => ?_) (Nat.le_refl _) fun hle => ?_
  · exact hg.name ▸ ⟨_, hg.function, hcode⟩
  · exact (hlinks q hq c hc).congr fun _ _ => rfl
  · exact absurd hle (Nat.not_le.2 hpos)

/-- A call of a definition that has come to its statements. -/
theorem here_statements {u : Trace}
    (hf : w.Follows (opening g arr (w.program.record d)) (s.enter (w.module.index g.name) F) u)
    (hcells : w.Cells (w.program.boxed d) u.thread.frame s.heap u.heap) (lim : Nat) :
    w.Here t₀ (w.statements outer d g arr) Q (s.thread.callers.length + 1) lim u := by
  have hcodeu : u.thread.frame.code = arr := hf.code.trans hcode
  have hcallers : u.thread.callers = s.thread.frames := hf.callers
  refine ⟨⟨p, o, hw⟩, bodyOk_statements hw hd hg, .inl (past_statements hw hd hg), hadmits _,
    ⟨hcodeu, ⟨_, _, hf.calls, rfl⟩, ?_, hf.heap, hf.memory.trans hs.memory⟩, ?_⟩
  · rw [hf.calls]
    refine (congrArg (fun l => w.Stacked u.heap (_ :: l) _) hcallers).mpr
      (hs.body hd ⟨hg.name ▸ rfl, ?_⟩ rfl (fun q hq c hc => ?_) hf.heap_le fun _ =>
        hcells.mono (Nat.le_refl _) fun _ _ => rfl)
    · exact hg.name ▸ ⟨_, hg.function, hcodeu⟩
    · refine (hlinks q hq c hc).congr fun e he => ?_
      exact hf.slots e.inner (List.mem_map_of_mem he) (hw.capture_var hd he).2
  · rw [hcallers]
    rfl

/-- A call of a definition is sound, and goes on in the caller. -/
theorem definition (hserves : ∀ m < n, w.Serves m) {depth : Nat} {args : List Int32}
    (hF : Thread.newFrame w.linked w.maxDepth (w.module.index g.name) args depth = .ok F)
    (hu : ∀ s' v, Back s s' → w.Room s' → Trace.Until w.linked w.maxDepth Q R n (s'.push v)) :
    Trace.Until w.linked w.maxDepth Q R n (s.enter (w.module.index g.name) F) := by
  obtain ⟨b, m, b', hbox, hinit, hblock, hop, hsize⟩ := hg.layout
  have hrefl : w.Follows (opening g arr (w.program.record d)) (s.enter (w.module.index g.name) F)
      (s.enter (w.module.index g.name) F) :=
    ⟨rfl, rfl, rfl, fun _ _ _ => rfl, Nat.le_refl _, hs.heap, rfl⟩
  have hrest : ∀ u, w.Follows (opening g arr (w.program.record d))
      (s.enter (w.module.index g.name) F) u → w.Room u →
      w.Cells (w.program.boxed d) u.thread.frame s.heap u.heap →
      Trace.Until w.linked w.maxDepth Q R n (u.on (w.program.prologue d) []) := by
    intro u hf hr hcells
    have h := here_statements hw hd hg hs hcode hlinks hadmits hf hcells (arr.size + 1)
    have habove : Above s u := (above_enter s (w.module.index g.name) F).follow hf
    refine h.block hserves (past_statements hw hd hg) hr (fun _ => .here) hblock (Nat.le_refl _)
      (by omega) (fun u' hf' hr' => ?_) fun _ u' v i hf' hr' hi hret => ?_
    · have h' := h.follow hf'
      refine h'.const (by omega) hop (h'.leave (by omega) (.inr ?_) (habove.follow hf')
        fun s' hb hh => hu s' _ hb (hr'.same hh))
      exact Array.getElem?_eq_none (Nat.le_of_eq hsize)
    · exact (h.follow hf').leave hi (.inl hret) (habove.follow hf') fun s' hb hh =>
        hu s' v hb (hr'.same hh)
  rw [← on_enter hF]
  obtain hzero | hpos := Nat.eq_zero_or_pos (w.program.prologue d)
  · have hall := hrest _ hrefl hs.room (boxed_eq_nil hw hd hzero ▸
      ⟨fun _ => 0, fun v hv => absurd hv List.not_mem_nil, fun v hv => absurd hv List.not_mem_nil⟩)
    rwa [hzero] at hall
  · have h := here_opening hw hd hg hs hcode hlinks hadmits hpos
    exact h.prologue hs.room hd hg hbox hinit (Nat.le_refl _) hrest

end

theorem serves (hw : Compiled p w.program t₀ o w.module w.linked) (n : Nat) : w.Serves n := by
  induction n using Nat.strongRecOn with
  | ind n ih =>
    intro Q R s outer d F args depth hd hF hs hlinks hadmits hu
    obtain ⟨-, g, arr, hg, -, hfun⟩ := hw.definition_function hd
    obtain ⟨f, hf, -, hcode, -⟩ := Thread.newFrame_ok hF
    cases hfun.symm.trans hf
    rw [← hg.name] at hF ⊢
    exact definition hw hd hg hs hcode hlinks hadmits ih hF hu

/-! ### Runs -/

/-- The run ends behind the entry. -/
theorem Here.finish (h : w.Here t₀ b Q 0 lim s) (hlim : i < lim) (hop : b.code[i]? = none)
    {v : Int32} : Trace.Until w.linked w.maxDepth Q R n (s.on i (v :: S)) := by
  refine .step (h.admits _ (h.sound hlim fun op hop' => ?_) (Nat.zero_le _) fun _ => hlim)
    fun t ht => ?_
  · cases hop.symm.trans hop'
  · rw [Trace.on_thread, Thread.step_end (by rw [h.steady.code, hop])] at ht
    obtain ⟨G, Fs, hcallers, -⟩ := Thread.leave_next ht
    have hnil := h.depth
    rw [hcallers] at hnil
    cases hnil

section

variable {g : Code.Func} {store : Store} {F : Frame}

/-- The statements of the module. -/
def main (w : Setting) (g : Code.Func) (arr : Array Op) : Body :=
  { helper g arr with source := w.program.program.body }

theorem bodyOk_main (hw : Compiled p w.program t₀ o w.module w.linked)
    (hg : g ∈ w.module.functions) (hname : g.name = Emit.entryName) :
    w.BodyOk t₀ (w.main g arr) := by
  have hb : w.BodyOk t₀ (helper g arr) := bodyOk_helper hg
  obtain ⟨hmem, hn, hown, hglobal, hslot, hinj, hmade, -, -, -⟩ := hb
  refine ⟨hmem, hn, hown, hglobal, hslot, hinj, hmade, ?_, hw.checked.body, .inr ?_⟩
  · rintro l lv hl
    cases hl
  · exact (congrArg (fun x => w.program.Statements x _ _) hname).mpr .entry

theorem past_main (hw : Compiled p w.program t₀ o w.module w.linked)
    (hg : g ∈ w.module.functions) (hname : g.name = Emit.entryName) : w.Past (w.main g arr) := by
  have hpast : w.Past (helper g arr) := past_helper hw hg fun _ _ hd =>
    hname ▸ hw.checked.emitted_ne_made hw.words hd
      (by decide : Emit.entryName.toList = '#' :: ['e', 'n', 't', 'r', 'y'])
  exact hpast

/-- A call of the entry from outside. -/
theorem here_entry (hw : Compiled p w.program t₀ o w.module w.linked)
    (hg : g ∈ w.module.functions) (hname : g.name = Emit.entryName)
    {f : LinkedFunction} (hf : w.linked.function? (w.module.index g.name) = some f)
    (hF : Thread.newFrame w.linked w.maxDepth (w.module.index g.name) [] 0 = .ok F)
    {x : Int32} (hheap : store.globals[0]? = some x) (hmem : store.memory.size = w.size)
    (hadmits : w.Admits Q 0 lim) :
    w.Here t₀ (w.main g f.code) Q 0 lim
      (Trace.start ⟨store, F, []⟩ (w.module.index g.name)) := by
  obtain ⟨f', hf', -, hcode, -⟩ := Thread.newFrame_ok hF
  cases hf.symm.trans hf'
  refine ⟨⟨p, o, hw⟩, bodyOk_main hw hg hname, .inl (past_main hw hg hname), hadmits,
    ⟨hcode, ⟨_, _, rfl, rfl⟩, ?_, ?_, hmem⟩, rfl⟩
  · exact .entry ⟨hname ▸ rfl, f, hname ▸ hf, hcode⟩ (Nat.le_refl _)
  · have hword : Thread.heapWord ⟨store, F, []⟩ = x := by
      rw [Thread.heapWord, hheap]
      rfl
    rw [Trace.start, hword, ofNat_address]
    exact hheap

/-- All states that a run of the entry comes to are sound. -/
theorem sound (hw : Compiled p w.program t₀ o w.module w.linked)
    (hF : Thread.newFrame w.linked w.maxDepth w.linked.entry [] 0 = .ok F)
    {x : Int32} (hheap : store.globals[0]? = some x) (hmem : store.memory.size = w.size)
    (hroom : w.Room (Trace.start ⟨store, F, []⟩ w.linked.entry))
    (hs : Trace.Reaches w.linked w.maxDepth (Trace.start ⟨store, F, []⟩ w.linked.entry) s) :
    w.Sound s := by
  obtain ⟨g, hg, arr, hname, -, -, -, hfun, m, b, hblock, hend⟩ := hw.entry_function
  have hentry : w.linked.entry = w.module.index g.name := by rw [hw.linked.entry, hname]
  rw [hentry] at hfun hF hroom hs
  refine Trace.Until.reaches (fun n => ?_) hs
  have h : w.Here t₀ (w.main g arr) w.Sound 0 (arr.size + 1) _ :=
    here_entry hw hg hname hfun hF hheap hmem fun s hs _ _ => hs
  obtain ⟨hop, hmem, hsize⟩ := codeAt_singleton.1 hend
  have hout : arr[b + 1]? = none := Array.getElem?_eq_none (Nat.le_of_eq hsize)
  have hstart : (Trace.start ⟨store, F, []⟩ (w.module.index g.name)).on 0 []
      = Trace.start ⟨store, F, []⟩ (w.module.index g.name) := by
    simp only [Trace.on, Trace.start, Thread.on, Thread.heapWord, Thread.newFrame_start hF]
  rw [← hstart]
  refine h.block (fun m _ => serves hw m) (past_main hw hg hname) hroom (fun _ => .here) hblock
    (Nat.zero_le _) (by omega) (fun s' hf hr => ?_) fun hne => absurd rfl hne
  have h' := h.follow hf
  cases hends : Emit.endsInValue w.program.program.body with
  | true =>
    rw [hends, if_pos rfl] at hop
    exact h'.localGet (by omega) hop fun v _ => h'.finish (by omega) hout
  | false =>
    rw [hends, if_neg Bool.false_ne_true] at hop
    exact h'.const (by omega) hop (h'.finish (by omega) hout)

end

end Setting

end ObjLang
