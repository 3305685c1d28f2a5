import ObjLang.Proofs.Machine.Typed.Opening

/-!
# ObjLang.Proofs.Machine.Typed.Run — runs with words of the right types

Calls of definitions give words of the types that they return for any number of steps, and every
state that a run of the entry comes to is typed.
-/

namespace ObjLang

open Check Check.Facts

/-- The locals behind the arguments of a new call are zero. -/
theorem Thread.newFrame_zero {p : LinkedModule} {maxDepth k depth : Nat} {args : List Int32}
    {F : Frame} (h : newFrame p maxDepth k args depth = .ok F) {f : LinkedFunction}
    (hf : p.function? k = some f) {j : Nat} (hargs : args.length ≤ j) (hj : j < f.slots) :
    F.locals[j]? = some 0 := by
  simp only [newFrame, hf] at h
  split at h
  · cases h
  split at h
  · cases h
  cases h
  rw [List.getElem?_toArray, List.getElem?_take_of_lt hj, List.getElem?_append_right hargs,
    List.getElem?_replicate_of_lt (by omega)]

namespace Compiled

variable {p : Program} {c : CheckedProgram} {t₀ : State} {o : Options} {m : Code.Module}
  {L : LinkedModule} {outer : List FunDef} {d : FunDef} {g : Code.Func} {arr : Array Op} {v : VarId}

/-- Parameters have the first slots. -/
theorem slot_param (h : Compiled p c t₀ o m L) (hd : c.Nest outer d) {j : Nat}
    (hv : (c.record d).params[j]? = some v) : c.slot v = j := by
  have hlt := (List.getElem?_eq_some_iff.1 hv).1
  have hmem : v ∈ (c.record d).slots :=
    mem_slots_of_own (List.mem_append_left _ (List.mem_of_getElem? hv))
  have hget : (c.record d).slots[j]? = some v := by
    rw [Function.slots, List.append_assoc, List.getElem?_append_left hlt, hv]
  obtain ⟨hlt', hget⟩ := List.getElem?_eq_some_iff.1 hget
  rw [h.slot_eq_idxOf hd hmem]
  conv_lhs => rw [← hget]
  exact (h.nodup_slots hd).idxOf_getElem _ hlt'

/-- A parameter has the type that is written for it. -/
theorem typeOf_param (h : Compiled p c t₀ o m L) (hd : c.Nest outer d) {j : Nat} {t : Ty}
    (hv : (c.record d).params[j]? = some v) (ht : (c.record d).paramTypes[j]? = some t) :
    c.typeOf v = t := by
  obtain ⟨id, -, -, hf, -⟩ := h.checked.record_ok hd
  have hzip : ((c.record d).params.zip (c.record d).paramTypes)[j]? = some (v, t) :=
    List.getElem?_zip_eq_some.2 ⟨hv, ht⟩
  obtain ⟨q, -, r, hr, -, hty, -⟩ :=
    exists_of_forall₂ hf.params.flip (List.mem_of_getElem? hzip)
  rw [h.checked.typeOf_eq hr, hty]
  rfl

/-- The slots of variables are slots of the function. -/
theorem slot_lt (h : Compiled p c t₀ o m L) (hd : c.Nest outer d) (hg : CodeOf c m L d g arr)
    (hv : v ∈ (c.record d).slots) : c.slot v < (g.params ++ g.locals).length := by
  rw [← h.slot_name hd hg hv]
  exact Names.slot_lt (name_mem hg hv)

end Compiled

namespace Setting

variable {w : Setting} {p : Program} {o : Options} {s₀ : Trace} {t₀ : State} {b : Body}
  {Q R : Trace → Prop} {k lim n m i a a' : Nat} {H H' : Ledger} {s s' : Trace} {S : List Int32}
  {v : VarId} {x : Int32} {outer : List FunDef} {d : FunDef} {g : Code.Func} {arr : Array Op}
  {bs : List Block} {xs cs : List Int32} {F : Frame} {depth : Nat}

/-! ### New calls of definitions -/

/-- The arguments of a new call are its first locals. -/
theorem args_local (hg : CodeOf w.program w.module w.linked d g arr)
    (hF : Thread.newFrame w.linked w.maxDepth (w.module.index g.name) (xs ++ cs) depth = .ok F)
    {j : Nat} (hj : (xs ++ cs)[j]? = some x) : F.locals[j]? = some x := by
  obtain ⟨f, hf, hlen, -, -, -, hlocals⟩ := Thread.newFrame_ok hF
  cases hg.function.symm.trans hf
  have hlt := (List.getElem?_eq_some_iff.1 hj).1
  have hslots : (xs ++ cs).length ≤ (g.params ++ g.locals).length := by
    rw [hlen, List.length_append]
    exact Nat.le_add_right _ _
  rw [hlocals j (Nat.lt_of_lt_of_le hlt hslots) hlt, hj]

section

variable (hw : Compiled p w.program t₀ o w.module w.linked) (hd : w.program.Nest outer d)
  (hg : CodeOf w.program w.module w.linked d g arr)
  (hF : Thread.newFrame w.linked w.maxDepth (w.module.index g.name) (xs ++ cs) depth = .ok F)
  (hxs : List.Forall₂ (w.program.Suits bs) xs (w.program.record d).paramTypes)
  (hcs : List.Forall₂ (fun x e => w.CellOf bs x e.inner) cs (w.program.record d).captures)

include hw hd hg hF hxs

/-- The parameters of a new call hold its arguments. -/
theorem entry_param (hv : v ∈ (w.program.record d).params) :
    ∃ x, F.locals[w.program.slot v]? = some x ∧ w.program.Suits bs x (w.program.typeOf v) := by
  obtain ⟨id, -, -, hf, -⟩ := hw.checked.record_ok hd
  obtain ⟨j, hj, hget⟩ := List.getElem_of_mem hv
  have hv' : (w.program.record d).params[j]? = some v := List.getElem?_eq_some_iff.2 ⟨hj, hget⟩
  have hjt : j < (w.program.record d).paramTypes.length := hf.params_length ▸ hj
  have hjx : j < xs.length := hxs.length_eq ▸ hjt
  have hx : (xs ++ cs)[j]? = some xs[j] := by
    rw [List.getElem?_append_left hjx, List.getElem?_eq_getElem hjx]
  refine ⟨xs[j], ?_, ?_⟩
  · rw [hw.slot_param hd hv']
    exact args_local hg hF hx
  · rw [hw.typeOf_param hd hv' (List.getElem?_eq_getElem hjt)]
    exact (List.forall₂_iff_get.1 hxs).2 j hjx hjt

include hcs

/-- The aliases of a new call hold the cells that it was given. -/
theorem entry_alias (hv : v ∈ (w.program.record d).captures.aliases) : w.VarOk bs F v := by
  obtain ⟨id, -, -, hf, -⟩ := hw.checked.record_ok hd
  obtain ⟨e, he, rfl⟩ := List.mem_map.1 hv
  obtain ⟨j, hj, rfl⟩ := List.getElem_of_mem he
  have hjc : j < cs.length := hcs.length_eq ▸ hj
  have hx : (xs ++ cs)[(w.program.record d).params.length + j]? = some cs[j] := by
    rw [hf.params_length, ← hxs.length_eq, List.getElem?_append_right (Nat.le_add_right _ _),
      Nat.add_sub_cancel_left, List.getElem?_eq_getElem hjc]
  refine ⟨cs[j], ?_, ?_⟩
  · rw [hw.slot_capture hd (List.getElem?_eq_getElem hj)]
    exact args_local hg hF hx
  · rw [if_pos (hw.capture_var hd he).2]
    exact (List.forall₂_iff_get.1 hcs).2 j hjc hj

/-- Every slot of a variable of a new call holds a word that suits the type of the variable, or the
address of a cell. -/
theorem entry_safe (hv : v ∈ (w.program.record d).slots) (hH : bs = H.blocks) :
    w.VarSafe s₀ H F v := by
  subst hH
  obtain hv' | hv' := List.mem_append.1 hv
  · obtain hparam | halias := List.mem_append.1 hv'
    · obtain ⟨x, hx, hsuits⟩ := entry_param hw hd hg hF hxs hparam
      exact .inr ⟨x, hx, .inl hsuits⟩
    · exact .inl (entry_alias hw hd hg hF hxs hcs halias)
  · obtain ⟨id, -, -, hf, -⟩ := hw.checked.record_ok hd
    obtain ⟨f, hfun, hlen, -, -, -, -⟩ := Thread.newFrame_ok hF
    cases hg.function.symm.trans hfun
    have hslot : (xs ++ cs).length ≤ w.program.slot v := by
      rw [hw.slot_eq_idxOf hd hv, Function.slots, List.idxOf_append_of_notMem, List.length_append,
        List.length_append, hxs.length_eq, hcs.length_eq, ← hf.params_length, Captures.aliases,
        List.length_map]
      · exact Nat.le_add_right _ _
      · intro hmem
        have hnd := hw.nodup_slots hd
        rw [Function.slots] at hnd
        exact (List.nodup_append.1 hnd).2.2 v hmem v hv' rfl
    exact .inr ⟨0, Thread.newFrame_zero hF hg.function hslot (hw.slot_lt hd hg hv),
      .inl (w.program.suits_zero _ _)⟩

end

section

variable (hsolid : w.Solid s₀ t₀) (hw : Compiled p w.program t₀ o w.module w.linked)
  (hd : w.program.Nest outer d) (hg : CodeOf w.program w.module w.linked d g arr)

include hsolid hw hd hg

/-- A call of a definition has come to its statements. -/
theorem holds_statements {u : Trace} (hcode : u.thread.frame.code = arr)
    (hcalls : ∃ c as, u.calls = c :: as ∧ c.function = w.module.index g.name ∧
      w.CallersOk s₀ H u.thread.callers as) (hheap : w.HeapOk s₀ H u.thread.store u.heap)
    (hvars : ∀ v ∈ (w.program.record d).slots, w.VarOk H.blocks u.thread.frame v)
    (htakes : w.Takes s₀ Q u.thread.callers.length lim) :
    w.Holds s₀ t₀ (w.statements outer d g arr) Q u.thread.callers.length lim H u where
  solid := hsolid
  body := bodyOk_statements hw hd hg
  place := .inl (past_statements hw hd hg)
  takes := htakes
  code := hcode
  calls := hcalls
  heap := hheap
  safe := fun v hv => .inl (hvars v hv)
  vars := fun _ => hvars
  depth := rfl

/-- A call of a definition gives a word of the type that it returns. -/
theorem supplies_step (hsup : ∀ m < n, w.Supplies s₀ m)
    (hF : Thread.newFrame w.linked w.maxDepth (w.module.index g.name) (xs ++ cs) depth = .ok F)
    (hheap : w.HeapOk s₀ H s.thread.store s.heap)
    (hcallers : w.CallersOk s₀ H s.thread.frames s.calls)
    (hxs : List.Forall₂ (w.program.Suits H.blocks) xs (w.program.record d).paramTypes)
    (hcs : List.Forall₂ (fun x e => w.CellOf H.blocks x e.inner) cs (w.program.record d).captures)
    (htakes : ∀ lim, w.Takes s₀ Q (s.thread.callers.length + 1) lim)
    (hu : ∀ H' u v, H.Sub H' → s.heap ≤ u.heap → w.HeapOk s₀ H' u.thread.store u.heap →
      w.program.Suits H'.blocks v (w.program.record d).ret →
      w.Goes s₀ Q R n H' ((s.resume u).push v)) :
    w.Goes s₀ Q R n H (s.enter (w.module.index g.name) F) := by
  obtain ⟨f, hf, -, hcode, -, -, -⟩ := Thread.newFrame_ok hF
  cases hg.function.symm.trans hf
  obtain ⟨b, m, b', hbox, hinit, hblock, hop, hsize⟩ := hg.layout
  obtain ⟨id, -, -, hfok, hlevel⟩ := hw.checked.record_ok hd
  have hout : w.Outside (w.statements outer d g arr) := outside_preamble hw hd hg
  have hok : (t₀.facts w.program.classes).BlockOk (w.program.level d :: outer.map w.program.level)
      d.passes (some (w.program.record d).ret) d.body := by
    have hbody := hfok.body
    rwa [← hlevel] at hbody
  have hatop := atop_enter s (w.module.index g.name) F
  -- What follows once all variables are in place.
  have hrest : ∀ (H' : Ledger) (u : Trace), H.Sub H' →
      u.calls = (s.enter (w.module.index g.name) F).calls →
      u.thread.callers = (s.enter (w.module.index g.name) F).thread.callers →
      u.thread.frame.code = F.code → s.heap ≤ u.heap → w.HeapOk s₀ H' u.thread.store u.heap →
      (∀ v ∈ (w.program.record d).slots, w.VarOk H'.blocks u.thread.frame v) →
      w.Goes s₀ Q R n H' (u.on (w.program.prologue d) []) := by
    intro H' u hsub hcalls hcallers' hcode' hle hheap' hvars
    have hlength : u.thread.callers.length = s.thread.callers.length + 1 := by
      rw [hcallers']
      rfl
    have hbelow : w.Takes s₀ Q u.thread.callers.length (arr.size + 1) := hlength ▸ htakes _
    have h := holds_statements hsolid hw hd hg (hcode'.trans hcode)
      ⟨_, _, hcalls, rfl, hcallers' ▸ hcallers.mono hsub⟩ hheap' hvars hbelow
    have hatop' : Atop s u := ⟨hcallers'.trans hatop.callers, by rw [hcalls]; exact hatop.calls⟩
    refine h.block hsup (past_statements hw hd hg) (fun _ => .here) hok hblock
      (Nat.le_refl _) (by omega) (fun H₁ u₁ hm₁ => ?_) fun t ht H₁ u₁ v i hm₁ hv hi hret => ?_
    · have h₁ := h.follow hm₁
      refine h₁.const (by omega) hop (h₁.leave (by omega) (.inr ?_) (hatop'.follow hm₁)
        (h₁.not_allocates hout) fun _ _ => ?_)
      · exact Array.getElem?_eq_none (Nat.le_of_eq hsize)
      · exact hu H₁ u₁ 0 (hsub.trans hm₁.sub) (Nat.le_trans hle hm₁.heap_le) hm₁.heap
          (w.program.suits_zero _ _)
    · obtain rfl : (w.program.record d).ret = t := Option.some.inj ht
      exact (h.follow hm₁).leave hi (.inl hret) (hatop'.follow hm₁)
        ((h.follow hm₁).not_allocates hout) fun _ _ =>
          hu H₁ u₁ v (hsub.trans hm₁.sub) (Nat.le_trans hle hm₁.heap_le) hm₁.heap hv
  rw [← on_enter hF]
  obtain hzero | hpos := Nat.eq_zero_or_pos (w.program.prologue d)
  · have hall := hrest H (s.enter (w.module.index g.name) F) (.refl H) rfl rfl rfl (Nat.le_refl _)
      hheap fun v hv => ?_
    · rwa [hzero] at hall
    -- Without a prologue no variable is declared in the definition, and no parameter is captured.
    · obtain ⟨hboxnil, hinitnil⟩ := Nat.add_eq_zero_iff.1 hzero
      obtain hv' | hv' := List.mem_append.1 hv
      · obtain hparam | halias := List.mem_append.1 hv'
        · obtain ⟨x, hx, hsuits⟩ := entry_param hw hd hg hF hxs hparam
          have hown := List.mem_append_left (w.program.record d).locals hparam
          have href : (w.program.var v).refed = false := by
            refine Bool.eq_false_iff.2 fun href => ?_
            have hmem : v ∈ w.program.boxed d := List.mem_filter.2 ⟨hown, href⟩
            rw [boxed_eq_nil hw hd hzero] at hmem
            cases hmem
          refine ⟨x, hx, ?_⟩
          rw [own_indirect hw hd hown, href, if_neg Bool.false_ne_true]
          exact hsuits
        · exact entry_alias hw hd hg hF hxs hcs halias
      · obtain ⟨e, he, -⟩ := exists_of_forall₂ hfok.locals.flip hv'
        have hnil := List.flatMap_eq_nil_iff.1 (List.length_eq_zero_iff.1 hinitnil) e he
        unfold Emit.initLocal at hnil
        split at hnil <;> cases hnil
  · have h : w.Holds s₀ t₀ (w.preamble d g arr) Q (s.thread.callers.length + 1)
        (w.program.prologue d) H (s.enter (w.module.index g.name) F) :=
      ⟨hsolid, bodyOk_preamble hw hd hg, .inr (ahead_preamble hw hd hg), htakes _, hcode,
        ⟨_, _, rfl, rfl, hcallers⟩, hheap,
        fun v hv => entry_safe hw hd hg hF hxs hcs hv rfl,
        fun hp => absurd hp (not_past_preamble hd hg hpos), rfl⟩
    refine Holds.prologue hd hg h hpos hbox hinit (Nat.le_refl _)
      (fun v hv => entry_param hw hd hg hF hxs hv)
      (fun v hv => entry_alias hw hd hg hF hxs hcs hv) fun H' u hm hvars => ?_
    exact hrest H' u hm.sub hm.calls hm.callers hm.code hm.heap_le hm.heap hvars

end

theorem supplies (hsolid : w.Solid s₀ t₀) (n : Nat) : w.Supplies s₀ n := by
  obtain ⟨p, o, hw⟩ := hsolid.compiled
  induction n using Nat.strongRecOn with
  | ind n ih =>
    intro Q R H s outer d F xs cs depth hd hF hheap hcallers hxs hcs htakes hu
    obtain ⟨-, g, arr, hg, -⟩ := hw.definition_function hd
    rw [← hg.name] at hF ⊢
    exact supplies_step hsolid hw hd hg ih hF hheap hcallers hxs hcs htakes hu

/-! ### Runs -/

/-- The run ends behind the entry. -/
theorem Holds.finish (h : w.Holds s₀ t₀ b Q 0 lim H s) (hout : w.Outside b) (hlim : i < lim)
    (hop : b.code[i]? = none) {v : Int32} : w.Goes s₀ Q R n H (s.on i (v :: S)) := by
  have hstep : (s.thread.on i (v :: S)).step w.linked w.maxDepth = .done s.thread.store v :=
    Thread.step_finish (h.code ▸ hop) (List.length_eq_zero_iff.1 h.depth)
  refine h.advance hlim (fun _ st e he => ?_) (h.not_allocates hout) fun _ m hm t ht => ?_
  · rw [hstep] at he
    cases he
  · rw [hstep] at ht
    cases ht

/-- A variable of the module starts with the word for a literal of its type. -/
theorem start_global (hw : Compiled p w.program t₀ o w.module w.linked) {d : VarDef}
    (hd : d ∈ w.program.program.vars) (hv : d.binding = some v) :
    w.linked.globals[w.globalIndex d.var.name.name]? = some d.init.word ∧
      d.init.Fits (w.program.typeOf v) := by
  obtain ⟨u, r, t, hbinding, -, hr, -, hty, -, -, -, hfits⟩ := hw.checked.globals d hd
  obtain rfl : v = u := Option.some.inj (hv.symm.trans hbinding)
  refine ⟨?_, ?_⟩
  · have hmem : d.var.name.name ∈ w.module.globals.map (·.name) := by
      rw [hw.generated.globals, List.map_cons, List.map_map]
      exact List.mem_cons_of_mem _ (List.mem_map_of_mem (f := fun d => d.var.name.name) hd)
    have hne : w.globalIndex d.var.name.name ≠ 0 := hw.global_ne hd Emit.allocFunction
    obtain ⟨i, hi, hname⟩ := lastIndex?_of_mem hmem
    have hindex : w.globalIndex d.var.name.name = i := by
      rw [globalIndex, hi, Option.getD_some]
    rw [hindex] at hne ⊢
    obtain ⟨j, rfl⟩ := Nat.exists_eq_succ_of_ne_zero hne
    rw [hw.generated.globals, List.map_cons, List.getElem?_cons_succ, List.map_map,
      List.getElem?_map, Option.map_eq_some_iff] at hname
    obtain ⟨e, he, heq⟩ := hname
    obtain rfl := List.inj_on_of_nodup_map hw.checked.nodup_vars (List.mem_of_getElem? he) hd heq
    rw [hw.linked.globals, List.getElem?_toArray, List.getElem?_cons_succ, List.getElem?_map, he]
    rfl
  · rw [hw.checked.typeOf_eq hr, hty]
    exact initializes_iff.1 hfits

/-- Every state that a run of the entry comes to is typed. -/
theorem typed (hsolid : w.Solid s₀ t₀) {store : Store}
    (hs₀ : s₀ = Trace.start ⟨store, F, []⟩ w.linked.entry)
    (hF : Thread.newFrame w.linked w.maxDepth w.linked.entry [] 0 = .ok F)
    (hheap : w.HeapOk s₀ ⟨[], []⟩ store s₀.heap)
    (hs : Trace.Reaches w.linked w.maxDepth s₀ s) : w.Typed s₀ s := by
  obtain ⟨p, o, hw⟩ := hsolid.compiled
  obtain ⟨g, hg, arr, hname, -, -, -, hfun, m, b, hblock, hend⟩ := hw.entry_function
  have hentry : w.linked.entry = w.module.index g.name := by rw [hw.linked.entry, hname]
  obtain ⟨f, hf, -, hcode, -⟩ := Thread.newFrame_ok hF
  cases hfun.symm.trans hf
  rw [hentry] at hs₀
  refine Trace.Until.reaches (fun n => ?_) hs
  have hthread : s₀.thread = ⟨store, F, []⟩ := by rw [hs₀, Trace.start]
  have hcalls : s₀.calls = [⟨w.module.index g.name, 0, s₀.heap⟩] := by
    rw [hs₀]
    rfl
  have h : w.Holds s₀ t₀ (w.main g arr) (w.Typed s₀) 0 (arr.size + 1) ⟨[], []⟩ s₀ := by
    refine ⟨hsolid, bodyOk_main hw hg hname, .inl (past_main hw hg hname),
      fun s hs _ _ => hs, hthread ▸ hcode, ⟨_, _, hcalls, rfl, hthread ▸ .nil⟩, hthread ▸ hheap,
      fun v hv => absurd hv List.not_mem_nil, fun _ v hv => absurd hv List.not_mem_nil,
      hthread ▸ rfl⟩
  have hout : w.Outside (w.main g arr) := by
    intro heq
    have hne := Code.Module.index_inj (Emit.mem_functionNames hg) hw.alloc_mem heq
    rw [hname] at hne
    exact absurd hne (by decide)
  obtain ⟨hop, hmem, hsize⟩ := codeAt_singleton.1 hend
  have hlast : arr[b + 1]? = none := Array.getElem?_eq_none (Nat.le_of_eq hsize)
  have hstart : s₀.on 0 [] = s₀ := by
    rw [hs₀]
    simp only [Trace.on, Trace.start, Thread.on, Thread.heapWord, Thread.newFrame_start hF]
  have hgoes : w.Goes s₀ (w.Typed s₀) (fun _ => False) n ⟨[], []⟩ (s₀.on 0 []) := by
    refine h.block (fun m _ => supplies hsolid m) (past_main hw hg hname) (fun _ => .here)
      hw.checked.body hblock (Nat.zero_le _) (by omega) (fun H' s' hm => ?_)
      fun t ht => by cases ht
    have h' := h.follow hm
    cases hends : Emit.endsInValue w.program.program.body with
    | true =>
      rw [hends, if_pos rfl] at hop
      exact h'.localGet_any (by omega) hop fun v _ => h'.finish hout (by omega) hlast
    | false =>
      rw [hends, if_neg Bool.false_ne_true] at hop
      exact h'.const (by omega) hop (h'.finish hout (by omega) hlast)
  have hall := hgoes (hstart.symm ▸ .refl) fun t ht => absurd ht List.not_mem_nil
  rwa [hstart] at hall

end Setting

end ObjLang
