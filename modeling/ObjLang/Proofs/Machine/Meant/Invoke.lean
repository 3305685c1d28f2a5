import ObjLang.Proofs.Machine.Meant.Lookup

/-!
# ObjLang.Proofs.Machine.Meant.Invoke — calls that do what they mean

`Performs` says of all definitions that a call with words that stand for its arguments, and with the
cells of the variables that it captures, does what the call means.  A method call through the
dispatch table runs the method that the object means.
-/

namespace ObjLang

open Check Check.Facts

namespace CheckedOk

variable {p : Program} {c : CheckedProgram} {s : State} {outer outer' : List FunDef} {d : FunDef}
  {id : FunId} {f : Function}

/-! ### Functions around a function -/

theorem parent_head (h : CheckedOk p c s) (hd : c.Nest outer d) (hid : d.id = some id) :
    (c.function id).parent = outer.head?.map fun e => (c.level e).id := by
  obtain ⟨id', hid', hfun, hf, -⟩ := h.record_ok hd
  cases hid.symm.trans hid'
  rw [hfun, hf.parent, List.head?_map, Option.map_map]
  rfl

/-- A definition without functions around it is in none. -/
theorem nest_nil (h : CheckedOk p c s) (hd : c.Nest [] d) (hd' : c.Nest outer d) : outer = [] := by
  obtain ⟨id, hid, -⟩ := h.record_ok hd
  have hparent := (h.parent_head hd hid).symm.trans (h.parent_head hd' hid)
  cases outer with
  | nil => rfl
  | cons e outer => cases hparent

/-- A definition is nested in one way only. -/
theorem nest_unique (h : CheckedOk p c s) (hp : p.Words) (hd : c.Nest outer d)
    (hd' : c.Nest outer' d) : outer = outer' := by
  induction hd generalizing outer' with
  | method hk hd => exact (h.nest_nil (.method hk hd) hd').symm
  | function hd => exact (h.nest_nil (.function hd) hd').symm
  | @nested outer e d he hd ih =>
    obtain ⟨id, hid, -⟩ := h.record_ok (.nested he hd)
    have hparent := (h.parent_head (.nested he hd) hid).symm.trans (h.parent_head hd' hid)
    cases outer' with
    | nil => cases hparent
    | cons e' outer' =>
      cases hd' with
      | nested he' _ =>
        obtain rfl : e = e' :=
          h.emitted_inj hp he he' (congrArg (fun i => (c.function i).emitted)
            (Option.some.inj hparent))
        rw [ih he']

/-- The method of the root class has no definition. -/
theorem definition?_root (h : CheckedOk p c s) (hp : p.Words)
    (hf : s.functions[id.index]? = some f) (hroot : f.emitted = methodTarget rootClass initMethod) :
    c.definition? id = none := by
  cases hdef : c.definition? id with
  | none => rfl
  | some d =>
    obtain ⟨outer, hd⟩ := CheckedProgram.exists_nest (List.mem_of_find?_eq_some hdef)
    have hid : d.id = some id :=
      eq_of_beq (List.find?_some (p := fun d : FunDef => d.id == some id) hdef)
    exact absurd ((h.emitted_eq hid hf).trans hroot) (h.emitted_ne_root hp hd)

end CheckedOk

namespace Compiled

variable {p : Program} {c : CheckedProgram} {t₀ : State} {o : Options} {m : Code.Module}
  {L : LinkedModule}

/-- A method of a class below the one that it was looked up in has a place in the dispatch table,
and can stand for the one found there. -/
theorem dispatches (hw : Compiled p c t₀ o m L) {l lk : ClassLayout} (hl : l ∈ c.classes.layouts)
    {k x : String} (hbelow : c.classes.Below l.name k) (hk : c.classes.get? k = some lk) {slot : Nat}
    {e : MethodEntry} (hm : lk.method? x = some (slot, e)) {id : FunId} {f : Function}
    (hid : (t₀.facts c.classes).methodId? k x = some id)
    (hf : t₀.functions[id.index]? = some f) :
    l.vtableBase + slot < c.classes.vtable.entries.length ∧ ∃ (el : MethodEntry) (j : FunId)
      (g : Function) (ts : List Ty), l.methods.find? (·.name == x) = some el ∧
      (t₀.facts c.classes).EntryOk el j g ∧
      L.table[l.vtableBase + slot]? = some (m.index el.target) ∧ Overrides c.classes f g ∧
      g.paramTypes = .object el.owner :: ts := by
  have hget : c.classes.get? l.name = some l := hw.checked.laid.get?_eq_some.2 ⟨hl, rfl⟩
  have hindexed := hw.checked.laid.indexed (ClassTable.get?_mem hk).1
  obtain ⟨el, -, hentry, hfind⟩ :=
    (hbelow.inherits hw.checked.laid hget hk).method? (hw.checked.laid.indexed hl) hm
  have hfindk : lk.methods.find? (·.name == x) = some e := by
    rw [← hindexed.method?_eq, hm, Option.map_some]
  obtain ⟨i, f', hf'⟩ := hw.checked.exists_entry (ClassTable.get?_mem hk).1 hfindk
  obtain ⟨j, g, hg⟩ := hw.checked.exists_entry hl hfind
  have hsame : i = id := by
    simp only [Facts.methodId?, State.facts, hk, Option.bind_eq_bind, Option.bind_some,
      hindexed.target?_eq, hfindk, Option.map_some] at hid
    obtain ⟨f'', hf'', -, hem⟩ := hw.checked.nest.state.methods _ _ (Bindings.mem_of_lookup hid)
    exact hw.checked.id_of_emitted hw.words hf'.record hf'' (hf'.emitted.trans hem.symm)
  subst hsame
  cases hf'.record.symm.trans hf
  have htable := hw.checked.laid.vtable_slot hl hentry
  obtain ⟨ts, hts⟩ := hg.receiver
  exact ⟨(List.getElem?_eq_some_iff.1 htable).1, el, j, g, ts, hfind, hg, hw.table_eq htable,
    hw.checked.overrides_below hw.words hbelow hget hk hfind hfindk hg hf', hts⟩

end Compiled

namespace Setting

/-- Calls of definitions do what they mean, where calls nest and loops go round at most a number of
times. -/
def Performs (w : Setting) (s₀ : Trace) (fin : Outcome) (n : Nat) : Prop :=
  ∀ (K : Value → Eval (Option Value)) (V : Scene) (outer : List FunDef) (d : FunDef) (id : FunId)
    (F : Frame) (es : List (Value × Int32)) (cs : List Int32) (sc : CallChain) (depth : Nat),
    w.program.Nest outer d → d.id = some id →
    Thread.newFrame w.linked w.maxDepth (w.module.index (w.program.emitted d))
      (es.map Prod.snd ++ cs) depth = .ok F →
    w.HeapOk s₀ V.ledger V.trace.thread.store V.trace.heap →
    w.CallersOk s₀ V.ledger V.trace.thread.frames V.trace.calls →
    w.Mirrors V.image V.world V.ledger.blocks V.trace.thread.store →
    List.Forall₂ (fun e t => e.1.Stands w.program V.image e.2 t) es
      (w.program.record d).paramTypes →
    List.Forall₂ (fun x e => w.CellShows ((id, V.world.calls) :: w.program.around id sc) V.image x
      e.inner) cs (w.program.record d).captures →
    (w.program.around id sc).map Prod.fst = outer.map (fun e => (w.program.level e).id) →
    (∀ e ∈ w.program.around id sc, e.2 < V.world.calls) →
    (w.program.call n id sc (es.map Prod.fst) >>= K).Leads V.world (printed V.trace) fin →
    (∀ V' v x, w.ComesBack s₀ V V' → v.Stands w.program V'.image x (w.program.record d).ret →
      (K v).Leads V'.world (printed V'.trace) fin →
      w.Ends s₀ fin V'.ledger ((V.trace.resume V'.trace).push x)) →
    w.Ends s₀ fin V.ledger (V.trace.enter (w.module.index (w.program.emitted d)) F)

variable {w : Setting} {s₀ : Trace} {t₀ : State} {b : Body} {fin : Outcome} {sc sc' : CallChain}
  {V : Scene} {n m i j : Nat} {S cs : List Int32} {es : List (Value × Int32)} {outer : List FunDef}
  {d : FunDef} {id : FunId} {K : Value → Eval (Option Value)}

namespace Meant

/-- The calls around a nested function that is called, and the cells that are passed to it. -/
theorem passes (h : w.Meant s₀ t₀ b sc V) (hd : w.program.Nest outer d) (hid : d.id = some id)
    {us : List VarId}
    (hcaptures : ((w.program.record d).parent = none ∧ us = []) ∨ ∃ l lv, b.levels = l :: lv ∧
      (w.program.record d).parent = some l.id ∧ List.Forall₂
        ((t₀.facts w.program.classes).Passes b.levels) us (w.program.record d).captures) :
    (w.program.around id sc).map Prod.fst = outer.map (fun e => (w.program.level e).id) ∧
      (∀ e ∈ w.program.around id sc, e.2 < V.world.calls) ∧
      (∀ u ∈ us, u ∈ b.vars ∧ (w.program.var u).isIndirect = true) ∧
      List.Forall₂ (fun u e => ∀ x, w.CellShows sc V.image x u →
        w.CellShows ((id, V.world.calls) :: w.program.around id sc) V.image x e.inner) us
        (w.program.record d).captures := by
  obtain ⟨p, o, hw⟩ := h.compiled
  obtain ⟨id', hid', hfun, hfok, -⟩ := hw.checked.record_ok hd
  cases hid.symm.trans hid'
  have hparents := hw.checked.parent_head hd hid
  rw [hfun] at hparents
  obtain ⟨hparent, rfl⟩ | ⟨l, lv, hlv, hparent, hpass⟩ := hcaptures
  · have haround : w.program.around id sc = [] := by
      rw [CheckedProgram.around, hfun, hparent]
    have houter : outer = [] := by
      rw [hparent] at hparents
      cases outer with
      | nil => rfl
      | cons e outer => cases hparents
    rw [haround, houter, hw.checked.nest.state.orphans id _ hfok.record hparent]
    exact ⟨rfl, fun _ he => absurd he List.not_mem_nil, fun _ hu => absurd hu List.not_mem_nil,
      .nil⟩
  · -- The function is nested in the one that calls it.
    obtain ⟨ds, hds, hnest⟩ := h.nest
    have houter : outer = ds := by
      rw [hparent] at hparents
      cases hd with
      | method _ _ | function _ => cases hparents
      | @nested outer e d he _ =>
        cases ds with
        | nil => cases hlv.symm.trans hds
        | cons e' outer' =>
          have hl : l = w.program.level e' := (List.cons.inj (hlv.symm.trans hds)).1
          obtain rfl : e' = e := hw.checked.emitted_inj hw.words (hnest e' outer' rfl) he
            (congrArg (fun i => (w.program.function i).emitted)
              ((congrArg Level.id hl).symm.trans (Option.some.inj hparents)))
          rw [hw.checked.nest_unique hw.words he (hnest e' outer' rfl)]
    have hchain : sc.map Prod.fst = outer.map (fun e => (w.program.level e).id) := by
      rw [h.chain, hds, houter, List.map_map]
      rfl
    have haround : w.program.around id sc = sc := by
      have hhead := h.chain
      rw [hlv] at hhead
      cases sc with
      | nil => cases hhead
      | cons e sc =>
        have hel : e.1 = l.id := (List.cons.inj hhead).1
        simp only [CheckedProgram.around, hfun, hparent]
        rw [List.dropWhile_cons_of_neg]
        simp only [hel, ne_eq, not_true_eq_false, decide_false, Bool.false_eq_true,
          not_false_eq_true]
    have hids : ∀ e ∈ sc, e.1 ≠ id := by
      intro e he heq
      have hmem := List.mem_map_of_mem (f := Prod.fst) he
      rw [hchain] at hmem
      obtain ⟨d', hd', hid'⟩ := List.mem_map.1 hmem
      have hlt := hw.checked.level_id_lt hd hid d' hd'
      rw [hid', heq] at hlt
      exact Nat.lt_irrefl _ hlt
    rw [haround]
    refine ⟨hchain, h.begun, fun u hu => ?_,
      List.forall₂_iff_get.2 ⟨hpass.length_eq, fun j hj hj' x hx => ?_⟩⟩
    · obtain ⟨e, he, hpassed⟩ := exists_of_forall₂ hpass hu
      obtain ⟨-, hind⟩ := Emit.cell_of_passes hw.checked hfok.record hparent he hpassed
      exact ⟨h.holds.body.own _ _ hpassed.2.1, hind⟩
    · have hpassed := (List.forall₂_iff_get.1 hpass).2 j hj hj'
      have hmem := List.get_mem (w.program.record d).captures ⟨j, hj'⟩
      obtain ⟨⟨r, hr, -, hg⟩, -, -, hhome⟩ := hpassed
      obtain ⟨⟨q, hq, -, hkind, -⟩, -⟩ := hfok.captures _ hmem
      have hqg : q.isGlobal = false := by simp [Variable.isGlobal, hkind]
      have hty := hw.checked.typeOf_home hr hg hq hqg hhome
      simp only [State.facts, hw.checked.vars_eq] at hhome
      exact hx.of_home (by rw [Emit.var_eq hw.checked hr, hg]) (by rw [Emit.var_eq hw.checked hq, hqg])
        hhome hty hids

variable (h : w.Meant s₀ t₀ b sc V) (hper : w.Performs s₀ fin n) (hout : w.Outside b)

include h hper hout

/-- A definition has been called. -/
theorem enter (hd : w.program.Nest outer d) (hid : d.id = some id) {F : Frame} {depth : Nat}
    (hF : Thread.newFrame w.linked w.maxDepth (w.module.index (w.program.emitted d))
      (es.map Prod.snd ++ cs) depth = .ok F)
    (hes : List.Forall₂ (fun e t => e.1.Stands w.program V.image e.2 t) es
      (w.program.record d).paramTypes)
    (hcs : List.Forall₂ (fun x e => w.CellShows ((id, V.world.calls) :: w.program.around id sc')
      V.image x e.inner) cs (w.program.record d).captures)
    (hchain : (w.program.around id sc').map Prod.fst = outer.map fun e => (w.program.level e).id)
    (hbegun : ∀ e ∈ w.program.around id sc', e.2 < V.world.calls)
    (hlead : (w.program.call n id sc' (es.map Prod.fst) >>= K).Leads V.world (printed V.trace) fin)
    (hgo : w.Resumes s₀ b sc fin m V i S (w.program.record d).ret K) :
    w.Ends s₀ fin V.ledger ((V.trace.on i S).enter (w.module.index (w.program.emitted d)) F) := by
  refine hper K ⟨V.ledger, V.trace.on i S, V.image, V.world⟩ outer d id F es cs sc' depth hd hid hF
    h.heapOk (h.holds.callersOk (.inl h.past) hout) h.mirrors hes hcs hchain hbegun hlead
    fun V' v x hback hv hK => ?_
  have hback' : w.ComesBack s₀ V V' :=
    ⟨hback.sub, hback.heap_le, hback.heap, hback.image, hback.spares, hback.mirrors⟩
  exact hgo _ v x (h.resume hback' m) rfl hv hK

/-- A definition is called. -/
theorem invoke (hd : w.program.Nest outer d) (hid : d.id = some id)
    (hop : b.code[i]? = some (.call (w.module.index (w.program.emitted d))))
    (hes : List.Forall₂ (fun e t => e.1.Stands w.program V.image e.2 t) es
      (w.program.record d).paramTypes)
    (hcs : List.Forall₂ (fun x e => w.CellShows ((id, V.world.calls) :: w.program.around id sc')
      V.image x e.inner) cs (w.program.record d).captures)
    (hchain : (w.program.around id sc').map Prod.fst = outer.map fun e => (w.program.level e).id)
    (hbegun : ∀ e ∈ w.program.around id sc', e.2 < V.world.calls)
    (hlead : (w.program.call n id sc' (es.map Prod.fst) >>= K).Leads V.world (printed V.trace) fin)
    (hgo : w.Yields s₀ b sc fin m V (i + 1) S (w.program.record d).ret K) :
    w.Ends s₀ fin V.ledger (V.trace.on i ((es.map Prod.snd ++ cs).reverse ++ S)) := by
  obtain ⟨p, o, hw⟩ := h.compiled
  obtain ⟨himport, g, arr, hg, hlen, hfun⟩ := hw.definition_function hd
  obtain ⟨id', -, -, hfo, -⟩ := hw.checked.record_ok hd
  refine .call h.holds hop himport hfun _ ?_ hlead.isPrefix fun F depth hF => ?_
  · rw [List.length_reverse, List.length_append, List.length_map, hes.length_eq, hcs.length_eq]
    exact (hlen.trans (congrArg (· + _) hfo.params_length)).symm
  · rw [List.reverse_reverse] at hF
    exact h.enter hper hout hd hid hF hes hcs hchain hbegun hlead hgo.resumes

/-- A call of a function by name, behind its arguments. -/
theorem callFunction {f : Function} {us : List VarId} {b₁ b₂ a' : Nat}
    (hf : t₀.functions[id.index]? = some f)
    (hcaptures : (f.parent = none ∧ us = []) ∨ ∃ l outer, b.levels = l :: outer ∧
      f.parent = some l.id ∧
      List.Forall₂ ((t₀.facts w.program.classes).Passes b.levels) us f.captures)
    (hcells : CodeAt (w.names b) b.code (us.map fun v => .localGet (w.program.var v).name) b₁ b₂)
    (hcall : CodeAt (w.names b) b.code [.call (w.program.function id).emitted] b₂ a')
    (hes : List.Forall₂ (fun e t => e.1.Stands w.program V.image e.2 t) es f.paramTypes)
    (hlead : (w.program.call n id sc (es.map Prod.fst) >>= K).Leads V.world (printed V.trace) fin)
    (hgo : w.Yields s₀ b sc fin m V a' S f.ret K) :
    w.Ends s₀ fin V.ledger (V.trace.on b₁ ((es.map Prod.snd).reverse ++ S)) := by
  obtain ⟨p, o, hw⟩ := h.compiled
  obtain ⟨hop, -, rfl⟩ := codeAt_singleton.1 hcall
  obtain ⟨hroot, -⟩ | ⟨outer, d, hd, hid, rfl⟩ := hw.checked.function_cases hf
  · -- Nothing is said of calls of the method of the root class by name.
    have hnone := hw.checked.definition?_root hw.words hf hroot
    cases n with
    | zero => exact absurd hlead Eval.not_leads_stuck
    | succ n =>
      rw [CheckedProgram.call, hnone] at hlead
      simp only [bind_assoc, Eval.leads_known, reduceCtorEq, false_and, exists_false] at hlead
  have hop' : b.code[b₂]? = some (.call (w.module.index (w.program.emitted d))) := by
    rw [hw.checked.emitted_eq hid hf, ← Emit.function_eq hw.checked hf]
    exact hop
  obtain ⟨hchain, hbegun, hown, hpass⟩ := h.passes hd hid hcaptures
  refine h.loadCells hcells hown fun cs hcs => ?_
  rw [← List.append_assoc, ← List.reverse_append]
  refine h.invoke hper hout hd hid hop' hes ?_ hchain hbegun hlead hgo
  refine List.forall₂_iff_get.2 ⟨hcs.length_eq.trans hpass.length_eq, fun j hj hj' => ?_⟩
  have hju : j < us.length := hcs.length_eq ▸ hj
  exact (List.forall₂_iff_get.1 hpass).2 j hju hj' _ ((List.forall₂_iff_get.1 hcs).2 j hj hju)

/-- The method of an object has been called. -/
theorem enterMethod {r : Nat} {B : Block} {l : ClassLayout} (hr : V.image.objects[r]? = some B)
    (hkind : B.kind = .object l) {x : String} {e : MethodEntry}
    (he : l.methods.find? (·.name == x) = some e) {f : Function}
    (hentry : (t₀.facts w.program.classes).EntryOk e id f) {ts : List Ty}
    (hts : f.paramTypes = .object e.owner :: ts)
    (hes : List.Forall₂ (fun e t => e.1.Stands w.program V.image e.2 t) es ts) {F : Frame}
    {depth : Nat} (hF : Thread.newFrame w.linked w.maxDepth (w.module.index e.target)
      (Int32.ofNat B.address :: es.map Prod.snd) depth = .ok F)
    (hlead : (Meaning.method w.program (w.program.call n) x r (es.map Prod.fst) >>= K).Leads V.world
      (printed V.trace) fin)
    (hgo : w.Resumes s₀ b sc fin m V i S f.ret K) :
    w.Ends s₀ fin V.ledger ((V.trace.on i S).enter (w.module.index e.target) F) := by
  obtain ⟨p, o, hw⟩ := h.compiled
  obtain ⟨hB, l', ob, hkind', hob, hclass, -⟩ := h.mirrors.object r B hr
  cases hkind.symm.trans hkind'
  have hl := h.holds.object_layout hB hkind
  rw [Meaning.method, bind_assoc, Eval.leads_object] at hlead
  obtain ⟨ob', hob', hlead⟩ := hlead
  cases hob.symm.trans hob'
  rw [hclass] at hlead
  obtain ⟨rfl, htarget, hnone⟩ | ⟨d, hd, hem, hsome⟩ := hw.checked.method?_cases hl he
  · simp only [hnone, if_true, pure_bind] at hlead
    obtain ⟨g, hg, -, hgem, -, -, hret, -⟩ := hw.checked.root
    have hsame : id = w.program.rootInit := hw.checked.id_of_emitted hw.words hentry.record hg
      (hentry.emitted.trans (htarget.trans hgem.symm))
    rw [← hsame] at hg
    cases hentry.record.symm.trans hg
    rw [htarget] at hF ⊢
    refine .enter_root h.holds hout (.inl h.past) hF fun u hh hst => ?_
    have hback : w.ComesBack s₀ V { V with trace := u } :=
      ⟨.refl _, Nat.le_of_eq hh.symm, by rw [hst, hh]; exact h.heapOk, .refl _, .refl _ _ _,
        hst ▸ h.mirrors⟩
    refine hgo _ .none 0 (h.resume hback m) rfl (hret ▸ ⟨rfl, rfl⟩) ?_
    have hprinted : printed (V.trace.resume u) = printed V.trace :=
      congrArg (fun st => st.output.toList) hst
    exact hprinted.symm ▸ hlead
  · simp only [hsome, bind_assoc, Eval.leads_known] at hlead
    obtain ⟨id', hid', hlead⟩ := hlead
    obtain ⟨id₂, hid₂, -, hfok, -⟩ := hw.checked.record_ok hd
    cases hid'.symm.trans hid₂
    obtain rfl : id' = id := hw.checked.id_of_emitted hw.words hfok.record hentry.record
      ((hw.checked.emitted_eq hid' hfok.record).symm.trans (hem.trans hentry.emitted.symm))
    cases hfok.record.symm.trans hentry.record
    have haround : w.program.around id' [] = [] := by
      unfold CheckedProgram.around
      split <;> rfl
    obtain ⟨howner, -⟩ := ClassTable.Laid.provides hw.checked.laid (hw.checked.laid.laid l hl) he
    have hself : Value.Stands w.program V.image (.object r) (Int32.ofNat B.address)
        (.object e.owner) :=
      .inr ⟨r, B, l, rfl, hr, rfl, hkind,
        hw.checked.laid.below ((howner e.owner).2 rfl).descends⟩
    have hF' : Thread.newFrame w.linked w.maxDepth (w.module.index (w.program.emitted d))
        (((Value.object r, Int32.ofNat B.address) :: es).map Prod.snd ++ []) depth = .ok F := by
      rw [hem, List.append_nil]
      exact hF
    rw [← hem]
    refine h.enter hper hout hd hid' hF' (hts ▸ .cons hself hes) ?_ ?_ ?_ hlead hgo
    · rw [hw.checked.captures_nil hd]
      exact .nil
    · rw [haround]
      rfl
    · rw [haround]
      exact fun _ he => absurd he List.not_mem_nil

/-- A call of a method, behind its receiver and its arguments. -/
theorem callMethod {c x : String} {lc : ClassLayout}
    (hc : w.program.classes.get? c = some lc) {slot : Nat} {e : MethodEntry}
    (hmethod : lc.method? x = some (slot, e)) {f : Function}
    (hid : (t₀.facts w.program.classes).methodId? c x = some id)
    (hf : t₀.functions[id.index]? = some f) {y : String} {a a' : Nat}
    (hcode : CodeAt (w.names b) b.code [.localGet y, .load 0, .const (Emit.word slot),
      .binary .add, .callIndirect (Code.signatureName (es.length + 1))] a a') {r : Nat} {B : Block}
    {l : ClassLayout} (hr : V.image.objects[r]? = some B) (hkind : B.kind = .object l)
    (hbelow : w.program.classes.Below l.name c)
    (hy : V.trace.thread.frame.locals[(w.names b).slot y]? = some (Int32.ofNat B.address))
    (hes : List.Forall₂ (fun e t => e.1.Stands w.program V.image e.2 t) es (f.paramTypes.drop 1))
    (hlead : (Meaning.method w.program (w.program.call n) x r (es.map Prod.fst) >>= K).Leads V.world
      (printed V.trace) fin)
    (hgo : w.Yields s₀ b sc fin m V a' S f.ret K) :
    w.Ends s₀ fin V.ledger
      (V.trace.on a ((es.map Prod.snd).reverse ++ Int32.ofNat B.address :: S)) := by
  obtain ⟨p, o, hw⟩ := h.compiled
  obtain ⟨hop₁, -, hcode⟩ := codeAt_cons.1 hcode
  obtain ⟨hop₂, -, hcode⟩ := codeAt_cons.1 hcode
  obtain ⟨hop₃, -, hcode⟩ := codeAt_cons.1 hcode
  obtain ⟨hop₄, -, hcode⟩ := codeAt_cons.1 hcode
  obtain ⟨hop₅, -, rfl⟩ := codeAt_singleton.1 hcode
  have hB := (h.mirrors.object r B hr).1
  have hl := h.holds.object_layout hB hkind
  obtain ⟨hlt, el, j, g, ts, hfind, hentry, htable, hover, hts⟩ :=
    hw.dispatches hl hbelow hc hmethod hid hf
  obtain ⟨himport, q, hq, hlen⟩ := exists_linked hw hentry.record
  rw [hentry.emitted] at himport hq
  have hparams : f.paramTypes.drop 1 = ts := by
    rw [← hover.params, hts]
    rfl
  have hcount : es.length + 1 = q.params := by
    rw [hlen, hts, List.length_cons, hes.length_eq, hparams, hw.checked.captures_of_entry hentry]
    rfl
  have harity : (w.names b).arity (Code.signatureName (es.length + 1)) = es.length + 1 := by
    obtain ⟨harity, hpos⟩ := hw.method_arity hid hf
    have hfcount : es.length + 1 = f.totalArity := by
      have hdrop := hes.length_eq
      rw [List.length_drop] at hdrop
      omega
    rw [hfcount]
    exact hw.arity_record hf b.func
  have hstack : (es.map Prod.snd).reverse ++ Int32.ofNat B.address :: S
      = (Int32.ofNat B.address :: es.map Prod.snd).reverse ++ S := by
    rw [List.reverse_cons, List.append_assoc]
    rfl
  have hlength : (Int32.ofNat B.address :: es.map Prod.snd).reverse.length = es.length + 1 := by
    rw [List.length_reverse, List.length_cons, List.length_map]
  have hword : V.trace.thread.store.memory.word (B.address + 4 * 0) = Emit.word l.vtableBase := by
    have htakes := h.heapOk.words B hB 0 (BlockKind.words_pos _)
    rw [hkind] at htakes
    exact htakes
  have hsum : Int32.ofNat (l.vtableBase + slot) = Emit.word l.vtableBase + Emit.word slot :=
    Int32.ofNat_add ..
  refine .localGet h.holds hop₁ hy ?_
  refine .loadBlock h.holds hB (BlockKind.words_pos _) hop₂ ?_
  rw [hword]
  refine .const h.holds hop₃ ?_
  refine .binary h.holds hop₄ rfl ?_
  rw [← hsum, hstack]
  refine .callIndirect h.holds _ ?_ (Nat.lt_trans hlt h.solid.table) htable himport hq
    (hlength.trans hcount) hlead.isPrefix fun F depth hF => ?_
  · rw [hlength]
    exact hop₅.trans (congrArg (some ∘ Op.callIndirect) harity)
  · rw [List.reverse_reverse] at hF
    refine h.enterMethod hper hout hr hkind hfind hentry hts (hparams ▸ hes) hF hlead
      fun V' v z ht _ hv hK => hgo V' v z ht (hv.assign hw.checked.laid hover.ret) hK

end Meant

end Setting

end ObjLang
