import ObjLang.Proofs.Machine.Invoke
import ObjLang.Proofs.Machine.Typed.Call
import ObjLang.Proofs.Overrides

/-!
# ObjLang.Proofs.Machine.Typed.Supply — calls with arguments of the right types

A function that gets words for its parameters and cells for its captures gives a word of the type
that it returns.  `Supplies n` says so of all definitions and runs of `n` steps.  A method that an
object is asked for is found in the stretch of its class in the dispatch table; it can stand for the
method that the call was checked against.
-/

namespace ObjLang

open Check Check.Facts

/-! ### Dispatch -/

namespace CheckedOk

variable {p : Program} {c : CheckedProgram} {s : State}

/-- A method has no captures. -/
theorem captures_of_entry (h : CheckedOk p c s) {e : MethodEntry} {id : FunId} {f : Function}
    (he : (s.facts c.classes).EntryOk e id f) : f.captures = [] := by
  obtain ⟨f', hf', hparent, -⟩ := h.nest.state.methods _ _ he.listed
  cases hf'.symm.trans he.record
  exact h.nest.state.orphans id f he.record hparent

/-- The method for new objects of a class takes an object of a class above, and nothing else. -/
theorem exists_init (h : CheckedOk p c s) (hp : p.Words) {l : ClassLayout}
    (hl : l ∈ c.classes.layouts) {init : String} (hinit : l.target? initMethod = some init) :
    ∃ (id : FunId) (f : Function) (owner : String), s.functions[id.index]? = some f ∧
      f.emitted = init ∧ f.paramTypes = [.object owner] ∧ f.captures = [] ∧
      c.classes.Below l.name owner := by
  have htarget := hinit
  rw [(h.laid.indexed hl).target?_eq] at hinit
  obtain ⟨e, he, rfl⟩ := Option.map_eq_some_iff.1 hinit
  obtain ⟨id, f, hf⟩ := h.exists_entry hl he
  obtain ⟨howner, -⟩ := ClassTable.Laid.provides h.laid (h.laid.laid l hl) he
  obtain ⟨ts, hts⟩ := hf.receiver
  refine ⟨id, f, _, hf.record, hf.emitted, ?_, h.captures_of_entry hf,
    h.laid.below ((howner _).2 rfl).descends⟩
  have hone : f.paramTypes.length = 1 := by
    obtain ⟨-, -, hone⟩ | ⟨outer, d, hd, hid, rfl⟩ := h.function_cases hf.record
    · exact hone
    · obtain ⟨id', -, -, hfo, -⟩ := h.record_ok hd
      have hemitted : c.emitted d = e.target := (h.emitted_eq hid hf.record).trans hf.emitted
      obtain hroot | ⟨d', hd', hdt, -, hlen⟩ := h.target_cases hl htarget
      · exact absurd (hemitted.trans hroot) (h.emitted_ne_root hp hd)
      · obtain rfl := h.emitted_inj hp hd hd' (hemitted.trans hdt.symm)
        rw [← hfo.params_length]
        exact hlen rfl
  rw [hts, List.length_cons, Nat.succ_inj, List.length_eq_zero_iff] at hone
  rw [hts, hone]

end CheckedOk

namespace Compiled

variable {p : Program} {c : CheckedProgram} {t₀ : State} {o : Options} {m : Code.Module}
  {L : LinkedModule}

/-- A position of the dispatch table leads to the function that its name leads to. -/
theorem table_eq (hw : Compiled p c t₀ o m L) {i : Nat} {x : String}
    (hx : c.classes.vtable.entries[i]? = some x) : L.table[i]? = some (m.index x) := by
  obtain ⟨hlt, hx⟩ := List.getElem?_eq_some_iff.1 hx
  have hlt' : i < L.table.toList.length := hw.linked.table.length_eq ▸ hlt
  obtain ⟨-, heq⟩ := hw.linked.table.get hlt hlt'
  rw [← Array.getElem?_toList, List.getElem?_eq_getElem hlt']
  rw [List.get_eq_getElem, List.get_eq_getElem, hx] at heq
  rw [heq]

/-- A method of a class below the one that it was looked up in: its place in the dispatch table
leads to a function that can stand for the one found there. -/
theorem dispatched (hw : Compiled p c t₀ o m L) {l lk : ClassLayout} (hl : l ∈ c.classes.layouts)
    {k x : String} (hbelow : c.classes.Below l.name k) (hk : c.classes.get? k = some lk) {slot : Nat}
    {e : MethodEntry} (hm : lk.method? x = some (slot, e)) {id : FunId} {f : Function}
    (hid : (t₀.facts c.classes).methodId? k x = some id)
    (hf : t₀.functions[id.index]? = some f) :
    l.vtableBase + slot < c.classes.vtable.entries.length ∧ ∃ (j : FunId) (g : Function)
      (owner : String) (ts : List Ty), t₀.functions[j.index]? = some g ∧
      L.table[l.vtableBase + slot]? = some (m.index g.emitted) ∧ Overrides c.classes f g ∧
      g.paramTypes = .object owner :: ts ∧ g.captures = [] ∧ c.classes.Below l.name owner := by
  have hget : c.classes.get? l.name = some l := hw.checked.laid.get?_eq_some.2 ⟨hl, rfl⟩
  have hindexed := hw.checked.laid.indexed (ClassTable.get?_mem hk).1
  obtain ⟨el, -, hentry, hfind⟩ :=
    (hbelow.inherits hw.checked.laid hget hk).method? (hw.checked.laid.indexed hl) hm
  have hfindk : lk.methods.find? (·.name == x) = some e := by
    rw [← hindexed.method?_eq, hm, Option.map_some]
  obtain ⟨i, f', hf'⟩ := hw.checked.exists_entry (ClassTable.get?_mem hk).1 hfindk
  obtain ⟨j, g, hg⟩ := hw.checked.exists_entry hl hfind
  have hsame : i = id := by
    simp only [Facts.methodId?, State.facts, hk, Option.bind_eq_bind, Option.bind_some,
      hindexed.target?_eq, hfindk, Option.map_some] at hid
    obtain ⟨f'', hf'', -, hem⟩ := hw.checked.nest.state.methods _ _ (Bindings.mem_of_lookup hid)
    exact hw.checked.id_of_emitted hw.words hf'.record hf'' (hf'.emitted.trans hem.symm)
  subst hsame
  cases hf'.record.symm.trans hf
  have hover := hw.checked.overrides_below hw.words hbelow hget hk hfind hfindk hg hf'
  obtain ⟨howner, -⟩ := ClassTable.Laid.provides hw.checked.laid (hw.checked.laid.laid l hl) hfind
  have htable := hw.checked.laid.vtable_slot hl hentry
  obtain ⟨ts, hts⟩ := hg.receiver
  refine ⟨(List.getElem?_eq_some_iff.1 htable).1, j, g, _, ts, hg.record, ?_, hover, hts,
    hw.checked.captures_of_entry hg, hw.checked.laid.below ((howner _).2 rfl).descends⟩
  rw [hg.emitted]
  exact hw.table_eq htable

end Compiled

namespace Setting

/-- Calls of definitions give words of the types that they return, for a number of steps, and go on
in the caller. -/
def Supplies (w : Setting) (s₀ : Trace) (n : Nat) : Prop :=
  ∀ (Q R : Trace → Prop) (H : Ledger) (s : Trace) (outer : List FunDef) (d : FunDef) (F : Frame)
    (xs cs : List Int32) (depth : Nat), w.program.Nest outer d →
    Thread.newFrame w.linked w.maxDepth (w.module.index (w.program.emitted d)) (xs ++ cs) depth
      = .ok F →
    w.HeapOk s₀ H s.thread.store s.heap → w.CallersOk s₀ H s.thread.frames s.calls →
    List.Forall₂ (w.program.Suits H.blocks) xs (w.program.record d).paramTypes →
    List.Forall₂ (fun x e => w.CellOf H.blocks x e.inner) cs (w.program.record d).captures →
    (∀ lim, w.Takes s₀ Q (s.thread.callers.length + 1) lim) →
    (∀ H' u v, H.Sub H' → s.heap ≤ u.heap → w.HeapOk s₀ H' u.thread.store u.heap →
      w.program.Suits H'.blocks v (w.program.record d).ret →
      w.Goes s₀ Q R n H' ((s.resume u).push v)) →
    w.Goes s₀ Q R n H (s.enter (w.module.index (w.program.emitted d)) F)

variable {w : Setting} {s₀ : Trace} {t₀ : State} {b : Body} {Q R : Trace → Prop}
  {k lim n m i j : Nat} {H H' : Ledger} {s s' u : Trace} {S xs cs : List Int32} {v x : Int32}
  {id : FunId} {f : Function}

/-- The function of a record in a linked module. -/
theorem exists_linked {p : Program} {o : Options}
    (hw : Compiled p w.program t₀ o w.module w.linked) (hf : t₀.functions[id.index]? = some f) :
    w.linked.import? (w.module.index f.emitted) = none ∧
      ∃ g, w.linked.function? (w.module.index f.emitted) = some g ∧
        g.params = f.paramTypes.length + f.captures.length := by
  obtain ⟨hroot, hparent, hone⟩ | ⟨outer, d, hd, hid, rfl⟩ := hw.checked.function_cases hf
  · obtain ⟨himport, y, hfun⟩ := hw.root_function
    rw [hroot, hw.checked.nest.state.orphans id f hf hparent, hone]
    exact ⟨himport, _, hfun, rfl⟩
  · obtain ⟨himport, g, arr, hg, hlen, hfun⟩ := hw.definition_function hd
    have hemitted : (w.program.record d).emitted = w.program.emitted d :=
      (hw.checked.emitted_eq hid hf).symm
    obtain ⟨id', -, -, hfo, -⟩ := hw.checked.record_ok hd
    rw [hemitted]
    refine ⟨himport, _, hfun, ?_⟩
    rw [← hfo.params_length]
    exact hlen

namespace Holds

/-- A function of a record has been called, with words for its parameters and captures. -/
theorem enter (h : w.Holds s₀ t₀ b Q k lim H s) (hsup : w.Supplies s₀ n) (hout : w.Outside b)
    (hi : w.Past b ∨ i < lim) (hf : t₀.functions[id.index]? = some f) {F : Frame} {depth : Nat}
    (hF : Thread.newFrame w.linked w.maxDepth (w.module.index f.emitted) (xs ++ cs) depth = .ok F)
    (hxs : List.Forall₂ (w.program.Suits H.blocks) xs f.paramTypes)
    (hcs : List.Forall₂ (fun x e => w.CellOf H.blocks x e.inner) cs f.captures)
    (hu : ∀ H' u v, w.Moves s₀ b m H s H' (s.resume u) → w.program.Suits H'.blocks v f.ret →
      w.Goes s₀ Q R n H' ((s.resume u).on i (v :: S))) :
    w.Goes s₀ Q R n H ((s.on i S).enter (w.module.index f.emitted) F) := by
  obtain ⟨p, o, hw⟩ := h.compiled
  obtain ⟨hroot, hparent, hone⟩ | ⟨outer, d, hd, hid, rfl⟩ := hw.checked.function_cases hf
  · rw [hroot] at hF ⊢
    refine h.enter_root hout hi hF fun u hh hst => ?_
    refine hu H u 0 (h.moves_resume (.refl H) (Nat.le_of_eq hh.symm) ?_ m)
      (w.program.suits_zero _ _)
    rw [hh, hst]
    exact h.heap
  · have hemitted : (w.program.record d).emitted = w.program.emitted d :=
      (hw.checked.emitted_eq hid hf).symm
    rw [hemitted] at hF ⊢
    refine hsup Q R H (s.on i S) outer d F xs cs depth hd hF h.heap (h.callersOk hi hout) hxs hcs
      (fun lim' => ?_) fun H' u v hsub hle hheap hv => ?_
    · exact h.depth ▸ h.takes.inner lim'
    · exact hu H' u v (h.moves_resume hsub hle hheap m) hv

/-- A call of a function by name. -/
theorem invoke (h : w.Holds s₀ t₀ b Q k lim H s) (hsup : ∀ m < n, w.Supplies s₀ m)
    (hout : w.Outside b) (hlim : i < lim) (hi : w.Past b ∨ i + 1 < lim)
    (hf : t₀.functions[id.index]? = some f)
    (hop : b.code[i]? = some (.call (w.module.index f.emitted)))
    (hxs : List.Forall₂ (w.program.Suits H.blocks) xs f.paramTypes)
    (hcs : List.Forall₂ (fun x e => w.CellOf H.blocks x e.inner) cs f.captures)
    (hu : ∀ H' u v, w.Moves s₀ b m H s H' (s.resume u) → w.program.Suits H'.blocks v f.ret →
      w.Goes s₀ Q R n H' ((s.resume u).on (i + 1) (v :: S))) :
    w.Goes s₀ Q R n H (s.on i ((xs ++ cs).reverse ++ S)) := by
  obtain ⟨p, o, hw⟩ := h.compiled
  obtain ⟨himport, g, hg, hlen⟩ := exists_linked hw hf
  refine h.call hlim hop himport hg _ ?_ fun m' hm F depth hF => ?_
  · rw [List.length_reverse, List.length_append, hxs.length_eq, hcs.length_eq, hlen]
  · rw [List.reverse_reverse] at hF
    exact h.enter (hsup m' hm) hout hi hf hF hxs hcs fun H' u v hm' hv =>
      (hu H' u v hm' hv).le (Nat.le_of_lt hm)

/-- A call of a method of an object. -/
theorem invokeThrough (h : w.Holds s₀ t₀ b Q k lim H s) (hsup : ∀ m < n, w.Supplies s₀ m)
    (hout : w.Outside b) (hlim : i < lim) (hi : w.Past b ∨ i + 1 < lim) {l : Nat}
    (hl : l < 2 ^ 31) (hf : t₀.functions[id.index]? = some f)
    (htable : w.linked.table[l]? = some (w.module.index f.emitted))
    (hcaptures : f.captures = []) (hop : b.code[i]? = some (.callIndirect xs.length))
    (hxs : List.Forall₂ (w.program.Suits H.blocks) xs f.paramTypes)
    (hu : ∀ H' u v, w.Moves s₀ b m H s H' (s.resume u) → w.program.Suits H'.blocks v f.ret →
      w.Goes s₀ Q R n H' ((s.resume u).on (i + 1) (v :: S))) :
    w.Goes s₀ Q R n H (s.on i (Int32.ofNat l :: (xs.reverse ++ S))) := by
  obtain ⟨p, o, hw⟩ := h.compiled
  obtain ⟨himport, g, hg, hlen⟩ := exists_linked hw hf
  refine h.callIndirect hlim _ (by rwa [List.length_reverse]) hl htable himport hg ?_
    fun m' hm F depth hF => ?_
  · rw [List.length_reverse, hxs.length_eq, hlen, hcaptures]
    rfl
  · rw [List.reverse_reverse, ← List.append_nil xs] at hF
    exact h.enter (hsup m' hm) hout hi hf hF hxs (hcaptures ▸ .nil) fun H' u v hm' hv =>
      (hu H' u v hm' hv).le (Nat.le_of_lt hm)

end Holds

end Setting

end ObjLang
