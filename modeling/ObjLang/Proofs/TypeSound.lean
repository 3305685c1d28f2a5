import ObjLang.Proofs.Cells
import ObjLang.Proofs.Machine.Typed.Run

/-!
# ObjLang.Proofs.TypeSound — type soundness of runs

While a program runs, every word of it suits its static type: the values of expressions, the
variables of the module and of all calls under way, the cells of captured variables and the fields of
objects.  A word of an object type is zero or the address of an object of a class below, which the
allocator handed out, and whose first word is where its class starts in the dispatch table.  So a run
never leaves the dispatch table, and it leaves the memory only where there is no room for a block.
-/

namespace ObjLang

open Check Check.Facts

/-! ### First states -/

/-- The state in which a run of a linked module begins under some limits. -/
def LinkedModule.Begins (L : LinkedModule) (k : Config) (s : Trace) : Prop :=
  L.pages k ≤ k.maxMemoryPages ∧ ∃ F, Thread.newFrame L k.maxCallDepth L.entry [] 0 = .ok F ∧
    s = Trace.start ⟨Store.start L (L.pages k), F, []⟩ L.entry

theorem LinkedModule.visits_iff {L : LinkedModule} {k : Config} {s : Trace} :
    L.Visits k s ↔ ∃ s₀, L.Begins k s₀ ∧ Trace.Reaches L k.maxCallDepth s₀ s := by
  constructor
  · rintro ⟨hpages, F, hF, hs⟩
    exact ⟨_, ⟨hpages, F, hF, rfl⟩, hs⟩
  · rintro ⟨s₀, ⟨hpages, F, hF, rfl⟩, hs⟩
    exact ⟨hpages, F, hF, hs⟩

/-- A call that is at its end ends with the next step. -/
theorem Trace.calls_of_ends {L : LinkedModule} {maxDepth : Nat} {s u : Trace} {a : Trace.Call}
    {as : List Trace.Call} {x : Int32} (hnext : s.next L maxDepth = some u)
    (hends : s.thread.frame.code[s.thread.frame.position]? = none)
    (hvalue : s.thread.frame.stack.head? = some x) (hcalls : s.calls = a :: as) : u.calls = as := by
  obtain ⟨t, ht, rfl⟩ := next_eq_some.1 hnext
  obtain ⟨S, hstack⟩ := List.head?_eq_some_iff.1 hvalue
  rw [← s.thread.on_self, hstack, Thread.step_end hends] at ht
  obtain ⟨G, Fs, hcallers, rfl⟩ := Thread.leave_next ht
  have hless : (Thread.push ⟨s.thread.store, G, Fs⟩ x).callers = Fs := rfl
  simp only [advance, hcallers, hless, List.length_cons, hcalls, List.tail_cons,
    Nat.lt_succ_self, if_true, if_neg (Nat.not_lt.2 (Nat.le_succ Fs.length))]

/-! ### Sound runs -/

/-- How the words of the runs of a program suit the static types. -/
structure TypeSound (c : CheckedProgram) (m : Code.Module) (L : LinkedModule) (o : Options)
    (k : Config) : Prop where
  /-- Every expression in the statements of a function has a type, and code in the function. -/
  placed : ∀ x ss start, c.Statements x ss start → ∀ e, Expr.OccursIn ss e →
    (∃ t, e.ty = some t) ∧ ∃ g ∈ m.functions, g.name = x ∧ ∃ f, L.function? (m.index x) = some f ∧
      ∃ n a n' b, start ≤ a ∧ Emit.ExprAt c (m.names g) f.code e n a n' b
  /-- In every state the variables of the module and of the calls under way, and the words of all
  blocks of a ledger, suit their types.  The run has come to where the allocator handed out each of
  these blocks for what the ledger says; they lie in the heap and in the memory, apart from each
  other. -/
  words : ∀ s₀ s, L.Begins k s₀ → Trace.Reaches L k.maxCallDepth s₀ s →
    ∃ H, (Setting.ofRun c m L o k True).TypedBy s₀ H s
  /-- The value of an expression suits its type. -/
  evaluates : ∀ s₀ s g ss e t n n' b, L.Begins k s₀ → Trace.Reaches L k.maxCallDepth s₀ s →
    s.Executes c m g ss → Expr.OccursIn ss e → e.ty = some t →
    Emit.ExprAt c (m.names g) s.thread.frame.code e n s.thread.frame.position n' b →
    s.Yields L k.maxCallDepth b fun u v =>
      ∃ H, (Setting.ofRun c m L o k True).TypedBy s₀ H u ∧ c.Suits H.blocks v t
  /-- The allocator returns addresses of words, and never zero. -/
  addresses : ∀ s x n, L.Visits k s → s.Allocates m x n →
    x.toUInt32.toNat ≠ 0 ∧ 4 ∣ x.toUInt32.toNat
  /-- What it returns at different times lies apart. -/
  apart : ∀ s s' x n x' n', L.Visits k s → L.Visits k s' → s.Allocates m x n →
    s'.Allocates m x' n' → s = s' ∨
      x.toUInt32.toNat + 4 * n.toUInt32.toNat ≤ x'.toUInt32.toNat ∨
      x'.toUInt32.toNat + 4 * n'.toUInt32.toNat ≤ x.toUInt32.toNat
  /-- No run ends outside of the dispatch table, or at a method of another signature. -/
  dispatches : ∀ n t, (L.run k n).trap? = some t →
    (∀ i, t ≠ .undefinedElement i) ∧ ∀ a b, t ≠ .callMismatch a b
  /-- A run ends outside of the memory only where it writes to the block that was handed out last,
  if this block ends behind the memory. -/
  inside : ∀ n a, (L.run k n).trap? = some (.memoryOutOfBounds a) →
    ∃ s₀ s st, L.Begins k s₀ ∧ Trace.Reaches L k.maxCallDepth s₀ s ∧
      s.thread.step L k.maxCallDepth = .fault st (.trap (.memoryOutOfBounds a)) ∧
      (Setting.ofRun c m L o k True).Exhausted s₀ s a

/-- What is assumed of a program: its fields start with values of their types, and the places in its
objects and in its dispatch table are words. -/
structure CheckedProgram.Sized (p : Program) (c : CheckedProgram) : Prop where
  fits : ∀ k ∈ p.classes, ∀ d ∈ k.fields, c.classes.Fits (d.var, d.init)
  fields : ∀ l ∈ c.classes.layouts, l.fields.length < 2 ^ 28
  table : c.classes.vtable.entries.length < 2 ^ 31

namespace Compiled

variable {p : Program} {c : CheckedProgram} {t₀ : State} {o : Options} {m : Code.Module}
  {L : LinkedModule} {k : Config} {s₀ s s' : Trace} {x x' n n' : Int32}

section

variable (h : Compiled p c t₀ o m L) (ho : o.fault? = none) (hc : c.Sized p)
  (hk : k.maxMemoryPages ≤ 32767) (hs₀ : L.Begins k s₀)

include h ho hc hk hs₀

theorem solid : (Setting.ofRun c m L o k True).Solid s₀ t₀ where
  compiled := ⟨p, o, h⟩
  base := by
    obtain ⟨hpos, hdvd, -⟩ := Options.heapBase_ok ho
    exact ⟨hpos, hdvd⟩
  size := by
    have hle : L.pages k * pageSize ≤ 32767 * pageSize :=
      Nat.mul_le_mul_right _ (Nat.le_trans hs₀.1 hk)
    exact Nat.lt_of_le_of_lt hle (by decide)
  fields := fun l hl => ⟨hc.fields l hl, fun f hf => by
    obtain ⟨d, hd, x, hx, hcopy⟩ := h.checked.laid.fieldOf hl hf
    exact (ClassTable.fits_iff_of_fieldOf hcopy).1 (hc.fits d hd x hx)⟩
  table := hc.table
  fits := trivial
  sound := fun s hs => h.sound True (fun _ => ho) (LinkedModule.visits_iff.2 ⟨s₀, hs₀, hs⟩)

/-- The heap of a first state is empty. -/
theorem heapOk_start (F : Frame) : (Setting.ofRun c m L o k True).HeapOk s₀ ⟨[], []⟩
    (Store.start L (L.pages k)) (Trace.start ⟨Store.start L (L.pages k), F, []⟩ L.entry).heap := by
  have hsize : L.pages k * pageSize < 2 ^ 31 := (h.solid ho hc hk hs₀).size
  have hlt := h.heapBase_lt (k := k) ho
  rw [h.heap_start (k := k) ho (by omega) F]
  exact {
    pointer := by
      simp only [Store.start, h.linked.globals]
      rfl
    memory := rfl
    low := Nat.le_refl _
    high := by
      show o.heapBase ≤ L.pages k * pageSize + 2 ^ 30
      omega
    aligned := (h.solid ho hc hk hs₀).base.2
    gets := fun B hB => absurd hB List.not_mem_nil
    inside := fun B hB => absurd hB List.not_mem_nil
    apart := fun B hB => absurd hB List.not_mem_nil
    words := fun B hB => absurd hB List.not_mem_nil
    globals := by
      intro d hd v hv
      obtain ⟨hword, hfits⟩ := Setting.start_global (w := .ofRun c m L o k True) h hd hv
      exact ⟨_, hword, CheckedProgram.suits_word hfits⟩ }

theorem typed (hs : Trace.Reaches L k.maxCallDepth s₀ s) :
    (Setting.ofRun c m L o k True).Typed s₀ s := by
  have hsolid := h.solid ho hc hk hs₀
  have hheap := h.heapOk_start ho hc hk hs₀
  obtain ⟨hpages, F, hF, rfl⟩ := hs₀
  exact Setting.typed hsolid rfl hF (hheap F) hs

/-- From a typed state the statements of the innermost call go on, with variables that suit their
types. -/
theorem holds (hs : Trace.Reaches L k.maxCallDepth s₀ s) {H : Ledger}
    (hH : (Setting.ofRun c m L o k True).TypedBy s₀ H s) {g : Code.Func} {ss : List Stmt}
    (hex : s.Executes c m g ss) {Q : Trace → Prop} {lim : Nat}
    (htakes : (Setting.ofRun c m L o k True).Takes s₀ Q s.thread.callers.length lim) :
    ∃ b, (Setting.ofRun c m L o k True).Holds s₀ t₀ b Q s.thread.callers.length lim H s ∧
      b.func = g ∧ b.source = ss ∧ b.start ≤ s.thread.frame.position ∧
      (Setting.ofRun c m L o k True).Past b ∧ b.code = s.thread.frame.code := by
  obtain ⟨a, ha, hfun⟩ := hex.call
  obtain ⟨start, hst, hpos⟩ := hex.statements
  obtain ⟨b, hb⟩ := Setting.exists_codeBody (w := Setting.ofRun c m L o k True) h hst
  have hsolid := h.solid ho hc hk hs₀
  have hadmits : (Setting.ofRun c m L o k True).Admits (fun _ => True) s.thread.callers.length 0 :=
    fun _ _ _ _ => trivial
  have hhere := (hsolid.sound s hs).here h hb ha hfun hpos hadmits
  obtain ⟨a', as, hcalls, hframe, hcallers⟩ := hH.calls
  obtain rfl : a' = a := by
    rw [hcalls] at ha
    exact Option.some.inj ha
  have hvars : ∀ v ∈ b.vars, (Setting.ofRun c m L o k True).VarSafe s₀ H s.thread.frame v ∧
      (Setting.ofRun c m L o k True).VarOk H.blocks s.thread.frame v := by
    intro v hv
    obtain ⟨outer, d, hd, hx⟩ := hb.vars v hv
    obtain ⟨hslots, hstart⟩ := hb.past outer d hd (by rw [hb.name, hx])
    obtain ⟨hsafe, hok⟩ := hframe outer d hd (by rw [hfun, hx]; rfl) v (hslots ▸ hv)
    exact ⟨hsafe, hok (hstart ▸ hb.start ▸ hpos)⟩
  refine ⟨b, ⟨hsolid, hb.ok, .inl hb.past, htakes, hhere.steady.code,
    ⟨a', as, hcalls, ?_, hcallers⟩, hH.heap, fun v hv => (hvars v hv).1, fun _ v hv => (hvars v hv).2, rfl⟩,
    h.func_inj hb.ok.mem hex.mem (hb.ok.name.trans hb.name), hb.source, hb.start ▸ hpos, hb.past,
    hhere.steady.code.symm⟩
  rw [hfun, hb.name]
  rfl

theorem evaluates (hs : Trace.Reaches L k.maxCallDepth s₀ s) {g : Code.Func} {ss : List Stmt}
    (hex : s.Executes c m g ss) {e : Expr} (he : Expr.OccursIn ss e) {t : Ty} (ht : e.ty = some t)
    {n n' b : Nat} (hat : Emit.ExprAt c (m.names g) s.thread.frame.code e n
      s.thread.frame.position n' b) :
    s.Yields L k.maxCallDepth b fun u v =>
      ∃ H, (Setting.ofRun c m L o k True).TypedBy s₀ H u ∧ c.Suits H.blocks v t := by
  intro N
  obtain ⟨H, hH⟩ := (h.typed ho hc hk hs₀ hs).typed
  obtain ⟨body, hholds, rfl, rfl, hstart, hpast, hcode⟩ := h.holds ho hc hk hs₀ hs hH hex
    (Q := fun u => s.thread.callers.length ≤ u.thread.callers.length ∧
      (u.thread.callers.length = s.thread.callers.length → u.thread.frame.position < b))
    fun u _ hk hlim => ⟨hk, hlim⟩
  obtain ⟨t', ht'⟩ := exprOk_of_occursIn hholds.body.typed he
  obtain rfl : t' = t := Option.some.inj ((Emit.ty_of_exprOk ht').symm.trans ht)
  rw [← hcode] at hat
  have hgoes := hholds.expr (n := N) (S := s.thread.frame.stack)
    (fun j _ => Setting.supplies (h.solid ho hc hk hs₀) j) hpast he ht' hat hstart
    (Nat.le_refl _) (R := fun u => u.calls = s.calls ∧ u.thread.callers = s.thread.callers ∧
      u.thread.frame.code = s.thread.frame.code ∧ u.thread.frame.position = b ∧
      ∃ v, u.thread.frame.stack = v :: s.thread.frame.stack ∧
        ∃ H, (Setting.ofRun c m L o k True).TypedBy s₀ H u ∧ c.Suits H.blocks v t')
    fun H' u v hm hv _ hstates => .of_end ⟨hm.calls, hm.callers, hm.code, rfl, v, rfl, H',
      (hholds.follow hm).typedBy (.inl hpast) hstates, hv⟩
  exact (hgoes hs hH.states).reached .refl

/-- What the allocator has done at the end of a call. -/
theorem allocated (hs : Trace.Reaches L k.maxCallDepth s₀ s) (hx : s.Allocates m x n) :
    ∃ a as, s.calls = a :: as ∧ a.function = m.index Emit.allocName ∧
      (∀ b ∈ as, b.function ≠ m.index Emit.allocName) ∧ x.toUInt32.toNat = a.start ∧
      0 < a.start ∧ 4 ∣ a.start ∧ s.heap = a.start + 4 * n.toUInt32.toNat := by
  obtain ⟨a, as, hcalls, rfl, hlow, hhigh, hdvd, hheap, hcallers⟩ :=
    ((h.typed ho hc hk hs₀ hs).allocated x n hx).start
  have hsolid := h.solid ho hc hk hs₀
  have hsize : L.pages k * pageSize < 2 ^ 31 := hsolid.size
  have hle : a.start ≤ L.pages k * pageSize := hhigh
  obtain ⟨a', ha', hfun⟩ := hx.function
  rw [hcalls] at ha'
  cases ha'
  refine ⟨a, as, hcalls, hfun, hcallers, ?_, Nat.lt_of_lt_of_le hsolid.base.1 hlow, hdvd, hheap⟩
  rw [address_ofNat, Nat.mod_eq_of_lt (by omega)]

/-- A block that is handed out after another one lies behind it. -/
theorem allocated_apart (hs : Trace.Reaches L k.maxCallDepth s₀ s)
    (hr : Trace.Reaches L k.maxCallDepth s s') (hx : s.Allocates m x n)
    (hx' : s'.Allocates m x' n') :
    s = s' ∨ x.toUInt32.toNat + 4 * n.toUInt32.toNat ≤ x'.toUInt32.toNat := by
  obtain ⟨a, as, hcalls, hfun, has, hstart, -, -, hheap⟩ := h.allocated ho hc hk hs₀ hs hx
  obtain ⟨b, bs, hcalls', hfun', -, hstart', -⟩ :=
    h.allocated ho hc hk hs₀ (hs.trans hr) hx'
  obtain heq | ⟨u, hu, hr⟩ := hr.cases_head
  · exact .inl heq
  · refine .inr ?_
    rw [hstart, hstart', ← hheap]
    have hle : s.heap ≤ u.heap := (Trace.Reaches.refl.step hu).heap_le
    have hb : b ∈ s'.calls := hcalls' ▸ List.mem_cons_self
    obtain hb | ⟨-, hb⟩ := hr.mem_calls hb
    -- Behind the end of the first call none of the allocator is under way.
    · rw [Trace.calls_of_ends hu hx.ends hx.value hcalls] at hb
      exact absurd hfun' (has b hb)
    · exact Nat.le_trans hle hb

end

theorem typed_placed (h : Compiled p c t₀ o m L) {x : String} {ss : List Stmt} {start : Nat}
    (hst : c.Statements x ss start) {e : Expr} (he : Expr.OccursIn ss e) :
    (∃ t, e.ty = some t) ∧ ∃ g ∈ m.functions, g.name = x ∧ ∃ f, L.function? (m.index x) = some f ∧
      ∃ n a n' b, start ≤ a ∧ Emit.ExprAt c (m.names g) f.code e n a n' b := by
  obtain ⟨b, hb⟩ := Setting.exists_codeBody (w := Setting.ofRun c m L o {} False) h hst
  obtain ⟨f, hf, hcode⟩ := hb.function
  obtain ⟨n, n', a', hblock⟩ := hb.code
  have htyped := hb.ok.typed
  rw [hb.source] at htyped
  obtain ⟨t, ht⟩ := exprOk_of_occursIn htyped he
  obtain ⟨n₁, a, n₂, b', ha, -, hat⟩ := Emit.exprIn_of_occursIn htyped hblock he
  exact ⟨⟨t, Emit.ty_of_exprOk ht⟩, b.func, hb.ok.mem, hb.ok.name.trans hb.name, f, hf, n₁, a, n₂,
    b', hb.start ▸ ha, hcode ▸ hat⟩

/-- A trap that ends a run is plain, or is one that may stop the run in a state that it comes to. -/
theorem trap_calm (h : Compiled p c t₀ o m L) (ho : o.fault? = none) (hc : c.Sized p)
    (hk : k.maxMemoryPages ≤ 32767) {i : Nat} {t : Trap} (ht : (L.run k i).trap? = some t) :
    t.IsPlain ∨ ∃ s₀ s st, L.Begins k s₀ ∧ Trace.Reaches L k.maxCallDepth s₀ s ∧
      s.thread.step L k.maxCallDepth = .fault st (.trap t) ∧
      (Setting.ofRun c m L o k True).Calm s₀ s t := by
  by_cases hplain : t.IsPlain
  · exact .inl hplain
  · have hentry : ∀ e, Thread.newFrame L k.maxCallDepth L.entry [] 0 = .error e →
        Fault.trap t ≠ .trap e := by
      rintro e he ⟨⟩
      obtain ⟨g, -, arr, -, -, -, -, hfun, -⟩ := h.entry_function
      exact hplain (Thread.newFrame_isPlain hfun rfl he)
    obtain ⟨s, hs, st, hstep⟩ := (LinkedModule.run_fault_iff h.import?_entry hentry).1
      ⟨i, Execution.trap?_eq_some.1 ht⟩
    obtain ⟨s₀, hs₀, hr⟩ := LinkedModule.visits_iff.1 hs
    exact .inr ⟨s₀, s, st, hs₀, hr, hstep, (h.typed ho hc hk hs₀ hr).calm st t hstep⟩

theorem typeSound (h : Compiled p c t₀ o m L) (ho : o.fault? = none) (hc : c.Sized p)
    (hk : k.maxMemoryPages ≤ 32767) : TypeSound c m L o k where
  placed := fun x ss start hst e he => h.typed_placed hst he
  words := fun s₀ s hs₀ hs => (h.typed ho hc hk hs₀ hs).typed
  evaluates := fun s₀ s g ss e t n n' b hs₀ hs hex he ht hat =>
    h.evaluates ho hc hk hs₀ hs hex he ht hat
  addresses := by
    intro s x n hs hx
    obtain ⟨s₀, hs₀, hr⟩ := LinkedModule.visits_iff.1 hs
    obtain ⟨a, as, -, -, -, hstart, hpos, hdvd, -⟩ := h.allocated ho hc hk hs₀ hr hx
    rw [hstart]
    exact ⟨Nat.pos_iff_ne_zero.1 hpos, hdvd⟩
  apart := by
    intro s s' x n x' n' hs hs' hx hx'
    obtain ⟨s₀, hs₀, hr⟩ := LinkedModule.visits_iff.1 hs
    obtain ⟨s₁, hs₁, hr'⟩ := LinkedModule.visits_iff.1 hs'
    obtain rfl : s₁ = s₀ := by
      obtain ⟨-, F, hF, rfl⟩ := hs₀
      obtain ⟨-, F', hF', rfl⟩ := hs₁
      cases hF.symm.trans hF'
      rfl
    obtain hle | hle := hr.total hr'
    · exact (h.allocated_apart ho hc hk hs₀ hr hle hx hx').imp_right .inl
    · obtain heq | hle := h.allocated_apart ho hc hk hs₀ hr' hle hx' hx
      · exact .inl heq.symm
      · exact .inr (.inr hle)
  dispatches := by
    intro i t ht
    obtain hplain | ⟨_, _, _, -, -, -, hcalm⟩ := h.trap_calm ho hc hk ht
    · constructor
      · rintro j rfl
        exact hplain
      · rintro a b rfl
        exact hplain
    · constructor
      · rintro j rfl
        exact hcalm
      · rintro a b rfl
        exact hcalm
  inside := by
    intro i a ht
    obtain hplain | hcalm := h.trap_calm ho hc hk ht
    · exact hplain.elim
    · exact hcalm

end Compiled

/-- In the runs of every program that compiles, whose fields start with values of their types, under
valid settings and with addresses below `2 ^ 31`, all words suit their types. -/
theorem compile_typeSound {source : String} {o : Options} {m : Code.Module}
    (hm : compile o source = .ok m) (ho : o.fault? = none) :
    ∃ p c L, Program.parse source = .ok p ∧ p.check = .ok c ∧ m.link = .ok L ∧
      (c.Sized p → ∀ k, k.maxMemoryPages ≤ 32767 → TypeSound c m L o k) := by
  obtain ⟨p, c, hp, hc, hm⟩ := compile_ok_iff.1 hm
  obtain ⟨t₀, hok⟩ := Program.check_ok hc
  obtain ⟨L, hL, -⟩ := (Emit.module_ok hok hm).link hok
  obtain ⟨t₀, h⟩ := exists_compiled hp hc hm hL
  exact ⟨p, c, L, hp, hc, hL, fun hsized k hk => h.typeSound ho hsized hk⟩

theorem CheckedProgram.sized_iff {p : Program} {c : CheckedProgram} : c.Sized p ↔
    (∀ k ∈ p.classes, ∀ d ∈ k.fields, c.classes.Fits (d.var, d.init)) ∧
      (∀ l ∈ c.classes.layouts, l.fields.length < 2 ^ 28) ∧
      c.classes.vtable.entries.length < 2 ^ 31 :=
  ⟨fun ⟨hfits, hfields, htable⟩ => ⟨hfits, hfields, htable⟩,
    fun ⟨hfits, hfields, htable⟩ => ⟨hfits, hfields, htable⟩⟩

instance (p : Program) (c : CheckedProgram) : Decidable (c.Sized p) :=
  decidable_of_iff _ CheckedProgram.sized_iff.symm

/-- A program in which a method with a narrower result overrides another one, is called through a
variable of the class above, and a captured variable holds an object. -/
def walks : String :=
  "class A(object):\n  flag:bool = True\n  def step(self:A) -> A:\n    return None\n" ++
  "class B(A):\n  def step(self:B) -> B:\n    return self\ndef walk(a:A):\n  x:A = None\n" ++
  "  def go():\n    nonlocal x\n    x = a.step()\n  go()\n  print(x.flag)\nwalk(B())\n"

theorem walks_compiles : (compile {} walks).toOption.isSome = true ∧
    (Program.parse walks).toOption.any (fun p => p.check.toOption.any fun c =>
      decide (c.Sized p)) = true := by
  decide +kernel

theorem compile_typeSound_walks : ∃ m p c L, compile {} walks = .ok m ∧
    ({} : Options).fault? = none ∧ Program.parse walks = .ok p ∧ p.check = .ok c ∧
    m.link = .ok L ∧ c.Sized p ∧ ({} : Config).maxMemoryPages ≤ 32767 ∧
    TypeSound c m L {} {} := by
  obtain ⟨hcompiles, hchecked⟩ := walks_compiles
  obtain ⟨m, hm⟩ := toOption_isSome_eq_true.1 hcompiles
  obtain ⟨p, hp, hchecks⟩ := toOption_any_eq_true.1 hchecked
  obtain ⟨c, hc, hsized⟩ := toOption_any_eq_true.1 hchecks
  have ho : ({} : Options).fault? = none := Options.fault?_default
  have hk : ({} : Config).maxMemoryPages ≤ 32767 := by decide
  obtain ⟨p', c', L, hp', hc', hL, hall⟩ := compile_typeSound hm ho
  cases hp.symm.trans hp'
  cases hc.symm.trans hc'
  have hsized := of_decide_eq_true hsized
  exact ⟨m, p, c, L, hm, ho, hp, hc, hL, hsized, hk, hall hsized {} hk⟩

end ObjLang
