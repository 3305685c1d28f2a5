import ObjLang.Proofs.Initializers
import ObjLang.Proofs.Machine.Moves
import ObjLang.Proofs.Machine.Visits

/-!
# ObjLang.Proofs.Guards — the guard against empty references

Behind every receiver stands a call of the guard, and nothing else stops a run for an empty
reference.  The guard looks at a word with its sign: it lets the addresses below `2 ^ 31` pass, but
neither zero nor the addresses from there on, where objects may lie as well.
-/

namespace ObjLang

open Check Check.Facts

/-! ### Words -/

theorem word_nonpos_iff (v : Int32) : v ≤ 0 ↔ v = 0 ∨ 2 ^ 31 ≤ v.toUInt32.toNat := by
  rw [Int32.le_iff_toInt_le, ← Int32.toInt_inj]
  have hzero : (0 : Int32).toInt = 0 := rfl
  have hint : v.toInt = if 2 * v.toUInt32.toNat < 2 ^ 32 then (v.toUInt32.toNat : Int)
      else (v.toUInt32.toNat : Int) - (2 ^ 32 : Nat) := rfl
  have hlt := v.toUInt32.toNat_lt
  rw [hzero, hint]
  split <;> omega

/-! ### Runs -/

/-- The innermost call of a state has come to the guard of the receiver `e`, whose value is `v`. -/
def Trace.AtGuard (c : CheckedProgram) (m : Code.Module) (s : Trace) (e : Expr) (v : Int32) : Prop :=
  ∃ g ss a, s.Executes c m g ss ∧ Emit.GuardAt c (m.names g) s.thread.frame.code ss e a
    s.thread.frame.position ∧ ∃ S, s.thread.frame.stack = v :: S

/-- What the guard does in the runs of a program. -/
structure Guarded (c : CheckedProgram) (m : Code.Module) (L : LinkedModule) (o : Options)
    (k : Config) : Prop where
  /-- Every receiver in the statements of a function has a guard in the code of the function. -/
  guards : ∀ x ss start, c.Statements x ss start → ∀ e : Expr, e.IsReceiver ss →
    ∃ g ∈ m.functions, g.name = x ∧ ∃ f, L.function? (m.index x) = some f ∧
      ∃ a b, start ≤ a ∧ Emit.GuardAt c (m.names g) f.code ss e a b
  /-- From the first place of a receiver its call goes on to the guard with the value of the
  receiver. -/
  evaluates : ∀ s g ss e b, L.Visits k s → s.Executes c m g ss →
    Emit.GuardAt c (m.names g) s.thread.frame.code ss e s.thread.frame.position b →
    s.Yields L k.maxCallDepth b fun u v => u.AtGuard c m e v
  /-- The guard stops a run if the value is zero or at least `2 ^ 31`. -/
  stops : ∀ s e v, L.Visits k s → s.AtGuard c m e v → (v = 0 ∨ 2 ^ 31 ≤ v.toUInt32.toNat) →
    s.thread.step L k.maxCallDepth = .fault s.thread.store (.trap .notInitialized)
  /-- Any other value passes, and the call goes on with it. -/
  passes : ∀ s e v, L.Visits k s → s.AtGuard c m e v → ¬ (v = 0 ∨ 2 ^ 31 ≤ v.toUInt32.toNat) →
    s.thread.step L k.maxCallDepth
      = .next (s.thread.on (s.thread.frame.position + 1) s.thread.frame.stack)
  /-- A run ends for an empty reference exactly if it comes to a guard with such a value. -/
  ends : (∃ n, (L.run k n).trap? = some .notInitialized) ↔
    ∃ s e v, L.Visits k s ∧ s.AtGuard c m e v ∧ (v = 0 ∨ 2 ^ 31 ≤ v.toUInt32.toNat)
  /-- A new object lies where the heap pointer was, in the heap and in the memory, if the memory is
  smaller than `2 ^ 32` bytes.  If it is not larger than `2 ^ 31` bytes, the object passes every
  guard; if the heap starts beyond these, it passes none. -/
  constructs : ∀ s g ss i callee args x l n n' b, L.Visits k s → s.Executes c m g ss →
    Expr.OccursIn ss (.call i callee args (some (.construct x))) → c.classes.get? x = some l →
    Emit.ExprAt c (m.names g) s.thread.frame.code (.call i callee args (some (.construct x))) n
      s.thread.frame.position n' b →
    s.Yields L k.maxCallDepth b fun _ v => v = s.thread.heapWord ∧
      (L.pages k * pageSize < 2 ^ 32 → o.heapBase ≤ v.toUInt32.toNat ∧
        v.toUInt32.toNat + 4 * l.words ≤ L.pages k * pageSize) ∧
      (L.pages k * pageSize ≤ 2 ^ 31 → ¬ (v = 0 ∨ 2 ^ 31 ≤ v.toUInt32.toNat)) ∧
      (L.pages k * pageSize < 2 ^ 32 → 2 ^ 31 ≤ o.heapBase → 2 ^ 31 ≤ v.toUInt32.toNat)

namespace Compiled

variable {p : Program} {c : CheckedProgram} {t₀ : State} {o : Options} {m : Code.Module}
  {L : LinkedModule} {k : Config} {s : Trace} {e : Expr} {v : Int32}

/-- The guard is the function that its name leads to. -/
theorem guard_index (h : Compiled p c t₀ o m L) {j : Nat}
    (hj : L.import? j = some .checkInit) : j = m.index Emit.checkInitName := by
  have hguard : L.import? (m.index Emit.checkInitName) = some .checkInit :=
    h.linked.host h.generated (by simp [Emit.hostNames])
  have hall : ∀ i : Fin HostFunction.all.length, HostFunction.all[i] = .checkInit → i.val = 7 := by
    decide
  have hone : ∀ i, L.import? i = some .checkInit → i = 7 := by
    intro i hi
    rw [LinkedModule.import?, h.linked.imports, List.getElem?_toArray] at hi
    obtain ⟨hlt, hi⟩ := List.getElem?_eq_some_iff.1 hi
    exact hall ⟨i, hlt⟩ hi
  rw [hone j hj, hone _ hguard]

theorem step_atGuard (h : Compiled p c t₀ o m L) (hg : s.AtGuard c m e v) :
    s.thread.step L k.maxCallDepth = if v ≤ 0 then
        .fault s.thread.store (.trap .notInitialized)
      else .next (s.thread.on (s.thread.frame.position + 1) s.thread.frame.stack) := by
  obtain ⟨g, ss, a, -, hat, S, hstack⟩ := hg
  have hf : L.import? (m.index Emit.checkInitName) = some .checkInit :=
    h.linked.host h.generated (by simp [Emit.hostNames])
  have hop : s.thread.frame.code[s.thread.frame.position]?
      = some (.call (m.index Emit.checkInitName)) := hat.op
  rw [hstack]
  have hself : s.thread.on s.thread.frame.position (v :: S) = s.thread := by
    rw [← hstack, Thread.on_self]
  have hstep : (s.thread.on s.thread.frame.position (v :: S)).step L k.maxCallDepth = _ :=
    Thread.step_guard hop hf
  rwa [hself] at hstep

/-- Before the guard there is always a receiver. -/
theorem atGuard_of_fault (h : Compiled p c t₀ o m L) (hs : L.Visits k s) {st : Store}
    (hf : s.thread.step L k.maxCallDepth = .fault st (.trap .notInitialized)) :
    ∃ e v, s.AtGuard c m e v ∧ v ≤ 0 := by
  obtain ⟨j, hj, ⟨hop, v, S, hstack, hv⟩ | ⟨i, hi⟩⟩ := Thread.step_notInitialized hf
  · have hsound := h.sound False (fun hf => hf.elim) hs
    obtain ⟨a, as, hcalls⟩ := hsound.stacked.exists_call
    have ha : s.calls.head? = some a := by rw [hcalls]; rfl
    obtain ⟨hguard, -⟩ := hsound.op _ hop a ha
    obtain ⟨g, hg, hfun, ss, start, e, i, hst, hle, hat⟩ := hguard (h.guard_index hj)
    have hpos : start ≤ s.thread.frame.position := by
      obtain ⟨n, n', hato⟩ := hat.exprAt
      exact Nat.le_trans hle (Emit.exprAt_le hato)
    exact ⟨e, v, ⟨g, ss, i, ⟨hg, ⟨a, ha, hfun⟩, start, hst, hpos⟩, hat, S, hstack⟩, hv⟩
  · have himport : L.import? j = none := by
      obtain rfl | ⟨d, hd, -, rfl⟩ := h.table_cases hi
      · exact h.root_function.1
      · exact (h.definition_function hd).1
    cases hj.symm.trans himport

theorem constructs (h : Compiled p c t₀ o m L) (ho : o.fault? = none) (hs : L.Visits k s)
    {g : Code.Func} {ss : List Stmt} (hex : s.Executes c m g ss) {i : ExprInfo} {callee : Ident}
    {args : List Expr} {x : String} {l : ClassLayout} {n n' b : Nat}
    (hocc : Expr.OccursIn ss (.call i callee args (some (.construct x))))
    (hl : c.classes.get? x = some l)
    (hat : Emit.ExprAt c (m.names g) s.thread.frame.code
      (.call i callee args (some (.construct x))) n s.thread.frame.position n' b) :
    s.Yields L k.maxCallDepth b fun _ v => v = s.thread.heapWord ∧
      (L.pages k * pageSize < 2 ^ 32 → o.heapBase ≤ v.toUInt32.toNat ∧
        v.toUInt32.toNat + 4 * l.words ≤ L.pages k * pageSize) := by
  intro N
  obtain ⟨body, hhere, rfl, rfl, hstart, hpast, hcode⟩ := h.here True (fun _ => ho) hs hex
    (Q := fun u => s.thread.callers.length ≤ u.thread.callers.length ∧
      (u.thread.callers.length = s.thread.callers.length → u.thread.frame.position < b))
    fun u _ hk hlim => ⟨hk, hlim⟩
  rw [← hcode] at hat
  obtain ⟨l', init, hl', hinit, hcons, -⟩ := hat
  cases hl.symm.trans hl'
  -- The call of the allocator, one step on, finds room in the memory.
  have hroom : (Setting.ofRun c m L o k True).Room s := by
    obtain ⟨b₁, hcons, -⟩ := codeAt_append.1 hcons
    obtain ⟨b₂, hcons, -⟩ := codeAt_append.1 hcons
    obtain ⟨hop, -, hcons⟩ := codeAt_cons.1 hcons
    obtain ⟨hop', -, -⟩ := codeAt_cons.1 hcons
    have hstep : (s.thread.on s.thread.frame.position s.thread.frame.stack).step L k.maxCallDepth
        = _ := Thread.step_const (hhere.op_eq hop)
    have hnext : s.next L k.maxCallDepth = some (s.on (s.thread.frame.position + 1) _) :=
      Trace.next_on hstep
    have hsound := h.sound True (fun _ => ho) (hs.trans (.step .refl hnext))
    obtain ⟨a, as, hcalls, -⟩ := hhere.steady.function
    exact (hsound.op _ (hhere.op_eq hop') a (by rw [Trace.on_calls, hcalls]; rfl)).2 rfl
  have hword : s.thread.heapWord = Int32.ofNat s.heap := by
    rw [Thread.heapWord, hhere.steady.heap]
    rfl
  refine Trace.Until.reached (hhere.construct (fun j _ => Setting.serves h j) hocc.source_ne_nil
    hpast hroom hstart (ClassTable.get?_mem hl).1 hinit hcons (Nat.le_refl _)
    fun s' hf _ hplaced => .of_end ?_) .refl
  refine ⟨hf.calls, hf.callers, hf.code, rfl, _, rfl, hword.symm, fun hsize => ?_⟩
  obtain ⟨hbase, htop⟩ := hplaced trivial hsize
  have hle : s.heap < 2 ^ 32 := by
    have hlt : L.pages k * pageSize < 2 ^ 32 := hsize
    have htop' : s.heap + 4 * l.words ≤ L.pages k * pageSize := htop
    omega
  rw [address_ofNat, Nat.mod_eq_of_lt hle]
  exact ⟨hbase, htop⟩

end Compiled

theorem heapBase_pos {o : Options} (ho : o.fault? = none) : 0 < o.heapBase :=
  (Options.heapBase_ok ho).1

/-- In the runs of every program, under valid settings and any limits, a field or a method of a value
is asked for without an object exactly if the guard finds zero or an address from `2 ^ 31` on. -/
theorem guarded {source : String} {p : Program} {c : CheckedProgram} {o : Options}
    {m : Code.Module} {L : LinkedModule} (hp : Program.parse source = .ok p)
    (hc : p.check = .ok c) (ho : o.fault? = none) (hm : Emit.module c o = .ok m)
    (hL : m.link = .ok L) (k : Config) : Guarded c m L o k := by
  obtain ⟨t₀, h⟩ := exists_compiled hp hc hm hL
  refine ⟨?guards, ?evaluates, ?stops, ?passes, ?ends, ?constructs⟩
  case guards =>
    intro x ss start hst e he
    obtain ⟨b, hb⟩ := Setting.exists_codeBody (w := Setting.ofRun c m L o k False) h hst
    obtain ⟨f, hf, hcode⟩ := hb.function
    obtain ⟨n, n', a', hblock⟩ := hb.code
    have htyped := hb.ok.typed
    rw [hb.source] at htyped
    obtain ⟨i, j, hi, hat⟩ := Emit.exists_guardAt htyped hblock he
    exact ⟨b.func, hb.ok.mem, hb.ok.name.trans hb.name, f, hf, i, j, hb.start ▸ hi, hcode ▸ hat⟩
  case evaluates =>
    intro s g ss e b hs hex hat
    obtain ⟨n, n', hato⟩ := hat.exprAt
    refine (h.yields hs hex hat.isReceiver.occursIn hato).imp
      fun u v _ hcalls hcode hpos hstack _ => ?_
    obtain ⟨hg, ⟨a, ha, hfun⟩, start, hst, hle⟩ := hex
    refine ⟨g, ss, s.thread.frame.position, ⟨hg, ⟨a, hcalls ▸ ha, hfun⟩, start, hst, ?_⟩, ?_, _,
      hstack⟩
    · rw [hpos]
      exact Nat.le_trans hle (Emit.exprAt_le hato)
    · rw [hpos, hcode]
      exact hat
  case stops =>
    intro s e v hs hg hv
    rw [h.step_atGuard hg, if_pos ((word_nonpos_iff v).2 hv)]
  case passes =>
    intro s e v hs hg hv
    rw [h.step_atGuard hg, if_neg (mt (word_nonpos_iff v).1 hv)]
  case ends =>
    simp only [Execution.trap?_eq_some]
    rw [LinkedModule.run_fault_iff h.import?_entry]
    · constructor
      · rintro ⟨s, hs, st, hf⟩
        obtain ⟨e, v, hg, hv⟩ := h.atGuard_of_fault hs hf
        exact ⟨s, e, v, hs, hg, (word_nonpos_iff v).1 hv⟩
      · rintro ⟨s, e, v, hs, hg, hv⟩
        refine ⟨s, hs, s.thread.store, ?_⟩
        rw [h.step_atGuard hg, if_pos ((word_nonpos_iff v).2 hv)]
    · rintro e he heq
      cases heq
      exact absurd he Thread.newFrame_ne_notInitialized
  case constructs =>
    intro s g ss i callee args x l n n' b hs hex hocc hl hat
    refine (h.constructs ho hs hex hocc hl hat).imp ?_
    rintro u v - - - - - ⟨hv, hplaced⟩
    refine ⟨hv, hplaced, fun hsize => ?_, fun hsize hbase => Nat.le_trans hbase (hplaced hsize).1⟩
    obtain ⟨hbase, htop⟩ := hplaced (Nat.lt_of_le_of_lt hsize (by decide))
    have hwords : 0 < l.words := Nat.succ_pos _
    rintro (rfl | hv)
    · exact absurd (heapBase_pos ho) (Nat.not_lt.2 hbase)
    · omega

/-- A program that reads a field of the empty reference. -/
def readsNone : String := "class A(object):\n  n:int = 7\na:A = None\nprint(a.n)\n"

theorem readsNone_traps : (compile {} readsNone).toOption.any (fun m =>
    m.link.toOption.any fun L => (L.run {} 8).trap? == some .notInitialized) = true := by
  decide +kernel

theorem guarded_readsNone : ∃ p c m L, Program.parse readsNone = .ok p ∧ p.check = .ok c ∧
    Emit.module c {} = .ok m ∧ m.link = .ok L ∧ ∃ s e v, L.Visits {} s ∧ s.AtGuard c m e v ∧
      (v = 0 ∨ 2 ^ 31 ≤ v.toUInt32.toNat) := by
  obtain ⟨m, hcm, hlinks⟩ := toOption_any_eq_true.1 readsNone_traps
  obtain ⟨L, hL, htrap⟩ := toOption_any_eq_true.1 hlinks
  obtain ⟨p, c, hp, hc, hm⟩ := compile_ok_iff.1 hcm
  exact ⟨p, c, m, L, hp, hc, hm, hL,
    (guarded hp hc (by decide) hm hL {}).ends.1 ⟨8, beq_iff_eq.1 htrap⟩⟩

/-- A heap in the upper half of the addresses. -/
def upperHeap : Options := { memoryPages := 32769, heapBase := 2 ^ 31 }

/-- Limits that leave room for such a heap. -/
def upperLimits : Config := { maxMemoryPages := 65535 }

/-- A program that reads a field of an object. -/
def readsObject : String := "class A(object):\n  n:int = 7\na:A = None\na = A()\nprint(a.n)\n"

theorem readsObject_traps : (Program.parse readsObject).toOption.any (fun p =>
    p.check.toOption.any fun c =>
      decide (∀ d ∈ p.classes, ∀ x ∈ d.fields, c.classes.Fits (x.var, x.init)) &&
      (Emit.module c upperHeap).toOption.any fun m => m.link.toOption.any fun L =>
        (L.visited? upperLimits 27).any fun s => s.thread.frame.stack.head? != some 0 &&
          (s.thread.step L upperLimits.maxCallDepth).trap? == some .notInitialized) = true := by
  decide +kernel

/-- The guard does not stop runs for the empty reference only, even if all fields start with values of
their types. -/
theorem not_guard_stops_iff_zero : ¬ ∀ (source : String) (p : Program) (c : CheckedProgram)
    (o : Options) (m : Code.Module) (L : LinkedModule) (k : Config),
    Program.parse source = .ok p → p.check = .ok c →
    (∀ d ∈ p.classes, ∀ x ∈ d.fields, c.classes.Fits (x.var, x.init)) →
    o.fault? = none → k.fault? = none → Emit.module c o = .ok m → m.link = .ok L →
    ∀ s e v, L.Visits k s → s.AtGuard c m e v →
      ((∃ st, s.thread.step L k.maxCallDepth = .fault st (.trap .notInitialized)) ↔ v = 0) := by
  intro hall
  obtain ⟨p, hp, hchecks⟩ := toOption_any_eq_true.1 readsObject_traps
  obtain ⟨c, hc, hfits⟩ := toOption_any_eq_true.1 hchecks
  obtain ⟨hfits, hemits⟩ := (Bool.and_eq_true ..).mp hfits
  obtain ⟨m, hm, hlinks⟩ := toOption_any_eq_true.1 hemits
  obtain ⟨L, hL, hvisits⟩ := toOption_any_eq_true.1 hlinks
  obtain ⟨s, hs, htraps⟩ := (Option.any_eq_true _ _).1 hvisits
  simp only [Bool.and_eq_true, bne_iff_ne, beq_iff_eq, Step.trap?_eq_some] at htraps
  obtain ⟨hne, st, hstep⟩ := htraps
  have hs : L.Visits upperLimits s := LinkedModule.visits_iff_visited?.2 ⟨27, hs⟩
  -- The state is at a guard, whose operand is the word on top of the stack.
  obtain ⟨t₀, h⟩ := exists_compiled hp hc hm hL
  obtain ⟨e, v, hat, -⟩ := h.atGuard_of_fault hs hstep
  have hzero : v = 0 := (hall _ p c upperHeap m L upperLimits hp hc (of_decide_eq_true hfits)
    (by decide) (by decide) hm hL s e v hs hat).1 ⟨st, hstep⟩
  obtain ⟨-, -, -, -, -, S, hstack⟩ := hat
  rw [hstack, hzero] at hne
  exact hne rfl

end ObjLang
