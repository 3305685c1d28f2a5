import ObjLang.Proofs.Machine.Sound

/-!
# ObjLang.Proofs.Machine.Visits — the states of the runs of a module

A module that is run under some limits visits states, from the start of its entry on.  They are all
sound, and from each of them the statements of the innermost call go on.
-/

namespace ObjLang

open Check Check.Facts

/-- The trap that ended a run. -/
def Execution.trap? (e : Execution) : Option Trap :=
  match e.result with
  | .error (.fault (.trap t)) => some t
  | _ => none

theorem Execution.trap?_eq_some {e : Execution} {t : Trap} :
    e.trap? = some t ↔ e.result = .error (.fault (.trap t)) := by
  unfold Execution.trap?
  split
  · next u hu =>
    rw [hu]
    simp
  · next hne =>
    constructor
    · rintro ⟨⟩
    · exact fun h => absurd h (hne t)

/-- The trap that ended a step. -/
def Step.trap? : Step → Option Trap
  | .fault _ (.trap t) => some t
  | _ => none

theorem Step.trap?_eq_some {x : Step} {t : Trap} :
    x.trap? = some t ↔ ∃ st, x = .fault st (.trap t) := by
  unfold Step.trap?
  split
  · next st u =>
    simp only [Option.some.injEq, Step.fault.injEq, Fault.trap.injEq, exists_eq_left']
  · next hne =>
    constructor
    · rintro ⟨⟩
    · rintro ⟨st, rfl⟩
      exact absurd rfl (hne st t)

namespace LinkedModule

variable {L : LinkedModule} {k : Config} {s s' : Trace}

/-- The states that the runs of a linked module visit under some limits. -/
def Visits (L : LinkedModule) (k : Config) (s : Trace) : Prop :=
  L.pages k ≤ k.maxMemoryPages ∧ ∃ F, Thread.newFrame L k.maxCallDepth L.entry [] 0 = .ok F ∧
    Trace.Reaches L k.maxCallDepth (Trace.start ⟨Store.start L (L.pages k), F, []⟩ L.entry) s

/-- The state in which a run is after a number of steps, if it comes so far. -/
def visited? (L : LinkedModule) (k : Config) (n : Nat) : Option Trace :=
  if k.maxMemoryPages < L.pages k then none
  else
    match Thread.newFrame L k.maxCallDepth L.entry [] 0 with
    | .error _ => none
    | .ok F => (Trace.start ⟨Store.start L (L.pages k), F, []⟩ L.entry).after L k.maxCallDepth n

theorem visits_iff_visited? : L.Visits k s ↔ ∃ n, L.visited? k n = some s := by
  unfold Visits visited?
  split
  · next hpages => simp [Nat.not_le.2 hpages]
  · next hpages =>
    cases hF : Thread.newFrame L k.maxCallDepth L.entry [] 0 with
    | error e => simp
    | ok F =>
      simp only [Nat.not_lt.1 hpages, Except.ok.injEq, true_and, exists_eq_left',
        Trace.reaches_iff_after]

theorem Visits.trans (h : L.Visits k s) (h' : Trace.Reaches L k.maxCallDepth s s') :
    L.Visits k s' := by
  obtain ⟨hpages, F, hF, hs⟩ := h
  exact ⟨hpages, F, hF, hs.trans h'⟩

/-- A run ends in a fault, if it gets enough steps, exactly if it visits a state whose next
instruction causes it, or the entry cannot be called. -/
theorem run_fault_iff (himport : L.import? L.entry = none) {f : Fault}
    (hf : ∀ e, Thread.newFrame L k.maxCallDepth L.entry [] 0 = .error e → f ≠ .trap e) :
    (∃ n, (L.run k n).result = .error (.fault f)) ↔
      ∃ s, L.Visits k s ∧ ∃ st, s.thread.step L k.maxCallDepth = .fault st f := by
  by_cases hpages : k.maxMemoryPages < L.pages k
  · constructor
    · rintro ⟨n, hn⟩
      simp only [run, if_pos hpages] at hn
      cases hn
    · rintro ⟨s, ⟨hle, -⟩, -⟩
      exact absurd hpages (Nat.not_lt.2 hle)
  · have hle := Nat.not_lt.1 hpages
    cases hF : Thread.newFrame L k.maxCallDepth L.entry [] 0 with
    | error e =>
      constructor
      · rintro ⟨n, hn⟩
        simp only [run, if_neg hpages, Store.invoke, himport, hF] at hn
        cases hn
        exact absurd rfl (hf e hF)
      · rintro ⟨s, ⟨-, F, hF', -⟩, -⟩
        cases hF.symm.trans hF'
    | ok F =>
      have hrun : ∀ n, (L.run k n).result = .error (.fault f) ↔
          ∃ st, Thread.run L k.maxCallDepth n ⟨Store.start L (L.pages k), F, []⟩
            = some (st, .error f) := by
        intro n
        simp only [run, if_neg hpages, Store.invoke, himport, hF]
        cases Thread.run L k.maxCallDepth n ⟨Store.start L (L.pages k), F, []⟩ with
        | none => simp
        | some r =>
          obtain ⟨st, r⟩ := r
          cases r with
          | error g => simp [Except.map]
          | ok v => simp [Except.map]
      constructor
      · rintro ⟨n, hn⟩
        obtain ⟨st, hst⟩ := (hrun n).1 hn
        obtain ⟨s, hs, hstep⟩ := Trace.exists_fault
          (s := Trace.start ⟨Store.start L (L.pages k), F, []⟩ L.entry) hst
        exact ⟨s, ⟨hle, F, hF, hs⟩, st, hstep⟩
      · rintro ⟨s, ⟨-, F', hF', hs⟩, st, hstep⟩
        cases hF.symm.trans hF'
        obtain ⟨n, hn⟩ := Trace.run_eq_fault_iff.2 ⟨s, hs, hstep⟩
        exact ⟨n, (hrun n).2 ⟨st, hn⟩⟩

end LinkedModule

/-! ### Sound states -/

namespace Setting

variable {w : Setting} {p : Program} {o : Options} {t₀ : State} {b : Body} {Q : Trace → Prop}
  {lim : Nat} {s : Trace} {x : String} {ss : List Stmt} {start : Nat}

/-- The statements of a function of a program, with their code. -/
structure CodeBody (w : Setting) (t₀ : State) (x : String) (ss : List Stmt) (start : Nat)
    (b : Body) : Prop where
  name : b.name = x
  source : b.source = ss
  start : b.start = start
  ok : w.BodyOk t₀ b
  past : w.Past b
  vars : ∀ v ∈ b.vars, ∃ outer d, w.program.Nest outer d ∧ x = w.program.emitted d
  function : ∃ f, w.linked.function? (w.module.index x) = some f ∧ f.code = b.code
  code : ∃ n n' a', Emit.BlockAt w.program (w.names b) b.code ss n b.start n' a'

theorem exists_codeBody (hw : Compiled p w.program t₀ o w.module w.linked)
    (h : w.program.Statements x ss start) : ∃ b, w.CodeBody t₀ x ss start b := by
  cases h with
  | entry =>
    obtain ⟨g, hg, arr, hname, -, -, -, hfun, m, i, hblock, -⟩ := hw.entry_function
    rw [hw.linked.entry] at hfun
    exact ⟨w.main g arr, hname, rfl, rfl, bodyOk_main hw hg hname, past_main hw hg hname,
      fun v hv => absurd hv List.not_mem_nil, ⟨_, hfun, rfl⟩, _, _, _, hblock⟩
  | @definition outer d hd =>
    obtain ⟨-, g, arr, hg, -, hfun⟩ := hw.definition_function hd
    obtain ⟨b, m, b', -, -, hblock, -⟩ := hg.layout
    exact ⟨w.statements outer d g arr, hg.name, rfl, rfl, bodyOk_statements hw hd hg,
      past_statements hw hd hg, fun v _ => ⟨outer, d, hd, rfl⟩, ⟨_, hfun, rfl⟩, _, _, _,
      hblock⟩

/-- Every frame holds the code of the function that its call is one of. -/
theorem Stacked.code {hi : Nat} {Fs : List Frame} {as : List Trace.Call}
    (h : w.Stacked hi Fs as) : List.Forall₂ (fun F a => ∃ f,
      w.linked.function? a.function = some f ∧ F.code = f.code) Fs as := by
  induction h with
  | entry hr _ => exact .cons (hr.1 ▸ hr.2) .nil
  | helper _ hr _ _ ih => exact .cons (hr.1 ▸ hr.2) ih
  | body _ hr _ _ _ _ _ ih => exact .cons (hr.1 ▸ hr.2) ih

/-- A sound state in which the statements of a function run. -/
theorem Sound.here (hs : w.Sound s) (hw : Compiled p w.program t₀ o w.module w.linked)
    (hb : w.CodeBody t₀ x ss start b) {a : Trace.Call} (ha : s.calls.head? = some a)
    (hfun : a.function = w.module.index x) (hpos : start ≤ s.thread.frame.position)
    (hadmits : w.Admits Q s.thread.callers.length lim) :
    w.Here t₀ b Q s.thread.callers.length lim s := by
  obtain ⟨as, hcalls⟩ := List.head?_eq_some_iff.1 ha
  have hcode : s.thread.frame.code = b.code := by
    have hall := hs.stacked.code
    rw [hcalls] at hall
    obtain ⟨⟨f, hf, hcode⟩, -⟩ := List.forall₂_cons.1 hall
    obtain ⟨f', hf', hcode'⟩ := hb.function
    rw [hfun, hf'] at hf
    cases hf
    rw [hcode, hcode']
  refine ⟨⟨p, o, hw⟩, hb.ok, .inl hb.past, hadmits, ⟨hcode, ⟨a, as, hcalls, hb.name ▸ hfun⟩, ?_,
    hs.heap, hs.memory⟩, rfl⟩
  have hst := hs.stacked
  rw [hcalls] at hst ⊢
  refine hst.top hw (Nat.le_refl _) rfl (fun outer d hd had hle => ?_) fun _ _ _ _ _ _ _ _ => rfl
  have hstart : w.program.prologue d ≤ start := hb.start ▸ hle
  exact Nat.le_trans hstart hpos

end Setting

/-! ### Visited states -/

/-- The first address on the heap under valid settings. -/
theorem Options.heapBase_ok {o : Options} (ho : o.fault? = none) :
    0 < o.heapBase ∧ 4 ∣ o.heapBase ∧ o.heapBase < o.memoryPages * pageSize := by
  simp only [Options.fault?] at ho
  repeat' split at ho
  all_goals cases ho
  next hbase _ hlt _ =>
    rw [not_or, not_ne_iff] at hbase
    exact ⟨Nat.pos_of_ne_zero hbase.1, Nat.dvd_of_mod_eq_zero hbase.2, Nat.lt_of_not_le hlt⟩

/-- The setting in which a module runs under some limits. -/
def Setting.ofRun (c : CheckedProgram) (m : Code.Module) (L : LinkedModule) (o : Options)
    (k : Config) (fits : Prop) : Setting where
  program := c
  module := m
  linked := L
  maxDepth := k.maxCallDepth
  size := L.pages k * pageSize
  base := o.heapBase
  fits := fits

namespace Compiled

variable {p : Program} {c : CheckedProgram} {t₀ : State} {o : Options} {m : Code.Module}
  {L : LinkedModule} {k : Config} {s : Trace}

theorem import?_entry (h : Compiled p c t₀ o m L) : L.import? L.entry = none := by
  obtain ⟨g, hg, arr, hname, -⟩ := h.entry_function
  obtain ⟨-, -, himport, -⟩ := h.linked.function? h.generated hg
  rwa [h.linked.entry, ← hname]

theorem heapWord_start (h : Compiled p c t₀ o m L) (F : Frame) :
    Thread.heapWord ⟨Store.start L (L.pages k), F, []⟩ = Int32.ofNat o.heapBase := by
  simp only [Thread.heapWord, Store.start, h.linked.globals]
  rfl

theorem heapBase_lt (h : Compiled p c t₀ o m L) (ho : o.fault? = none) :
    o.heapBase < L.pages k * pageSize := by
  refine Nat.lt_of_lt_of_le (Options.heapBase_ok ho).2.2 (Nat.mul_le_mul_right _ ?_)
  rw [LinkedModule.pages, h.linked.memoryPages]
  exact Nat.le_max_left _ _

/-- The heap pointer of a first state. -/
theorem heap_start (h : Compiled p c t₀ o m L) (ho : o.fault? = none)
    (hsize : L.pages k * pageSize < 2 ^ 32) (F : Frame) :
    (Trace.start ⟨Store.start L (L.pages k), F, []⟩ L.entry).heap = o.heapBase := by
  rw [Trace.start, h.heapWord_start F, address_ofNat]
  exact Nat.mod_eq_of_lt (Nat.lt_trans (h.heapBase_lt ho) hsize)

/-- The heap starts in the memory. -/
theorem room_start (h : Compiled p c t₀ o m L) (fits : Prop) (ho : fits → o.fault? = none)
    {F : Frame} :
    (Setting.ofRun c m L o k fits).Room
      (Trace.start ⟨Store.start L (L.pages k), F, []⟩ L.entry) := by
  intro hf hs
  rw [h.heap_start (ho hf) hs]
  exact ⟨Nat.le_refl _, Nat.le_of_lt (h.heapBase_lt (ho hf))⟩

/-- All states that the runs of a compiled program visit are sound. -/
theorem sound (h : Compiled p c t₀ o m L) (fits : Prop) (ho : fits → o.fault? = none) (hs : L.Visits k s) :
    (Setting.ofRun c m L o k fits).Sound s := by
  obtain ⟨-, F, hF, hs⟩ := hs
  refine Setting.sound (w := Setting.ofRun c m L o k fits) h hF (x := Emit.word o.heapBase) ?_ rfl
    (h.room_start fits ho) hs
  simp only [Store.start, h.linked.globals]
  rfl

/-! ### Statements that run -/

/-- A function of the module is known by its name. -/
theorem func_inj (h : Compiled p c t₀ o m L) {g g' : Code.Func} (hg : g ∈ m.functions)
    (hg' : g' ∈ m.functions) (heq : g.name = g'.name) : g = g' :=
  List.inj_on_of_nodup_map (List.nodup_append.1 h.generated.names).2.1 hg hg' heq

end Compiled

/-- The innermost call of a state runs the statements `ss` of the function `g`: it is one of this
function, and past its prologue. -/
structure Trace.Executes (c : CheckedProgram) (m : Code.Module) (s : Trace) (g : Code.Func)
    (ss : List Stmt) : Prop where
  mem : g ∈ m.functions
  call : ∃ a, s.calls.head? = some a ∧ a.function = m.index g.name
  statements : ∃ start, c.Statements g.name ss start ∧ start ≤ s.thread.frame.position

/-- The innermost call goes on until it comes to a position with one more operand, of which a
property holds; if the run ends or goes on for ever in between, it never does. -/
def Trace.Yields (L : LinkedModule) (maxDepth : Nat) (s : Trace) (b : Nat)
    (P : Trace → Int32 → Prop) : Prop :=
  ∀ n, Trace.Until L maxDepth
    (fun u => s.thread.callers.length ≤ u.thread.callers.length ∧
      (u.thread.callers.length = s.thread.callers.length → u.thread.frame.position < b))
    (fun u => Trace.Reaches L maxDepth s u ∧ u.calls = s.calls ∧
      u.thread.callers = s.thread.callers ∧ u.thread.frame.code = s.thread.frame.code ∧
      u.thread.frame.position = b ∧
      ∃ v, u.thread.frame.stack = v :: s.thread.frame.stack ∧ P u v) n s

theorem Trace.Yields.imp {L : LinkedModule} {maxDepth : Nat} {s : Trace} {b : Nat}
    {P P' : Trace → Int32 → Prop} (h : s.Yields L maxDepth b P)
    (hP : ∀ u v, Trace.Reaches L maxDepth s u → u.calls = s.calls → u.thread.frame.code = s.thread.frame.code →
      u.thread.frame.position = b → u.thread.frame.stack = v :: s.thread.frame.stack → P u v →
      P' u v) : s.Yields L maxDepth b P' := by
  intro n
  refine (h n).imp (fun _ hu => hu) ?_
  rintro u ⟨hreach, hcalls, hcallers, hcode, hpos, v, hstack, hv⟩
  exact ⟨hreach, hcalls, hcallers, hcode, hpos, v, hstack, hP u v hreach hcalls hcode hpos hstack hv⟩

namespace Compiled

variable {p : Program} {c : CheckedProgram} {t₀ : State} {o : Options} {m : Code.Module}
  {L : LinkedModule} {k : Config} {s : Trace} {g : Code.Func} {ss : List Stmt}
  {Q : Trace → Prop} {lim : Nat}

/-- From a visited state the statements of the innermost call go on. -/
theorem here (h : Compiled p c t₀ o m L) (fits : Prop) (ho : fits → o.fault? = none) (hs : L.Visits k s)
    (hex : s.Executes c m g ss)
    (hadmits : (Setting.ofRun c m L o k fits).Admits Q s.thread.callers.length lim) :
    ∃ b, (Setting.ofRun c m L o k fits).Here t₀ b Q s.thread.callers.length lim s ∧
      b.func = g ∧ b.source = ss ∧ b.start ≤ s.thread.frame.position ∧
      (Setting.ofRun c m L o k fits).Past b ∧ b.code = s.thread.frame.code := by
  obtain ⟨a, ha, hfun⟩ := hex.call
  obtain ⟨start, hst, hpos⟩ := hex.statements
  obtain ⟨b, hb⟩ := Setting.exists_codeBody (w := Setting.ofRun c m L o k fits) h hst
  have hhere := (h.sound fits ho hs).here h hb ha hfun hpos hadmits
  refine ⟨b, hhere, h.func_inj hb.ok.mem hex.mem (hb.ok.name.trans hb.name), hb.source,
    hb.start ▸ hpos, hb.past, hhere.steady.code.symm⟩

/-- An expression in the statements of the innermost call leaves one word. -/
theorem yields (h : Compiled p c t₀ o m L) (hs : L.Visits k s) (hex : s.Executes c m g ss)
    {e : Expr} (he : e.OccursIn ss) {n n' b : Nat} (hat : Emit.ExprAt c (m.names g)
      s.thread.frame.code e n s.thread.frame.position n' b) :
    s.Yields L k.maxCallDepth b fun _ _ => True := by
  intro N
  obtain ⟨body, hhere, rfl, rfl, hstart, hpast, hcode⟩ :=
    h.here False (fun hf => hf.elim) hs hex
      (Q := fun u => s.thread.callers.length ≤ u.thread.callers.length ∧
        (u.thread.callers.length = s.thread.callers.length → u.thread.frame.position < b))
      fun u _ hk hlim => ⟨hk, hlim⟩
  rw [← hcode] at hat
  refine Trace.Until.reached (hhere.expr (fun j _ => Setting.serves h j) hpast (fun hf => hf.elim)
    he hat hstart (Nat.le_refl _) fun s' v hf _ => .of_end ?_) .refl
  exact ⟨hf.calls, hf.callers, hf.code, rfl, v, rfl, trivial⟩

end Compiled

end ObjLang
