import ObjLang.Proofs.Linked.Variables
import ObjLang.Proofs.Machine.Operands
import ObjLang.Proofs.Machine.Trace

/-!
# ObjLang.Proofs.Variables — variables that there are

Linked code names globals and slots by number, and nothing looks whether there are so many.  There
always are as many globals.  There are as many slots if no two parameters or locals of a function
share a name; if some do, the function has fewer slots than names, and its last name leads beyond
them.
-/

namespace ObjLang

/-! ### Calls under way -/

/-- A call of a function of a module, with the slots that linking gives it. -/
def Frame.IsOf (m : Code.Module) (f : Code.Func) (F : Frame) : Prop :=
  ∃ lf, f.link m = .ok lf ∧ F.code = lf.code ∧ F.locals.size = lf.slots

/-- All calls under way are of functions of a module, and the globals are its own. -/
structure Thread.IsOf (m : Code.Module) (t : Thread) : Prop where
  frames : ∀ F ∈ t.frames, ∃ f ∈ m.functions, F.IsOf m f
  globals : t.store.globals.size = m.globals.length

/-- The next instruction of a thread. -/
def Thread.op? (t : Thread) : Option Op := t.frame.op?

theorem Frame.IsOf.of_runs {p : LinkedModule} {m : Code.Module} {f : Code.Func} {F G : Frame}
    {op : Op} {due : Nat} (h : F.IsOf m f) (hruns : F.Runs p op due G) : G.IsOf m f := by
  obtain ⟨lf, hlf, hcode, hsize⟩ := h
  exact ⟨lf, hlf, hruns.code.trans hcode, hruns.locals.trans hsize⟩

section

variable {m : Code.Module} {L : LinkedModule} {maxDepth k : Nat} {args : List Int32} {depth : Nat}
  {F : Frame} {t t' : Thread} {s : Trace} {st : Store}

theorem Code.Module.Links.newFrame (h : m.Links L)
    (hF : Thread.newFrame L maxDepth k args depth = .ok F) : ∃ f ∈ m.functions, F.IsOf m f := by
  obtain ⟨lf, hlf, hcode, hsize⟩ := Thread.newFrame_locals hF
  obtain ⟨i, hi, rfl⟩ := List.mem_iff_getElem.1 (LinkedModule.function?_mem hlf)
  have hi' : i < m.functions.length := h.functions.length_eq ▸ hi
  exact ⟨m.functions[i], List.getElem_mem hi', _,
    (List.forall₂_iff_get.1 h.functions).2 i hi' hi, hcode, hsize⟩

/-- A step keeps to the functions and the globals of a module. -/
theorem Thread.IsOf.step (ht : t.IsOf m) (h : m.Links L) (hstep : t.step L maxDepth = .next t') :
    t'.IsOf m := by
  obtain ⟨hglobals, hmoves⟩ := step_moves hstep
  refine ⟨?_, hglobals.trans ht.globals⟩
  obtain ⟨hframe, hcallers⟩ := List.forall_mem_cons.1 ht.frames
  have hinner : ∀ {G : Frame} {op : Op} {due : Nat}, t.frame.Runs L op due G →
      ∃ f ∈ m.functions, G.IsOf m f := by
    intro G op due hruns
    obtain ⟨f, hf, hF⟩ := hframe
    exact ⟨f, hf, hF.of_runs hruns⟩
  cases hmoves with
  | on hop hsame hruns =>
    refine List.forall_mem_cons.2 ⟨hinner hruns, ?_⟩
    rw [hsame]
    exact hcallers
  | enter hop hcons hruns hnew =>
    refine List.forall_mem_cons.2 ⟨h.newFrame hnew, ?_⟩
    rw [hcons]
    exact List.forall_mem_cons.2 ⟨hinner hruns, hcallers⟩
  | leave hop hstack hcons ht' =>
    subst ht'
    rw [hcons] at hcallers
    obtain ⟨hG, hFs⟩ := List.forall_mem_cons.1 hcallers
    exact List.forall_mem_cons.2 ⟨hG, hFs⟩

/-- The states that a call from outside comes to. -/
def LinkedModule.Comes (L : LinkedModule) (maxDepth : Nat) (st : Store) (index : Nat)
    (args : List Int32) (s : Trace) : Prop :=
  L.import? index = none ∧ ∃ F, Thread.newFrame L maxDepth index args 0 = .ok F ∧
    Trace.Reaches L maxDepth (Trace.start ⟨st, F, []⟩ index) s

/-- A call from outside keeps to the functions and the globals of a module. -/
theorem LinkedModule.Comes.isOf (hs : L.Comes maxDepth st k args s) (h : m.Links L)
    (hst : st.globals.size = m.globals.length) : s.thread.IsOf m := by
  obtain ⟨-, F, hF, hreaches⟩ := hs
  induction hreaches with
  | refl =>
    refine ⟨fun G hG => ?_, hst⟩
    obtain rfl := List.mem_singleton.1 hG
    exact h.newFrame hF
  | step _ hv ih =>
    obtain ⟨t, ht, rfl⟩ := Trace.next_eq_some.1 hv
    exact ih.step h ht

/-- A call from outside ends in a missing variable exactly if it comes to an instruction that names
one. -/
theorem LinkedModule.invoke_noVariable_iff :
    (∃ n st', st.invoke L maxDepth n k args = some (st', .error .noVariable)) ↔
      ∃ s, L.Comes maxDepth st k args s ∧ ∃ st', s.thread.step L maxDepth = .fault st' .noVariable := by
  unfold Store.invoke LinkedModule.Comes
  cases himport : L.import? k with
  | some f =>
    simp only [reduceCtorEq, false_and, exists_false, iff_false, not_exists]
    intro n st' h
    split at h <;> cases h
  | none =>
    cases hF : Thread.newFrame L maxDepth k args 0 with
    | error e => simp
    | ok F =>
      simp only [true_and, Except.ok.injEq, exists_eq_left']
      constructor
      · rintro ⟨n, st', h⟩
        obtain ⟨⟨st'', r⟩, hrun, heq⟩ := Option.map_eq_some_iff.1 h
        cases r with
        | ok v => cases heq
        | error f =>
          cases heq
          obtain ⟨s, hs, hstep⟩ := Trace.exists_fault (s := Trace.start ⟨st, F, []⟩ k) hrun
          exact ⟨s, hs, _, hstep⟩
      · rintro ⟨s, hs, st', hstep⟩
        obtain ⟨n, hn⟩ := Trace.run_eq_fault_iff.2 ⟨s, hs, hstep⟩
        refine ⟨n, st', ?_⟩
        rw [show Thread.run L maxDepth n ⟨st, F, []⟩ = some (st', .error .noVariable) from hn]
        rfl

end

/-! ### Linked modules -/

/-- Which variables there are in the calls of the functions of a linked module from outside. -/
structure Code.Module.Bounded (m : Code.Module) (L : LinkedModule) (maxDepth : Nat) (st : Store)
    (index : Nat) (args : List Int32) : Prop where
  /-- A global that an instruction names is there. -/
  globals : ∀ s k, L.Comes maxDepth st index args s →
    s.thread.op? = some (.globalGet k) ∨ s.thread.op? = some (.globalSet k) →
    k < s.thread.store.globals.size
  /-- A slot that an instruction names is the last place of a name that the function uses.  There
  are as many slots as different names. -/
  locals : ∀ s, L.Comes maxDepth st index args s → ∃ f ∈ m.functions, s.thread.frame.IsOf m f ∧
    s.thread.frame.locals.size = f.slots ∧ ∀ k,
      s.thread.op? = some (.localGet k) ∨ s.thread.op? = some (.localSet k) →
      ∃ x, (.localGet x ∈ f.body ∨ .localSet x ∈ f.body) ∧ f.slot x = .ok k ∧
        k < f.params.length + f.locals.length
  /-- The last places of all names are slots exactly if the function has no name twice. -/
  fits : ∀ f ∈ m.functions, (∀ x k, f.slot x = .ok k → k < f.slots) ↔ (f.params ++ f.locals).Nodup
  /-- A call from outside ends for a missing variable exactly if it comes to the reading of a
  slot, or to the writing of an operand to a slot, that is not there. -/
  ends : (∃ n st', st.invoke L maxDepth n index args = some (st', .error .noVariable)) ↔
    ∃ s k, L.Comes maxDepth st index args s ∧ s.thread.frame.locals.size ≤ k ∧
      (s.thread.op? = some (.localGet k) ∨
        (s.thread.op? = some (.localSet k) ∧ s.thread.frame.stack ≠ []))
  /-- If no function has a name twice, a call that ends gives a value or a trap. -/
  safe : (∀ f ∈ m.functions, (f.params ++ f.locals).Nodup) → ∀ n st' r,
    st.invoke L maxDepth n index args = some (st', r) → (∃ v, r = .ok v) ∨ ∃ e, r = .error (.trap e)

/-- Reading a slot that is not there, and writing an operand to it, stop the run. -/
theorem Thread.step_of_noVariable {p : LinkedModule} {maxDepth k : Nat} {t : Thread}
    (hk : t.frame.locals.size ≤ k) (hop : t.op? = some (.localGet k) ∨
      (t.op? = some (.localSet k) ∧ t.frame.stack ≠ [])) :
    t.step p maxDepth = .fault t.store .noVariable := by
  obtain hop | ⟨hop, hstack⟩ := hop
  · have hget : t.frame.locals[k]? = none := Array.getElem?_eq_none_iff.2 hk
    have hop' : t.frame.code[t.frame.position]? = some (.localGet k) := hop
    simp only [step, hop', exec, jump, hget]
  · obtain ⟨v, S, hstack⟩ := List.exists_cons_of_ne_nil hstack
    have hop' : t.frame.code[t.frame.position]? = some (.localSet k) := hop
    simp only [step, hop', exec, jump, pop, hstack, withStack, setLocal, if_neg (Nat.not_lt.2 hk)]

/-- In a linked module globals are always there, and slots but for functions that have a name
twice. -/
theorem Code.Module.bounded {m : Code.Module} {L : LinkedModule} (hL : m.link = .ok L)
    (maxDepth : Nat) (st : Store) (hst : st.globals.size = m.globals.length) (index : Nat)
    (args : List Int32) : m.Bounded L maxDepth st index args := by
  have h := Code.Module.link_eq_ok hL
  -- An instruction of a call under way is one that linking has written.
  have hwrites : ∀ {s : Trace} {f : Code.Func} {op : Op}, s.thread.frame.IsOf m f →
      s.thread.op? = some op → f.Writes m f.body op := by
    rintro s f op ⟨lf, hlf, hcode, -⟩ hop
    refine Code.Func.link_writes hlf op ?_
    rw [← hcode]
    exact Array.mem_of_getElem? hop
  have hglobals : ∀ s k, L.Comes maxDepth st index args s →
      s.thread.op? = some (.globalGet k) ∨ s.thread.op? = some (.globalSet k) →
      k < s.thread.store.globals.size := by
    intro s k hs hop
    have hof := hs.isOf h hst
    obtain ⟨f, -, hF⟩ := hof.frames _ List.mem_cons_self
    rw [hof.globals]
    obtain hop | hop := hop
    · obtain ⟨x, -, hx⟩ := hwrites hF hop
      exact globalIndex_lt hx
    · obtain ⟨x, -, hx⟩ := hwrites hF hop
      exact globalIndex_lt hx
  have hlocals : ∀ s, L.Comes maxDepth st index args s → ∃ f ∈ m.functions,
      s.thread.frame.IsOf m f ∧ s.thread.frame.locals.size = f.slots ∧ ∀ k,
        s.thread.op? = some (.localGet k) ∨ s.thread.op? = some (.localSet k) →
        ∃ x, (.localGet x ∈ f.body ∨ .localSet x ∈ f.body) ∧ f.slot x = .ok k ∧
          k < f.params.length + f.locals.length := by
    intro s hs
    obtain ⟨f, hf, hF⟩ := (hs.isOf h hst).frames _ List.mem_cons_self
    refine ⟨f, hf, hF, ?_, fun k hop => ?_⟩
    · obtain ⟨lf, hlf, -, hsize⟩ := hF
      obtain ⟨_, -, -, rfl⟩ := Code.Func.link_eq_ok hlf
      exact hsize
    · obtain hop | hop := hop
      · obtain ⟨x, hx, hk⟩ := hwrites hF hop
        exact ⟨x, .inl hx, hk, Code.Func.slot_lt hk⟩
      · obtain ⟨x, hx, hk⟩ := hwrites hF hop
        exact ⟨x, .inr hx, hk, Code.Func.slot_lt hk⟩
  have hends : (∃ n st', st.invoke L maxDepth n index args = some (st', .error .noVariable)) ↔
      ∃ s k, L.Comes maxDepth st index args s ∧ s.thread.frame.locals.size ≤ k ∧
        (s.thread.op? = some (.localGet k) ∨
          (s.thread.op? = some (.localSet k) ∧ s.thread.frame.stack ≠ [])) := by
    rw [LinkedModule.invoke_noVariable_iff]
    constructor
    · rintro ⟨s, hs, st', hstep⟩
      obtain ⟨k, ⟨hop, hk⟩ | ⟨hop, hk⟩⟩ := (Thread.step_stops hstep).missing rfl
      · refine ⟨s, k, hs, hk, hop.imp_right fun hop => ⟨hop, fun hnil => ?_⟩⟩
        have hop' : s.thread.frame.code[s.thread.frame.position]? = some (.localSet k) := hop
        simp [Thread.step, hop', Thread.exec, Thread.pop, Thread.jump, hnil, Thread.trap] at hstep
      · exact absurd (hglobals s k hs hop) (Nat.not_lt.2 hk)
    · rintro ⟨s, k, hs, hk, hop⟩
      exact ⟨s, hs, _, Thread.step_of_noVariable hk hop⟩
  refine ⟨hglobals, hlocals, fun f _ => f.fits_iff, hends, fun hnd n st' r hr => ?_⟩
  cases r with
  | ok v => exact .inl ⟨v, rfl⟩
  | error f =>
    cases f with
    | trap e => exact .inr ⟨e, rfl⟩
    | noVariable =>
      obtain ⟨s, k, hs, hk, hop⟩ := hends.1 ⟨n, st', hr⟩
      obtain ⟨f, hf, -, hsize, hslots⟩ := hlocals s hs
      obtain ⟨x, -, hx, -⟩ := hslots k (hop.imp_right And.left)
      exact absurd (f.fits_iff.2 (hnd f hf) x k hx) (Nat.not_lt.2 (hsize ▸ hk))

/-- A module with an entry that has a name twice, and reads it. -/
def Code.Module.namedTwice : Code.Module where
  imports := []
  memory := ⟨"js", "memory", 1⟩
  types := []
  globals := []
  table := []
  functions := [⟨"f", [], ["a", "b", "a"], [.localGet "a"]⟩]
  entry := ⟨"e", "f", true⟩

theorem Code.Module.bounded_namedTwice : ∃ L, namedTwice.link = .ok L ∧
    namedTwice.Bounded L 8 (Store.start L 1) 0 [] ∧
    ∃ s k, L.Comes 8 (Store.start L 1) 0 [] s ∧ s.thread.frame.locals.size ≤ k ∧
      (s.thread.op? = some (.localGet k) ∨
        (s.thread.op? = some (.localSet k) ∧ s.thread.frame.stack ≠ [])) := by
  obtain ⟨L, hL⟩ : ∃ L, namedTwice.link = .ok L := ⟨_, rfl⟩
  have h := Code.Module.bounded hL 8 (Store.start L 1) (by cases hL; rfl) 0 []
  refine ⟨L, hL, h, h.ends.1 ⟨1, Store.start L 1, ?_⟩⟩
  cases hL
  rfl

/-- Linking does not rule out that a run ends for a missing variable. -/
theorem Code.Module.not_link_bounded : ¬ ∀ (m : Code.Module) (L : LinkedModule), m.link = .ok L →
    ∀ (k : Config) (n : Nat), (L.run k n).result ≠ .error (.fault .noVariable) := by
  intro h
  obtain ⟨L, hL⟩ : ∃ L, namedTwice.link = .ok L := ⟨_, rfl⟩
  refine h namedTwice L hL {} 1 ?_
  cases hL
  rfl

end ObjLang
