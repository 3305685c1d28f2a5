import ObjLang.Proofs.Machine.Steps

/-!
# ObjLang.Proofs.Machine.Outcomes — what a step can come to

An instruction takes a fixed number of operands, leaves a fixed number, and goes on at one of a few
positions.  The outcomes of a step say for every instruction what it needs and what it makes of the
thread.  The step is opened here once; what it keeps, and why it stops a run, is read off its outcome.
-/

namespace ObjLang

/-! ### Instructions -/

namespace Op

/-- The number of operands that an instruction takes. -/
def takes (p : LinkedModule) : Op → Nat
  | localSet _ | globalSet _ | load _ | eqz | drop | ret | jumpIf _ | jumpUnless _ => 1
  | store _ | binary _ => 2
  | call index => ((p.signature? index).getD (0, false)).1
  | callIndirect params => params + 1
  | const _ | localGet _ | globalGet _ | unreachable | jump _ => 0

/-- The number of operands that an instruction leaves, if it goes on. -/
def gives (p : LinkedModule) : Op → Nat
  | const _ | localGet _ | globalGet _ | load _ | binary _ | eqz | callIndirect _ => 1
  | call index => ((p.signature? index).getD (0, false)).2.toNat
  | localSet _ | globalSet _ | store _ | drop | ret | unreachable | jump _ | jumpIf _
  | jumpUnless _ => 0

/-- The positions at which an instruction may go on. -/
def next (i : Nat) : Op → List Nat
  | ret | unreachable => []
  | jump target => [target]
  | jumpIf target | jumpUnless target => [i + 1, target]
  | _ => [i + 1]

end Op

namespace Frame

/-- The next instruction of a frame. -/
def op? (F : Frame) : Option Op := F.code[F.position]?

/-- A frame behind its next instruction, with other operands. -/
def past (F : Frame) (S : List Int32) : Frame :=
  { F with position := F.position + 1, stack := S }

@[simp] theorem past_code (F : Frame) (S : List Int32) : (F.past S).code = F.code := rfl

@[simp] theorem past_locals (F : Frame) (S : List Int32) : (F.past S).locals = F.locals := rfl

@[simp] theorem past_stack (F : Frame) (S : List Int32) : (F.past S).stack = S := rfl

@[simp] theorem past_position (F : Frame) (S : List Int32) :
    (F.past S).position = F.position + 1 := rfl

/-- What an instruction makes of the innermost frame and of the store, if it stays in the call. -/
inductive Executes (F : Frame) (st : Store) : Op → Frame → Store → Prop where
  | const {n : Int32} : Executes F st (.const n) (F.past (n :: F.stack)) st
  | localGet {k : Nat} {v : Int32} : F.locals[k]? = some v →
    Executes F st (.localGet k) (F.past (v :: F.stack)) st
  | localSet {k : Nat} {v : Int32} {S : List Int32} : F.stack = v :: S → k < F.locals.size →
    Executes F st (.localSet k) { F.past S with locals := F.locals.setIfInBounds k v } st
  | globalGet {k : Nat} {v : Int32} : st.globals[k]? = some v →
    Executes F st (.globalGet k) (F.past (v :: F.stack)) st
  | globalSet {k : Nat} {v : Int32} {S : List Int32} : F.stack = v :: S → k < st.globals.size →
    Executes F st (.globalSet k) (F.past S) { st with globals := st.globals.setIfInBounds k v }
  | load {k : Nat} {a v : Int32} {S : List Int32} : F.stack = a :: S →
    st.memory.load a k = .ok v → Executes F st (.load k) (F.past (v :: S)) st
  | store {k : Nat} {a v : Int32} {S : List Int32} : F.stack = v :: a :: S →
    st.memory.holds (Memory.position a k) → Executes F st (.store k) (F.past S)
      { st with memory := st.memory.setWord (Memory.position a k) v }
  | binary {o : WordOp} {a b v : Int32} {S : List Int32} : F.stack = b :: a :: S →
    o.eval a b = .ok v → Executes F st (.binary o) (F.past (v :: S)) st
  | eqz {v : Int32} {S : List Int32} : F.stack = v :: S →
    Executes F st .eqz (F.past (truthWord (v == 0) :: S)) st
  | drop {v : Int32} {S : List Int32} : F.stack = v :: S → Executes F st .drop (F.past S) st
  | jump {i : Nat} : Executes F st (.jump i) { F with position := i } st
  | jumpIf_past {i : Nat} {v : Int32} {S : List Int32} : F.stack = v :: S → v = 0 →
    Executes F st (.jumpIf i) (F.past S) st
  | jumpIf {i : Nat} {v : Int32} {S : List Int32} : F.stack = v :: S → v ≠ 0 →
    Executes F st (.jumpIf i) { F with position := i, stack := S } st
  | jumpUnless_past {i : Nat} {v : Int32} {S : List Int32} : F.stack = v :: S → v ≠ 0 →
    Executes F st (.jumpUnless i) (F.past S) st
  | jumpUnless {i : Nat} {v : Int32} {S : List Int32} : F.stack = v :: S → v = 0 →
    Executes F st (.jumpUnless i) { F with position := i, stack := S } st

end Frame

/-! ### Errors -/

theorem WordOp.eval_error {o : WordOp} {a b : Int32} {e : Trap} (h : o.eval a b = .error e) :
    e = .divisionByZero ∨ e = .overflow := by
  unfold WordOp.eval at h
  split at h
  case h_4 =>
    split at h
    · cases h
      exact .inl rfl
    · split at h
      · cases h
        exact .inr rfl
      · cases h
  case h_5 =>
    split at h
    · cases h
      exact .inl rfl
    · cases h
  all_goals cases h

theorem Thread.newFrame_error {p : LinkedModule} {maxDepth k : Nat} {args : List Int32}
    {depth : Nat} {e : Trap} (h : newFrame p maxDepth k args depth = .error e) :
    (∃ v, e = .undefinedElement v) ∨ (∃ n m, e = .callMismatch n m) ∨ ∃ d, e = .callDepth d := by
  unfold newFrame at h
  split at h
  · cases h
    exact .inl ⟨_, rfl⟩
  split at h
  · cases h
    exact .inr (.inl ⟨_, _, rfl⟩)
  split at h
  · cases h
    exact .inr (.inr ⟨_, rfl⟩)
  · cases h

/-! ### Outcomes -/

namespace Thread

/-- The next instruction calls a function that takes a number of the operands `S`. -/
inductive Calls (p : LinkedModule) (t : Thread) (k n : Nat) : List Int32 → Prop where
  | direct {r : Bool} : t.frame.op? = some (.call k) → p.signature? k = some (n, r) →
    Calls p t k n t.frame.stack
  | through {i : Nat} {v : Int32} {S : List Int32} : t.frame.op? = some (.callIndirect n) →
    t.frame.stack = v :: S → p.table[i]? = some k → p.signature? k = some (n, true) →
    Calls p t k n S

/-- Why a step stops the run. -/
inductive Fails (p : LinkedModule) (maxDepth : Nat) (t : Thread) : Fault → Prop where
  | short {op : Op} : t.frame.op? = some op → t.frame.stack.length < op.takes p →
    Fails p maxDepth t (.trap .stackUnderflow)
  | ended : t.frame.op? = none → t.frame.stack = [] → Fails p maxDepth t (.trap .stackUnderflow)
  | unreachable : t.frame.op? = some .unreachable → Fails p maxDepth t (.trap .unreachable)
  | noLocal {k : Nat} : t.frame.op? = some (.localGet k) ∨ t.frame.op? = some (.localSet k) →
    t.frame.locals.size ≤ k → Fails p maxDepth t .noVariable
  | noGlobal {k : Nat} : t.frame.op? = some (.globalGet k) ∨ t.frame.op? = some (.globalSet k) →
    t.store.globals.size ≤ k → Fails p maxDepth t .noVariable
  | outOfBounds {k : Nat} {a : Int32} :
    t.frame.op? = some (.load k) ∨ t.frame.op? = some (.store k) →
    ¬ t.store.memory.holds (Memory.position a k) →
    Fails p maxDepth t (.trap (.memoryOutOfBounds (Memory.position a k)))
  | binary {o : WordOp} {a b : Int32} {S : List Int32} {e : Trap} :
    t.frame.op? = some (.binary o) → t.frame.stack = b :: a :: S → o.eval a b = .error e →
    Fails p maxDepth t (.trap e)
  | undefined {v : Int32} : Fails p maxDepth t (.trap (.undefinedElement v))
  | mismatch {n m : Nat} : Fails p maxDepth t (.trap (.callMismatch n m))
  | host {k n : Nat} {S : List Int32} {f : HostFunction} {e : Trap} : t.Calls p k n S →
    n ≤ S.length → p.import? k = some f → f.call (S.take n).reverse = .error e →
    Fails p maxDepth t (.trap e)
  | entry {k n : Nat} {S : List Int32} {e : Trap} : t.Calls p k n S → p.import? k = none →
    newFrame p maxDepth k (S.take n).reverse (t.frame.depth + 1) = .error e →
    Fails p maxDepth t (.trap e)

/-- What a step comes to. -/
inductive Outcome (p : LinkedModule) (maxDepth : Nat) (t : Thread) : Step → Prop where
  /-- It stays in the innermost call. -/
  | on {op : Op} {F : Frame} {st : Store} : t.frame.op? = some op →
    t.frame.Executes t.store op F st → Outcome p maxDepth t (.next ⟨st, F, t.callers⟩)
  /-- A host function prints a line. -/
  | line {k n : Nat} {S : List Int32} {f : HostFunction} {s : String} : t.Calls p k n S →
    n ≤ S.length → p.import? k = some f → f.call (S.take n).reverse = .ok (.line s) →
    Outcome p maxDepth t
      (.next ⟨{ t.store with output := t.store.output.push s }, t.frame.past (S.drop n), t.callers⟩)
  /-- A host function gives a value. -/
  | value {k n : Nat} {S : List Int32} {f : HostFunction} {v : Int32} : t.Calls p k n S →
    n ≤ S.length → p.import? k = some f → f.call (S.take n).reverse = .ok (.value v) →
    Outcome p maxDepth t (.next ⟨t.store, t.frame.past (v :: S.drop n), t.callers⟩)
  /-- A call begins. -/
  | enter {k n : Nat} {S : List Int32} {F : Frame} : t.Calls p k n S → n ≤ S.length →
    p.import? k = none →
    newFrame p maxDepth k (S.take n).reverse (t.frame.depth + 1) = .ok F →
    Outcome p maxDepth t (.next ⟨t.store, F, t.frame.past (S.drop n) :: t.callers⟩)
  /-- The innermost call ends. -/
  | leave {v : Int32} {S : List Int32} {G : Frame} {Fs : List Frame} :
    t.frame.op? = some .ret ∨ t.frame.op? = none → t.frame.stack = v :: S → t.callers = G :: Fs →
    Outcome p maxDepth t (.next ⟨t.store, { G with stack := v :: G.stack }, Fs⟩)
  /-- The outermost call ends. -/
  | done {v : Int32} {S : List Int32} : t.frame.op? = some .ret ∨ t.frame.op? = none →
    t.frame.stack = v :: S → t.callers = [] → Outcome p maxDepth t (.done t.store v)
  | fault {f : Fault} : t.Fails p maxDepth f → Outcome p maxDepth t (.fault t.store f)

variable {p : LinkedModule} {maxDepth : Nat} {t : Thread} {op : Op} {k n i : Nat} {S : List Int32}

/-- A call takes its arguments from the operands `S`, and a call through the table its position
before them. -/
theorem Calls.exists_op (h : t.Calls p k n S) : ∃ op r, t.frame.op? = some op ∧
    p.signature? k = some (n, r) ∧ t.frame.stack.length + n = S.length + op.takes p ∧
    op.gives p = r.toNat ∧ op.next t.frame.position = [t.frame.position + 1] := by
  cases h with
  | direct hop hsig =>
    exact ⟨_, _, hop, hsig, by simp [Op.takes, hsig], by simp [Op.gives, hsig], rfl⟩
  | through hop hstack _ hsig =>
    refine ⟨_, _, hop, hsig, ?_, rfl, rfl⟩
    rw [hstack, List.length_cons, Op.takes]
    omega

theorem Calls.host {f : HostFunction} (h : t.Calls p k n S) (hf : p.import? k = some f) :
    n = f.params ∧ ∃ op, t.frame.op? = some op ∧
      t.frame.stack.length + n = S.length + op.takes p ∧ op.gives p = f.hasResult.toNat ∧
      op.next t.frame.position = [t.frame.position + 1] := by
  obtain ⟨op, r, hop, hsig, hlen, hgives, hnext⟩ := h.exists_op
  simp only [LinkedModule.signature?_host hf, Option.some.injEq, Prod.mk.injEq] at hsig
  obtain ⟨rfl, rfl⟩ := hsig
  exact ⟨rfl, op, hop, hlen, hgives, hnext⟩

theorem leave_outcome (hend : t.frame.op? = some .ret ∨ t.frame.op? = none) :
    t.Outcome p maxDepth ((t.jump i).leave) := by
  simp only [Thread.leave, pop]
  split
  · next hstack =>
    have hnil : t.frame.stack = [] := hstack
    obtain hop | hop := hend
    · exact .fault (.short hop (by simp [hnil, Op.takes]))
    · exact .fault (.ended hop hnil)
  · next v S hstack =>
    split
    · next hcallers => exact .done hend hstack hcallers
    · next hcallers => exact .leave hend hstack hcallers

theorem call_outcome (h : t.Calls p k n S) :
    t.Outcome p maxDepth (((t.jump (t.frame.position + 1)).withStack S).call p maxDepth k n) := by
  obtain ⟨op, r, hop, -, hlen, -⟩ := h.exists_op
  simp only [call]
  split
  · next hshort =>
    simp only [List.length_reverse, List.length_take, withStack] at hshort
    exact .fault (.short hop (by omega))
  next hshort =>
  have hn : n ≤ S.length := by
    simp only [List.length_reverse, List.length_take, withStack] at hshort
    omega
  split
  · next f hf =>
    split
    · next s hs => exact .line h hn hf hs
    · next v hv => exact .value h hn hf hv
    · next e he => exact .fault (.host h hn hf he)
  · next hf =>
    split
    · next F hF => exact .enter h hn hf hF
    · next e he => exact .fault (.entry h hf he)

/-- The outcome of an instruction. -/
theorem exec_outcome (hop : t.frame.op? = some op) :
    t.Outcome p maxDepth ((t.jump (t.frame.position + 1)).exec p maxDepth op) := by
  -- Too few operands are met first, whatever the instruction does with them.
  have hnone : ∀ {st}, st = t.store → t.frame.stack = [] → 0 < op.takes p →
      t.Outcome p maxDepth (.fault st (.trap .stackUnderflow)) := by
    rintro _ rfl hstack htakes
    exact .fault (.short hop (by rwa [hstack]))
  have hone : ∀ {st v}, st = t.store → t.frame.stack = [v] → 1 < op.takes p →
      t.Outcome p maxDepth (.fault st (.trap .stackUnderflow)) := by
    rintro _ v rfl hstack htakes
    exact .fault (.short hop (by rwa [hstack]))
  cases op with
  | const n => exact .on hop .const
  | localGet k =>
    simp only [exec]
    split
    · next v hv => exact .on hop (.localGet hv)
    · next hk => exact .fault (.noLocal (.inl hop) (Array.getElem?_eq_none_iff.1 hk))
  | localSet k =>
    simp only [exec, pop, setLocal]
    split
    · next hstack => exact hnone rfl hstack (Nat.succ_pos _)
    next v S hstack =>
    split
    · next hk => exact .on hop (.localSet hstack hk)
    · next hk => exact .fault (.noLocal (.inr hop) (Nat.not_lt.1 hk))
  | globalGet k =>
    simp only [exec]
    split
    · next v hv => exact .on hop (.globalGet hv)
    · next hk => exact .fault (.noGlobal (.inl hop) (Array.getElem?_eq_none_iff.1 hk))
  | globalSet k =>
    simp only [exec, pop, setGlobal]
    split
    · next hstack => exact hnone rfl hstack (Nat.succ_pos _)
    next v S hstack =>
    split
    · next hk => exact .on hop (.globalSet hstack hk)
    · next hk => exact .fault (.noGlobal (.inr hop) (Nat.not_lt.1 hk))
  | load k =>
    simp only [exec, pop, load]
    split
    · next hstack => exact hnone rfl hstack (Nat.succ_pos _)
    next a S hstack =>
    split
    · next v hv => exact .on hop (.load hstack hv)
    · next e he =>
      simp only [Memory.load] at he
      split at he
      · cases he
      · next hout =>
        cases he
        exact .fault (.outOfBounds (.inl hop) hout)
  | store k =>
    simp only [exec, pop, save]
    split
    · next hstack => exact hnone rfl hstack (Nat.succ_pos _)
    next v S hstack =>
    split
    · next hnil => exact hone rfl (hstack.trans (congrArg (v :: ·) hnil)) (Nat.lt_succ_self 1)
    next a S' ha =>
    have htwo : t.frame.stack = v :: a :: S' := hstack.trans (congrArg (v :: ·) ha)
    split
    · next hin => exact .on hop (.store htwo hin)
    · next hout => exact .fault (.outOfBounds (.inr hop) hout)
  | binary o =>
    simp only [exec, pop]
    split
    · next hstack => exact hnone rfl hstack (Nat.succ_pos _)
    next b S hstack =>
    split
    · next hnil => exact hone rfl (hstack.trans (congrArg (b :: ·) hnil)) (Nat.lt_succ_self 1)
    next a S' ha =>
    have htwo : t.frame.stack = b :: a :: S' := hstack.trans (congrArg (b :: ·) ha)
    split
    · next v hv => exact .on hop (.binary htwo hv)
    · next e he => exact .fault (.binary hop htwo he)
  | eqz =>
    simp only [exec, pop]
    split
    · next hstack => exact hnone rfl hstack (Nat.succ_pos _)
    · next hstack => exact .on hop (.eqz hstack)
  | call k =>
    simp only [exec]
    split
    · next hsig => exact call_outcome (.direct hop hsig)
    · exact .fault .undefined
  | callIndirect n =>
    simp only [exec, pop, callThrough]
    split
    · next hstack => exact hnone rfl hstack (Nat.succ_pos _)
    next v S hstack =>
    split
    · exact .fault .undefined
    next k actual hasResult hk =>
    split
    · next hsame =>
      obtain ⟨rfl, rfl⟩ := hsame
      obtain ⟨k', hk', hsig⟩ := Option.bind_eq_some_iff.1 hk
      obtain ⟨sig, hsig, heq⟩ := Option.map_eq_some_iff.1 hsig
      cases heq
      split at hk'
      · cases hk'
      · exact call_outcome (.through hop hstack hk' hsig)
    · exact .fault .mismatch
  | drop =>
    simp only [exec, pop]
    split
    · next hstack => exact hnone rfl hstack (Nat.succ_pos _)
    · next hstack => exact .on hop (.drop hstack)
  | ret => exact leave_outcome (.inl hop)
  | unreachable => exact .fault (.unreachable hop)
  | jump i => exact .on hop .jump
  | jumpIf i =>
    simp only [exec, pop]
    split
    · next hstack => exact hnone rfl hstack (Nat.succ_pos _)
    next v S hstack =>
    split
    · next hv => exact .on hop (.jumpIf_past hstack hv)
    · next hv => exact .on hop (.jumpIf hstack hv)
  | jumpUnless i =>
    simp only [exec, pop]
    split
    · next hstack => exact hnone rfl hstack (Nat.succ_pos _)
    next v S hstack =>
    split
    · next hv => exact .on hop (.jumpUnless hstack hv)
    · next hv => exact .on hop (.jumpUnless_past hstack hv)

/-- The outcome of a step. -/
theorem outcome_of_step {s : Step} (h : t.step p maxDepth = s) : t.Outcome p maxDepth s := by
  rw [← h]
  unfold step
  split
  · next hop => exact exec_outcome hop
  · next hop => exact leave_outcome (i := t.frame.position) (.inr hop)

end Thread

end ObjLang
