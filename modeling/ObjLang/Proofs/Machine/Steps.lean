import Mathlib.Algebra.Group.Nat.Defs
import ObjLang.Run

/-!
# ObjLang.Proofs.Machine.Steps — what an instruction does

Each lemma says what state follows when a thread runs an instruction, if one follows at all.  The
innermost call is given by its position and its operands, everything else by a thread that has the
same code, variables and callers.
-/

namespace ObjLang

/-! ### Words as addresses -/

theorem ofNat_address (x : Int32) : Int32.ofNat x.toUInt32.toNat = x := by
  apply Int32.toBitVec_inj.1
  simp

theorem address_ofNat (n : Nat) : (Int32.ofNat n).toUInt32.toNat = n % 2 ^ 32 := by
  simp

/-! ### Host functions -/

theorem HostFunction.call_line {f : HostFunction} {args : List Int32} {l : String}
    (h : f.call args = .ok (.line l)) : f.hasResult = false := by
  unfold HostFunction.call at h
  split at h
  case h_7 | h_8 => split at h <;> simp at h
  all_goals first | rfl | simp at h

theorem HostFunction.call_value {f : HostFunction} {args : List Int32} {v : Int32}
    (h : f.call args = .ok (.value v)) : f.hasResult = true := by
  unfold HostFunction.call at h
  split at h
  all_goals first | rfl | simp at h

namespace Thread

variable {p : LinkedModule} {maxDepth : Nat} {t t' : Thread} {i k : Nat} {S : List Int32}
  {a b v : Int32}

/-! ### The innermost call -/

/-- The thread with its innermost call at a position, with some operands. -/
def on (t : Thread) (i : Nat) (S : List Int32) : Thread :=
  { t with frame := { t.frame with position := i, stack := S } }

/-- The thread with another value in a slot of its innermost call. -/
def withLocal (t : Thread) (k : Nat) (v : Int32) : Thread :=
  { t with frame := { t.frame with locals := t.frame.locals.setIfInBounds k v } }

/-- The thread with another store. -/
def withStore (t : Thread) (s : Store) : Thread := { t with store := s }

@[simp] theorem on_on (t : Thread) (i j : Nat) (S S' : List Int32) :
    (t.on i S).on j S' = t.on j S' := rfl

@[simp] theorem on_self (t : Thread) : t.on t.frame.position t.frame.stack = t := rfl

@[simp] theorem on_store (t : Thread) (i : Nat) (S : List Int32) :
    (t.on i S).store = t.store := rfl

@[simp] theorem on_callers (t : Thread) (i : Nat) (S : List Int32) :
    (t.on i S).callers = t.callers := rfl

@[simp] theorem on_code (t : Thread) (i : Nat) (S : List Int32) :
    (t.on i S).frame.code = t.frame.code := rfl

@[simp] theorem on_locals (t : Thread) (i : Nat) (S : List Int32) :
    (t.on i S).frame.locals = t.frame.locals := rfl

@[simp] theorem on_position (t : Thread) (i : Nat) (S : List Int32) :
    (t.on i S).frame.position = i := rfl

@[simp] theorem on_stack (t : Thread) (i : Nat) (S : List Int32) :
    (t.on i S).frame.stack = S := rfl

theorem pop_on (k : Int32 → Thread → Step) : (t.on i (v :: S)).pop k = k v (t.on i S) := rfl

/-! ### Instructions that stay in the innermost call -/

theorem step_on {op : Op} (hop : t.frame.code[i]? = some op) :
    (t.on i S).step p maxDepth = (t.on (i + 1) S).exec p maxDepth op := by
  simp only [step, on_code, on_position, hop]
  rfl

theorem step_end (hop : t.frame.code[i]? = none) :
    (t.on i S).step p maxDepth = (t.on i S).leave := by
  simp only [step, on_code, on_position, hop]

/-- The end of a call. -/
theorem step_leave {F : Frame} {Fs : List Frame}
    (hop : t.frame.code[i]? = some .ret ∨ t.frame.code[i]? = none) (hcallers : t.callers = F :: Fs) :
    (t.on i (v :: S)).step p maxDepth = .next (push ⟨t.store, F, Fs⟩ v) := by
  have hleave : ∀ j, (t.on j (v :: S)).leave = .next (push ⟨t.store, F, Fs⟩ v) := fun j => by
    simp only [leave, pop_on, on_callers, hcallers]
    rfl
  obtain hop | hop := hop
  · rw [step_on hop]
    exact hleave _
  · rw [step_end hop]
    exact hleave _

/-- The end of the last call. -/
theorem step_finish (hop : t.frame.code[i]? = none) (hcallers : t.callers = []) :
    (t.on i (v :: S)).step p maxDepth = .done t.store v := by
  rw [step_end hop]
  simp only [leave, pop_on, on_callers, hcallers, on_store]

theorem step_const (hop : t.frame.code[i]? = some (.const v)) :
    (t.on i S).step p maxDepth = .next (t.on (i + 1) (v :: S)) :=
  step_on hop

theorem step_localGet_of (hop : t.frame.code[i]? = some (.localGet k))
    (hv : t.frame.locals[k]? = some v) :
    (t.on i S).step p maxDepth = .next (t.on (i + 1) (v :: S)) := by
  rw [step_on hop]
  simp only [exec, on_locals, hv]
  rfl

theorem step_localGet (hop : t.frame.code[i]? = some (.localGet k))
    (h : (t.on i S).step p maxDepth = .next t') :
    ∃ v, t.frame.locals[k]? = some v ∧ t' = t.on (i + 1) (v :: S) := by
  rw [step_on hop] at h
  simp only [exec, on_locals] at h
  split at h
  · next v hv =>
    cases h
    exact ⟨v, hv, rfl⟩
  · cases h

theorem step_localSet (hop : t.frame.code[i]? = some (.localSet k))
    (h : (t.on i (v :: S)).step p maxDepth = .next t') :
    k < t.frame.locals.size ∧ t' = (t.withLocal k v).on (i + 1) S := by
  rw [step_on hop] at h
  simp only [exec, pop_on, setLocal] at h
  split at h
  · next hk =>
    cases h
    exact ⟨hk, rfl⟩
  · cases h

theorem step_globalGet (hop : t.frame.code[i]? = some (.globalGet k))
    (h : (t.on i S).step p maxDepth = .next t') :
    ∃ v, t.store.globals[k]? = some v ∧ t' = t.on (i + 1) (v :: S) := by
  rw [step_on hop] at h
  simp only [exec, on_store] at h
  split at h
  · next v hv =>
    cases h
    exact ⟨v, hv, rfl⟩
  · cases h

theorem step_globalSet (hop : t.frame.code[i]? = some (.globalSet k))
    (h : (t.on i (v :: S)).step p maxDepth = .next t') :
    t' = (t.withStore { t.store with globals := t.store.globals.setIfInBounds k v }).on
      (i + 1) S := by
  rw [step_on hop] at h
  simp only [exec, pop_on, setGlobal] at h
  split at h
  · cases h
    rfl
  · cases h

theorem step_load_of (hop : t.frame.code[i]? = some (.load k))
    (hin : Memory.position a k + 4 ≤ t.store.memory.size) :
    (t.on i (a :: S)).step p maxDepth
      = .next (t.on (i + 1) (t.store.memory.word (Memory.position a k) :: S)) := by
  have hload : t.store.memory.load a k = .ok (t.store.memory.word (Memory.position a k)) := by
    simp [Memory.load, Memory.holds, hin]
  rw [step_on hop]
  simp only [exec, pop_on, load, on_store, hload]
  rfl

theorem step_load (hop : t.frame.code[i]? = some (.load k))
    (h : (t.on i (a :: S)).step p maxDepth = .next t') :
    ∃ v, t' = t.on (i + 1) (v :: S) := by
  rw [step_on hop] at h
  simp only [exec, pop_on, load] at h
  split at h
  · next v _ =>
    cases h
    exact ⟨v, rfl⟩
  · cases h

theorem step_store_of (hop : t.frame.code[i]? = some (.store k))
    (hin : Memory.position a k + 4 ≤ t.store.memory.size) :
    (t.on i (v :: a :: S)).step p maxDepth = .next ((t.withStore { t.store with
      memory := t.store.memory.setWord (Memory.position a k) v }).on (i + 1) S) := by
  rw [step_on hop]
  have hholds : t.store.memory.holds (Memory.position a k) = true := by
    simp [Memory.holds, hin]
  simp only [exec, pop_on, save]
  exact if_pos hholds

theorem step_store (hop : t.frame.code[i]? = some (.store k))
    (h : (t.on i (v :: a :: S)).step p maxDepth = .next t') :
    Memory.position a k + 4 ≤ t.store.memory.size ∧
      t' = (t.withStore { t.store with
        memory := t.store.memory.setWord (Memory.position a k) v }).on (i + 1) S := by
  rw [step_on hop] at h
  simp only [exec, pop_on, save] at h
  split at h
  · next hin =>
    cases h
    exact ⟨of_decide_eq_true hin, rfl⟩
  · cases h

theorem step_binary {op : WordOp} (hop : t.frame.code[i]? = some (.binary op))
    (h : (t.on i (b :: a :: S)).step p maxDepth = .next t') :
    ∃ v, op.eval a b = .ok v ∧ t' = t.on (i + 1) (v :: S) := by
  rw [step_on hop] at h
  simp only [exec, pop_on] at h
  split at h
  · next v hv =>
    cases h
    exact ⟨v, hv, rfl⟩
  · cases h

theorem step_eqz (hop : t.frame.code[i]? = some .eqz) :
    (t.on i (v :: S)).step p maxDepth = .next (t.on (i + 1) (truthWord (v == 0) :: S)) :=
  step_on hop

theorem step_drop (hop : t.frame.code[i]? = some .drop) :
    (t.on i (v :: S)).step p maxDepth = .next (t.on (i + 1) S) :=
  step_on hop

theorem step_jump (hop : t.frame.code[i]? = some (.jump k)) :
    (t.on i S).step p maxDepth = .next (t.on k S) :=
  step_on hop

theorem step_jumpIf (hop : t.frame.code[i]? = some (.jumpIf k)) :
    (t.on i (v :: S)).step p maxDepth = .next (t.on (if v = 0 then i + 1 else k) S) := by
  rw [step_on hop]
  show Step.next (if v = 0 then _ else _) = _
  split <;> rfl

theorem step_jumpUnless (hop : t.frame.code[i]? = some (.jumpUnless k)) :
    (t.on i (v :: S)).step p maxDepth = .next (t.on (if v = 0 then k else i + 1) S) := by
  rw [step_on hop]
  show Step.next (if v = 0 then _ else _) = _
  split <;> rfl

/-! ### Calls -/

/-- A call of a host function: it prints, or leaves a word. -/
theorem call_host {f : HostFunction} (hf : p.import? k = some f) (args : List Int32)
    (h : (t.on i (args ++ S)).call p maxDepth k args.length = .next t') :
    (∃ s, f.call args.reverse = .ok (.line s) ∧
        t' = (t.withStore { t.store with output := t.store.output.push s }).on i S) ∨
      ∃ v, f.call args.reverse = .ok (.value v) ∧ t' = t.on i (v :: S) := by
  simp only [call, on_stack, List.take_left, List.drop_left, List.length_reverse, Nat.lt_irrefl,
    if_false, hf] at h
  split at h
  · next s hs =>
    cases h
    exact .inl ⟨s, hs, rfl⟩
  · next v hv =>
    cases h
    exact .inr ⟨v, hv, rfl⟩
  · cases h

/-- A call of a function of the module. -/
theorem call_function (hf : p.import? k = none) {args : List Int32}
    (h : (t.on i (args ++ S)).call p maxDepth k args.length = .next t') :
    ∃ frame, newFrame p maxDepth k args.reverse (t.frame.depth + 1) = .ok frame ∧
      t' = ⟨t.store, frame, (t.on i S).frame :: t.callers⟩ := by
  simp only [call, on_stack, List.take_left, List.drop_left, List.length_reverse, Nat.lt_irrefl,
    if_false, hf] at h
  split at h
  · next frame hframe =>
    cases h
    exact ⟨frame, hframe, rfl⟩
  · cases h

theorem newFrame_ok {args : List Int32} {depth : Nat} {F : Frame}
    (h : newFrame p maxDepth k args depth = .ok F) :
    ∃ f, p.function? k = some f ∧ args.length = f.params ∧ F.code = f.code ∧ F.position = 0 ∧
      F.stack = [] ∧ ∀ j, j < f.slots → j < args.length → F.locals[j]? = args[j]? := by
  unfold newFrame at h
  split at h
  · cases h
  · next f hf =>
    split at h
    · cases h
    · next hlen =>
      split at h
      · cases h
      · cases h
        refine ⟨f, hf, by simpa using hlen, rfl, rfl, rfl, fun j hj hjargs => ?_⟩
        simp only [List.getElem?_toArray, List.getElem?_take, hj, if_true]
        exact List.getElem?_append_left hjargs

/-- A new call is at its start, without operands. -/
theorem newFrame_start {args : List Int32} {depth : Nat} {F : Frame}
    (h : newFrame p maxDepth k args depth = .ok F) :
    ({ F with position := 0, stack := [] } : Frame) = F := by
  obtain ⟨f, -, -, -, hpos, hstack, -⟩ := newFrame_ok h
  cases F
  simp only at hpos hstack
  rw [hpos, hstack]

theorem step_call {n : Nat} {r : Bool} (hop : t.frame.code[i]? = some (.call k))
    (hk : p.signature? k = some (n, r)) :
    (t.on i S).step p maxDepth = (t.on (i + 1) S).call p maxDepth k n := by
  rw [step_on hop]
  simp only [exec, hk]

/-- The guard stops the run, or leaves what it got. -/
theorem step_guard (hop : t.frame.code[i]? = some (.call k))
    (hk : p.import? k = some .checkInit) :
    (t.on i (v :: S)).step p maxDepth = if v ≤ 0 then .fault t.store (.trap .notInitialized)
      else .next (t.on (i + 1) (v :: S)) := by
  have hsig : p.signature? k = some (1, true) := LinkedModule.signature?_host hk
  rw [step_call hop hsig]
  simp only [call, on_stack, List.take_succ_cons, List.take_zero, List.reverse_singleton,
    List.length_singleton, Nat.lt_irrefl, if_false, hk, HostFunction.call]
  by_cases hv : v ≤ 0
  · simp only [if_pos hv]
    rfl
  · simp only [if_neg hv]
    rfl

/-- A call through the table is one of a function in it with the number of parameters asked for. -/
theorem step_callIndirect {n : Nat} (hop : t.frame.code[i]? = some (.callIndirect n))
    (h : (t.on i (v :: S)).step p maxDepth = .next t') :
    ∃ j, 0 ≤ v ∧ p.table[v.toInt.toNat]? = some j ∧ p.signature? j = some (n, true) ∧
      (t.on (i + 1) S).call p maxDepth j n = .next t' := by
  rw [step_on hop] at h
  simp only [exec, pop_on, callThrough] at h
  split at h
  · cases h
  · next j actual hasResult hj =>
    split at h
    · next hsig =>
      obtain ⟨rfl, rfl⟩ := hsig
      obtain ⟨j', hj', hs⟩ := Option.bind_eq_some_iff.1 hj
      obtain ⟨sig, hsig, heq⟩ := Option.map_eq_some_iff.1 hs
      cases heq
      split at hj'
      · cases hj'
      · next hv => exact ⟨j, Int32.not_lt.1 hv, hj', hsig, h⟩
    · cases h

/-- At the end of a call the latest operand is pushed in the caller. -/
theorem leave_next (h : (t.on i (v :: S)).leave = .next t') :
    ∃ G Fs, t.callers = G :: Fs ∧ t' = push ⟨t.store, G, Fs⟩ v := by
  simp only [leave, pop_on] at h
  split at h
  · cases h
  · next G Fs hcallers =>
    cases h
    exact ⟨G, Fs, hcallers, rfl⟩

end Thread

end ObjLang
