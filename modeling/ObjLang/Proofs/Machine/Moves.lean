import ObjLang.Proofs.Machine.Outcomes

/-!
# ObjLang.Proofs.Machine.Moves — what a step can be

A step goes on in the innermost call, begins another one, or ends it.  Only a call of the guard stops
a run for an empty reference.
-/

namespace ObjLang

/-! ### Frames -/

/-- A frame with the code, the variables and the position of another one. -/
structure Frame.Like (F F' : Frame) : Prop where
  code : F'.code = F.code
  locals : F'.locals = F.locals
  position : F'.position = F.position

/-- What a step may do to the innermost frame. -/
inductive Frame.Goes (F F' : Frame) : Prop where
  | on : F'.code = F.code → F'.locals = F.locals → F'.position = F.position + 1 → Goes F F'
  | set {k : Nat} {v : Int32} : F.code[F.position]? = some (.localSet k) → F'.code = F.code →
    F'.locals = F.locals.setIfInBounds k v → F'.position = F.position + 1 → Goes F F'
  | jump {op : Op} : F.code[F.position]? = some op →
    op = .jump F'.position ∨ op = .jumpIf F'.position ∨ op = .jumpUnless F'.position →
    F'.code = F.code → F'.locals = F.locals → Goes F F'

/-- An instruction that stays in the call does not touch the code; only an assignment of a local
touches the variables. -/
theorem Frame.Executes.goes {F F' : Frame} {st st' : Store} {op : Op}
    (h : F.Executes st op F' st') (hop : F.op? = some op) : F.Goes F' := by
  cases h with
  | localSet => exact .set hop rfl rfl rfl
  | jump => exact .jump hop (.inl rfl) rfl rfl
  | jumpIf => exact .jump hop (.inr (.inl rfl)) rfl rfl
  | jumpUnless => exact .jump hop (.inr (.inr rfl)) rfl rfl
  | const | localGet | globalGet | globalSet | load | store | binary | eqz | drop | jumpIf_past
  | jumpUnless_past => exact .on rfl rfl rfl

namespace Thread

variable {p : LinkedModule} {maxDepth : Nat} {t t' : Thread}

/-- A step goes on in the innermost call, begins another one, or ends it. -/
theorem step_cases (h : t.step p maxDepth = .next t') :
    (t'.callers = t.callers ∧ t.frame.Goes t'.frame) ∨
      (∃ G, t.frame.Goes G ∧ t'.callers = G :: t.callers) ∨
      ∃ G Fs, t.callers = G :: Fs ∧ t'.callers = Fs ∧ G.Like t'.frame := by
  cases outcome_of_step h with
  | on hop hexec => exact .inl ⟨rfl, hexec.goes hop⟩
  | line | value => exact .inl ⟨rfl, .on rfl rfl rfl⟩
  | enter => exact .inr (.inl ⟨t.frame.past _, .on rfl rfl rfl, rfl⟩)
  | leave _ _ hcallers => exact .inr (.inr ⟨_, _, hcallers, rfl, rfl, rfl, rfl⟩)

end Thread

/-! ### The guard -/

theorem HostFunction.call_notInitialized {f : HostFunction} {args : List Int32}
    (h : f.call args = .error .notInitialized) :
    f = .checkInit ∧ ∃ v rest, args = v :: rest ∧ v ≤ 0 := by
  unfold HostFunction.call at h
  split at h
  case h_7 => split at h <;> cases h
  case h_8 v rest =>
    split at h
    · next hv => exact ⟨rfl, v, rest, rfl, hv⟩
    · cases h
  all_goals cases h

theorem Thread.newFrame_ne_notInitialized {p : LinkedModule} {maxDepth k : Nat}
    {args : List Int32} {depth : Nat} :
    newFrame p maxDepth k args depth ≠ .error .notInitialized := by
  intro h
  obtain ⟨_, he⟩ | ⟨_, _, he⟩ | ⟨_, he⟩ := newFrame_error h <;> cases he

/-- Only a call of the guard stops a run for an empty reference. -/
theorem Thread.step_notInitialized {p : LinkedModule} {maxDepth : Nat} {t : Thread} {st : Store}
    (h : t.step p maxDepth = .fault st (.trap .notInitialized)) :
    ∃ j, p.import? j = some .checkInit ∧
      ((t.frame.code[t.frame.position]? = some (.call j) ∧
          ∃ v S, t.frame.stack = v :: S ∧ v ≤ 0) ∨ ∃ i : Nat, p.table[i]? = some j) := by
  cases outcome_of_step h with
  | fault hfails =>
    cases hfails with
    | binary _ _ he => obtain he | he := WordOp.eval_error he <;> cases he
    | entry _ _ he => exact absurd he newFrame_ne_notInitialized
    | host hcalls hn hf he =>
      obtain ⟨rfl, v, rest, hargs, hv⟩ := HostFunction.call_notInitialized he
      obtain ⟨rfl, -⟩ := hcalls.host hf
      refine ⟨_, hf, ?_⟩
      cases hcalls with
      | through _ _ hi _ => exact .inr ⟨_, hi⟩
      | direct hop hsig =>
        obtain ⟨x, S, hstack⟩ := List.exists_cons_of_length_pos hn
        rw [hstack] at hargs
        cases hargs
        exact .inl ⟨hop, v, S, hstack, hv⟩

end ObjLang
