import ObjLang.Proofs.Machine.Moves

/-!
# ObjLang.Proofs.Machine.Operands — operands taken and left by a step

A step takes as many operands of the innermost call as its instruction says, leaves as many, and goes
on at one of a few positions, or it begins or ends a call.  It keeps the number of globals, and of the
slots of every call.
-/

namespace ObjLang

/-! ### Host functions -/

/-- With enough arguments a host function does not miss any. -/
theorem HostFunction.call_ne_stackUnderflow {f : HostFunction} {args : List Int32}
    (h : args.length = f.params) : f.call args ≠ .error .stackUnderflow := by
  intro hcall
  match f, args, h with
  | .printNum, [a], _ | .printBool, [a], _ | .printNone, [a], _ | .abs, [a], _
  | .min, [a, b], _ | .max, [a, b], _ => cases hcall
  | .pow, [a, b], _ =>
    simp only [HostFunction.call] at hcall
    split at hcall <;> cases hcall
  | .checkInit, [a], _ =>
    simp only [HostFunction.call] at hcall
    split at hcall <;> cases hcall

theorem HostFunction.call_ne_unreachable {f : HostFunction} {args : List Int32} :
    f.call args ≠ .error .unreachable := by
  intro h
  unfold HostFunction.call at h
  split at h
  case h_7 | h_8 => split at h <;> cases h
  all_goals cases h

/-! ### Frames -/

theorem LinkedModule.function?_mem {p : LinkedModule} {k : Nat} {f : LinkedFunction}
    (h : p.function? k = some f) : f ∈ p.functions.toList := by
  unfold LinkedModule.function? at h
  split at h
  · cases h
  · exact Array.mem_toList_iff.2 (Array.mem_of_getElem? h)

/-- What an instruction does to a frame, when `due` words that it leaves are still to come. -/
structure Frame.Runs (p : LinkedModule) (op : Op) (due : Nat) (F G : Frame) : Prop where
  code : G.code = F.code
  locals : G.locals.size = F.locals.size
  taken : op.takes p ≤ F.stack.length
  stack : G.stack.length + due = F.stack.length - op.takes p + op.gives p
  position : G.position ∈ op.next F.position

theorem Frame.Executes.runs {p : LinkedModule} {F F' : Frame} {st st' : Store} {op : Op}
    (h : F.Executes st op F' st') : F.Runs p op 0 F' := by
  cases h with
  | const | localGet | globalGet | jump => exact ⟨rfl, rfl, Nat.zero_le _, rfl, by simp [Op.next]⟩
  | localSet hstack | globalSet hstack | load hstack | store hstack | binary hstack | eqz hstack
  | drop hstack | jumpIf_past hstack | jumpIf hstack | jumpUnless_past hstack | jumpUnless hstack =>
    exact ⟨rfl, by simp, by simp [Op.takes, hstack], by simp [Op.takes, Op.gives, hstack],
      by simp [Op.next]⟩

theorem Frame.Executes.globals {F F' : Frame} {st st' : Store} {op : Op}
    (h : F.Executes st op F' st') : st'.globals.size = st.globals.size := by
  cases h with
  | globalSet => exact Array.size_setIfInBounds
  | const | localGet | localSet | globalGet | load | store | binary | eqz | drop | jump
  | jumpIf_past | jumpIf | jumpUnless_past | jumpUnless => rfl

/-- What a step does. -/
inductive Thread.Moves (p : LinkedModule) (maxDepth : Nat) (t t' : Thread) : Prop where
  /-- It goes on in the innermost call. -/
  | on {op : Op} : t.frame.op? = some op → t'.callers = t.callers →
    t.frame.Runs p op 0 t'.frame → Moves p maxDepth t t'
  /-- It begins a call, which will leave a word. -/
  | enter {op : Op} {G : Frame} {k : Nat} {args : List Int32} {depth : Nat} :
    t.frame.op? = some op → t'.callers = G :: t.callers → t.frame.Runs p op 1 G →
    newFrame p maxDepth k args depth = .ok t'.frame → Moves p maxDepth t t'
  /-- It ends a call, which leaves its latest operand. -/
  | leave {v : Int32} {S : List Int32} {G : Frame} {Fs : List Frame} :
    t.frame.op? = some .ret ∨ t.frame.op? = none → t.frame.stack = v :: S →
    t.callers = G :: Fs → t' = ⟨t.store, { G with stack := v :: G.stack }, Fs⟩ →
    Moves p maxDepth t t'

namespace Thread

variable {p : LinkedModule} {maxDepth : Nat} {t t' : Thread} {st : Store} {op : Op} {k n : Nat}
  {S : List Int32} {v : Int32}

/-- What a step does to the operands. -/
theorem step_moves (h : t.step p maxDepth = .next t') :
    t'.store.globals.size = t.store.globals.size ∧ t.Moves p maxDepth t' := by
  cases outcome_of_step h with
  | on hop hexec => exact ⟨hexec.globals, .on hop rfl hexec.runs⟩
  | line hcalls hn hf hs =>
    obtain ⟨-, op, hop, hlen, hgives, hnext⟩ := hcalls.host hf
    rw [HostFunction.call_line hs] at hgives
    refine ⟨rfl, .on hop rfl ⟨rfl, rfl, by omega, ?_, by simp [hnext]⟩⟩
    rw [hgives]
    simp only [Frame.past_stack, List.length_drop, Bool.toNat_false]
    omega
  | value hcalls hn hf hv =>
    obtain ⟨-, op, hop, hlen, hgives, hnext⟩ := hcalls.host hf
    rw [HostFunction.call_value hv] at hgives
    refine ⟨rfl, .on hop rfl ⟨rfl, rfl, by omega, ?_, by simp [hnext]⟩⟩
    rw [hgives]
    simp only [Frame.past_stack, List.length_cons, List.length_drop, Bool.toNat_true]
    omega
  | enter hcalls hn hf hframe =>
    obtain ⟨op, r, hop, hsig, hlen, hgives, hnext⟩ := hcalls.exists_op
    have hr : r = true := by
      simp only [LinkedModule.signature?, hf, Option.map_eq_some_iff, Prod.mk.injEq] at hsig
      obtain ⟨-, -, -, rfl⟩ := hsig
      rfl
    refine ⟨rfl, .enter hop rfl ⟨rfl, rfl, by omega, ?_, by simp [hnext]⟩ hframe⟩
    rw [hgives, hr]
    simp only [Frame.past_stack, List.length_drop, Bool.toNat_true]
    omega
  | leave hend hstack hcallers => exact ⟨rfl, .leave hend hstack hcallers rfl⟩

/-- Only the end of the outermost call ends a run. -/
theorem step_done (h : t.step p maxDepth = .done st v) :
    (t.frame.op? = some .ret ∨ t.frame.op? = none) ∧ t.callers = [] ∧
      ∃ S, t.frame.stack = v :: S := by
  cases outcome_of_step h with
  | done hend hstack hcallers => exact ⟨hend, hcallers, _, hstack⟩

/-! ### New calls -/

theorem newFrame_locals {args : List Int32} {depth : Nat}
    {F : Frame} (h : Thread.newFrame p maxDepth k args depth = .ok F) :
    ∃ f, p.function? k = some f ∧ F.code = f.code ∧ F.locals.size = f.slots := by
  unfold Thread.newFrame at h
  split at h
  · cases h
  next f hf =>
  split at h
  · cases h
  split at h
  · cases h
  · cases h
    refine ⟨f, hf, rfl, ?_⟩
    simp only [List.size_toArray, List.length_take, List.length_append, List.length_replicate]
    omega

/-! ### Faults -/

/-- Why a step stops the run, as far as it could have been ruled out before. -/
structure StopsFor (p : LinkedModule) (t : Thread) (f : Fault) : Prop where
  underflow : f = .trap .stackUnderflow →
    t.frame.stack.length < ((t.frame.op?.map (Op.takes p)).getD 1)
  unreachable : f = .trap .unreachable → t.frame.op? = some .unreachable
  missing : f = .noVariable → ∃ k,
    ((t.frame.op? = some (.localGet k) ∨ t.frame.op? = some (.localSet k)) ∧
      t.frame.locals.size ≤ k) ∨
    ((t.frame.op? = some (.globalGet k) ∨ t.frame.op? = some (.globalSet k)) ∧
      t.store.globals.size ≤ k)

theorem StopsFor.lacking (h : t.frame.stack.length < ((t.frame.op?.map (Op.takes p)).getD 1)) :
    t.StopsFor p (.trap .stackUnderflow) :=
  ⟨fun _ => h, nofun, nofun⟩

theorem StopsFor.trap {e : Trap} (h : e ≠ .stackUnderflow) (h' : e ≠ .unreachable) :
    t.StopsFor p (.trap e) :=
  ⟨fun hf => absurd (Fault.trap.inj hf) h, fun hf => absurd (Fault.trap.inj hf) h', nofun⟩

theorem step_stops {f : Fault} (h : t.step p maxDepth = .fault st f) : t.StopsFor p f := by
  cases outcome_of_step h with
  | fault hfails =>
    cases hfails with
    | short hop hlen => exact .lacking (by rwa [hop])
    | ended hop hnil => exact .lacking (by simp [hop, hnil])
    | unreachable hop => exact ⟨nofun, fun _ => hop, nofun⟩
    | noLocal hop hk => exact ⟨nofun, nofun, fun _ => ⟨_, .inl ⟨hop, hk⟩⟩⟩
    | noGlobal hop hk => exact ⟨nofun, nofun, fun _ => ⟨_, .inr ⟨hop, hk⟩⟩⟩
    | outOfBounds | undefined | mismatch => exact .trap nofun nofun
    | binary _ _ he => obtain rfl | rfl := WordOp.eval_error he <;> exact .trap nofun nofun
    | host hcalls hn hf he =>
      refine .trap ?_ ?_
      · rintro rfl
        refine absurd he (HostFunction.call_ne_stackUnderflow ?_)
        rw [List.length_reverse, List.length_take, Nat.min_eq_left hn, (hcalls.host hf).1]
      · rintro rfl
        exact absurd he HostFunction.call_ne_unreachable
    | entry _ _ he =>
      obtain ⟨_, rfl⟩ | ⟨_, _, rfl⟩ | ⟨_, rfl⟩ := newFrame_error he <;> exact .trap nofun nofun

end Thread

end ObjLang
