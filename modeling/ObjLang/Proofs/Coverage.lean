import ObjLang.Proofs.Emit.Blocks
import ObjLang.Proofs.Machine.Flow

/-!
# ObjLang.Proofs.Coverage — functions that return values end with `return`

The check asks of a function that returns values that its body always returns, which it reads off the
tree.  In generated code this holds of every run: a call that is in the code of a statement list that
always returns stays there, so it does not come to the end of the list, nor to the exit of a
conditional, and only a `return` statement in the list ends it.  So the word that stands behind the
statements of a function that returns values is never its result.
-/

namespace ObjLang

open Check Check.Facts

/-- Whether a function has a return type, other than that of `None`. -/
def FunDef.returnsValue (d : FunDef) : Bool := d.ret.any (·.name != "None")

theorem Check.Facts.RetOk.ne_none {F : Facts} {d : FunDef} {t : Ty} (h : F.RetOk d t)
    (hd : d.returnsValue = true) : t ≠ .none := by
  rintro rfl
  cases hret : d.ret with
  | none =>
    rw [FunDef.returnsValue, hret] at hd
    cases hd
  | some x =>
    rw [RetOk, hret] at h
    rw [FunDef.returnsValue, hret] at hd
    have hne : x.name ≠ "None" := bne_iff_ne.1 hd
    simp only [Ty.ofName, if_neg hne] at h
    repeat' split at h
    all_goals cases h

/-- In every run a call that is in the code of some statements, which lies between two positions of
the function, stays there as long as it is under way, and a `return` statement in them ends it. -/
structure LeftByReturn (c : CheckedProgram) (m : Code.Module) (L : LinkedModule) (g : Code.Func)
    (code : Array Op) (ss : List Stmt) (a b : Nat) : Prop where
  stays : ∀ k s s' call F F', L.Visits k s → Trace.Reaches L k.maxCallDepth s s' →
    (call, F) ∈ s.active → (call, F') ∈ s'.active → call.function = m.index g.name →
    a ≤ F.position → F.position < b → a ≤ F'.position ∧ F'.position < b
  ends : ∀ k s call calls, L.Visits k s → s.calls = call :: calls →
    call.function = m.index g.name → a ≤ s.thread.frame.position → s.thread.frame.position < b →
    s.thread.Leaves L k.maxCallDepth → s.thread.frame.op? = some .ret ∧
      ∃ e span i, Stmt.OccursIn ss (.ret e span) ∧
        Emit.StandsAt c (m.names g) code ss a (.ret e span) i (s.thread.frame.position + 1)

/-- Return coverage of a linked program. -/
structure Covered (c : CheckedProgram) (m : Code.Module) (L : LinkedModule) : Prop where
  /-- Every statement list of the source has its place in the code of its function.  If it always
  returns, nothing but its `return` statements leads out of this place. -/
  blocks : ∀ x ss start, c.Statements x ss start → ∃ g ∈ m.functions, g.name = x ∧
    ∃ f stop, L.function? (m.index x) = some f ∧
      (∀ bs, Stmt.HasBlock ss bs →
        ∃ a b, Emit.BlockStandsAt c (m.names g) f.code ss start stop bs a b) ∧
      ∀ bs a b, Emit.BlockStandsAt c (m.names g) f.code ss start stop bs a b →
        Stmt.bodyReturns bs = true → LeftByReturn c m L g f.code bs a b
  /-- No call of a function that returns values comes to the word behind its statements, and one of its
  `return` statements ends it. -/
  functions : ∀ outer d, c.Nest outer d → d.returnsValue = true →
    ∃ g ∈ m.functions, g.name = c.emitted d ∧ ∃ f stop, L.function? (m.index g.name) = some f ∧
      f.code.size = stop + 1 ∧ f.code[stop]? = some (.const 0) ∧
      (∀ k s call F, L.Visits k s → (call, F) ∈ s.active → call.function = m.index g.name →
        F.position < stop) ∧
      ∀ k s call calls, L.Visits k s → s.calls = call :: calls →
        call.function = m.index g.name → s.thread.Leaves L k.maxCallDepth →
        s.thread.frame.op? = some .ret ∧ ∃ e span i, Stmt.OccursIn d.body (.ret e span) ∧
          Emit.StandsAt c (m.names g) f.code d.body (c.prologue d) (.ret e span) i
            (s.thread.frame.position + 1)

namespace Compiled

variable {p : Program} {c : CheckedProgram} {t₀ : State} {o : Options} {m : Code.Module}
  {L : LinkedModule} {outer : List FunDef} {d : FunDef}

/-- Where the statements of a definition stand in its function. -/
theorem definition_bodyAt (h : Compiled p c t₀ o m L) (hd : c.Nest outer d) :
    ∃ g ∈ m.functions, g.name = c.emitted d ∧ ∃ f stop, L.function? (m.index g.name) = some f ∧
      Emit.BodyAt c (m.names g) f.code d.body (c.prologue d) stop ∧
      f.code[stop]? = some (.const 0) := by
  obtain ⟨g, arr, hg⟩ := h.exists_codeOf hd
  obtain ⟨stop, hbody, hlast⟩ := Emit.bodyAt_definition hg
  exact ⟨g, hg.mem, hg.name, _, stop, hg.function, hbody, hlast⟩

/-- Where the statements of a function stand. -/
theorem exists_bodyAt (h : Compiled p c t₀ o m L) {x : String} {ss : List Stmt} {start : Nat}
    (hst : c.Statements x ss start) : ∃ g ∈ m.functions, g.name = x ∧
      ∃ f stop, L.function? (m.index x) = some f ∧
        Emit.BodyAt c (m.names g) f.code ss start stop := by
  cases hst with
  | entry =>
    obtain ⟨g, hg, arr, hname, -, -, -, hfun, hcode⟩ := h.entry_function
    rw [h.linked.entry] at hfun
    obtain ⟨stop, hbody⟩ := Emit.bodyAt_entry hcode
    exact ⟨g, hg, hname, _, stop, hfun, hbody⟩
  | definition hd =>
    obtain ⟨g, hg, hname, f, stop, hfun, hbody, -⟩ := h.definition_bodyAt hd
    exact ⟨g, hg, hname, f, stop, hname ▸ hfun, hbody⟩

section

variable (h : Compiled p c t₀ o m L) {g : Code.Func} {f : LinkedFunction} {ss bs : List Stmt}
  {start stop a b : Nat} {k : Config} {s : Trace} {call : Trace.Call} {F : Frame}
  (hf : L.function? (m.index g.name) = some f)
  (hbody : Emit.BodyAt c (m.names g) f.code ss start stop)

include h hf

/-- A call of a function has come to its position along the control flow of the function. -/
theorem flowsOn_function (hs : L.Visits k s) (hact : (call, F) ∈ s.active)
    (hcall : call.function = m.index g.name) :
    F.code = f.code ∧ FlowsOn f.code 0 F.position := by
  obtain ⟨f', hf', hcode⟩ := h.active_code hs hact
  rw [hcall, hf] at hf'
  cases hf'
  exact ⟨hcode, hcode ▸ h.flowsOn hs hact⟩

include hbody

/-- Control leaves a statement list that returns only by its `return` statements. -/
theorem leftByReturn (hbs : Emit.BlockStandsAt c (m.names g) f.code ss start stop bs a b)
    (hret : Stmt.bodyReturns bs = true) : LeftByReturn c m L g f.code bs a b := by
  refine ⟨fun k s s' call F F' hs hr hact hact' hcall ha hb => ?_,
    fun k s call calls hs hcalls hcall ha hb hleaves => ?_⟩
  · obtain ⟨hcode, hflows⟩ := h.flowsOn_function hf hs hact hcall
    have hon := (h.flowsTo hs hr hact hact').flows
    rw [hcode] at hon
    exact hbody.stays hbs hret hflows ha hb hon
  · have hact := Trace.mem_active_of_calls hcalls
    obtain ⟨hcode, -⟩ := h.flowsOn_function hf hs hact hcall
    have hlt : s.thread.frame.position < f.code.size := by
      have hle := hbs.bounds.2
      rw [hbody.size]
      omega
    have hop : s.thread.frame.op? = some .ret := by
      refine hleaves.op?.resolve_right fun hnone => ?_
      rw [Frame.op?, hcode, Array.getElem?_eq_none_iff] at hnone
      omega
    obtain ⟨n, n', hat⟩ := hbs.blockAt
    rw [Frame.op?, hcode] at hop
    obtain ⟨e, span, i, hst⟩ := Emit.exists_standsAt_ret hat ha hb hop
    exact ⟨by rw [Frame.op?, hcode, hop], e, span, i, hst.occursIn, hst⟩

end

theorem covered (h : Compiled p c t₀ o m L) : Covered c m L := by
  refine ⟨fun x ss start hst => ?_, fun outer d hd hvalue => ?_⟩
  · obtain ⟨g, hg, rfl, f, stop, hf, hbody⟩ := h.exists_bodyAt hst
    obtain ⟨n, n', hblock⟩ := hbody.block
    exact ⟨g, hg, rfl, f, stop, hf, fun bs hbs => Emit.exists_blockStandsAt hblock hbs,
      fun bs a b hbs hret => h.leftByReturn hf hbody hbs hret⟩
  · obtain ⟨g, hg, hname, f, stop, hf, hbody, hlast⟩ := h.definition_bodyAt hd
    obtain ⟨id, -, -, hok, -⟩ := h.checked.record_ok hd
    have hret : Stmt.bodyReturns d.body = true := hok.returns (hok.ret.ne_none hvalue)
    have hbefore : ∀ k s call F, L.Visits k s → (call, F) ∈ s.active →
        call.function = m.index g.name → F.position < stop := fun k s call F hs hact hcall =>
      hbody.lt_end hret (h.flowsOn_function hf hs hact hcall).2
    refine ⟨g, hg, hname, f, stop, hf, hbody.size, hlast, hbefore,
      fun k s call calls hs hcalls hcall hleaves => ?_⟩
    obtain ⟨n, n', hblock⟩ := hbody.block
    have hact := Trace.mem_active_of_calls hcalls
    have hlt := hbefore k s call _ hs hact hcall
    -- The prologue is straight-line code, where no call ends.
    have hpast : c.prologue d ≤ s.thread.frame.position := by
      by_contra hpos
      obtain ⟨op, hop, hst⟩ := hbody.before _ (Nat.zero_le _) (Nat.not_le.1 hpos)
      obtain hend | hend := hleaves.op?
      all_goals
        rw [Frame.op?, (h.flowsOn_function hf hs hact hcall).1, hop] at hend
        cases hend
      cases hst
    exact (h.leftByReturn hf hbody (.whole hblock) hret).ends k s call calls hs hcalls hcall hpast
      hlt hleaves

end Compiled

/-- In the module of every program that compiles, calls of functions that return values end with their
`return` statements, and so does all code that always returns. -/
theorem compile_returns {source : String} {o : Options} {m : Code.Module}
    (hm : compile o source = .ok m) :
    ∃ p c L, Program.parse source = .ok p ∧ p.check = .ok c ∧ m.link = .ok L ∧ Covered c m L := by
  obtain ⟨p, c, hp, hc, hm⟩ := compile_ok_iff.1 hm
  obtain ⟨t₀, hok⟩ := Program.check_ok hc
  obtain ⟨L, hL, -⟩ := (Emit.module_ok hok hm).link hok
  obtain ⟨t₀, h⟩ := exists_compiled hp hc hm hL
  exact ⟨p, c, L, hp, hc, hL, h.covered⟩

/-- A program with functions that return from every part of a conditional, and from a loop. -/
def classifies : String :=
  "def f(n:int) -> int:\n  def odd(k:int) -> bool:\n    while k > 0:\n      if k == 1:\n" ++
  "        return True\n      k = k - 2\n    return False\n  if n > 10:\n    return 1\n" ++
  "  elif odd(n):\n    return 2\n  else:\n    return 3\nprint(f(7))\n"

theorem classifies_runs : (compile {} classifies).toOption.any (fun m =>
    (m.run {} 300).output == ["2"]) = true := by
  decide +kernel

theorem compile_returns_classifies : ∃ m p c L, compile {} classifies = .ok m ∧
    (m.run {} 300).output = ["2"] ∧ Program.parse classifies = .ok p ∧ p.check = .ok c ∧
    m.link = .ok L ∧ Covered c m L := by
  obtain ⟨m, hm, hruns⟩ := toOption_any_eq_true.1 classifies_runs
  obtain ⟨p, c, L, hp, hc, hL, hcov⟩ := compile_returns hm
  exact ⟨m, p, c, L, hm, beq_iff_eq.1 hruns, hp, hc, hL, hcov⟩

end ObjLang
