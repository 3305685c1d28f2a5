import ObjLang.Proofs.Linked.Variables
import ObjLang.Proofs.Machine.Operands
import ObjLang.Proofs.Machine.Trace

/-!
# ObjLang.Proofs.Machine.Height — how many operands there are at a position

Going through the code of a function once, from its start, gives a number of operands for each
position.  Where these numbers agree with every jump, they are those of every run: no instruction
lacks an operand, and a call ends with the one operand that it leaves.
-/

namespace ObjLang

/-! ### Numbers of operands -/

/-- The number of operands behind an instruction that finds some.  Behind an instruction that does
not go on to the next one there are none. -/
def Op.behind (p : LinkedModule) (height : Nat) : Op → Nat
  | .ret | .unreachable | .jump _ => 0
  | op => height - op.takes p + op.gives p

/-- The number of operands at a position of code. -/
def LinkedModule.height (p : LinkedModule) (code : Array Op) : Nat → Nat
  | 0 => 0
  | i + 1 =>
    match code[i]? with
    | some op => op.behind p (p.height code i)
    | none => p.height code i

/-- The instruction at a position finds its operands, and wherever it goes on there are as many as
it leaves. -/
structure LinkedModule.Fits (p : LinkedModule) (code : Array Op) (i : Nat) (op : Op) : Prop where
  takes : op.takes p ≤ p.height code i
  next : ∀ j ∈ op.next i, j ≤ code.size ∧
    p.height code j = p.height code i - op.takes p + op.gives p
  ret : op = .ret → p.height code i = 1
  reached : op ≠ .unreachable

/-- The numbers of operands of a function agree with its jumps, and it names only variables that
there are. -/
structure LinkedFunction.Balanced (p : LinkedModule) (f : LinkedFunction) : Prop where
  ends : p.height f.code f.code.size = 1
  fits : ∀ (i : Nat) op, f.code[i]? = some op → p.Fits f.code i op
  locals : ∀ i k : Nat, f.code[i]? = some (.localGet k) ∨ f.code[i]? = some (.localSet k) → k < f.slots
  globals : ∀ i k : Nat, f.code[i]? = some (.globalGet k) ∨ f.code[i]? = some (.globalSet k) →
    k < p.globals.size

/-! ### Stretches of code -/

/-- From a position with `h` operands code leads to another one with `h'`, and if the condition `E`
on the targets of jumps holds, all instructions between them fit. -/
structure LinkedModule.Carries (p : LinkedModule) (code : Array Op) (E : Prop) (a h b h' : Nat) :
    Prop where
  le : a ≤ b
  bound : a ≤ code.size → b ≤ code.size
  height : p.height code a = h → p.height code b = h'
  fits : p.height code a = h → a ≤ code.size → E → ∀ (i : Nat) op, a ≤ i → i < b →
    code[i]? = some op → p.Fits code i op

namespace LinkedModule

variable {p : LinkedModule} {code : Array Op} {E E' : Prop} {a b d h h' h'' i : Nat} {op : Op}

theorem height_succ (hop : code[i]? = some op) :
    p.height code (i + 1) = op.behind p (p.height code i) := by
  rw [height, hop]

namespace Carries

theorem refl (p : LinkedModule) (code : Array Op) (a h : Nat) : p.Carries code True a h a h :=
  ⟨Nat.le_refl a, fun hb => hb, fun hh => hh, fun _ _ _ i op hi hi' _ => absurd hi (by omega)⟩

theorem imp (hc : p.Carries code E a h b h') (hE : E' → E) : p.Carries code E' a h b h' :=
  ⟨hc.le, hc.bound, hc.height, fun hh ha he => hc.fits hh ha (hE he)⟩

theorem trans (hc : p.Carries code E a h b h') (hd : p.Carries code E b h' d h'') :
    p.Carries code E a h d h'' := by
  refine ⟨Nat.le_trans hc.le hd.le, hd.bound ∘ hc.bound, hd.height ∘ hc.height, ?_⟩
  intro hh ha he i op hi hi' hop
  by_cases hib : i < b
  · exact hc.fits hh ha he i op hi hib hop
  · exact hd.fits (hc.height hh) (hc.bound ha) he i op (Nat.not_lt.1 hib) hi' hop

/-- A condition that follows from the numbers at both ends. -/
theorem close (hc : p.Carries code E a h b h')
    (hE : p.height code a = h → a ≤ code.size → p.height code b = h' → b ≤ code.size → E' → E) :
    p.Carries code E' a h b h' :=
  ⟨hc.le, hc.bound, hc.height, fun hh ha he =>
    hc.fits hh ha (hE hh ha (hc.height hh) (hc.bound ha) he)⟩

/-- One instruction. -/
theorem single (hop : code[a]? = some op)
    (hfits : p.height code a = h → E → p.Fits code a op) :
    p.Carries code E a h (a + 1) (op.behind p h) := by
  have hlt := (Array.getElem?_eq_some_iff.1 hop).1
  refine ⟨Nat.le_succ a, fun _ => hlt, fun hh => by rw [height_succ hop, hh], ?_⟩
  intro hh _ he i op' hi hi' hop'
  obtain rfl : i = a := by omega
  cases hop.symm.trans hop'
  exact hfits hh he

end Carries

end LinkedModule

/-! ### Calls under way -/

/-- A call of a function of a module, which has as many operands as its position asks for, when `due`
more of them are still to come. -/
structure Frame.Balanced (p : LinkedModule) (due : Nat) (F : Frame) : Prop where
  function : ∃ f ∈ p.functions.toList, F.code = f.code ∧ F.locals.size = f.slots
  position : F.position ≤ F.code.size
  stack : F.stack.length + due = p.height F.code F.position

/-- All calls under way have as many operands as their positions ask for; those that wait get one
more. -/
structure Thread.Balanced (p : LinkedModule) (t : Thread) : Prop where
  frame : t.frame.Balanced p 0
  callers : ∀ F ∈ t.callers, F.Balanced p 1
  globals : t.store.globals.size = p.globals.size

section

variable {p : LinkedModule} {maxDepth k due : Nat} {args : List Int32} {depth : Nat} {F G : Frame}
  {t t' : Thread} {st : Store} {op : Op}

theorem newFrame_balanced (h : Thread.newFrame p maxDepth k args depth = .ok F) :
    F.Balanced p 0 := by
  obtain ⟨f, hf, hcode, hsize⟩ := Thread.newFrame_locals h
  obtain ⟨-, -, -, -, hpos, hstack, -⟩ := Thread.newFrame_ok h
  refine ⟨⟨f, LinkedModule.function?_mem hf, hcode, hsize⟩, ?_, ?_⟩
  · rw [hpos]
    exact Nat.zero_le _
  · rw [hpos, hstack]
    rfl

/-- The instruction that a call comes to fits. -/
theorem Frame.Balanced.fits (hF : F.Balanced p due) (hp : ∀ f ∈ p.functions.toList, f.Balanced p)
    (hop : F.op? = some op) : p.Fits F.code F.position op := by
  obtain ⟨f, hf, hcode, -⟩ := hF.function
  have hop' : f.code[F.position]? = some op := hcode ▸ hop
  exact hcode ▸ (hp f hf).fits _ _ hop'

theorem Frame.Balanced.of_runs (hF : F.Balanced p 0) (hp : ∀ f ∈ p.functions.toList, f.Balanced p)
    (hop : F.op? = some op) (hG : F.Runs p op due G) : G.Balanced p due := by
  obtain ⟨hpos, hheight⟩ := (hF.fits hp hop).next _ hG.position
  obtain ⟨f, hf, hcode, hsize⟩ := hF.function
  refine ⟨⟨f, hf, hG.code.trans hcode, hG.locals.trans hsize⟩, hG.code ▸ hpos, ?_⟩
  have hstack : F.stack.length = p.height F.code F.position := hF.stack
  rw [hG.stack, hG.code, hheight, hstack]

/-- A call that ends has one operand. -/
theorem Frame.Balanced.ends (hF : F.Balanced p 0) (hp : ∀ f ∈ p.functions.toList, f.Balanced p)
    (hend : F.op? = some .ret ∨ F.op? = none) : F.stack.length = 1 := by
  have hstack : F.stack.length = p.height F.code F.position := hF.stack
  rw [hstack]
  obtain hop | hop := hend
  · exact (hF.fits hp hop).ret rfl
  · obtain ⟨f, hf, hcode, -⟩ := hF.function
    have hle : F.code.size ≤ F.position := Array.getElem?_eq_none_iff.1 hop
    rw [Nat.le_antisymm hF.position hle, hcode]
    exact (hp f hf).ends

/-- A step keeps the numbers of operands. -/
theorem Thread.Balanced.step (ht : t.Balanced p) (hp : ∀ f ∈ p.functions.toList, f.Balanced p)
    (hstep : t.step p maxDepth = .next t') : t'.Balanced p := by
  obtain ⟨hglobals, hmoves⟩ := step_moves hstep
  have hglobals' := hglobals.trans ht.globals
  cases hmoves with
  | on hop hsame hruns =>
    exact ⟨ht.frame.of_runs hp hop hruns, hsame ▸ ht.callers, hglobals'⟩
  | enter hop hcons hruns hnew =>
    refine ⟨newFrame_balanced hnew, ?_, hglobals'⟩
    rw [hcons]
    exact List.forall_mem_cons.2 ⟨ht.frame.of_runs hp hop hruns, ht.callers⟩
  | leave hop hstack hcons ht' =>
    subst ht'
    have hcallers := ht.callers
    rw [hcons] at hcallers
    obtain ⟨hG, hFs⟩ := List.forall_mem_cons.1 hcallers
    exact ⟨⟨hG.function, hG.position, hG.stack⟩, hFs, hglobals'⟩

/-- No step lacks an operand or a variable, or comes to an instruction that is never to be run. -/
theorem Thread.Balanced.not_stops (ht : t.Balanced p) (hp : ∀ f ∈ p.functions.toList, f.Balanced p)
    {f : Fault} (hstep : t.step p maxDepth = .fault st f) :
    f ≠ .trap .stackUnderflow ∧ f ≠ .trap .unreachable ∧ f ≠ .noVariable := by
  have hstops := step_stops hstep
  refine ⟨fun hf => ?_, fun hf => ?_, fun hf => ?_⟩
  · have hlt := hstops.underflow hf
    cases hop : t.frame.op? with
    | some op =>
      have htakes := (ht.frame.fits hp hop).takes
      have hstack : t.frame.stack.length = p.height t.frame.code t.frame.position := ht.frame.stack
      rw [hop, Option.map_some, Option.getD_some] at hlt
      omega
    | none =>
      have hone := ht.frame.ends hp (.inr hop)
      rw [hop, Option.map_none, Option.getD_none] at hlt
      omega
  · exact (ht.frame.fits hp (hstops.unreachable hf)).reached rfl
  · obtain ⟨k, ⟨hop, hk⟩ | ⟨hop, hk⟩⟩ := hstops.missing hf
    · obtain ⟨g, hg, hcode, hsize⟩ := ht.frame.function
      have hlt := (hp g hg).locals t.frame.position k (hcode ▸ hop)
      omega
    · obtain ⟨g, hg, hcode, hsize⟩ := ht.frame.function
      have hlt := (hp g hg).globals t.frame.position k (hcode ▸ hop)
      have hglobals := ht.globals
      omega

/-- A step that ends a call hands its one operand to the caller. -/
theorem Thread.Balanced.leaves (ht : t.Balanced p) (hp : ∀ f ∈ p.functions.toList, f.Balanced p)
    (hstep : t.step p maxDepth = .next t') (hless : t'.callers.length < t.callers.length) :
    ∃ v G, t.frame.stack = [v] ∧ t.callers = G :: t'.callers ∧
      t'.frame = { G with stack := v :: G.stack } := by
  obtain ⟨-, hmoves⟩ := step_moves hstep
  cases hmoves with
  | on hop hsame hruns =>
    rw [hsame] at hless
    exact absurd hless (Nat.lt_irrefl _)
  | enter hop hcons hruns hnew =>
    rw [hcons, List.length_cons] at hless
    omega
  | @leave v S G Fs hop hstack hcons ht' =>
    subst ht'
    have hone := ht.frame.ends hp hop
    rw [hstack, List.length_cons, Nat.add_eq_right, List.length_eq_zero_iff] at hone
    subst hone
    exact ⟨v, G, hstack, hcons, rfl⟩

/-- A step that ends the run gives its one operand. -/
theorem Thread.Balanced.done (ht : t.Balanced p) (hp : ∀ f ∈ p.functions.toList, f.Balanced p)
    {v : Int32} (hstep : t.step p maxDepth = .done st v) :
    t.frame.stack = [v] ∧ t.callers = [] := by
  obtain ⟨hop, hcallers, S, hstack⟩ := step_done hstep
  have hone := ht.frame.ends hp hop
  rw [hstack, List.length_cons, Nat.add_eq_right, List.length_eq_zero_iff] at hone
  exact ⟨hone ▸ hstack, hcallers⟩

/-- In a run all states have the numbers of operands that their positions ask for. -/
theorem Trace.Reaches.balanced {s s' : Trace} (h : Trace.Reaches p maxDepth s s')
    (hp : ∀ f ∈ p.functions.toList, f.Balanced p) (hs : s.thread.Balanced p) :
    s'.thread.Balanced p := by
  induction h with
  | refl => exact hs
  | step _ hv ih =>
    obtain ⟨t, ht, rfl⟩ := Trace.next_eq_some.1 hv
    exact ih.step hp ht

end

end ObjLang
