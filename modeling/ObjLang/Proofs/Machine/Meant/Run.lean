import ObjLang.Proofs.Machine.Meant.Opening
import ObjLang.Proofs.Meaning.Bounds

/-!
# ObjLang.Proofs.Machine.Meant.Run — runs that do what a program means

A new call of a definition has its arguments and first values where the world has them, so calls do
what they mean for any bound, and the run of the entry ends as the program means.
-/

namespace ObjLang

open Check Check.Facts

/-- What is left alone by a call that has ended. -/
theorem World.Spares.leave {c : CheckedProgram} {σ σ' : World} {own : List (VarId × Value)}
    (h : (σ.enter own).Spares c (some σ.calls) σ') : σ.Spares c none σ' := by
  refine ⟨Nat.le_of_succ_le h.calls, fun a ha _ v hv => ?_⟩
  have hne : some a ≠ some σ.calls := fun heq => Nat.ne_of_lt ha (Option.some.inj heq)
  exact (h.vars a (Nat.lt_succ_of_lt ha) hne.symm v hv).trans (World.enter_vars_of_ne hne)

/-- What follows statements that do not go on. -/
def Flow.whenLeft (K : Value → Eval (Option Value)) : Flow → Eval (Option Value)
  | goesOn => Eval.stuck >>= K
  | returns v => K v

/-- What follows a computation matters only for the values that it gives. -/
theorem Eval.Leads.of_gives {α : Type} {m : Eval α} {P : α → Prop}
    {K K' : α → Eval (Option Value)} {σ : World} {ls : List String} {fin : Outcome}
    (h : (m >>= K).Leads σ ls fin) (hm : m.Gives P) (hK : ∀ a, P a → K a = K' a) :
    (m >>= K').Leads σ ls fin := by
  obtain ⟨ls', r, σ', hrun, hfin⟩ := h
  refine ⟨ls', r, σ', ?_, hfin⟩
  rw [Eval.bind_apply] at hrun ⊢
  cases ho : m σ with
  | none =>
    rw [ho] at hrun
    cases hrun
  | some o =>
    obtain ⟨ls₁, r₁, σ₁⟩ := o
    rw [ho] at hrun
    cases r₁ with
    | error e => exact hrun
    | ok a =>
      have heq : K a σ₁ = K' a σ₁ := congrFun (hK a (hm σ ls₁ a σ₁ ho)) σ₁
      exact (congrArg (Option.map _) heq.symm).trans hrun

namespace Emit

variable {body : List Stmt}

end Emit

namespace CheckedOk

variable {p : Program} {c : CheckedProgram} {s : State} {outer : List FunDef} {d : FunDef}
  {id : FunId} {args : List Value}

/-! ### First values -/

end CheckedOk

namespace Setting

variable {w : Setting} {p : Program} {o : Options} {s₀ : Trace} {t₀ : State} {fin : Outcome}
  {sc : CallChain} {V V' : Scene} {n i : Nat} {v : VarId} {outer : List FunDef} {d : FunDef}
  {g : Code.Func} {arr : Array Op} {id : FunId} {es : List (Value × Int32)} {cs : List Int32}
  {F : Frame} {depth : Nat} {K : Value → Eval (Option Value)}

section

variable (hw : Compiled p w.program t₀ o w.module w.linked) (hd : w.program.Nest outer d)
  (hid : d.id = some id)
  (hes : List.Forall₂ (fun e t => e.1.Stands w.program V.image e.2 t) es
    (w.program.record d).paramTypes)

include hw hd hid hes

end

/-- A store that mirrors a world still does so when a call begins. -/
theorem Mirrors.enter {I : Image} {σ : World} {bs : List Block} {st : Store}
    (h : w.Mirrors I σ bs st) (own : List (VarId × Value)) : w.Mirrors I (σ.enter own) bs st := by
  refine h.world rfl (Nat.le_succ _) (fun a v q hq => World.enter_vars_of_ne fun heq => ?_)
    fun v => World.enter_vars_of_ne nofun
  exact Nat.ne_of_lt (h.cell a v q hq).2.1 (Option.some.inj heq)

/-! ### Calls of definitions -/

section

variable (hsolid : w.Solid s₀ t₀) (hw : Compiled p w.program t₀ o w.module w.linked)
  (hd : w.program.Nest outer d) (hid : d.id = some id)
  (hg : CodeOf w.program w.module w.linked d g arr)

include hsolid hw hd hid hg

omit hsolid hid in
/-- The statements of a definition run, and the call ends with the word that stands for its value. -/
theorem body {k : Nat} {s : Trace}
    (h : w.Meant s₀ t₀ (w.statements outer d g arr) ((id, k) :: sc) V)
    (hper : w.Performs s₀ fin n) (hatop : Atop s V.trace)
    (hlead : (Meaning.block w.program (w.program.call n) n ((id, k) :: sc) d.body >>= fun flow =>
      K flow.value).Leads V.world (printed V.trace) fin)
    (hu : ∀ V' v x, w.Turns s₀ (w.statements outer d g arr) ((id, k) :: sc) 0 V V' →
      v.Stands w.program V'.image x (w.program.record d).ret →
      (K v).Leads V'.world (printed V'.trace) fin →
      w.Ends s₀ fin V'.ledger ((s.resume V'.trace).push x)) :
    w.Ends s₀ fin V.ledger (V.trace.on (w.program.prologue d) []) := by
  obtain ⟨b, m, b', -, -, hblock, hop, hsize⟩ := hg.layout
  obtain ⟨id', -, -, hfok, hlevel⟩ := hw.checked.record_ok hd
  have hok : (t₀.facts w.program.classes).BlockOk (w.program.level d :: outer.map w.program.level)
      d.passes (some (w.program.record d).ret) d.body := by
    have hbody := hfok.body
    rwa [← hlevel] at hbody
  -- Only a function that gives the empty reference goes on behind its statements.
  obtain ⟨K', hlead, hreturns, hgoes⟩ : ∃ K' : Flow → Eval (Option Value),
      (Meaning.block w.program (w.program.call n) n ((id, k) :: sc) d.body >>= K').Leads V.world
        (printed V.trace) fin ∧ (∀ v, K' (.returns v) = K v) ∧
      ∀ σ ls, (K' .goesOn).Leads σ ls fin →
        (w.program.record d).ret = .none ∧ (K .none).Leads σ ls fin := by
    by_cases hret : (w.program.record d).ret = .none
    · exact ⟨_, hlead, fun _ => rfl, fun _ _ hK => ⟨hret, hK⟩⟩
    · refine ⟨Flow.whenLeft K, hlead.of_gives (Meaning.block_gives (hfok.returns hret)) ?_,
        fun _ => rfl, fun _ _ hK => absurd hK Eval.not_leads_stuck⟩
      rintro _ ⟨v, rfl⟩
      rfl
  refine h.block hper (fun _ => .here) hok hblock (Nat.le_refl _) hlead (fun V₁ ht₁ hK => ?_)
    fun t ht V₁ v x i ht₁ hv hi hK => ?_
  · obtain ⟨hret, hK⟩ := hgoes _ _ hK
    refine .const (h.follow ht₁).holds hop (.leave (h.follow ht₁).holds (.inr ?_)
      (hatop.follow ht₁.moves) fun _ _ => hu V₁ .none 0 ht₁ (hret ▸ ⟨rfl, rfl⟩) hK)
    exact Array.getElem?_eq_none (Nat.le_of_eq hsize)
  · obtain rfl : (w.program.record d).ret = t := Option.some.inj ht
    have hK' : (K v).Leads V₁.world (printed V₁.trace) fin := hreturns v ▸ hK
    exact .leave (h.follow ht₁).holds (.inl hi) (hatop.follow ht₁.moves) fun _ _ =>
      hu V₁ v x ht₁ hv hK'

end

/-- The run ends behind the entry. -/
theorem Ends.finish {b : Body} {Q : Trace → Prop} {lim : Nat} {H : Ledger} {s : Trace}
    {S : List Int32} {x : Int32} (h : w.Holds s₀ t₀ b Q 0 lim H s) (hop : b.code[i]? = none)
    (hfin : fin.Allows s.thread.store (.ok x)) : w.Ends s₀ fin H (s.on i (x :: S)) := by
  have hstep : (s.thread.on i (x :: S)).step w.linked w.maxDepth = .done s.thread.store x :=
    Thread.step_finish (h.code ▸ hop) (List.length_eq_zero_iff.1 h.depth)
  exact fun _ _ => .done hstep hfin

/-- The image in which nothing lies. -/
def Image.empty : Image := ⟨[], fun _ _ => none⟩

end Setting

end ObjLang
