import ObjLang.Proofs.Check.Account
import ObjLang.Proofs.Check.Program

/-!
# ObjLang.Proofs.Check.Settled — the accounts of a program

One body is checked after the other, and the accounts of those that are checked stay true.
-/

namespace ObjLang

namespace Check

open Facts

variable {classes : ClassTable} {s s' : State} {base : Nat} {done : List FunDef}
  {todo ps : List (FunDef × FunId)}

/-! ### Bodies -/

/-- There are accounts of some functions of the module, and the others are not checked yet. -/
structure Settled (classes : ClassTable) (done : List FunDef) (todo : List (FunDef × FunId))
    (s : State) : Prop where
  accounts : ∀ e ∈ FunDef.allOf done, (s.facts classes).Accounted s.funEnv.module e
  apart : ∀ e ∈ FunDef.allOf done, ∀ p ∈ todo, e.id ≠ some p.2

theorem Settled.nil (classes : ClassTable) (todo : List (FunDef × FunId)) (s : State) :
    Settled classes [] todo s :=
  ⟨fun _ he => absurd he List.not_mem_nil, fun _ he => absurd he List.not_mem_nil⟩

theorem Settled.step {d d' : FunDef} {id : FunId} (h : Settled classes done ((d, id) :: todo) s)
    (hp : Progress classes base done ((d, id) :: todo) s)
    (hc : checkFunction classes id d s = .ok (d', s')) :
    Settled classes (done ++ [d']) todo s' ∧ s'.funEnv = s.funEnv := by
  obtain ⟨f, hsig⟩ := hp.signatures _ List.mem_cons_self
  have hfin : Finishes classes [] id d d' s s' := checkFunction_ok hp.nest hsig (emittedOk_nil _) hc
  have hacc := checkFunction_account hp.nest hsig (emittedOk_nil _) hc
  have hold := Accounted.later hfin.later h.accounts fun e he i hi heq =>
    h.apart e he _ List.mem_cons_self (hi.trans heq.symm)
  refine ⟨⟨fun e he => ?_, fun e he q hq => ?_⟩, hfin.funEnv⟩
  · rw [allOf_append, List.mem_append] at he
    rw [hfin.funEnv]
    obtain he | he := he
    · exact hold e he
    · exact hacc.accounts e (by simpa [FunDef.allOf] using he)
  · rw [allOf_append, List.mem_append] at he
    obtain he | he := he
    · exact h.apart e he q (List.mem_cons_of_mem _ hq)
    · have hne : id ≠ q.2 := fun heq =>
        (List.nodup_cons.1 hp.distinct).1 (List.mem_map.2 ⟨q, hq, heq.symm⟩)
      simp only [FunDef.allOf, FunDef.all_eq, List.append_nil, List.mem_cons] at he
      obtain rfl | he := he
      · rw [hfin.id_eq]
        exact fun heq => hne (Option.some.inj heq)
      · obtain ⟨g, hg⟩ := hp.signatures q (List.mem_cons_of_mem _ hq)
        have hlt : q.2.index < s.functions.size := (Array.getElem?_eq_some_iff.1 hg.record).1
        obtain ⟨i, hi, hle⟩ := hacc.ids e he
        rw [hi]
        rintro heq
        cases heq
        exact Nat.lt_irrefl _ (Nat.lt_of_lt_of_le hlt hle)

theorem Settled.bodies {ds' : List FunDef} (h : Settled classes done (ps ++ todo) s)
    (hp : Progress classes base done (ps ++ todo) s)
    (hc : ps.mapM (fun p => checkFunction classes p.2 p.1) s = .ok (ds', s')) :
    Settled classes (done ++ ds') todo s' ∧ s'.funEnv = s.funEnv := by
  induction ps generalizing s done ds' with
  | nil =>
    simp only [List.mapM_nil, pure_eq_ok, Prod.mk.injEq] at hc
    obtain ⟨rfl, rfl⟩ := hc
    exact ⟨by simpa using h, rfl⟩
  | cons p ps ih =>
    simp only [List.mapM_cons, bind_eq_ok, pure_eq_ok, Prod.mk.injEq] at hc
    obtain ⟨d', s₁, hd, ds₁, s₂, hds, rfl, rfl⟩ := hc
    obtain ⟨h₁, hf₁⟩ := Settled.step h hp hd
    obtain ⟨h₂, hf₂⟩ := ih h₁ (Progress.step hp hd).1 hds
    exact ⟨by simpa using h₂, hf₂.trans hf₁⟩

theorem Settled.methods {cs : List (ClassDef × List FunId)} {ms : List (String × List FunDef)}
    (h : Settled classes done (cs.flatMap (fun c => c.1.methods.zip c.2) ++ todo) s)
    (hp : Progress classes base done (cs.flatMap (fun c => c.1.methods.zip c.2) ++ todo) s)
    (hc : (cs.mapM fun c => do
      return (c.1.name.name, ← checkBodies classes c.1.methods c.2) : CheckM _) s = .ok (ms, s')) :
    Settled classes (done ++ ms.flatMap Prod.snd) todo s' ∧ s'.funEnv = s.funEnv := by
  induction cs generalizing s done ms with
  | nil =>
    simp only [List.mapM_nil, pure_eq_ok, Prod.mk.injEq] at hc
    obtain ⟨rfl, rfl⟩ := hc
    exact ⟨by simpa using h, rfl⟩
  | cons c cs ih =>
    simp only [List.mapM_cons, bind_eq_ok, pure_eq_ok, Prod.mk.injEq] at hc
    obtain ⟨_, s₁, ⟨ds, _, hds, rfl, rfl⟩, ms₁, s₂, hms, rfl, rfl⟩ := hc
    rw [List.flatMap_cons, List.append_assoc] at h hp
    obtain ⟨h₁, hf₁⟩ := h.bodies hp hds
    obtain ⟨h₂, hf₂⟩ := ih h₁ (hp.bodies hds).1 hms
    exact ⟨by simpa using h₂, hf₂.trans hf₁⟩

end Check

open Check Check.Facts

/-! ### Programs -/

/-- There are accounts of all functions once all bodies are checked. -/
theorem Announced.settled {classes : ClassTable} {p : Program} {vars : List VarDef} {root : FunId}
    {cs : List (ClassDef × List FunId)} {ids : List FunId} {s₀ s s₅ s₆ : State}
    {ms : List (String × List FunDef)} {ds : List FunDef}
    (h : Announced classes p vars root cs ids s₀ s)
    (hms : (cs.mapM fun c => do
      return (c.1.name.name, ← checkBodies classes c.1.methods c.2) : CheckM _) s = .ok (ms, s₅))
    (hds : checkBodies classes p.functions ids s₅ = .ok (ds, s₆)) :
    Settled classes (ms.flatMap Prod.snd ++ ds) [] s₆ ∧ s₆.funEnv = s.funEnv := by
  obtain ⟨h₅, -⟩ := h.progress.methods hms
  obtain ⟨hs₅, hf₅⟩ := (Settled.nil classes _ s).methods h.progress hms
  rw [← List.append_nil (p.functions.zip ids)] at h₅ hs₅
  obtain ⟨hs₆, hf₆⟩ := hs₅.bodies h₅ hds
  exact ⟨by simpa using hs₆, hf₆.trans hf₅⟩

/-- The names of the variables of a module. -/
def Program.varNames (p : Program) : List String := p.vars.map (·.var.name.name)

theorem CheckedOk.mem_varNames {p : Program} {c : CheckedProgram} {s : State}
    (h : CheckedOk p c s) {x : String} :
    x ∈ p.varNames ↔ List.lookup x s.varEnv.module ≠ none := by
  have hnames : c.program.vars.map (·.var.name.name) = p.varNames := by
    simpa [Program.varNames, Function.comp_def]
      using congrArg (List.map (·.1.name.name)) (varDefs_map h.sameVars)
  rw [← hnames, List.mem_map, Option.ne_none_iff_exists']
  constructor
  · rintro ⟨d, hd, rfl⟩
    obtain ⟨v, r, t, -, hm, -⟩ := h.globals d hd
    exact ⟨v, hm⟩
  · rintro ⟨v, hv⟩
    obtain ⟨d, hd, hx, -⟩ := h.module x v hv
    exact ⟨d, hd, hx⟩

/-- The accounts of the functions of a checked program, and what its statements call. -/
structure AccountedOk (p : Program) (c : CheckedProgram) (s : State) : Prop where
  ok : CheckedOk p c s
  functions : ∀ d ∈ c.program.allFunctions, (s.facts c.classes).Accounted s.funEnv.module d
  roots : ∀ x id, List.lookup x s.funEnv.module = some id →
    ∃ d ∈ c.program.functions, d.name.name = x ∧ d.id = some id
  calls : ∀ i callee args target, Expr.OccursIn c.program.body (.call i callee args target) →
    c.classes.contains callee.name = false → CallOk s.funEnv.module [] callee.name target

theorem Program.check_account {p : Program} {c : CheckedProgram} (h : p.check = .ok c) :
    ∃ s, AccountedOk p c s := by
  simp only [Program.check, except_bind_eq_ok, except_pure_eq_ok] at h
  obtain ⟨classes, hcl, ⟨⟨p', root⟩, s⟩, hrun, rfl⟩ := h
  have hl : classes.LaidOut p.classes := ClassTable.resolve_ok hcl
  have hrun : checkProgram classes p {} = .ok ((p', root), s) := hrun
  have hok := checkProgram_ok hl hrun
  obtain ⟨vars, s₁, s₂, cs, s₃, ids, s₄, ms, s₅, ds, s₆, body, hnames, hvars, hrootInit, hcs, hids,
    hms, hds, hbody, rfl⟩ := checkProgram_cases hrun
  have h := announced_ok hl hnames hvars hrootInit hcs hids
  obtain ⟨hp, hcomes, hcomes', hg⟩ := h.bodies hms hds
  obtain ⟨hs, hf⟩ := h.settled hms hds
  have hinside : Inside classes [] (fun _ => false) s₆ := ⟨hp.nest, trivial⟩
  have hkeeps := (checkBlock_reading hbody).keeps hinside
  refine ⟨s, hok, fun d hd => ?_, fun x id hx => ?_, fun i callee args target hocc hclass => ?_⟩
  · obtain ⟨e, he, hde⟩ := FunDef.mem_allOf.1 hd
    refine hkeeps.funEnv ▸ Accounted.later hkeeps.later hs.accounts
      (fun _ _ _ _ => (Option.some_ne_none _).symm) d (FunDef.mem_allOf.2 ⟨e, ?_, hde⟩)
    obtain he | he := List.mem_append.1 he
    · obtain ⟨k, hk, hek⟩ := List.mem_flatMap.1 he
      obtain ⟨k', hk', rfl⟩ := List.mem_map.1 hk
      obtain ⟨es, hes, -⟩ := h.checkedMethods hl hg hcomes
        (fun d hd => hp.ok d (List.mem_append_left _ hd)) hk'
      simp only [hes, Option.getD_some] at hek
      exact List.mem_append_left _ (List.mem_flatMap.2 ⟨_, Bindings.mem_of_lookup hes, hek⟩)
    · exact List.mem_append_right _ he
  · rw [hkeeps.funEnv.trans hf] at hx
    obtain ⟨q, hq, hqx, rfl⟩ := h.roots x id hx
    obtain ⟨d, hd, hid, hbinds⟩ := exists_of_forall₂ hcomes' hq
    exact ⟨d, hd, (congrArg Ident.name hbinds.name).trans hqx, hid⟩
  · obtain ⟨e, ty, t₁, t₂, ht₁, he, -⟩ := exprWithin_of_occursIn hbody hocc
    have hfun : t₁.funEnv = s.funEnv := (ht₁.keeps hinside).funEnv.trans hkeeps.funEnv.symm
    have hinner : t₁.funEnv.inner = [] := by rw [hfun, hkeeps.funEnv, hp.nest.at_module.2.2]
    rw [← hfun]
    refine callOk_of_exprChecked (checkExpr_cases he)
      (fun _ he => absurd he List.not_mem_nil) (fun x _ => ?_) hclass
    simp only [Env.lookup, Env.scopes, hinner, List.headD_nil, List.findSome?_cons]
    cases List.lookup x t₁.funEnv.module <;> rfl

end ObjLang
