import Mathlib.Logic.Relation
import ObjLang.Proofs.Check.Supply
import ObjLang.Proofs.Emit.Total
import ObjLang.Proofs.Parts

/-!
# ObjLang.Proofs.Captures — captured variables and the calls that pass them

An alias leads, origin by origin, to a parameter or variable of a function around its own.  Every
call passes for the captures of the function that it calls variables of the calling function that
stand for the same parameters and variables, and a check always finds them.
-/

namespace ObjLang

open Check Check.Facts

namespace CheckedProgram

variable (c : CheckedProgram)

/-- A variable is an alias, and this is its origin. -/
def Aliases (v o : VarId) : Prop := ∃ r, c.vars.get? v = some r ∧ r.kind = .capture o

/-- The variable at which the way from a variable over origins ends. -/
def StandsFor (v w : VarId) : Prop :=
  Relation.ReflTransGen c.Aliases v w ∧ ∃ q, c.vars.get? w = some q ∧ q.isCapture = false

/-- A function is nested directly in another one. -/
def IsIn (f g : FunId) : Prop := ∃ r, c.functions[f.index]? = some r ∧ r.parent = some g

/-- For each capture of a function a variable of function `own` that holds the address of a cell and
stands for the same variable. -/
def Supplies (own id : FunId) (vs : List VarId) : Prop :=
  ∃ f, c.functions[id.index]? = some f ∧ List.Forall₂ (fun v k => ∃ r, c.vars.get? v = some r ∧
    r.owner = some own ∧ r.isIndirect = true ∧ r.isGlobal = false ∧
    ∃ w, c.StandsFor v w ∧ c.StandsFor k.inner w) vs f.captures

/-- What holds of aliases and captures. -/
structure CapturesOk : Prop where
  /-- An alias comes after its origin. -/
  descending : ∀ v o, c.Aliases v o → o.index < v.index
  /-- The way over origins ends at a parameter or variable of a function around that of the alias. -/
  ends : ∀ v r, c.vars.get? v = some r → r.isCapture = true → ∃ w q f g, c.StandsFor v w ∧
    c.vars.get? w = some q ∧ (q.kind = .param ∨ q.kind = .local) ∧ q.refed = true ∧
    q.ty.ty = r.ty.ty ∧ r.owner = some f ∧ q.owner = some g ∧ Relation.TransGen c.IsIn f g
  /-- A parameter or variable is marked exactly if it is the origin of an alias. -/
  marked : ∀ v r, c.vars.get? v = some r → r.kind = .param ∨ r.kind = .local →
    (r.refed = true ↔ ∃ w, c.Aliases w v)
  /-- Variables of the module are not marked, nor are they origins. -/
  globals : ∀ v r, c.vars.get? v = some r → r.kind = .global →
    r.refed = false ∧ ∀ w, ¬ c.Aliases w v
  /-- A call in a function, at any depth, passes what the captures of the called function need. -/
  calls : ∀ outer d, c.Nest outer d → ∀ i callee args id vs,
    Expr.OccursIn d.body (.call i callee args (some (.function id vs))) →
      ∃ own, d.id = some own ∧ c.Supplies own id vs
  /-- Calls in the statements of the module pass nothing, and nothing is needed. -/
  moduleCalls : ∀ i callee args id vs,
    Expr.OccursIn c.program.body (.call i callee args (some (.function id vs))) →
      vs = [] ∧ ∃ f, c.functions[id.index]? = some f ∧ f.captures = []
  /-- A function without one around it captures nothing. -/
  orphans : ∀ (id : FunId) f, c.functions[id.index]? = some f → f.parent = none → f.captures = []
  /-- Methods and functions of the module have none around them. -/
  roots : ∀ d, c.Nest [] d → ∃ id f, d.id = some id ∧ c.functions[id.index]? = some f ∧
    f.parent = none

end CheckedProgram

namespace CheckedOk

variable {p : Program} {c : CheckedProgram} {s : State}

/-! ### Aliases -/

theorem standsFor_home (h : CheckedOk p c s) {v : VarId} {r : Variable}
    (hr : s.vars.get? v = some r) : c.StandsFor v (s.vars.home v) := by
  have hd := h.nest.state.descending
  have hlt := Variables.get?_eq_some_lt hr
  refine ⟨?_, h.vars_eq ▸ Variables.get?_home hd hlt⟩
  refine Variables.home_induction hd (P := fun v => Relation.ReflTransGen c.Aliases v
    (s.vars.home v)) ?_ ?_ v hlt
  · intro v q hq hc
    rw [Variables.home_of_not_capture (Variables.get_eq_of_get? hq ▸ hc)]
  · intro v q o hq hk _ ih
    rw [Variables.home_of_capture hd hq hk]
    exact .head ⟨q, h.vars_eq ▸ hq, hk⟩ ih

/-- The functions around a function are those that it is nested in, directly or not. -/
theorem isIn_outer (h : CheckedOk p c s) {outer : List FunDef} {d e : FunDef}
    (hd : c.Nest outer d) (he : e ∈ outer) : (∃ outer', c.Nest outer' e) ∧
      ∃ i j, d.id = some i ∧ e.id = some j ∧ Relation.TransGen c.IsIn i j := by
  induction hd with
  | method => exact absurd he List.not_mem_nil
  | function => exact absurd he List.not_mem_nil
  | @nested outer e₀ d h₀ hd ih =>
    obtain ⟨i, f, hf, -, -⟩ := h.function_ok (.nested h₀ hd)
    obtain ⟨j, g, hg, -, hlevel⟩ := h.function_ok h₀
    have hone : c.IsIn i j := by
      refine ⟨f, h.functions_eq ▸ hf.record, hf.parent.trans ?_⟩
      rw [List.map_cons, hlevel]
      rfl
    obtain rfl | he := List.mem_cons.1 he
    · exact ⟨⟨outer, h₀⟩, i, j, hf.id_eq, hg.id_eq, .single hone⟩
    · obtain ⟨hnest, j', k, hj, hk, hin⟩ := ih he
      cases hg.id_eq.symm.trans hj
      exact ⟨hnest, i, k, hf.id_eq, hk, .head hone hin⟩

/-- An alias stands for a parameter or variable of a function around the one that it belongs to. -/
theorem ends_of_alias (h : CheckedOk p c s) {v : VarId} {r : Variable}
    (hr : s.vars.get? v = some r) (hc : r.isCapture = true) : ∃ q f g,
      s.vars.get? (s.vars.home v) = some q ∧ (q.kind = .param ∨ q.kind = .local) ∧
      q.refed = true ∧ q.ty.ty = r.ty.ty ∧ r.owner = some f ∧ q.owner = some g ∧
      Relation.TransGen c.IsIn f g := by
  have hg : r.isGlobal = false := by
    cases hk : r.kind <;> simp_all [Variable.isGlobal, Variable.isCapture]
  obtain ⟨q, hq, hqg, hqc, hqt, hqr⟩ := h.nest.state.get?_home hr hg
  obtain ⟨f, hf, ⟨fr, hfr, -⟩ | ⟨g, hgf, k, hk, rfl⟩⟩ := h.nest.state.aliases v r hr hc
  · rw [h.nest.at_module.1] at hfr
    exact absurd hfr List.not_mem_nil
  have hkind : q.kind = .param ∨ q.kind = .local := by
    cases hk : q.kind <;> simp_all [Variable.isGlobal, Variable.isCapture]
  cases hp : g.parent with
  | none =>
    rw [h.nest.state.orphans f g hgf hp] at hk
    exact absurd hk List.not_mem_nil
  | some parent =>
    obtain ⟨outer, d, hd, hok⟩ := h.exists_definition hgf hp
    obtain hl | hm := nearest_mem (hok.captures k hk).2.symm
    · obtain ⟨l, hl, hown⟩ := hl
      obtain ⟨e, he, rfl⟩ := List.mem_map.1 hl
      obtain ⟨⟨outer', he'⟩, i, j, hi, hj, hin⟩ := h.isIn_outer hd he
      cases hok.id_eq.symm.trans hi
      obtain ⟨j', fe, hfe, -, hlevel⟩ := h.function_ok he'
      cases hfe.id_eq.symm.trans hj
      rw [hlevel] at hown
      obtain ⟨q', hq', -, howner⟩ :=
        Emit.own_record hfe (Emit.own_mem h hfe ⟨_, _, rfl, .inl hown⟩)
      cases hq.symm.trans hq'
      exact ⟨q, f, j, hq, hkind, hqr hc, hqt, hf, howner, hin⟩
    · obtain ⟨q', hq', -, hg'⟩ := h.nest.state.module _ _ hm
      cases hq.symm.trans hq'
      cases hqg.symm.trans hg'

/-! ### Calls -/

theorem supplies_of_passes (h : CheckedOk p c s) {outer : List FunDef} {d : FunDef}
    {own id : FunId} {fd f : Function} {vs : List VarId}
    (hd : (s.facts c.classes).FunctionOk (outer.map c.level) d own fd)
    (hf : s.functions[id.index]? = some f) (hp : f.parent = some own)
    (hvs : List.Forall₂ ((s.facts c.classes).Passes (.ofFunction own d fd :: outer.map c.level))
      vs f.captures) : c.Supplies own id vs := by
  refine ⟨f, h.functions_eq ▸ hf, List.forall₂_iff_zip.2 ⟨hvs.length_eq, fun {v k} hvk => ?_⟩⟩
  have hpass := (List.forall₂_iff_zip.1 hvs).2 hvk
  obtain ⟨hg, hi⟩ := Emit.cell_of_passes h hf hp (List.of_mem_zip hvk).2 hpass
  obtain ⟨⟨r, hr, -, -⟩, hown, ⟨rk, hrk⟩, hhome⟩ := hpass
  obtain ⟨r', hr', -, howner⟩ := Emit.own_record hd (Emit.own_mem h hd hown)
  cases hr.symm.trans hr'
  rw [Emit.var_eq h hr] at hg hi
  have hsame : s.vars.home v = s.vars.home k.inner := hhome
  exact ⟨r, h.vars_eq ▸ hr, howner, hi, hg, _, h.standsFor_home hr,
    hsame ▸ h.standsFor_home hrk⟩

theorem captures_ok (h : CheckedOk p c s) : c.CapturesOk where
  descending := by
    rintro v o ⟨r, hr, hk⟩
    exact h.nest.state.descending v r o (h.vars_eq ▸ hr) hk
  ends := by
    intro v r hr hc
    rw [← h.vars_eq] at hr ⊢
    obtain ⟨q, f, g, hq, hrest⟩ := h.ends_of_alias hr hc
    exact ⟨_, q, f, g, h.standsFor_home hr, hq, hrest⟩
  marked := by
    intro v r hr hk
    rw [← h.vars_eq] at hr
    constructor
    · intro href
      obtain ⟨-, -, w, q, hq, hqk⟩ := h.nest.state.refs v r hr href
      exact ⟨w, q, h.vars_eq ▸ hq, hqk⟩
    · rintro ⟨w, q, hq, hqk⟩
      obtain ⟨-, r', hr', -, href, -⟩ := h.nest.state.origins w q v (h.vars_eq ▸ hq) hqk
      cases hr.symm.trans hr'
      refine href ?_
      obtain hk | hk := hk <;> simp [Variable.isCapture, hk]
  globals := by
    intro v r hr hk
    rw [← h.vars_eq] at hr
    have hg : r.isGlobal = true := by simp [Variable.isGlobal, hk]
    constructor
    · rw [← Bool.not_eq_true]
      intro href
      cases hg.symm.trans (h.nest.state.refs v r hr href).1
    · rintro w ⟨q, hq, hqk⟩
      obtain ⟨-, r', hr', hg', -⟩ := h.nest.state.origins w q v (h.vars_eq ▸ hq) hqk
      cases hr.symm.trans hr'
      cases hg.symm.trans hg'
  calls := by
    intro outer d hd i callee args id vs hocc
    obtain ⟨own, fd, hfd, -, hlevel⟩ := h.function_ok hd
    obtain ⟨t, ht⟩ := exprOk_of_occursIn hfd.body hocc
    simp only [ExprOk] at ht
    obtain ⟨-, f, hf, -, -, ⟨hp, rfl⟩ | ⟨l, outer', hlv, hp, hvs⟩⟩ := ht
    · refine ⟨own, hfd.id_eq, f, h.functions_eq ▸ hf, ?_⟩
      rw [h.nest.state.orphans id f hf hp]
      exact .nil
    · cases hlv
      exact ⟨own, hfd.id_eq, h.supplies_of_passes hfd hf hp hvs⟩
  moduleCalls := by
    intro i callee args id vs hocc
    obtain ⟨t, ht⟩ := exprOk_of_occursIn h.body hocc
    simp only [ExprOk] at ht
    obtain ⟨-, f, hf, -, -, ⟨hp, rfl⟩ | ⟨l, outer', hlv, -⟩⟩ := ht
    · exact ⟨rfl, f, h.functions_eq ▸ hf, h.nest.state.orphans id f hf hp⟩
    · cases hlv
  orphans := fun id f hf => h.nest.state.orphans id f (h.functions_eq ▸ hf)
  roots := by
    intro d hd
    obtain ⟨id, f, hf, -, -⟩ := h.function_ok hd
    exact ⟨id, f, hf.id_eq, h.functions_eq ▸ hf.record, hf.parent⟩

end CheckedOk

/-! ### Captures of a program -/

/-- No program is refused for a capture that a call cannot pass, and in a checked program captures
are as they should be. -/
theorem check_captures (p : Program) :
    (∀ x span, p.check ≠ .error ⟨.unresolvedCapture x, span⟩) ∧
      ∀ c, p.check = .ok c → c.CapturesOk := by
  refine ⟨p.supplied_check, fun c hc => ?_⟩
  obtain ⟨s, hok⟩ := Program.check_ok hc
  exact hok.captures_ok

/-- A variable that passes through a function on its way to the one that changes it. -/
def deepCapture : String :=
  "def f(n:int) -> int:\n  def g() -> int:\n    def h() -> int:\n      nonlocal n\n" ++
  "      n = n + 1\n      return n\n    return h()\n  return g()\nprint(f(1))\n"

theorem deepCapture_checked : (Program.parse deepCapture).toOption.any (fun p =>
    p.check.toOption.any fun c => c.functions.toList.map (·.captures.length) == [0, 0, 1, 1])
      = true := by
  decide +kernel

theorem check_captures_deepCapture : ∃ p c, Program.parse deepCapture = .ok p ∧
    p.check = .ok c ∧ c.functions.toList.map (·.captures.length) = [0, 0, 1, 1] ∧
    c.CapturesOk := by
  obtain ⟨p, hp, hchecked⟩ := toOption_any_eq_true.1 deepCapture_checked
  obtain ⟨c, hc, hcaptures⟩ := toOption_any_eq_true.1 hchecked
  exact ⟨p, c, hp, hc, beq_iff_eq.1 hcaptures, (check_captures p).2 c hc⟩

end ObjLang
