import ObjLang.Proofs.Check.Settled
import ObjLang.Proofs.Check.Unchecked
import ObjLang.Tree.Parser

/-!
# ObjLang.Proofs.Writes — only declared names are assigned

In a checked program an assignment to a name is bound to what the function declares under it: a
parameter, a variable, the variable of the module with `global`, or the alias of one around the
function with `nonlocal`.  A program in which a function assigns a name that it does not declare is
refused, whatever is read or captured elsewhere.
-/

namespace ObjLang

open Check Check.Facts

/-! ### What assignments are bound to -/

/-- A variable that a function with a record assigns under a name, by what the function declares. -/
inductive CheckedProgram.Assigns (c : CheckedProgram) (d : FunDef) (f : Function) (x : String) :
    VarId → Prop where
  | param {v : VarId} : (x, v) ∈ (d.params.map (·.name.name)).zip f.params → Assigns c d f x v
  | own {v : VarId} : (x, v) ∈ (d.vars.map (·.var.name.name)).zip f.locals → Assigns c d f x v
  | global {v : VarId} : x ∈ d.declared .global → List.lookup x c.module = some v →
      Assigns c d f x v
  | nonlocal {k : Capture} : x ∈ d.declared .nonlocal → k ∈ f.captures → k.name = x →
      (c.var k.inner).writable = true → Assigns c d f x k.inner

theorem CheckedProgram.Assigns.of_own {c : CheckedProgram} {d : FunDef} {id : FunId} {f : Function}
    {x : String} {v : VarId} (h : List.lookup x (Level.ofFunction id d f).own = some v) :
    c.Assigns d f x v := by
  obtain hmem | hmem := List.mem_append.1 (Bindings.mem_of_lookup h)
  · exact .param hmem
  · exact .own hmem

namespace AccountedOk

variable {p : Program} {c : CheckedProgram} {s : State}

/-- A name that a function declares `nonlocal` does not lead to a variable of the module. -/
theorem not_global_of_nonlocal (h : AccountedOk p c s) {outer : List Level} {d : FunDef}
    {id : FunId} {f : Function} (hf : (s.facts c.classes).FunctionOk outer d id f) {x : String}
    (hx : (d.declared .nonlocal).contains x = true) {v : VarId} {r : Variable}
    (hv : nearest s.varEnv.module x outer = some v) (hr : s.vars.get? v = some r) :
    r.isGlobal = false := by
  obtain ⟨k, hk, rfl⟩ := Captures.has_eq_true.1
    (hf.handsOn x (by rw [FunDef.handsOn_eq, hx, Bool.true_or]))
  obtain ⟨⟨q, hq, -, hkind, -⟩, hhome⟩ := hf.captures k hk
  have hqg : q.isGlobal = false := by simp [Variable.isGlobal, hkind]
  obtain ⟨q', hq', hg, -⟩ := h.ok.nest.state.get?_home hq hqg
  cases Option.some.inj (hv.symm.trans hhome.symm)
  cases hr.symm.trans hq'
  exact hg

theorem assigns_of_targetOk (h : AccountedOk p c s) {outer : List Level} {d : FunDef} {id : FunId}
    {f : Function} (hf : (s.facts c.classes).FunctionOk outer d id f) {roots : Bindings FunId}
    (hacc : (s.facts c.classes).AccountOk roots d f) {passes : String → Bool} {x : Ident}
    {b : Option VarId} {t : Ty} (hdeclares : d.declares x.name = true)
    (ht : (s.facts c.classes).TargetOk (.ofFunction id d f :: outer) passes (.name x b) t) :
    ∃ v, b = some v ∧ c.Assigns d f x.name v := by
  obtain ⟨v, r, hb, hr, ⟨r', hr', hname, ⟨hglobal, hmod⟩ | hown⟩, hw, -, hnear⟩ := ht
  · cases hr.symm.trans hr'
    refine ⟨v, hb, ?_⟩
    have hhome : (s.facts c.classes).vars.home v = v := Variables.home_of_global hr hglobal
    have hnear := hnear (List.cons_ne_nil _ _)
    rw [hhome] at hnear
    have hlevel : (Level.ofFunction id d f).declares x.name = true := by
      rw [Level.declares_ofFunction ?_ hf.locals.length_eq, hdeclares]
      rw [hf.params.length_eq, List.length_zip, ← hf.params_length, Nat.min_self]
    cases ho : List.lookup x.name (Level.ofFunction id d f).own with
    | some w =>
      rw [nearest_of_own ho] at hnear
      cases hnear
      exact .of_own ho
    | none =>
      cases hg : (Level.ofFunction id d f).globals.contains x.name with
      | true => exact .global (List.contains_iff_mem.1 hg) ((h.ok.lookup_module _).trans hmod)
      | false =>
        simp only [Level.declares, ho, hg, Option.isSome_none, Bool.false_or] at hlevel
        rw [nearest_of_nonlocal ho hg] at hnear
        cases hglobal.symm.trans (h.not_global_of_nonlocal hf hlevel hnear.symm hr)
  · cases hr.symm.trans hr'
    obtain ⟨l, outer', heq, hown | ⟨r', hr', hc, ho⟩⟩ := hown
    · cases heq
      exact ⟨v, hb, .of_own hown⟩
    · cases heq
      cases hr.symm.trans hr'
      obtain ⟨k, hk, rfl, hkn⟩ := h.ok.capture_of_alias hf hr hc ho
      obtain ⟨q, hq, hqw⟩ := hacc.marked k hk
      cases hr.symm.trans hq
      have hnonlocal := (hacc.writable k hk).1 (hqw.symm.trans hw)
      rw [hkn, hname] at hnonlocal
      refine ⟨_, hb, .nonlocal (List.contains_iff_mem.1 hnonlocal) hk (hkn.trans hname) ?_⟩
      have hget : s.vars.get k.inner = r := Variables.get_eq_of_get? hr
      rw [CheckedProgram.var, ← h.ok.vars_eq, hget, hw]

/-- The assignments in a function of a checked program. -/
theorem assigns (h : AccountedOk p c s) {d : FunDef} (hd : d ∈ c.program.allFunctions) :
    ∃ id f, d.id = some id ∧ c.functions[id.index]? = some f ∧ ∀ x b value span,
      Stmt.OccursIn d.body (.assign (.name x b) value span) →
        d.declares x.name = true ∧ ∃ v, b = some v ∧ c.Assigns d f x.name v := by
  obtain ⟨outer, hnest⟩ := CheckedProgram.exists_nest hd
  obtain ⟨id, f, hf, -⟩ := h.ok.function_ok hnest
  obtain ⟨id', f', hid', hf', hacc⟩ := h.functions d hd
  cases hf.id_eq.symm.trans hid'
  cases hf.record.symm.trans hf'
  refine ⟨id, f, hf.id_eq, h.ok.functions_eq ▸ hf.record, fun x b value span hocc => ?_⟩
  have hst := stmtOk_of_occursIn hf.body hocc
  simp only [StmtOk] at hst
  obtain ⟨a, t, -, ht, -⟩ := hst
  have hdeclares := hacc.writes x b value span hocc
  exact ⟨hdeclares, h.assigns_of_targetOk hf hacc hdeclares ht⟩

/-- The assignments in the statements of the module. -/
theorem assigns_module (h : AccountedOk p c s) {x : Ident} {b : Option VarId} {value : Expr}
    {span : Span} (hocc : Stmt.OccursIn c.program.body (.assign (.name x b) value span)) :
    ∃ v, b = some v ∧ List.lookup x.name c.module = some v := by
  have hst := stmtOk_of_occursIn h.ok.body hocc
  simp only [StmtOk] at hst
  obtain ⟨a, t, -, ⟨v, r, hb, hr, ⟨r', hr', -, ⟨-, hmod⟩ | ⟨l, outer, heq, -⟩⟩, -⟩, -⟩ := hst
  · exact ⟨v, hb, (h.ok.lookup_module _).trans hmod⟩
  · cases heq

end AccountedOk

/-! ### Undeclared names -/

/-- Some statement of a program assigns a name that is not declared where it stands. -/
inductive Program.AssignsUndeclared (p : Program) : Prop where
  | inFunction {d : FunDef} {x : Ident} {b : Option VarId} {value : Expr} {span : Span} :
      d ∈ p.allFunctions → Stmt.OccursIn d.body (.assign (.name x b) value span) →
      d.declares x.name = false → AssignsUndeclared p
  | inModule {x : Ident} {b : Option VarId} {value : Expr} {span : Span} :
      Stmt.OccursIn p.body (.assign (.name x b) value span) →
      x.name ∉ p.varNames → AssignsUndeclared p

/-- In a checked program an assignment to a name is bound to what the function declares under it, or
at module level to a variable of the module.  A program in which a name is assigned that is not
declared where it is assigned is refused. -/
theorem check_writes (p : Program) :
    (∀ c, p.check = .ok c →
      (∀ d ∈ c.program.allFunctions, ∃ id f, d.id = some id ∧ c.functions[id.index]? = some f ∧
        ∀ x b value span, Stmt.OccursIn d.body (.assign (.name x b) value span) →
          ∃ v, b = some v ∧ c.Assigns d f x.name v) ∧
      ∀ x b value span, Stmt.OccursIn c.program.body (.assign (.name x b) value span) →
        ∃ v, b = some v ∧ List.lookup x.name c.module = some v) ∧
    (p.AssignsUndeclared → ∀ c, p.check ≠ .ok c) := by
  refine ⟨fun c hc => ?_, fun hp c hc => ?_⟩
  · obtain ⟨s, hs⟩ := Program.check_account hc
    refine ⟨fun d hd => ?_, fun x b value span hocc => hs.assigns_module hocc⟩
    obtain ⟨id, f, hid, hf, hall⟩ := hs.assigns hd
    exact ⟨id, f, hid, hf, fun x b value span hocc => (hall x b value span hocc).2⟩
  · obtain ⟨s, hs⟩ := Program.check_account hc
    cases hp with
    | @inFunction d x b value span hd hocc hx =>
      obtain ⟨d', hd', -, heq⟩ := exists_of_forall₂ (Program.check_allFunctions hc) hd
      have hbody : d'.body.map Stmt.unchecked = d.body.map Stmt.unchecked := by
        rw [← FunDef.body_unchecked, heq, FunDef.body_unchecked]
      obtain ⟨b', value', hocc'⟩ := Stmt.assigns_of_unchecked_eq hbody hocc
      obtain ⟨id, f, -, -, hall⟩ := hs.assigns hd'
      have hdeclares := (hall _ _ _ _ hocc').1
      rw [← FunDef.declares_unchecked, heq, FunDef.declares_unchecked] at hdeclares
      cases hx.symm.trans hdeclares
    | inModule hocc hx =>
      have hbody : c.program.body.map Stmt.unchecked = p.body.map Stmt.unchecked :=
        congrArg Program.body (Program.check_unchecked hc)
      obtain ⟨b', value', hocc'⟩ := Stmt.assigns_of_unchecked_eq hbody hocc
      obtain ⟨v, -, hv⟩ := hs.assigns_module hocc'
      refine hx (hs.ok.mem_varNames.2 ?_)
      rw [← hs.ok.lookup_module, hv]
      nofun

/-- The name that a statement assigns. -/
def Stmt.assigned? : Stmt → Option Ident
  | .assign (.name x _) _ _ => some x
  | _ => none

theorem Stmt.eq_of_assigned? {st : Stmt} {x : Ident} (h : st.assigned? = some x) :
    ∃ b value span, st = .assign (.name x b) value span := by
  cases st with
  | assign target value span =>
    cases target with
    | name y b =>
      cases h
      exact ⟨b, value, span, rfl⟩
    | field o f => cases h
  | _ => cases h

/-- Assignments to a parameter, a variable, one of the module and one around the function. -/
def declaredWrites : String :=
  "g:int = 0\ndef f(n:int) -> int:\n  k:int = 2\n  def h() -> int:\n    global g\n" ++
  "    nonlocal k\n    g = k\n    k = n\n    return k\n  n = h()\n  k = n\n  return k\n" ++
  "g = f(1)\nprint(g)\n"

/-- An assignment to a name of the function around that is not declared `nonlocal`. -/
def undeclaredWrite : String :=
  "def f(n:int) -> int:\n  def h() -> int:\n    n = n + 1\n    return n\n  return h()\nprint(f(1))\n"

theorem declaredWrites_checked : (Program.parse declaredWrites).toOption.any (fun p =>
    p.check.toOption.any fun c => c.program.allFunctions.map
      (fun d => (d.name.name, d.body.filterMap fun st => st.assigned?.map Ident.name))
        == [("f", ["n", "k"]), ("h", ["g", "k"])]) = true := by
  decide +kernel

theorem undeclaredWrite_parsed : (Program.parse undeclaredWrite).toOption.any (fun p =>
    p.allFunctions.any fun d => d.body.any fun st =>
      st.assigned?.any fun x => !d.declares x.name) = true := by
  decide +kernel

theorem check_writes_nested : (∃ p c, Program.parse declaredWrites = .ok p ∧ p.check = .ok c ∧
    c.program.allFunctions.map
      (fun d => (d.name.name, d.body.filterMap fun st => st.assigned?.map Ident.name))
        = [("f", ["n", "k"]), ("h", ["g", "k"])] ∧
    ∀ d ∈ c.program.allFunctions, ∃ id f, d.id = some id ∧ c.functions[id.index]? = some f ∧
      ∀ x b value span, Stmt.OccursIn d.body (.assign (.name x b) value span) →
        ∃ v, b = some v ∧ c.Assigns d f x.name v) ∧
    ∃ q, Program.parse undeclaredWrite = .ok q ∧ q.AssignsUndeclared ∧ ∀ c, q.check ≠ .ok c := by
  constructor
  · obtain ⟨p, hp, hchecked⟩ := toOption_any_eq_true.1 declaredWrites_checked
    obtain ⟨c, hc, hassigned⟩ := toOption_any_eq_true.1 hchecked
    exact ⟨p, c, hp, hc, beq_iff_eq.1 hassigned, ((check_writes p).1 c hc).1⟩
  · obtain ⟨q, hq, hany⟩ := toOption_any_eq_true.1 undeclaredWrite_parsed
    simp only [List.any_eq_true, Option.any_eq_true, Bool.not_eq_true'] at hany
    obtain ⟨d, hd, st, hst, x, hx, hundeclared⟩ := hany
    obtain ⟨b, value, span, rfl⟩ := Stmt.eq_of_assigned? hx
    have hassigns : q.AssignsUndeclared := .inFunction hd (.here hst) hundeclared
    exact ⟨q, hq, hassigns, (check_writes q).2 hassigns⟩

end ObjLang
