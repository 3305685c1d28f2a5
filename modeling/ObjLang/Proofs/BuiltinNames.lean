import ObjLang.Proofs.Check.Settled
import ObjLang.Proofs.Class.WellFounded
import ObjLang.Tree.Parser

/-!
# ObjLang.Proofs.BuiltinNames — names of builtin functions

No class, function or variable of the module has the name of a builtin function.  A parameter, a
variable or a nested function can have it: a call in the function around such a nested function is a
call of the nested one, and every other call of the name is one of the builtin function.
-/

namespace ObjLang

open Check Check.Facts

theorem Builtin.mem_reservedNames {x : String} {b : Builtin} (h : Builtin.ofName? x = some b) :
    x ∈ reservedNames := by
  obtain rfl : b.name = x := by simpa using List.find?_some (p := fun b : Builtin => b.name == x) h
  exact List.mem_append_left _ (List.mem_map_of_mem (List.mem_of_find?_eq_some h))

theorem Builtin.ofName?_eq_none {x : String} (h : x ∉ reservedNames) : Builtin.ofName? x = none := by
  cases hb : Builtin.ofName? x with
  | none => rfl
  | some b => exact absurd (Builtin.mem_reservedNames hb) h

namespace CheckedOk

variable {p : Program} {c : CheckedProgram} {s : State}

/-- No class goes by the name of a builtin function. -/
theorem contains_builtin (h : CheckedOk p c s) {x : String} {b : Builtin}
    (hx : Builtin.ofName? x = some b) : c.classes.contains x = false := by
  rw [← Bool.not_eq_true, h.laid.contains_iff]
  rintro (rfl | hmem)
  · cases hx.symm.trans (by decide : Builtin.ofName? rootClass = none)
  · refine h.reserved x ?_ (Builtin.mem_reservedNames hx)
    obtain ⟨k, hk, rfl⟩ := List.mem_map.1 hmem
    exact List.mem_map_of_mem
      (List.mem_append_left _ (List.mem_append_left _ (List.mem_map_of_mem hk)))

/-- No function of the module goes by the name of a builtin function. -/
theorem function_ne_builtin (h : CheckedOk p c s) {x : String} {b : Builtin}
    (hx : Builtin.ofName? x = some b) {d : FunDef} (hd : d ∈ c.program.functions) :
    d.name.name ≠ x := by
  rintro rfl
  obtain ⟨e, he, hbinds⟩ := exists_of_forall₂ h.sameFunctions.flip hd
  refine h.reserved _ ?_ (Builtin.mem_reservedNames hx)
  rw [hbinds.name]
  exact List.mem_map_of_mem (List.mem_append_right _ (List.mem_map_of_mem he))

end CheckedOk

/-- What a called name of a builtin function stands for: a nested function of this name, and the
builtin function if there is none. -/
theorem AccountedOk.builtin_of_callOk {p : Program} {c : CheckedProgram} {s : State}
    (h : AccountedOk p c s) {nested : List FunDef} {x : String} {target : Option CallTarget}
    {b : Builtin} (hx : Builtin.ofName? x = some b)
    (hcall : CallOk s.funEnv.module nested x target) :
    ((∀ e ∈ nested, e.name.name ≠ x) ∧ target = some (.builtin b)) ∨
      ∃ e ∈ nested, e.name.name = x ∧ ∃ id vs, e.id = some id ∧ target = some (.function id vs) := by
  cases hcall with
  | nested he hname hid => exact .inr ⟨_, he, hname, _, _, hid, rfl⟩
  | root _ hroot =>
    obtain ⟨d, hd, hname, -⟩ := h.roots _ _ hroot
    exact absurd hname (h.ok.function_ne_builtin hx hd)
  | builtin hne _ hb =>
    cases hb.symm.trans hx
    exact .inl ⟨hne, rfl⟩

/-! ### Builtin functions in a checked program -/

/-- In a checked program nothing in the module has the name of a builtin function.  A call of such a
name is one of the builtin function, unless a function of this name is nested directly in the calling
one: then the nested function is called. -/
theorem check_builtins {p : Program} {c : CheckedProgram} (h : p.check = .ok c) :
    (∀ x ∈ p.names, Builtin.ofName? x = none) ∧
    (∀ i callee args target b, Expr.OccursIn c.program.body (.call i callee args target) →
      Builtin.ofName? callee.name = some b → target = some (.builtin b)) ∧
    ∀ d ∈ c.program.allFunctions, ∀ i callee args target b,
      Expr.OccursIn d.body (.call i callee args target) → Builtin.ofName? callee.name = some b →
        (target = some (.builtin b) ↔ ∀ e ∈ d.nested, e.name.name ≠ callee.name) ∧
        ∀ e ∈ d.nested, e.name.name = callee.name →
          ∃ id vs, e.id = some id ∧ target = some (.function id vs) := by
  obtain ⟨s, hs⟩ := Program.check_account h
  refine ⟨fun x hx => Builtin.ofName?_eq_none (hs.ok.reserved x hx),
    fun i callee args target b hocc hb => ?_, fun d hd i callee args target b hocc hb => ?_⟩
  · have hcall := hs.calls i callee args target hocc (hs.ok.contains_builtin hb)
    obtain ⟨-, htarget⟩ | ⟨e, he, -⟩ := hs.builtin_of_callOk hb hcall
    · exact htarget
    · exact absurd he List.not_mem_nil
  · obtain ⟨id, f, -, -, hacc⟩ := hs.functions d hd
    obtain ⟨outer, hnest⟩ := CheckedProgram.exists_nest hd
    obtain ⟨id', f', hf, -⟩ := hs.ok.function_ok hnest
    have hcall := hacc.calls i callee args target hocc (hs.ok.contains_builtin hb)
    obtain ⟨hne, htarget⟩ | ⟨e, he, hname, j, vs, hj, htarget⟩ := hs.builtin_of_callOk hb hcall
    · exact ⟨⟨fun _ => hne, fun _ => htarget⟩, fun e he hname => absurd hname (hne e he)⟩
    · refine ⟨⟨fun heq => ?_, fun hne => absurd hname (hne e he)⟩, fun e' he' hname' => ?_⟩
      · cases htarget.symm.trans heq
      · rw [List.inj_on_of_nodup_map hf.nestedNames he' he (hname'.trans hname.symm)]
        exact ⟨j, vs, hj, htarget⟩

/-- A nested function with the name of a builtin function, and a call of it. -/
def nestedAbs : String :=
  "def f() -> int:\n  def abs(x:int) -> int:\n    return x\n  return abs(-3)\nprint(f())\n"

/-- Whether an expression is a call of a name that stands for a function of the program. -/
def Expr.callsFunction (x : String) : Expr → Bool
  | .call _ callee _ (some (.function _ _)) => callee.name == x
  | _ => false

theorem nestedAbs_checked : (Program.parse nestedAbs).toOption.any (fun p =>
    p.check.toOption.any fun c => c.program.allFunctions.any fun d =>
      d.nested.any (fun e => e.name.name == "abs") &&
        d.body.any fun st => st.exprs.any (Expr.callsFunction "abs")) = true := by
  decide +kernel

theorem exists_nestedAbs_call : ∃ p c, Program.parse nestedAbs = .ok p ∧ p.check = .ok c ∧
    ∃ d ∈ c.program.allFunctions, (∃ e ∈ d.nested, e.name.name = "abs") ∧
      ∃ i callee args id vs, Expr.OccursIn d.body (.call i callee args (some (.function id vs))) ∧
        callee.name = "abs" := by
  obtain ⟨p, hp, hchecked⟩ := toOption_any_eq_true.1 nestedAbs_checked
  obtain ⟨c, hc, hany⟩ := toOption_any_eq_true.1 hchecked
  simp only [List.any_eq_true, Bool.and_eq_true, beq_iff_eq] at hany
  obtain ⟨d, hd, hnested, st, hst, e, he, hcalls⟩ := hany
  refine ⟨p, c, hp, hc, d, hd, hnested, ?_⟩
  unfold Expr.callsFunction at hcalls
  split at hcalls
  · exact ⟨_, _, _, _, _, .here (.here hst) he, beq_iff_eq.1 hcalls⟩
  · cases hcalls

theorem check_builtins_nestedAbs : ∃ p c, Program.parse nestedAbs = .ok p ∧ p.check = .ok c ∧
    (∀ x ∈ p.names, Builtin.ofName? x = none) ∧
    ∃ d ∈ c.program.allFunctions, ∃ e ∈ d.nested, e.name.name = "abs" ∧
      ∃ i callee args target id vs, Expr.OccursIn d.body (.call i callee args target) ∧
        callee.name = "abs" ∧ e.id = some id ∧ target = some (.function id vs) := by
  obtain ⟨p, c, hp, hc, d, hd, ⟨e, he, hname⟩, i, callee, args, id, vs, hocc, hcallee⟩ :=
    exists_nestedAbs_call
  have hb : Builtin.ofName? callee.name = some .abs := by
    rw [hcallee]
    decide
  obtain ⟨hnames, -, hcalls⟩ := check_builtins hc
  obtain ⟨id', vs', hid, htarget⟩ :=
    (hcalls d hd i callee args _ .abs hocc hb).2 e he (hname.trans hcallee.symm)
  exact ⟨p, c, hp, hc, hnames, d, hd, e, he, hname, i, callee, args, _, id', vs', hocc, hcallee,
    hid, htarget⟩

/-- Whether the names of builtin functions are kept for them: nothing in the module and no parameter,
variable or nested function of a function has such a name, and a call of one is one of the builtin
function. -/
structure CheckedProgram.KeepsBuiltins (c : CheckedProgram) : Prop where
  module : ∀ x ∈ c.program.names, Builtin.ofName? x = none
  functions : ∀ d ∈ c.program.allFunctions, ∀ x ∈ d.params.map (·.name.name)
    ++ d.vars.map (·.var.name.name) ++ d.nested.map (·.name.name), Builtin.ofName? x = none
  calls : ∀ d ∈ c.program.allFunctions, ∀ i callee args target b,
    Expr.OccursIn d.body (.call i callee args target) → Builtin.ofName? callee.name = some b →
      target = some (.builtin b)
  moduleCalls : ∀ i callee args target b,
    Expr.OccursIn c.program.body (.call i callee args target) →
      Builtin.ofName? callee.name = some b → target = some (.builtin b)

/-- A check does not keep the names of builtin functions for them. -/
theorem not_check_keepsBuiltins :
    ¬ ∀ (p : Program) (c : CheckedProgram), p.check = .ok c → c.KeepsBuiltins := by
  intro hall
  obtain ⟨p, c, -, hc, d, hd, -, i, callee, args, id, vs, hocc, hcallee⟩ := exists_nestedAbs_call
  have hb : Builtin.ofName? callee.name = some .abs := by
    rw [hcallee]
    decide
  cases (hall p c hc).calls d hd i callee args _ .abs hocc hb

end ObjLang
