import ObjLang.Proofs.Check.Blind
import ObjLang.Proofs.Tree.Words

/-!
# ObjLang.Proofs.Annotations — a check only annotates

A check of a program that was read fills in what reading left out, everywhere, and changes nothing that
was read.  A second check finds nothing to do: it gives the same result.
-/

namespace ObjLang

open Check Check.Facts

/-! ### Annotated trees -/

/-- An expression with its type, and with what its name or its call stands for. -/
structure Expr.Annotated (e : Expr) : Prop where
  ty : e.ty.isSome = true
  binding : ∀ i x b, e = .name i x b → b.isSome = true
  target : ∀ i callee args t, e = .call i callee args t → t.isSome = true

/-- Statements in which all expressions and all assigned names are annotated, at any depth. -/
structure Stmt.AllAnnotated (ss : List Stmt) : Prop where
  exprs : ∀ e, Expr.OccursIn ss e → e.Annotated
  targets : ∀ x b value span, Stmt.OccursIn ss (.assign (.name x b) value span) → b.isSome = true

/-- A function definition, without those nested in it, that is annotated. -/
structure FunDef.Annotated (d : FunDef) : Prop where
  id : d.id.isSome = true
  vars : ∀ v ∈ d.vars, v.binding.isSome = true
  body : Stmt.AllAnnotated d.body

/-- A program in which every place that a check fills in is filled in. -/
structure Program.Annotated (p : Program) : Prop where
  vars : ∀ v ∈ p.vars, v.binding.isSome = true
  functions : ∀ d ∈ p.allFunctions, d.Annotated
  body : Stmt.AllAnnotated p.body

namespace Check.Facts

variable {F : Facts} {lv : List Level} {passes : String → Bool} {ret : Option Ty}

theorem ExprOk.annotated {e : Expr} {t : Ty} (h : F.ExprOk lv passes e t) : e.Annotated := by
  cases e with
  | name i x b =>
    simp only [ExprOk] at h
    obtain ⟨hty, v, rfl, -⟩ := h
    refine ⟨?_, fun _ _ _ heq => ?_, fun _ _ _ _ heq => ?_⟩
    · rw [show (Expr.name i x (some v)).ty = i.ty from rfl, hty]
      rfl
    · cases heq
      rfl
    · cases heq
  | call i callee args target =>
    simp only [ExprOk] at h
    obtain ⟨hty, htarget⟩ := h
    refine ⟨?_, fun _ _ _ heq => ?_, fun _ _ _ _ heq => ?_⟩
    · rw [show (Expr.call i callee args target).ty = i.ty from rfl, hty]
      rfl
    · cases heq
    · cases heq
      cases target with
      | none => exact htarget.elim
      | some target => rfl
  | _ =>
    simp only [ExprOk] at h
    refine ⟨Option.isSome_iff_exists.2 ⟨t, h.1⟩, fun _ _ _ heq => ?_, fun _ _ _ _ heq => ?_⟩
    · cases heq
    · cases heq

theorem BlockOk.annotated {ss : List Stmt} (h : F.BlockOk lv passes ret ss) :
    Stmt.AllAnnotated ss := by
  refine ⟨fun e he => ?_, fun x b value span hs => ?_⟩
  · obtain ⟨t, ht⟩ := exprOk_of_occursIn h he
    exact ExprOk.annotated ht
  · have hok := stmtOk_of_occursIn h hs
    simp only [StmtOk] at hok
    obtain ⟨a, t, -, ⟨v, -, rfl, -⟩, -⟩ := hok
    rfl

theorem FunctionOk.annotated {outer : List Level} {d : FunDef} {id : FunId} {f : Function}
    (h : F.FunctionOk outer d id f) : d.Annotated := by
  refine ⟨by rw [h.id_eq]; rfl, fun v hv => ?_, h.body.annotated⟩
  obtain ⟨w, -, hbinding, -⟩ := exists_of_forall₂ h.locals hv
  rw [hbinding]
  rfl

end Check.Facts

/-- Nothing in a checked program is left open. -/
theorem CheckedOk.annotated {p : Program} {c : CheckedProgram} {s : State} (h : CheckedOk p c s) :
    c.program.Annotated := by
  refine ⟨fun v hv => ?_, fun d hd => ?_, h.body.annotated⟩
  · obtain ⟨w, -, -, hbinding, -⟩ := h.globals v hv
    rw [hbinding]
    rfl
  · obtain ⟨outer, hnest⟩ := CheckedProgram.exists_nest hd
    obtain ⟨id, f, hf, -⟩ := h.function_ok hnest
    exact hf.annotated

/-! ### What reading leaves open -/

theorem map_eq_self {α : Type} {f : α → α} {as : List α} (h : ∀ a ∈ as, f a = a) :
    as.map f = as := by
  rw [List.map_congr_left h, List.map_id']

theorem Expr.Written.unchecked_eq {e : Expr} (h : e.Written) : e.unchecked = e := by
  induction h with
  | literal _ => rfl
  | name _ => rfl
  | unary _ ih => rw [Expr.unchecked, ih]; rfl
  | binary _ _ ihl ihr => rw [Expr.unchecked, ihl, ihr]; rfl
  | call _ _ ih =>
    rw [Expr.unchecked, Expr.listUnchecked_eq, map_eq_self ih]
    rfl
  | field _ _ ih => rw [Expr.unchecked, ih]; rfl
  | method _ _ _ ih ihargs =>
    rw [Expr.unchecked, ih, Expr.listUnchecked_eq, map_eq_self ihargs]
    rfl

theorem Target.Written.unchecked_eq {t : Target} (h : t.Written) : t.unchecked = t := by
  cases h with
  | name _ => rfl
  | field ho _ => rw [Target.unchecked, ho.unchecked_eq]

theorem Stmt.Written.unchecked_eq {inFunction : Bool} {s : Stmt} (h : s.Written inFunction) :
    s.unchecked = s := by
  induction h with
  | assign ht hv => rw [Stmt.unchecked, ht.unchecked_eq, hv.unchecked_eq]
  | expr hv => rw [Stmt.unchecked, hv.unchecked_eq]
  | ret _ hv => rw [Stmt.unchecked, hv.unchecked_eq]
  | pass => rfl
  | @cond test body others otherwise span htest _ _ htests _ _ _ ihbody ihbodies ihotherwise =>
    have hothers : others.map Branch.unchecked = others := map_eq_self fun b hb => by
      have htest := (htests b hb).unchecked_eq
      have hbody := map_eq_self (ihbodies b hb)
      cases b with
      | mk t ss => exact congrArg₂ Branch.mk htest ((Stmt.listUnchecked_eq _).trans hbody)
    rw [Stmt.unchecked, Branch.unchecked, htest.unchecked_eq, Stmt.listUnchecked_eq,
      Stmt.listUnchecked_eq, Branch.listUnchecked_eq, map_eq_self ihbody, map_eq_self ihotherwise,
      hothers]
  | loop htest _ _ ihbody =>
    rw [Stmt.unchecked, Branch.unchecked, htest.unchecked_eq, Stmt.listUnchecked_eq,
      map_eq_self ihbody]

theorem VarDef.Written.unchecked_eq {d : VarDef} (h : d.Written) : d.unchecked = d := by
  cases d
  cases h.binding
  rfl

theorem FunDef.Written.unchecked_eq {d : FunDef} (h : d.Written) : d.unchecked = d := by
  induction h with
  | @intro d _ _ _ _ hvars _ _ hbody hid ih =>
    cases d with
    | mk name params ret decls vars nested body span id =>
      obtain rfl : id = none := hid
      rw [FunDef.unchecked, FunDef.listUnchecked_eq, map_eq_self ih,
        map_eq_self fun v hv => (hvars v hv).unchecked_eq,
        map_eq_self fun s hs => (hbody s hs).unchecked_eq]

/-- Reading leaves open all that a check fills in. -/
theorem Program.Written.unchecked_eq {p : Program} (h : p.Written) : p.unchecked = p := by
  have hclasses : p.classes.map ClassDef.unchecked = p.classes := map_eq_self fun k hk => by
    rw [ClassDef.unchecked, map_eq_self fun m hm => ((h.classes k hk).methods m hm).unchecked_eq]
  rw [Program.unchecked, hclasses, map_eq_self fun d hd => (h.vars d hd).unchecked_eq,
    map_eq_self fun d hd => (h.functions d hd).unchecked_eq,
    map_eq_self fun s hs => (h.body s hs).unchecked_eq]

/-! ### Checking again -/

/-- A check of a program that was read changes nothing that was read, leaves nothing open, and is the
same when it is made again. -/
theorem check_annotates {source : String} {p : Program} {c : CheckedProgram}
    (hp : Program.parse source = .ok p) (h : p.check = .ok c) :
    c.program.unchecked = p ∧ c.program.Annotated ∧ c.program.check = .ok c := by
  obtain ⟨s, hok⟩ := Program.check_ok h
  have hsame : c.program.unchecked = p :=
    (Program.check_unchecked h).trans (Program.parse_written hp).unchecked_eq
  refine ⟨hsame, hok.annotated, Program.check_of_unchecked (hsame.symm ▸ h) fun k hk m hm hid => ?_⟩
  obtain ⟨-, id, hnumber, -⟩ := hok.methods k hk m hm
  exact absurd (hnumber.symm.trans hid) (Option.some_ne_none id)

/-- A method, a nested function with a capture, a field as a target, and statements that are never
reached. -/
def deadCode : String :=
  "class A(object):\n  n:int = 1\n  def get(self:A) -> int:\n    return self.n\n    self.n = 2\n" ++
  "a:A = None\ndef f(k:int) -> int:\n  def g() -> int:\n    nonlocal k\n    k = k + a.get()\n" ++
  "    return k\n  return g()\n  k = abs(k)\n  print(f(k))\na = A()\na.n = f(3)\n"

theorem deadCode_checked : (Program.parse deadCode).toOption.any
    (fun p => p.check.toOption.any fun _ => true) = true := by
  decide +kernel

theorem check_annotates_deadCode : ∃ p c, Program.parse deadCode = .ok p ∧ p.check = .ok c ∧
    c.program.unchecked = p ∧ c.program.Annotated ∧ c.program.check = .ok c := by
  obtain ⟨p, hp, hchecked⟩ := toOption_any_eq_true.1 deadCode_checked
  obtain ⟨c, hc, -⟩ := toOption_any_eq_true.1 hchecked
  exact ⟨p, c, hp, hc, check_annotates hp hc⟩

end ObjLang
