import Mathlib.Data.Finset.Card
import ObjLang.Proofs.Check.Settled
import ObjLang.Proofs.Check.Unchecked
import ObjLang.Tree.Parser

/-!
# ObjLang.Proofs.FreeVariables — functions capture their free variables

Which variables are free in a function is read off its definition, from the innermost functions
outwards.  A check gathers the captures along its way through the program.  In the end they are the
free variables.
-/

namespace ObjLang

open Check Check.Facts

/-! ### Free variables -/

namespace FunDef

/-- The names of the parameters, of the variables and of the `global` declarations. -/
def bound (d : FunDef) : List String :=
  d.params.map (·.name.name) ++ d.vars.map (·.var.name.name) ++ d.declared .global

mutual

/-- The free variables of a function of a module with some variables: the names that it declares
`nonlocal`, those that its statements read and that neither it nor the module binds, and those that
are free in a function nested directly in it and that it does not declare. -/
def free (module : List String) : FunDef → Finset String
  | d@{ nested, body, .. } =>
    (d.declared .nonlocal).toFinset
      ∪ ((Stmt.readsOf body).map Prod.fst).toFinset \ (d.bound ++ module).toFinset
      ∪ freeOf module nested \ (d.bound ++ d.declared .nonlocal).toFinset

/-- The variables that are free in one of some functions. -/
def freeOf (module : List String) : List FunDef → Finset String
  | [] => ∅
  | d :: rest => free module d ∪ freeOf module rest

end

variable {module : List String} {d : FunDef} {x : String}

theorem free_eq : d.free module = (d.declared .nonlocal).toFinset
    ∪ ((Stmt.readsOf d.body).map Prod.fst).toFinset \ (d.bound ++ module).toFinset
    ∪ freeOf module d.nested \ (d.bound ++ d.declared .nonlocal).toFinset := by
  cases d
  rw [free]

theorem mem_freeOf {ds : List FunDef} : x ∈ freeOf module ds ↔ ∃ d ∈ ds, x ∈ d.free module := by
  induction ds with
  | nil => simp [freeOf]
  | cons d ds ih => simp [freeOf, ih]

theorem mem_free : x ∈ d.free module ↔ x ∈ d.declared .nonlocal ∨
    (Among (Stmt.readsOf d.body) x ∧ x ∉ d.bound ∧ x ∉ module) ∨
    ((∃ e ∈ d.nested, x ∈ e.free module) ∧ x ∉ d.bound ∧ x ∉ d.declared .nonlocal) := by
  rw [free_eq]
  simp [mem_freeOf, Among]

theorem declares_eq_false :
    d.declares x = false ↔ x ∉ d.bound ∧ x ∉ d.declared .nonlocal := by
  have hdecl : x ∈ d.declared .global ∨ x ∈ d.declared .nonlocal ↔
      ∃ e ∈ d.decls, e.name.name = x := by
    simp only [declared, List.mem_map, List.mem_filter, decide_eq_true_eq]
    constructor
    · rintro (⟨e, ⟨he, -⟩, hx⟩ | ⟨e, ⟨he, -⟩, hx⟩) <;> exact ⟨e, he, hx⟩
    · rintro ⟨e, he, hx⟩
      cases hk : e.kind with
      | global => exact .inl ⟨e, ⟨he, hk⟩, hx⟩
      | nonlocal => exact .inr ⟨e, ⟨he, hk⟩, hx⟩
  have hiff : d.declares x = true ↔ x ∈ d.bound ∨ x ∈ d.declared .nonlocal := by
    simp only [declares, bound, Bool.or_eq_true, List.any_eq_true, beq_iff_eq, List.mem_append,
      List.mem_map, or_assoc, hdecl]
  rw [← Bool.not_eq_true, hiff, not_or]

end FunDef

/-! ### Free variables without what a check fills in -/

mutual

theorem Expr.reads_unchecked : ∀ e : Expr,
    e.unchecked.reads.map Prod.fst = e.reads.map Prod.fst
  | .literal _ _ => rfl
  | .name _ _ _ => rfl
  | .unary _ _ e => Expr.reads_unchecked e
  | .binary _ _ l r => by
    simp only [Expr.unchecked, Expr.reads, List.map_append, Expr.reads_unchecked l,
      Expr.reads_unchecked r]
  | .call _ _ args _ => Expr.readsOf_unchecked args
  | .field _ o _ => Expr.reads_unchecked o
  | .method _ o _ args => by
    simp only [Expr.unchecked, Expr.reads, List.map_append, Expr.reads_unchecked o,
      Expr.readsOf_unchecked args]

theorem Expr.readsOf_unchecked : ∀ es : List Expr,
    (Expr.readsOf (Expr.listUnchecked es)).map Prod.fst = (Expr.readsOf es).map Prod.fst
  | [] => rfl
  | e :: es => by
    simp only [Expr.listUnchecked, Expr.readsOf, List.map_append, Expr.reads_unchecked e,
      Expr.readsOf_unchecked es]

end

theorem Target.reads_unchecked (g : Target) :
    g.unchecked.reads.map Prod.fst = g.reads.map Prod.fst := by
  cases g with
  | name x b => rfl
  | field o f => exact o.reads_unchecked

mutual

theorem Stmt.reads_unchecked : ∀ s : Stmt,
    s.unchecked.reads.map Prod.fst = s.reads.map Prod.fst
  | .assign g e _ => by
    simp only [Stmt.unchecked, Stmt.reads, List.map_append, g.reads_unchecked, e.reads_unchecked]
  | .expr e _ => e.reads_unchecked
  | .ret e _ => e.reads_unchecked
  | .pass _ => rfl
  | .cond b bs ss _ => by
    simp only [Stmt.unchecked, Stmt.reads, List.map_append, Branch.reads_unchecked b,
      Branch.readsOf_unchecked bs, Stmt.readsOf_unchecked ss]
  | .loop b _ => Branch.reads_unchecked b

theorem Stmt.readsOf_unchecked : ∀ ss : List Stmt,
    (Stmt.readsOf (Stmt.listUnchecked ss)).map Prod.fst = (Stmt.readsOf ss).map Prod.fst
  | [] => rfl
  | s :: ss => by
    simp only [Stmt.listUnchecked, Stmt.readsOf, List.map_append, Stmt.reads_unchecked s,
      Stmt.readsOf_unchecked ss]

theorem Branch.reads_unchecked : ∀ b : Branch,
    b.unchecked.reads.map Prod.fst = b.reads.map Prod.fst
  | .mk e body => by
    simp only [Branch.unchecked, Branch.reads, List.map_append, e.reads_unchecked,
      Stmt.readsOf_unchecked body]

theorem Branch.readsOf_unchecked : ∀ bs : List Branch,
    (Branch.readsOf (Branch.listUnchecked bs)).map Prod.fst = (Branch.readsOf bs).map Prod.fst
  | [] => rfl
  | b :: bs => by
    simp only [Branch.listUnchecked, Branch.readsOf, List.map_append, Branch.reads_unchecked b,
      Branch.readsOf_unchecked bs]

end

namespace FunDef

theorem bound_unchecked (d : FunDef) : d.unchecked.bound = d.bound := by
  simp [bound, params_unchecked, vars_unchecked, declared_unchecked, VarDef.unchecked,
    Function.comp_def]

mutual

theorem free_unchecked (module : List String) : ∀ d : FunDef,
    d.unchecked.free module = d.free module
  | ⟨_, _, _, _, _, nested, body, _, _⟩ => by
    rw [free_eq, free_eq, bound_unchecked, declared_unchecked, nested_unchecked, body_unchecked,
      ← listUnchecked_eq, ← Stmt.listUnchecked_eq, Stmt.readsOf_unchecked body,
      freeOf_unchecked module nested]

theorem freeOf_unchecked (module : List String) : ∀ ds : List FunDef,
    freeOf module (listUnchecked ds) = freeOf module ds
  | [] => rfl
  | d :: ds => by
    simp only [listUnchecked, freeOf, free_unchecked module d, freeOf_unchecked module ds]

end

end FunDef

/-! ### Captures -/

/-- A captured name is none of those that the function binds. -/
theorem Check.Facts.FunctionOk.not_mem_bound {F : Facts} {outer : List Level} {d : FunDef}
    {id : FunId} {f : Function} (hf : F.FunctionOk outer d id f) {k : Capture}
    (hk : k ∈ f.captures) : k.name ∉ d.bound := by
  intro hmem
  obtain hown | hglobal := List.mem_append.1 hmem
  · exact (List.nodup_append.1 hf.names).2.2 _ hown _ (List.mem_map_of_mem hk) rfl
  · have hnot := hf.notGlobal k hk
    rw [List.contains_iff_mem.2 hglobal] at hnot
    cases hnot

namespace AccountedOk

variable {p : Program} {c : CheckedProgram} {s : State}

/-- A name that is read in a function and that neither it nor the module binds is captured. -/
theorem captured_of_read (h : AccountedOk p c s) {d : FunDef} (hd : d ∈ c.program.allFunctions)
    {x : String} (hx : Among (Stmt.readsOf d.body) x) (hbound : x ∉ d.bound)
    (hm : List.lookup x s.varEnv.module = none) : (s.facts c.classes).Captured d x := by
  obtain ⟨outer, hnest⟩ := CheckedProgram.exists_nest hd
  obtain ⟨id, f, hf, -⟩ := h.ok.function_ok hnest
  obtain ⟨⟨y, b⟩, hb, rfl⟩ := List.mem_map.1 hx
  obtain ⟨v, -, ⟨r, hr, hname, hglobal | ⟨l, outer', heq, hown | ⟨r', hr', hc, ho⟩⟩⟩, -⟩ :=
    hf.body.reads _ hb
  · cases hm.symm.trans hglobal.2
  · cases heq
    refine absurd ?_ hbound
    obtain hmem | hmem := List.mem_append.1 (Bindings.mem_of_lookup hown)
    · exact List.mem_append_left _ (List.mem_append_left _ (List.of_mem_zip hmem).1)
    · exact List.mem_append_left _ (List.mem_append_right _ (List.of_mem_zip hmem).1)
  · cases heq
    cases hr.symm.trans hr'
    obtain ⟨k, hk, -, hkn⟩ := h.ok.capture_of_alias hf hr hc ho
    exact ⟨id, f, hf.id_eq, hf.record, Captures.has_eq_true.2 ⟨k, hk, hkn.trans hname⟩⟩

/-- What a function captures, by what it declares and reads and what the functions nested directly
in it capture. -/
theorem captured_iff (h : AccountedOk p c s) {d : FunDef} (hd : d ∈ c.program.allFunctions)
    {x : String} : (s.facts c.classes).Captured d x ↔ x ∈ d.declared .nonlocal ∨
      (Among (Stmt.readsOf d.body) x ∧ x ∉ d.bound ∧ x ∉ p.varNames) ∨
      ((∃ e ∈ d.nested, (s.facts c.classes).Captured e x) ∧ x ∉ d.bound ∧
        x ∉ d.declared .nonlocal) := by
  obtain ⟨outer, hnest⟩ := CheckedProgram.exists_nest hd
  obtain ⟨id, f, hf, -⟩ := h.ok.function_ok hnest
  obtain ⟨id', f', hid', hf', hacc⟩ := h.functions d hd
  cases hf.id_eq.symm.trans hid'
  cases hf.record.symm.trans hf'
  rw [h.ok.mem_varNames, not_not]
  constructor
  · rintro ⟨j, g, hj, hg, hx⟩
    cases hf.id_eq.symm.trans hj
    cases hf.record.symm.trans hg
    obtain ⟨k, hk, rfl⟩ := Captures.has_eq_true.1 hx
    have hnot := hf.not_mem_bound hk
    cases hw : k.writable with
    | true => exact .inl (List.contains_iff_mem.1 ((hacc.writable k hk).1 hw))
    | false =>
      have hnonlocal : k.name ∉ d.declared .nonlocal := fun hmem => by
        cases hw.symm.trans ((hacc.writable k hk).2 (List.contains_iff_mem.2 hmem))
      obtain ⟨hread, hm⟩ | hnested := hacc.reasons k hk hw
      · exact .inr (.inl ⟨hread, hnot, hm⟩)
      · exact .inr (.inr ⟨hnested, hnot, hnonlocal⟩)
  · rintro (hx | ⟨hx, hbound, hm⟩ | ⟨⟨e, he, hx⟩, hbound, hnonlocal⟩)
    · refine ⟨id, f, hf.id_eq, hf.record, hf.handsOn x ?_⟩
      rw [FunDef.handsOn_eq, List.contains_iff_mem.2 hx, Bool.true_or]
    · exact h.captured_of_read hd hx hbound hm
    · exact ⟨id, f, hf.id_eq, hf.record,
        hacc.threaded e he x hx (FunDef.declares_eq_false.2 ⟨hbound, hnonlocal⟩)⟩

mutual

theorem captured_iff_free (h : AccountedOk p c s) {x : String} : ∀ {d : FunDef},
    d ∈ c.program.allFunctions →
      ((s.facts c.classes).Captured d x ↔ x ∈ d.free p.varNames)
  | ⟨_, _, _, _, _, nested, _, _, _⟩, hd => by
    have hnested : ∀ e ∈ nested, e ∈ c.program.allFunctions := fun e he =>
      FunDef.mem_allOf_of_nested hd he
    rw [h.captured_iff hd, FunDef.mem_free, h.captured_iff_freeOf hnested]

theorem captured_iff_freeOf (h : AccountedOk p c s) {x : String} : ∀ {ds : List FunDef},
    (∀ d ∈ ds, d ∈ c.program.allFunctions) →
      ((∃ d ∈ ds, (s.facts c.classes).Captured d x) ↔ ∃ d ∈ ds, x ∈ d.free p.varNames)
  | [], _ => by simp
  | d :: ds, hds => by
    rw [List.exists_mem_cons_iff, List.exists_mem_cons_iff,
      h.captured_iff_free (hds d List.mem_cons_self),
      h.captured_iff_freeOf fun e he => hds e (List.mem_cons_of_mem _ he)]

end

end AccountedOk

/-! ### Captures of a checked program -/

/-- The captures in the record of a function are its free variables, each once; those may be assigned
that the function itself declares `nonlocal`. -/
structure FunDef.CapturesFree (module : List String) (d : FunDef) (f : Function) : Prop where
  distinct : (f.captures.map Capture.name).Nodup
  names : (f.captures.map Capture.name).toFinset = d.free module
  writable : ∀ k ∈ f.captures, k.writable = true ↔ k.name ∈ d.declared .nonlocal
  arity : f.totalArity = d.params.length + (d.free module).card

theorem FunDef.CapturesFree.of_unchecked_eq {module : List String} {d d' : FunDef} {f : Function}
    (h : d'.CapturesFree module f) (heq : d'.unchecked = d.unchecked) : d.CapturesFree module f := by
  have hfree : d.free module = d'.free module := by
    rw [← FunDef.free_unchecked, ← heq, FunDef.free_unchecked]
  have hdeclared : d.declared .nonlocal = d'.declared .nonlocal := by
    rw [← FunDef.declared_unchecked, ← heq, FunDef.declared_unchecked]
  have hparams : d.params = d'.params := by
    rw [← FunDef.params_unchecked, ← heq, FunDef.params_unchecked]
  exact ⟨h.distinct, hfree ▸ h.names, hdeclared ▸ h.writable, by rw [hparams, hfree, h.arity]⟩

theorem AccountedOk.capturesFree {p : Program} {c : CheckedProgram} {s : State}
    (h : AccountedOk p c s) {d : FunDef} (hd : d ∈ c.program.allFunctions) :
    ∃ id f, d.id = some id ∧ c.functions[id.index]? = some f ∧ d.CapturesFree p.varNames f := by
  obtain ⟨outer, hnest⟩ := CheckedProgram.exists_nest hd
  obtain ⟨id, f, hf, -⟩ := h.ok.function_ok hnest
  obtain ⟨id', f', hid', hf', hacc⟩ := h.functions d hd
  cases hf.id_eq.symm.trans hid'
  cases hf.record.symm.trans hf'
  have hdistinct : (f.captures.map Capture.name).Nodup := (List.nodup_append.1 hf.names).2.1
  have hnames : (f.captures.map Capture.name).toFinset = d.free p.varNames := by
    ext x
    rw [← h.captured_iff_free hd, List.mem_toFinset, List.mem_map, ← Captures.has_eq_true]
    constructor
    · exact fun hx => ⟨id, f, hf.id_eq, hf.record, hx⟩
    · rintro ⟨j, g, hj, hg, hx⟩
      cases hf.id_eq.symm.trans hj
      cases hf.record.symm.trans hg
      exact hx
  have hparams : f.params.length = d.params.length := by
    rw [hf.params.length_eq, List.length_zip, ← hf.params_length, Nat.min_self]
  refine ⟨id, f, hf.id_eq, h.ok.functions_eq ▸ hf.record, hdistinct, hnames, fun k hk => ?_, ?_⟩
  · rw [hacc.writable k hk, List.contains_iff_mem]
  · rw [Function.totalArity, hparams, ← hnames, List.toFinset_card_of_nodup hdistinct,
      List.length_map]

/-- Every function of an accepted program, at any depth, captures exactly its free variables. -/
theorem check_captures_free {p : Program} {c : CheckedProgram} (h : p.check = .ok c) :
    List.Forall₂ (fun d d' => d'.unchecked = d.unchecked ∧ ∃ id f, d'.id = some id ∧
      c.functions[id.index]? = some f ∧ d.CapturesFree p.varNames f)
      p.allFunctions c.program.allFunctions := by
  obtain ⟨s, hs⟩ := Program.check_account h
  refine (Program.check_allFunctions h).imp fun d d' hd => ?_
  obtain ⟨hd', heq⟩ := hd
  obtain ⟨id, f, hid, hf, hfree⟩ := hs.capturesFree hd'
  exact ⟨heq, id, f, hid, hf, hfree.of_unchecked_eq heq⟩

/-- Two functions in one: the first passes on what one nested in it changes and reads. -/
def siblingCaptures : String :=
  "def f(n:int) -> int:\n  k:int = 2\n  def g() -> int:\n    def h() -> int:\n" ++
  "      nonlocal n\n      n = n + k\n      return n\n    return h()\n" ++
  "  def r() -> int:\n    return k\n  return g() + r()\nprint(f(1))\n"

/-- The names that the functions of a checked program capture, with whether they may be assigned. -/
def CheckedProgram.captured (c : CheckedProgram) : List (List (String × Bool)) :=
  c.functions.toList.map fun f => f.captures.map fun k => (k.name, k.writable)

theorem siblingCaptures_checked : (Program.parse siblingCaptures).toOption.any (fun p =>
    p.check.toOption.any fun c => c.captured
      == [[], [], [("n", false), ("k", false)], [("n", true), ("k", false)], [("k", false)]])
      = true := by
  decide +kernel

theorem check_captures_free_siblings : ∃ p c, Program.parse siblingCaptures = .ok p ∧
    p.check = .ok c ∧
    c.captured
      = [[], [], [("n", false), ("k", false)], [("n", true), ("k", false)], [("k", false)]] ∧
    List.Forall₂ (fun d d' => d'.unchecked = d.unchecked ∧ ∃ id f, d'.id = some id ∧
      c.functions[id.index]? = some f ∧ d.CapturesFree p.varNames f)
      p.allFunctions c.program.allFunctions := by
  obtain ⟨p, hp, hchecked⟩ := toOption_any_eq_true.1 siblingCaptures_checked
  obtain ⟨c, hc, hcaptured⟩ := toOption_any_eq_true.1 hchecked
  exact ⟨p, c, hp, hc, beq_iff_eq.1 hcaptured, check_captures_free hc⟩

end ObjLang
