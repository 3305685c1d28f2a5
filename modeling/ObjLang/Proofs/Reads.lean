import ObjLang.Proofs.Check.Program

/-!
# ObjLang.Proofs.Reads — which variable a read name denotes

By the declarations of a program alone, a name that is read in a function denotes what the function
declares, else the variable of the module, else the nearest one around the function.  A check follows
this but for one case: a variable that only passes through the function, on its way to a function
nested in it that declares it `nonlocal`, hides the variable of the module.
-/

namespace ObjLang

open Check Check.Facts

/-! ### Reads -/

mutual

/-- The names that an expression reads, with the variables that they are bound to. -/
def Expr.reads : Expr → List (String × Option VarId)
  | .literal _ _ => []
  | .name _ x binding => [(x, binding)]
  | .unary _ _ operand => operand.reads
  | .binary _ _ left right => left.reads ++ right.reads
  | .call _ _ args _ => Expr.readsOf args
  | .field _ object _ => object.reads
  | .method _ object _ args => object.reads ++ Expr.readsOf args

/-- The names that some expressions read. -/
def Expr.readsOf : List Expr → List (String × Option VarId)
  | [] => []
  | e :: rest => e.reads ++ Expr.readsOf rest

end

/-- The names that the left side of an assignment reads. -/
def Target.reads : Target → List (String × Option VarId)
  | .name _ _ => []
  | .field object _ => object.reads

mutual

/-- The names that a statement reads. -/
def Stmt.reads : Stmt → List (String × Option VarId)
  | .assign target value _ => target.reads ++ value.reads
  | .expr value _ => value.reads
  | .ret value _ => value.reads
  | .pass _ => []
  | .cond first others otherwise _ =>
    first.reads ++ Branch.readsOf others ++ Stmt.readsOf otherwise
  | .loop branch _ => branch.reads

/-- The names that some statements read. -/
def Stmt.readsOf : List Stmt → List (String × Option VarId)
  | [] => []
  | s :: rest => s.reads ++ Stmt.readsOf rest

/-- The names that a branch reads. -/
def Branch.reads : Branch → List (String × Option VarId)
  | .mk test body => test.reads ++ Stmt.readsOf body

/-- The names that some branches read. -/
def Branch.readsOf : List Branch → List (String × Option VarId)
  | [] => []
  | b :: rest => b.reads ++ Branch.readsOf rest

end

namespace Check

/-- What a checked read denotes. -/
def ReadOk (F : Facts) (lv : List Level) (passes : String → Bool) (x : String × Option VarId) :
    Prop :=
  ∃ v, x.2 = some v ∧ F.Reaches lv x.1 v ∧
    some (F.vars.home v) = denotes F.module passes x.1 lv

section

variable {F : Facts} {lv : List Level} {passes : String → Bool}

mutual

theorem Facts.ExprOk.reads : ∀ {e : Expr} {t : Ty}, F.ExprOk lv passes e t →
    ∀ x ∈ e.reads, ReadOk F lv passes x
  | .literal _ _, _, _, x, hx => absurd hx List.not_mem_nil
  | .name _ y b, t, h, x, hx => by
    obtain rfl := List.mem_singleton.1 hx
    simp only [ExprOk] at h
    obtain ⟨-, v, hv, hr, hh, -⟩ := h
    exact ⟨v, hv, hr, hh⟩
  | .unary _ _ e, t, h, x, hx => by
    simp only [ExprOk] at h
    exact ExprOk.reads h.2.2 x hx
  | .binary _ _ l r, t, h, x, hx => by
    simp only [ExprOk] at h
    obtain ⟨-, a, b, hl, hr, -⟩ := h
    obtain hx | hx := List.mem_append.1 hx
    · exact ExprOk.reads hl x hx
    · exact ExprOk.reads hr x hx
  | .call _ callee args target, t, h, x, hx => by
    simp only [ExprOk] at h
    cases target with
    | none => exact h.2.elim
    | some target =>
      cases target with
      | construct c =>
        obtain ⟨-, -, rfl, -⟩ := h
        exact absurd hx List.not_mem_nil
      | function id captures =>
        obtain ⟨-, f, -, -, hargs, -⟩ := h
        exact ArgsOk.reads hargs x hx
      | builtin b => exact AllOk.reads h.2.2.2 x hx
  | .field _ o _, t, h, x, hx => by
    simp only [ExprOk] at h
    obtain ⟨-, c, l, k, d, ho, -⟩ := h
    exact ExprOk.reads ho x hx
  | .method _ o _ args, t, h, x, hx => by
    simp only [ExprOk] at h
    obtain ⟨-, c, id, f, ho, -, -, -, hargs⟩ := h
    obtain hx | hx := List.mem_append.1 hx
    · exact ExprOk.reads ho x hx
    · exact ArgsOk.reads hargs x hx

theorem Facts.ArgsOk.reads : ∀ {es : List Expr} {ts : List Ty}, F.ArgsOk lv passes es ts →
    ∀ x ∈ Expr.readsOf es, ReadOk F lv passes x
  | [], _, _, x, hx => absurd hx List.not_mem_nil
  | e :: es, [], h, _, _ => by
    simp only [ArgsOk] at h
  | e :: es, t :: ts, h, x, hx => by
    simp only [ArgsOk] at h
    obtain ⟨⟨a, he, -⟩, hes⟩ := h
    obtain hx | hx := List.mem_append.1 hx
    · exact ExprOk.reads he x hx
    · exact ArgsOk.reads hes x hx

theorem Facts.AllOk.reads {good : Ty → Prop} : ∀ {es : List Expr}, F.AllOk lv passes good es →
    ∀ x ∈ Expr.readsOf es, ReadOk F lv passes x
  | [], _, x, hx => absurd hx List.not_mem_nil
  | e :: es, h, x, hx => by
    simp only [AllOk] at h
    obtain ⟨⟨a, he, -⟩, hes⟩ := h
    obtain hx | hx := List.mem_append.1 hx
    · exact ExprOk.reads he x hx
    · exact AllOk.reads hes x hx

end

theorem Facts.TargetOk.reads {g : Target} {t : Ty} (h : F.TargetOk lv passes g t) :
    ∀ x ∈ g.reads, ReadOk F lv passes x := by
  cases g with
  | name y b => exact fun x hx => absurd hx List.not_mem_nil
  | field o f =>
    obtain ⟨c, l, k, d, ho, -⟩ := h
    exact ExprOk.reads ho

variable {ret : Option Ty}

mutual

theorem Facts.StmtOk.reads : ∀ {s : Stmt}, F.StmtOk lv passes ret s →
    ∀ x ∈ s.reads, ReadOk F lv passes x
  | .assign g e _, h, x, hx => by
    simp only [StmtOk] at h
    obtain ⟨a, t, he, hg, -⟩ := h
    obtain hx | hx := List.mem_append.1 hx
    · exact TargetOk.reads hg x hx
    · exact ExprOk.reads he x hx
  | .expr e _, h, x, hx => by
    simp only [StmtOk] at h
    obtain ⟨a, he⟩ := h
    exact ExprOk.reads he x hx
  | .ret e _, h, x, hx => by
    simp only [StmtOk] at h
    obtain ⟨a, t, he, -⟩ := h
    exact ExprOk.reads he x hx
  | .pass _, _, x, hx => absurd hx List.not_mem_nil
  | .cond b bs e _, h, x, hx => by
    simp only [StmtOk] at h
    simp only [Stmt.reads, List.mem_append] at hx
    obtain (hx | hx) | hx := hx
    · exact BranchOk.reads h.1 x hx
    · exact BranchesOk.reads h.2.1 x hx
    · exact BlockOk.reads h.2.2 x hx
  | .loop b _, h, x, hx => by
    simp only [StmtOk] at h
    exact BranchOk.reads h x hx

theorem Facts.BlockOk.reads : ∀ {ss : List Stmt}, F.BlockOk lv passes ret ss →
    ∀ x ∈ Stmt.readsOf ss, ReadOk F lv passes x
  | [], _, x, hx => absurd hx List.not_mem_nil
  | s :: ss, h, x, hx => by
    simp only [BlockOk] at h
    obtain hx | hx := List.mem_append.1 hx
    · exact StmtOk.reads h.1 x hx
    · exact BlockOk.reads h.2 x hx

theorem Facts.BranchOk.reads : ∀ {b : Branch}, F.BranchOk lv passes ret b →
    ∀ x ∈ b.reads, ReadOk F lv passes x
  | .mk e body, h, x, hx => by
    simp only [BranchOk] at h
    obtain hx | hx := List.mem_append.1 hx
    · exact ExprOk.reads h.1 x hx
    · exact BlockOk.reads h.2 x hx

theorem Facts.BranchesOk.reads : ∀ {bs : List Branch}, F.BranchesOk lv passes ret bs →
    ∀ x ∈ Branch.readsOf bs, ReadOk F lv passes x
  | [], _, x, hx => absurd hx List.not_mem_nil
  | b :: bs, h, x, hx => by
    simp only [BranchesOk] at h
    obtain hx | hx := List.mem_append.1 hx
    · exact BranchOk.reads h.1 x hx
    · exact BranchesOk.reads h.2 x hx

end

end

end Check

theorem FunDef.handsOnAny_eq_true {x : String} {ds : List FunDef} :
    FunDef.handsOnAny x ds = true ↔ ∃ d ∈ ds, d.handsOn x = true := by
  induction ds with
  | nil => simp [FunDef.handsOnAny]
  | cons d ds ih => simp [FunDef.handsOnAny, ih]

/-! ### What declarations give -/

namespace CheckedProgram

variable (c : CheckedProgram)

/-- The variable that a read of a name denotes by declarations alone: what the function declares, else
the variable of the module, else the nearest one around the function. -/
def declared (x : String) (outer : List FunDef) (d : FunDef) : Option VarId :=
  if d.declares x then nearest c.module x (c.level d :: outer.map c.level)
  else (List.lookup x c.module).or (nearest c.module x (outer.map c.level))

/-- Whether a variable that only passes through a function hides the variable of the module. -/
def hides (x : String) (d : FunDef) : Bool :=
  !d.declares x && d.passes x && (List.lookup x c.module).isSome

end CheckedProgram

namespace CheckedOk

variable {p : Program} {c : CheckedProgram} {s : State}

theorem declares_level (h : CheckedOk p c s) {outer : List FunDef} {d : FunDef}
    (hd : c.Nest outer d) (x : String) : (c.level d).declares x = d.declares x := by
  obtain ⟨id, f, hf, -, hlevel⟩ := h.function_ok hd
  rw [hlevel]
  refine Level.declares_ofFunction ?_ hf.locals.length_eq x
  rw [hf.params.length_eq, List.length_zip, ← hf.params_length, Nat.min_self]

/-- What passes through a function is a variable of a function around it. -/
theorem not_global_of_passes (h : CheckedOk p c s) {outer : List FunDef} {d : FunDef}
    (hd : c.Nest outer d) {x : String} (hx : d.declares x = false) (hp : d.passes x = true) :
    ∃ v r, nearest c.module x (outer.map c.level) = some v ∧ s.vars.get? v = some r ∧
      r.isGlobal = false := by
  obtain ⟨id, f, -, hn, -⟩ := h.function_ok hd
  obtain ⟨e, he, hon⟩ := FunDef.handsOnAny_eq_true.1 hp
  obtain ⟨ie, fe, hfe, -⟩ := h.function_ok (.nested hd he)
  obtain ⟨k, hk, rfl⟩ := Captures.has_eq_true.1 (hfe.handsOn x hon)
  obtain ⟨⟨r, hr, -, hkind, -⟩, hh⟩ := hfe.captures k hk
  have hrg : r.isGlobal = false := by simp [Variable.isGlobal, hkind]
  obtain ⟨q, hq, hqg, -⟩ := h.nest.state.get?_home hr hrg
  rw [List.map_cons, nearest_of_not_declared (h.declares_level hd _ ▸ hx)] at hh
  exact ⟨_, q, (h.nearest_module _ _).trans hh.symm, hq, hqg⟩

theorem read_ok (h : CheckedOk p c s) {outer : List FunDef} {d : FunDef} (hd : c.Nest outer d)
    {x : String} {b : Option VarId} (hx : (x, b) ∈ Stmt.readsOf d.body) :
    ∃ v, b = some v ∧ (c.var (c.vars.home v)).isCapture = false ∧
      some (c.vars.home v) = if c.hides x d then nearest c.module x (outer.map c.level)
        else c.declared x outer d := by
  obtain ⟨id, f, hf, -, hlevel⟩ := h.function_ok hd
  obtain ⟨v, hv, ⟨r, hr, -⟩, hh⟩ := hf.body.reads _ hx
  have hvars : (s.facts c.classes).vars = c.vars := h.vars_eq
  refine ⟨v, hv, ?_, ?_⟩
  · rw [CheckedProgram.var, ← hvars]
    refine Variables.home_induction h.nest.state.descending
      (P := fun v => (s.vars.get (s.vars.home v)).isCapture = false) ?_ ?_ v
      (Variables.get?_eq_some_lt hr)
    · intro v q hq hc
      have hget := Variables.get_eq_of_get? hq
      rw [Variables.home_of_not_capture (hget ▸ hc), hget]
      exact hc
    · intro v q o hq hk _ ih
      rw [Variables.home_of_capture h.nest.state.descending hq hk]
      exact ih
  · rw [← hvars, hh, ← hlevel]
    have hdecl := h.declares_level hd x
    have hmod : (s.facts c.classes).module = s.varEnv.module := rfl
    simp only [denotes, CheckedProgram.hides, CheckedProgram.declared, hdecl, h.lookup_module,
      h.nearest_module, hmod]
    cases d.declares x with
    | true => rfl
    | false =>
      cases d.passes x with
      | false => rfl
      | true =>
        cases List.lookup x s.varEnv.module with
        | none => rfl
        | some w => rfl

end CheckedOk

/-! ### Reads of a checked program -/

/-- A name that is read in a function of a checked program, at any depth, denotes what declarations
give, unless a variable that only passes through the function hides one of the module; it then denotes
the nearest one around the function, which is another. -/
theorem check_reads {p : Program} {c : CheckedProgram} (h : p.check = .ok c)
    {outer : List FunDef} {d : FunDef} (hd : c.Nest outer d) {x : String} {b : Option VarId}
    (hx : (x, b) ∈ Stmt.readsOf d.body) :
    ∃ v, b = some v ∧ (c.var (c.vars.home v)).isCapture = false ∧
      (some (c.vars.home v) = c.declared x outer d ↔ c.hides x d = false) ∧
      (c.hides x d = true →
        some (c.vars.home v) = nearest c.module x (outer.map c.level)) := by
  obtain ⟨s, hok⟩ := Program.check_ok h
  obtain ⟨v, hv, hc, hh⟩ := hok.read_ok hd hx
  refine ⟨v, hv, hc, ⟨fun heq => ?_, fun hn => ?_⟩, fun hhide => ?_⟩
  · cases hhide : c.hides x d with
    | false => rfl
    | true =>
      rw [hhide, if_pos rfl] at hh
      simp only [CheckedProgram.hides, Bool.and_eq_true, Bool.not_eq_true'] at hhide
      obtain ⟨⟨hdecl, hpass⟩, hsome⟩ := hhide
      obtain ⟨w, hw⟩ := Option.isSome_iff_exists.1 hsome
      obtain ⟨u, r, hu, hr, hrg⟩ := hok.not_global_of_passes hd hdecl hpass
      simp only [CheckedProgram.declared, hdecl, hw, Bool.false_eq_true, if_false,
        Option.some_or] at heq
      rw [heq, hu, Option.some.injEq] at hh
      subst hh
      rw [hok.lookup_module] at hw
      obtain ⟨q, hq, -, hqg⟩ := hok.nest.state.module x _ hw
      cases hr.symm.trans hq
      exact absurd (hrg.symm.trans hqg) nofun
  · rw [hn] at hh
    exact hh
  · rw [hhide] at hh
    exact hh

/-- A function nested in one that is nested in one: the outermost and the module have a variable `x`,
the innermost declares it `nonlocal`, and the one between reads it. -/
def passingThrough : Program where
  vars := [startingAt 1]
  functions := [function "f" [] [startingAt 2] [middle] (.call ⟨default, none⟩ ⟨"g", default⟩ [] none)]
  classes := []
  body := []
  span := default
where
  startingAt (n : Int32) : VarDef := {
    var := ⟨⟨"x", default⟩, ⟨"int", default⟩⟩
    init := .number n
    initSpan := default
    span := default }
  function (name : String) (decls : List ScopeDecl) (vars : List VarDef) (nested : List FunDef)
      (value : Expr) : FunDef := {
    name := ⟨name, default⟩
    params := []
    ret := some ⟨"int", default⟩
    decls, vars, nested
    body := [.ret value default]
    span := default
    id := none }
  read : Expr := .name ⟨default, none⟩ "x" none
  inner : FunDef := function "h" [⟨⟨"x", default⟩, .nonlocal, default⟩] [] [] read
  middle : FunDef := function "g" [] [] [inner] read

/-- A read in the function between that does not denote what declarations give. -/
theorem passingThrough_checked : passingThrough.check.toOption.any (fun c =>
    c.program.functions.any fun f => f.nested.any fun g => (Stmt.readsOf g.body).any fun r =>
      r.2.any fun v => some (c.vars.home v) != c.declared r.1 [f] g) = true := by
  decide +kernel

theorem exists_passingThrough_read : ∃ c f g x v, passingThrough.check = .ok c ∧
    c.Nest [f] g ∧ (x, some v) ∈ Stmt.readsOf g.body ∧
      some (c.vars.home v) ≠ c.declared x [f] g := by
  obtain ⟨c, hc, hany⟩ := toOption_any_eq_true.1 passingThrough_checked
  simp only [List.any_eq_true, Option.any_eq_true, bne_iff_ne] at hany
  obtain ⟨f, hf, g, hg, ⟨x, b⟩, hx, v, hv, hne⟩ := hany
  obtain rfl : b = some v := hv
  exact ⟨c, f, g, x, v, hc, .nested (.function hf) hg, hx, hne⟩

theorem check_reads_passingThrough : ∃ c f g x v, passingThrough.check = .ok c ∧
    c.Nest [f] g ∧ (x, some v) ∈ Stmt.readsOf g.body ∧ c.hides x g = true ∧
      some (c.vars.home v) = nearest c.module x ([f].map c.level) := by
  obtain ⟨c, f, g, x, v, hc, hg, hx, hne⟩ := exists_passingThrough_read
  obtain ⟨w, ⟨⟩, -, hiff, hhide⟩ := check_reads hc hg hx
  have hh : c.hides x g = true := by
    rw [← Bool.not_eq_false, ← hiff]
    exact hne
  exact ⟨c, f, g, x, v, hc, hg, hx, hh, hhide hh⟩

/-- A read in a checked program does not always denote what declarations give. -/
theorem not_check_reads_declared : ¬ ∀ (p : Program) (c : CheckedProgram), p.check = .ok c →
    ∀ (outer : List FunDef) (d : FunDef), c.Nest outer d →
      ∀ x b, (x, b) ∈ Stmt.readsOf d.body →
        ∃ v, b = some v ∧ some (c.vars.home v) = c.declared x outer d := by
  intro hall
  obtain ⟨c, f, g, x, v, hc, hg, hx, hne⟩ := exists_passingThrough_read
  obtain ⟨w, ⟨⟩, heq⟩ := hall _ c hc _ g hg x _ hx
  exact hne heq

end ObjLang
