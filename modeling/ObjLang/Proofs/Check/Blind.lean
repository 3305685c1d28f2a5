import ObjLang.Proofs.Check.Unchecked

/-!
# ObjLang.Proofs.Check.Blind — a check does not look at what is filled in

Whatever an earlier check filled in, a check of the same tree comes to the same end: it reads names,
operators, literals, written types and places, and never a type, a binding, a target or a number that
stands in the tree.  So the check of a tree is that of the unchecked tree, one equation for each
function of the checker.
-/

namespace ObjLang

namespace Check

variable {classes : ClassTable}

/-! ### Expressions -/

theorem length_listUnchecked (es : List Expr) : (Expr.listUnchecked es).length = es.length := by
  rw [Expr.listUnchecked_eq, List.length_map]

/-- A construction has no arguments to fill in. -/
theorem construct_blind (name : String) (span : Span) (args : List Expr)
    (f : List Expr → Expr × Ty) :
    (expectCount name 0 args.length span >>= fun _ => pure (f (Expr.listUnchecked args))) =
      (expectCount name 0 args.length span >>= fun _ => pure (f args) : CheckM (Expr × Ty)) := by
  cases args <;> rfl

mutual

theorem checkExpr_blind : ∀ e : Expr, checkExpr classes e.unchecked = checkExpr classes e
  | .literal _ _ => rfl
  | .name _ _ _ => rfl
  | .unary _ _ e => by
    simp only [Expr.unchecked, checkExpr, checkExpr_blind e, ExprInfo.unchecked]
  | .binary _ _ l r => by
    simp only [Expr.unchecked, checkExpr, checkExpr_blind l, checkExpr_blind r, ExprInfo.unchecked]
  | .call i callee args _ => by
    have hconstruct := construct_blind callee.name i.span args fun as =>
      (.call { i with ty := some (.object callee.name) } callee as (some (.construct callee.name)),
        .object callee.name)
    simp only [Expr.unchecked, checkExpr, checkArgs_blind args, checkInts_blind args,
      checkPrinted_blind args, length_listUnchecked, ExprInfo.unchecked, hconstruct]
  | .field _ o _ => by
    simp only [Expr.unchecked, checkExpr, checkExpr_blind o, ExprInfo.unchecked]
  | .method _ o _ args => by
    simp only [Expr.unchecked, checkExpr, checkExpr_blind o, checkArgs_blind args,
      length_listUnchecked, ExprInfo.unchecked]

theorem checkArgs_blind : ∀ (es : List Expr) {ts : List Ty},
    checkArgs classes ts (Expr.listUnchecked es) = checkArgs classes ts es
  | [], _ => rfl
  | e :: es, _ => by
    simp only [Expr.listUnchecked, checkArgs, checkExpr_blind e, checkArgs_blind es]

theorem checkInts_blind : ∀ es : List Expr,
    checkInts classes (Expr.listUnchecked es) = checkInts classes es
  | [] => rfl
  | e :: es => by
    simp only [Expr.listUnchecked, checkInts, checkExpr_blind e, checkInts_blind es]

theorem checkPrinted_blind : ∀ es : List Expr,
    checkPrinted classes (Expr.listUnchecked es) = checkPrinted classes es
  | [] => rfl
  | e :: es => by
    simp only [Expr.listUnchecked, checkPrinted, checkExpr_blind e, checkPrinted_blind es]

end

/-! ### Statements -/

theorem checkTarget_blind (t : Target) : checkTarget classes t.unchecked = checkTarget classes t := by
  cases t with
  | name x b => rfl
  | field o f => simp only [Target.unchecked, checkTarget, checkExpr_blind]

theorem checkCondition_blind (e : Expr) :
    checkCondition classes e.unchecked = checkCondition classes e := by
  simp only [checkCondition, checkExpr_blind]

mutual

theorem checkStmt_blind : ∀ s : Stmt, checkStmt classes s.unchecked = checkStmt classes s
  | .assign _ _ _ => by
    simp only [Stmt.unchecked, checkStmt, checkExpr_blind, checkTarget_blind]
  | .expr _ _ => by simp only [Stmt.unchecked, checkStmt, checkExpr_blind]
  | .ret _ _ => by simp only [Stmt.unchecked, checkStmt, checkExpr_blind]
  | .pass _ => rfl
  | .cond first others otherwise _ => by
    simp only [Stmt.unchecked, checkStmt, checkBranch_blind first, checkBranches_blind others,
      checkBlock_blind otherwise]
  | .loop b _ => by simp only [Stmt.unchecked, checkStmt, checkBranch_blind b]

theorem checkBlock_blind : ∀ ss : List Stmt,
    checkBlock classes (Stmt.listUnchecked ss) = checkBlock classes ss
  | [] => rfl
  | s :: ss => by
    simp only [Stmt.listUnchecked, checkBlock, checkStmt_blind s, checkBlock_blind ss]

theorem checkBranch_blind : ∀ b : Branch, checkBranch classes b.unchecked = checkBranch classes b
  | .mk _ body => by
    simp only [Branch.unchecked, checkBranch, checkCondition_blind, checkBlock_blind body]

theorem checkBranches_blind : ∀ bs : List Branch,
    checkBranches classes (Branch.listUnchecked bs) = checkBranches classes bs
  | [] => rfl
  | b :: bs => by
    simp only [Branch.listUnchecked, checkBranches, checkBranch_blind b, checkBranches_blind bs]

end

/-! ### Functions -/

mutual

theorem alwaysReturns_unchecked : ∀ s : Stmt, s.unchecked.alwaysReturns = s.alwaysReturns
  | .cond first others otherwise _ => by
    have hempty : (Stmt.listUnchecked otherwise).isEmpty = otherwise.isEmpty := by
      rw [Stmt.listUnchecked_eq, List.isEmpty_map]
    simp only [Stmt.unchecked, Stmt.alwaysReturns, hempty, returns_unchecked first,
      allReturn_unchecked others, bodyReturns_unchecked otherwise]
  | .assign _ _ _ | .expr _ _ | .ret _ _ | .pass _ | .loop _ _ => rfl

theorem bodyReturns_unchecked : ∀ ss : List Stmt,
    Stmt.bodyReturns (Stmt.listUnchecked ss) = Stmt.bodyReturns ss
  | [] => rfl
  | s :: ss => by
    simp only [Stmt.listUnchecked, Stmt.bodyReturns, alwaysReturns_unchecked s,
      bodyReturns_unchecked ss]

theorem returns_unchecked : ∀ b : Branch, b.unchecked.returns = b.returns
  | .mk _ body => by simp only [Branch.unchecked, Branch.returns, bodyReturns_unchecked body]

theorem allReturn_unchecked : ∀ bs : List Branch,
    Branch.allReturn (Branch.listUnchecked bs) = Branch.allReturn bs
  | [] => rfl
  | b :: bs => by
    simp only [Branch.listUnchecked, Branch.allReturn, returns_unchecked b, allReturn_unchecked bs]

end

theorem declareSignature_blind (d : FunDef) (emitted : String) (owner : Option String)
    (parent : Option FunId) : declareSignature classes d.unchecked emitted owner parent =
      declareSignature classes d emitted owner parent := by
  cases d
  rfl

theorem name_unchecked (d : FunDef) : d.unchecked.name = d.name := by
  cases d
  rfl

mutual

theorem checkFunction_blind : ∀ (d : FunDef) {id : FunId},
    checkFunction classes id d.unchecked = checkFunction classes id d
  | { name, params, ret, decls, vars, nested, body, span, id := _ }, i => by
    have hlocals : (vars.map VarDef.unchecked).mapM (checkLocal classes i) =
        vars.mapM (checkLocal classes i) := List.mapM_map
    simp only [FunDef.unchecked, checkFunction, hlocals, ← Stmt.listUnchecked_eq, checkReturns,
      bodyReturns_unchecked, checkNested_blind nested, checkBlock_blind]

theorem checkNested_blind : ∀ (ds : List FunDef) {parent : FunId} {path : String},
    checkNested classes parent path (FunDef.listUnchecked ds) = checkNested classes parent path ds
  | [], _, _ => rfl
  | d :: ds, _, _ => by
    simp only [FunDef.listUnchecked, checkNested, name_unchecked, declareSignature_blind,
      checkFunction_blind d, checkNested_blind ds]

end

end Check

/-! ### Classes -/

theorem ClassLayout.addMethods_blind {owner : String} {fields : Rows FieldLayout}
    {own : List String} {methods : Rows MethodEntry} {ds : List FunDef} :
    addMethods owner fields own methods (ds.map FunDef.unchecked) =
      addMethods owner fields own methods ds := by
  induction ds generalizing own methods with
  | nil => rfl
  | cons d ds ih => simp only [List.map_cons, addMethods, Check.name_unchecked, ih]

theorem ClassLayout.extend_blind (isClass : String → Bool) (parent : ClassLayout) (base : Nat)
    (k : ClassDef) : extend isClass parent base k.unchecked = extend isClass parent base k := by
  simp only [extend, ClassDef.unchecked, addMethods_blind]

namespace ClassTable

theorem checkNames_blind {seen : List String} {ks : List ClassDef} :
    checkNames seen (ks.map ClassDef.unchecked) = checkNames seen ks := by
  induction ks generalizing seen with
  | nil => rfl
  | cons k ks ih => simp only [List.map_cons, checkNames, ClassDef.unchecked, ih]

theorem checkSuperclasses_blind {names : List String} {ks : List ClassDef} :
    checkSuperclasses names (ks.map ClassDef.unchecked) = checkSuperclasses names ks := by
  induction ks with
  | nil => rfl
  | cons k ks ih => simp only [List.map_cons, checkSuperclasses, ClassDef.unchecked, ih]

theorem Walk.lay_blind (isClass : String → Bool) (parent : String) (w : Walk) (k : ClassDef) :
    lay isClass parent w k.unchecked = lay isClass parent w k := by
  simp only [lay, ClassLayout.extend_blind]
  rfl

theorem Walk.run_blind (ks : List ClassDef) (isClass : String → Bool) (n : Nat) (w : Walk) :
    run (ks.map ClassDef.unchecked) isClass n w = run ks isClass n w := by
  induction n generalizing w with
  | zero => rfl
  | succ n ih =>
    have hkids : ∀ parent : String, (ks.map ClassDef.unchecked).filter
        (·.superclass.name == parent) =
          (ks.filter (·.superclass.name == parent)).map ClassDef.unchecked :=
      fun parent => List.filter_map
    simp only [run, hkids, List.foldlM_map, lay_blind, ih]

theorem resolve_blind (ks : List ClassDef) : resolve (ks.map ClassDef.unchecked) = resolve ks := by
  have hnames : (ks.map ClassDef.unchecked).map (·.name.name) = ks.map (·.name.name) :=
    List.map_map
  have hcircle : ∀ table : ClassTable, (ks.map ClassDef.unchecked).find?
      (fun k => !table.contains k.name.name) =
        (ks.find? fun k => !table.contains k.name.name).map ClassDef.unchecked :=
    fun table => List.find?_map
  simp only [resolve, checkNames_blind, hnames, checkSuperclasses_blind, Walk.run_blind,
    List.length_map, hcircle]
  refine bind_congr fun _ => bind_congr fun _ => bind_congr fun table => ?_
  cases ks.find? fun k => !table.contains k.name.name <;> rfl

end ClassTable

/-! ### Programs -/

namespace Check

variable {classes : ClassTable}

theorem checkModuleNames_blind (p : Program) :
    checkModuleNames p.unchecked = checkModuleNames p := by
  have hclasses : (p.classes.map ClassDef.unchecked).map (·.name) = p.classes.map (·.name) :=
    List.map_map
  have hvars : (p.vars.map VarDef.unchecked).map (·.var.name) = p.vars.map (·.var.name) :=
    List.map_map
  have hfunctions : (p.functions.map FunDef.unchecked).map (·.name) = p.functions.map (·.name) := by
    rw [List.map_map]
    exact List.map_congr_left fun d _ => name_unchecked d
  simp only [checkModuleNames, Program.unchecked, hclasses, hvars, hfunctions]

theorem declareMethod_blind (className : String) (d : FunDef) :
    declareMethod classes className d.unchecked = declareMethod classes className d := by
  simp only [declareMethod, name_unchecked, declareSignature_blind]

theorem declareFunction_blind (d : FunDef) :
    declareFunction classes d.unchecked = declareFunction classes d := by
  simp only [declareFunction, name_unchecked, declareSignature_blind]

theorem checkBodies_blind (ds : List FunDef) (ids : List FunId) :
    checkBodies classes (ds.map FunDef.unchecked) ids = checkBodies classes ds ids := by
  have hzip : (ds.map FunDef.unchecked).zip ids = (ds.zip ids).map (Prod.map FunDef.unchecked id) := by
    rw [List.zip_map_left]
  rw [checkBodies, hzip, List.mapM_map]
  exact congrArg (List.mapM · _) (funext fun p => checkFunction_blind p.1)

theorem ancestorsFirst_unchecked (ks : List ClassDef) :
    ancestorsFirst classes (ks.map ClassDef.unchecked) =
      (ancestorsFirst classes ks).map ClassDef.unchecked := by
  rw [ancestorsFirst, ancestorsFirst, List.map_filterMap]
  exact congrArg (List.filterMap · _) (funext fun c => List.find?_map)

/-- Methods are declared alike; the classes are only handed on. -/
theorem declareMethods_unchecked {ks : List ClassDef} {cs : List (ClassDef × List FunId)}
    {s s' : State} (h : (ks.map ClassDef.unchecked).mapM (declareMethods classes) s = .ok (cs, s')) :
    ∃ cs', ks.mapM (declareMethods classes) s = .ok (cs', s') ∧
      cs = cs'.map (Prod.map ClassDef.unchecked id) := by
  induction ks generalizing s cs with
  | nil =>
    simp only [List.map_nil, List.mapM_nil, pure_eq_ok, Prod.mk.injEq] at h
    obtain ⟨rfl, rfl⟩ := h
    exact ⟨[], rfl, rfl⟩
  | cons k ks ih =>
    simp only [List.map_cons, List.mapM_cons, bind_eq_ok, pure_eq_ok, Prod.mk.injEq] at h
    obtain ⟨c, s₁, hc, cs₁, s₂, hcs, rfl, rfl⟩ := h
    obtain ⟨cs', hcs', rfl⟩ := ih hcs
    have hmethods : (k.methods.map FunDef.unchecked).mapM (declareMethod classes k.name.name) =
        k.methods.mapM (declareMethod classes k.name.name) := by
      rw [List.mapM_map]
      exact congrArg (List.mapM · _) (funext fun d => declareMethod_blind k.name.name d)
    obtain ⟨ids, hids, rfl⟩ := declareMethods_eq_ok.1 hc
    replace hids := (congrFun hmethods s).symm.trans hids
    refine ⟨(k, ids) :: cs', ?_, rfl⟩
    simp only [List.mapM_cons, bind_eq_ok, pure_eq_ok, Prod.mk.injEq]
    exact ⟨(k, ids), _, declareMethods_eq_ok.2 ⟨ids, hids, rfl⟩, _, _, hcs', rfl, rfl⟩

/-- A class without new methods keeps those that it has.  If all methods are numbered in the end, it
has none. -/
theorem withMethods_unchecked {k : ClassDef} {methods : Option (List FunDef)}
    (h : ∀ m ∈ methods.getD k.unchecked.methods, m.id ≠ none) :
    methods.getD k.unchecked.methods = methods.getD k.methods := by
  cases methods with
  | some ms => rfl
  | none =>
    cases hk : k.methods with
    | nil => simp [ClassDef.unchecked, hk]
    | cons m ms =>
      have hm : m.unchecked ∈ k.unchecked.methods := by simp [ClassDef.unchecked, hk]
      cases m
      exact absurd rfl (h _ hm)

theorem checkProgram_of_unchecked {p p' : Program} {root : FunId} {s : State}
    (h : checkProgram classes p.unchecked {} = .ok ((p', root), s))
    (hids : ∀ k ∈ p'.classes, ∀ m ∈ k.methods, m.id ≠ none) :
    checkProgram classes p {} = .ok ((p', root), s) := by
  have hvars : p.unchecked.vars.mapM (checkGlobal classes) = p.vars.mapM (checkGlobal classes) :=
    List.mapM_map
  have hfunctions : p.unchecked.functions.mapM (declareFunction classes) =
      p.functions.mapM (declareFunction classes) := by
    rw [Program.unchecked, List.mapM_map]
    exact congrArg (List.mapM · _) (funext declareFunction_blind)
  have hbody : checkBlock classes p.unchecked.body = checkBlock classes p.body := by
    rw [Program.unchecked, ← Stmt.listUnchecked_eq, checkBlock_blind]
  have hbodies : checkBodies classes p.unchecked.functions = checkBodies classes p.functions :=
    funext fun ids => checkBodies_blind p.functions ids
  have hfirst : ancestorsFirst classes p.unchecked.classes =
    (ancestorsFirst classes p.classes).map ClassDef.unchecked := ancestorsFirst_unchecked p.classes
  simp only [checkProgram, checkModuleNames_blind, hvars, hfirst, hfunctions, hbodies, hbody,
    bind_eq_ok, pure_eq_ok, Prod.mk.injEq] at h
  obtain ⟨_, s₀, hnames, vars, s₁, hglobals, _, s₂, hroot, cs, s₃, hcs, ids, s₄, hdeclared, ms, s₅,
    hms, ds, s₆, hds, body, _, hblock, ⟨rfl, rfl⟩, rfl⟩ := h
  obtain ⟨cs', hcs', rfl⟩ := declareMethods_unchecked hcs
  have hmethods : ∀ c : ClassDef × List FunId,
      checkBodies classes (Prod.map ClassDef.unchecked id c).1.methods c.2 =
        checkBodies classes c.1.methods c.2 := fun c => checkBodies_blind c.1.methods c.2
  simp only [List.mapM_map, Function.comp_def, Prod.map_snd, hmethods, id] at hms
  simp only [checkProgram, bind_eq_ok, pure_eq_ok, Prod.mk.injEq]
  refine ⟨_, s₀, hnames, vars, s₁, hglobals, _, s₂, hroot, cs', s₃, hcs', ids, s₄, hdeclared, ms, s₅,
    hms, ds, s₆, hds, body, _, hblock, ⟨?_, rfl⟩, rfl⟩
  simp only [Program.unchecked, List.map_map, Program.mk.injEq, true_and, and_true]
  refine List.map_congr_left fun k hk => ?_
  have hnumbered := hids _ (List.mem_map_of_mem (List.mem_map_of_mem hk))
  exact congrArg (fun ms => { k with methods := ms }) (withMethods_unchecked hnumbered)

end Check

/-- If the unchecked program passes a check, the program itself does, with the same result. -/
theorem Program.check_of_unchecked {p : Program} {c : CheckedProgram}
    (h : p.unchecked.check = .ok c) (hids : ∀ k ∈ c.program.classes, ∀ m ∈ k.methods, m.id ≠ none) :
    p.check = .ok c := by
  simp only [Program.check, except_bind_eq_ok, except_pure_eq_ok] at h ⊢
  obtain ⟨classes, hclasses, ⟨⟨p', root⟩, s⟩, hrun, rfl⟩ := h
  refine ⟨classes, ?_, _, Check.checkProgram_of_unchecked hrun hids, rfl⟩
  rwa [Program.unchecked, ClassTable.resolve_blind] at hclasses

end ObjLang
