import ObjLang.Proofs.Check.Program
import ObjLang.Proofs.Tree.Unchecked

/-!
# ObjLang.Proofs.Check.Unchecked — a check only fills in

Whatever a check gives has the same unchecked form as what it was given: it adds types, bindings,
targets and the numbers of records, and changes, drops or moves nothing that is written.
-/

namespace ObjLang

namespace Check

variable {classes : ClassTable}

theorem forall₂_of_mapM_run {α β : Type} {f : α → CheckM β} {as : List α} {bs : List β}
    {s s' : State} (h : as.mapM f s = .ok (bs, s')) :
    List.Forall₂ (fun a b => ∃ t t', f a t = .ok (b, t')) as bs := by
  induction as generalizing s bs with
  | nil =>
    simp only [List.mapM_nil, pure_eq_ok, Prod.mk.injEq] at h
    obtain ⟨rfl, -⟩ := h
    exact .nil
  | cons a as ih =>
    simp only [List.mapM_cons, bind_eq_ok, pure_eq_ok, Prod.mk.injEq] at h
    obtain ⟨b, s₁, hb, bs₁, _, hbs, rfl, rfl⟩ := h
    exact .cons ⟨s, s₁, hb⟩ (ih hbs)

/-! ### Expressions -/

mutual

theorem checkExpr_unchecked : ∀ {e e' : Expr} {t : Ty} {s s' : State},
    checkExpr classes e s = .ok ((e', t), s') → e'.unchecked = e.unchecked
  | .literal _ _, e', t, s, s', hc => by
    cases checkExpr_cases hc with
    | literal => rfl
  | .name _ _ _, e', t, s, s', hc => by
    cases checkExpr_cases hc with
    | name => rfl
  | .unary _ _ e, e', t, s, s', hc => by
    cases checkExpr_cases hc with
    | unary he => simp only [Expr.unchecked, checkExpr_unchecked he, ExprInfo.unchecked]
  | .binary _ _ l r, e', t, s, s', hc => by
    cases checkExpr_cases hc with
    | binary hl hr =>
      simp only [Expr.unchecked, checkExpr_unchecked hl, checkExpr_unchecked hr,
        ExprInfo.unchecked]
  | .call _ _ args _, e', t, s, s', hc => by
    cases checkExpr_cases hc with
    | construct => rfl
    | function _ _ hargs => simp only [Expr.unchecked, checkExprs_unchecked hargs, ExprInfo.unchecked]
    | builtin _ _ _ _ hargs =>
      simp only [Expr.unchecked, checkExprs_unchecked hargs, ExprInfo.unchecked]
  | .field _ o _, e', t, s, s', hc => by
    cases checkExpr_cases hc with
    | field ho => simp only [Expr.unchecked, checkExpr_unchecked ho, ExprInfo.unchecked]
  | .method _ o _ args, e', t, s, s', hc => by
    cases checkExpr_cases hc with
    | method ho _ hargs =>
      simp only [Expr.unchecked, checkExpr_unchecked ho, checkExprs_unchecked hargs,
        ExprInfo.unchecked]

theorem checkExprs_unchecked : ∀ {es es' : List Expr} {ts : List Ty} {s s' : State},
    ExprsChecked classes es s es' ts s' → Expr.listUnchecked es' = Expr.listUnchecked es
  | [], es', ts, s, s', hc => by
    cases hc with
    | nil => rfl
  | e :: es, es', ts, s, s', hc => by
    cases hc with
    | cons he hes =>
      simp only [Expr.listUnchecked, checkExpr_unchecked he, checkExprs_unchecked hes]

end

/-! ### Statements -/

theorem checkTarget_unchecked {target target' : Target} {t : Ty} {s s' : State}
    (hc : checkTarget classes target s = .ok ((target', t), s')) :
    target'.unchecked = target.unchecked := by
  cases checkTarget_cases hc with
  | name => rfl
  | field ho => simp only [Target.unchecked, checkExpr_unchecked ho]

mutual

theorem checkStmt_unchecked : ∀ {st st' : Stmt} {s s' : State},
    checkStmt classes st s = .ok (st', s') → st'.unchecked = st.unchecked
  | .assign _ _ _, st', s, s', hc => by
    cases checkStmt_cases hc with
    | assign he ht => simp only [Stmt.unchecked, checkExpr_unchecked he, checkTarget_unchecked ht]
  | .expr _ _, st', s, s', hc => by
    cases checkStmt_cases hc with
    | expr he => simp only [Stmt.unchecked, checkExpr_unchecked he]
  | .ret _ _, st', s, s', hc => by
    cases checkStmt_cases hc with
    | ret he => simp only [Stmt.unchecked, checkExpr_unchecked he]
  | .pass _, st', s, s', hc => by
    cases checkStmt_cases hc with
    | pass => rfl
  | .cond first others otherwise _, st', s, s', hc => by
    cases checkStmt_cases hc with
    | cond hf ho he =>
      simp only [Stmt.unchecked, checkBranch_unchecked hf, checkBranches_unchecked ho,
        checkBlock_unchecked he]
  | .loop branch _, st', s, s', hc => by
    cases checkStmt_cases hc with
    | loop hb => simp only [Stmt.unchecked, checkBranch_unchecked hb]

theorem checkBlock_unchecked : ∀ {ss ss' : List Stmt} {s s' : State},
    checkBlock classes ss s = .ok (ss', s') → Stmt.listUnchecked ss' = Stmt.listUnchecked ss
  | [], ss', s, s', hc => by
    cases checkBlock_cases hc with
    | nil => rfl
  | st :: ss, ss', s, s', hc => by
    cases checkBlock_cases hc with
    | cons hst hss =>
      simp only [Stmt.listUnchecked, checkStmt_unchecked hst, checkBlock_unchecked hss]

theorem checkBranch_unchecked : ∀ {b b' : Branch} {s s' : State},
    checkBranch classes b s = .ok (b', s') → b'.unchecked = b.unchecked
  | .mk _ body, b', s, s', hc => by
    cases checkBranch_cases hc with
    | mk ht hb => simp only [Branch.unchecked, checkExpr_unchecked ht, checkBlock_unchecked hb]

theorem checkBranches_unchecked : ∀ {bs bs' : List Branch} {s s' : State},
    checkBranches classes bs s = .ok (bs', s') → Branch.listUnchecked bs' = Branch.listUnchecked bs
  | [], bs', s, s', hc => by
    cases checkBranches_cases hc with
    | nil => rfl
  | b :: bs, bs', s, s', hc => by
    cases checkBranches_cases hc with
    | cons hb hbs =>
      simp only [Branch.listUnchecked, checkBranch_unchecked hb, checkBranches_unchecked hbs]

end

/-! ### Functions -/

theorem checkLocal_unchecked {owner : FunId} {d d' : VarDef} {s s' : State}
    (hc : checkLocal classes owner d s = .ok (d', s')) : d'.unchecked = d.unchecked := by
  simp only [checkLocal, bind_eq_ok, pure_eq_ok, Prod.mk.injEq] at hc
  obtain ⟨_, _, -, _, _, -, _, _, -, _, _, -, _, _, -, rfl, -⟩ := hc
  rfl

theorem checkGlobal_unchecked {d d' : VarDef} {s s' : State}
    (hc : checkGlobal classes d s = .ok (d', s')) : d'.unchecked = d.unchecked := by
  simp only [checkGlobal, bind_eq_ok, pure_eq_ok, Prod.mk.injEq] at hc
  obtain ⟨_, _, -, _, _, -, _, _, -, _, _, -, _, _, -, rfl, -⟩ := hc
  rfl

/-- Definitions checked one after the other keep what is written if each does. -/
theorem map_unchecked {α β γ : Type} {g : α → CheckM β} {u : α → γ} {u' : β → γ}
    (hg : ∀ a b s s', g a s = .ok (b, s') → u' b = u a) {as : List α} {bs : List β} {s s' : State}
    (hc : as.mapM g s = .ok (bs, s')) : bs.map u' = as.map u := by
  have hall := forall₂_of_mapM_run hc
  clear hc
  induction hall with
  | nil => rfl
  | cons hab _ ih =>
    obtain ⟨t, t', hab⟩ := hab
    rw [List.map_cons, List.map_cons, hg _ _ _ _ hab, ih]

mutual

theorem checkFunction_unchecked : ∀ {d d' : FunDef} {id : FunId} {s s' : State},
    checkFunction classes id d s = .ok (d', s') → d'.unchecked = d.unchecked
  | { name, params, ret, decls, vars, nested, body, span, id := _ }, d', id, s, s', hc => by
    obtain ⟨_, _, vars', _, nested', _, body', _, -, -, hvars, -, hnested, hbody, -, rfl⟩ :=
      checkFunction_cases rfl hc
    have hlocals := map_unchecked (fun _ _ _ _ hd => checkLocal_unchecked hd) hvars
    have hblock := checkBlock_unchecked hbody
    rw [Stmt.listUnchecked_eq, Stmt.listUnchecked_eq] at hblock
    simp only [FunDef.unchecked, hlocals, checkNested_unchecked hnested, hblock]

theorem checkNested_unchecked : ∀ {ds ds' : List FunDef} {parent : FunId} {path : String}
    {s s' : State}, checkNested classes parent path ds s = .ok (ds', s') →
      FunDef.listUnchecked ds' = FunDef.listUnchecked ds
  | [], ds', parent, path, s, s', hc => by
    obtain ⟨rfl, -⟩ := Prod.mk.inj (checkNested_nil_eq_ok.1 hc)
    rfl
  | d :: ds, ds', parent, path, s, s', hc => by
    obtain ⟨_, _, _, d', _, _, ds₁, -, -, hd, -, hds, rfl⟩ := checkNested_cons_cases hc
    simp only [FunDef.listUnchecked, checkFunction_unchecked hd, checkNested_unchecked hds]

end

/-! ### Programs -/

theorem checkBodies_unchecked {ds ds' : List FunDef} {ids : List FunId} {s s' : State}
    (hlen : ds.length = ids.length) (hc : checkBodies classes ds ids s = .ok (ds', s')) :
    ds'.map FunDef.unchecked = ds.map FunDef.unchecked := by
  have hzip : ds'.map FunDef.unchecked = (ds.zip ids).map (FunDef.unchecked ∘ Prod.fst) :=
    map_unchecked (fun _ _ _ _ hd => checkFunction_unchecked hd) hc
  rwa [← List.map_map, List.map_fst_zip (Nat.le_of_eq hlen)] at hzip

/-- The classes whose methods are declared are classes of the program, each with as many numbers as
methods. -/
theorem declareMethods_mem {defs : List ClassDef} {cs : List (ClassDef × List FunId)} {s s' : State}
    (hc : defs.mapM (declareMethods classes) s = .ok (cs, s')) :
    ∀ c ∈ cs, c.1 ∈ defs ∧ c.1.methods.length = c.2.length := by
  intro c hc'
  obtain ⟨k, hk, _, _, hkc⟩ := exists_of_forall₂ (forall₂_of_mapM_run hc).flip hc'
  obtain ⟨ids, hids, rfl⟩ := declareMethods_eq_ok.1 hkc
  exact ⟨hk, (forall₂_of_mapM_run hids).length_eq⟩

theorem ancestorsFirst_subset {defs : List ClassDef} :
    ∀ k ∈ ancestorsFirst classes defs, k ∈ defs := by
  intro k hk
  obtain ⟨c, -, hc⟩ := List.mem_filterMap.1 hk
  exact List.mem_of_find?_eq_some hc

theorem checkProgram_unchecked {p p' : Program} {root : FunId} {s : State}
    (hc : checkProgram classes p {} = .ok ((p', root), s)) : p'.unchecked = p.unchecked := by
  obtain ⟨vars, _, _, cs, _, ids, _, ms, _, ds, _, body, hnames, hvars, -, hcs, hids, hms, hds, hbody,
    rfl⟩ := checkProgram_cases hc
  obtain ⟨-, hnd, -⟩ := checkModuleNames_ok hnames
  have hmem := declareMethods_mem hcs
  have hclasses : (p.classes.map (·.name.name)).Nodup := by
    rw [Program.names, List.map_append, List.map_append, List.append_assoc, List.map_map] at hnd
    exact (List.nodup_append.1 hnd).1
  have hmethods : ∀ k ∈ p.classes,
      ((List.lookup k.name.name ms).getD k.methods).map FunDef.unchecked
        = k.methods.map FunDef.unchecked := by
    intro k hk
    cases hl : List.lookup k.name.name ms with
    | none => rfl
    | some es =>
      obtain ⟨c, hc, _, _, hcm⟩ := exists_of_forall₂ (forall₂_of_mapM_run hms).flip
        (Bindings.mem_of_lookup hl)
      simp only [bind_eq_ok, pure_eq_ok, Prod.mk.injEq] at hcm
      obtain ⟨es', _, hes, ⟨hn, rfl⟩, -⟩ := hcm
      obtain ⟨hcp, hlen⟩ := hmem c hc
      have hck : c.1 = k := List.inj_on_of_nodup_map hclasses (ancestorsFirst_subset _ hcp) hk
        hn.symm
      rw [Option.getD_some, checkBodies_unchecked hlen hes, hck]
  have hblock := checkBlock_unchecked hbody
  rw [Stmt.listUnchecked_eq, Stmt.listUnchecked_eq] at hblock
  have hglobals := map_unchecked (fun _ _ _ _ hd => checkGlobal_unchecked hd) hvars
  have hfunctions := checkBodies_unchecked (forall₂_of_mapM_run hids).length_eq hds
  simp only [Program.unchecked, withChecked, hglobals, hfunctions, hblock, List.map_map,
    Program.mk.injEq, true_and, and_true]
  refine List.map_congr_left fun k hk => ?_
  simp only [Function.comp_apply, ClassDef.unchecked, hmethods k hk]

end Check

/-- A check changes nothing that is written. -/
theorem Program.check_unchecked {p : Program} {c : CheckedProgram} (h : p.check = .ok c) :
    c.program.unchecked = p.unchecked := by
  simp only [Program.check, except_bind_eq_ok, except_pure_eq_ok] at h
  obtain ⟨classes, -, ⟨⟨p', root⟩, s⟩, hrun, rfl⟩ := h
  exact Check.checkProgram_unchecked hrun

theorem Program.allFunctions_unchecked (p : Program) :
    p.unchecked.allFunctions = p.allFunctions.map FunDef.unchecked := by
  rw [Program.allFunctions, Program.allFunctions, ← FunDef.allOf_unchecked, FunDef.listUnchecked_eq]
  simp [Program.unchecked, ClassDef.unchecked, List.map_flatMap, List.flatMap_map]

/-- The functions of a program, at any depth, with what they are in the checked program. -/
theorem Program.check_allFunctions {p : Program} {c : CheckedProgram} (h : p.check = .ok c) :
    List.Forall₂ (fun d d' => d' ∈ c.program.allFunctions ∧ d'.unchecked = d.unchecked)
      p.allFunctions c.program.allFunctions := by
  have hsame : c.program.allFunctions.map FunDef.unchecked
      = p.allFunctions.map FunDef.unchecked := by
    rw [← Program.allFunctions_unchecked, ← Program.allFunctions_unchecked,
      Program.check_unchecked h]
  refine List.forall₂_iff_get.2 ⟨?_, fun i hi hi' => ⟨List.get_mem _ _, ?_⟩⟩
  · simpa using (congrArg List.length hsame).symm
  · simpa [hi, hi'] using congrArg (·[i]?) hsame

end ObjLang
