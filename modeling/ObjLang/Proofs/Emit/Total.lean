import ObjLang.Proofs.Emit.Module
import ObjLang.Proofs.Emit.Paths

/-!
# ObjLang.Proofs.Emit.Total — code generation never stops on a checked program

Code generation asks for much that a tree may lack: a type for each receiver, a variable for each
name, a cell for each captured variable, a layout for each class, and names of functions that are
all different.  A checked program has it all, so a source text that parses and checks has a module.
-/

namespace ObjLang.Emit

open Check Check.Facts
open Code (Instr FunctionBuilder ModuleBuilder)

/-! ### Steps that do not stop -/

/-- A part of code generation that stops in no state. -/
def Total {α : Type} (x : EmitM α) : Prop := ∀ s, ∃ r, x s = .ok r

/-- A part of code generation that leaves the state as it is and gives `a`. -/
def Gives {α : Type} (x : EmitM α) (a : α) : Prop := ∀ s, x s = .ok (a, s)

namespace Total

variable {α β : Type} {x : EmitM α}

theorem pure (a : α) : Total (pure a : EmitM α) := fun _ => ⟨_, rfl⟩

theorem bind {f : α → EmitM β} (hx : Total x) (hf : ∀ a, Total (f a)) : Total (x >>= f) := by
  intro s
  obtain ⟨⟨a, s'⟩, ha⟩ := hx s
  obtain ⟨r, hr⟩ := hf a s'
  exact ⟨r, bind_eq_ok.2 ⟨a, s', ha, hr⟩⟩

theorem mapM {f : β → EmitM α} {bs : List β} (h : ∀ b ∈ bs, Total (f b)) : Total (bs.mapM f) := by
  induction bs with
  | nil =>
    rw [List.mapM_nil]
    exact .pure _
  | cons b bs ih =>
    rw [List.mapM_cons]
    exact (h b List.mem_cons_self).bind fun _ =>
      (ih fun d hd => h d (List.mem_cons_of_mem _ hd)).bind fun _ => .pure _

theorem addLocal (x : String) : Total (addLocal x) := fun _ => ⟨_, addLocal_eq_ok.2 rfl⟩

theorem newLabel (x : String) : Total (newLabel x) := fun _ => ⟨_, newLabel_eq_ok.2 rfl⟩

theorem newTemp (x : String) : Total (newTemp x) := fun _ => ⟨_, newTemp_eq_ok.2 rfl⟩

theorem signature (k : Nat) : Total (signature k) := fun _ => ⟨_, signature_eq_ok.2 rfl⟩

end Total

namespace Gives

variable {α β : Type} {x : EmitM α} {a : α}

theorem bind {f : α → EmitM β} (hx : Gives x a) (hf : Total (f a)) : Total (x >>= f) := by
  intro s
  obtain ⟨r, hr⟩ := hf s
  exact ⟨r, bind_eq_ok.2 ⟨a, s, hx s, hr⟩⟩

end Gives

section

variable {p : Program} {c : CheckedProgram} {t₀ : Check.State} {lv : List Level}
  {passes : String → Bool} {ret : Option Ty}

theorem gives_bound (v : VarId) (x : String) : Gives (bound c (some v) x) (c.var v) :=
  fun _ => bound_eq_ok.2 ⟨v, rfl, rfl⟩

/-! ### Types and layouts -/

theorem ty_of_exprOk {F : Facts} {e : Expr} {t : Ty} (h : F.ExprOk lv passes e t) :
    e.ty = some t := by
  cases e with
  | unary i op e => cases op <;> (simp only [ExprOk] at h; exact h.1)
  | _ =>
    simp only [ExprOk] at h
    exact h.1

/-- A receiver whose type is a class has the layout of this class. -/
theorem ReceiverLayout.get? {e : Expr} {k : String} {l : ClassLayout} (h : ReceiverLayout c e l)
    (he : (t₀.facts c.classes).ExprOk lv passes e (.object k)) : c.classes.get? k = some l := by
  obtain ⟨k', hty, hl⟩ := h
  cases (ty_of_exprOk he).symm.trans hty
  exact hl

theorem total_fieldOffset {e : Expr} {k x : String} {l : ClassLayout} {i : Nat} {d : FieldLayout}
    (he : (t₀.facts c.classes).ExprOk lv passes e (.object k)) (hl : c.classes.get? k = some l)
    (hx : l.field? x = some (i, d)) : Total (fieldOffset c e x) :=
  fun _ => ⟨_, fieldOffset_eq_ok.2 ⟨l, i, d, ⟨k, ty_of_exprOk he, hl⟩, hx, rfl⟩⟩

theorem total_slotOf {e : Expr} {k m : String} {id : FunId}
    (he : (t₀.facts c.classes).ExprOk lv passes e (.object k))
    (hm : (t₀.facts c.classes).methodId? k m = some id) : Total (slotOf c e m) := by
  simp only [Facts.methodId?, Option.bind_eq_bind, Option.bind_eq_some_iff] at hm
  obtain ⟨l, hl, target, htarget, -⟩ := hm
  obtain ⟨⟨slot, entry⟩, hslot, -⟩ := Option.map_eq_some_iff.1 htarget
  exact fun _ => ⟨_, slotOf_eq_ok.2 ⟨l, slot, entry, ⟨k, ty_of_exprOk he, hl⟩, hslot, rfl⟩⟩

/-- Every class has a method for new objects, be it that of the root class. -/
theorem init_of_laid {ds : List ClassDef} {t : ClassTable} (h : t.LaidOut ds) {l : ClassLayout}
    (hl : l ∈ t.layouts) : ∃ target, l.target? initMethod = some target := by
  have hlaid := h.laid l hl
  induction hlaid with
  | root => exact ⟨methodTarget rootClass initMethod, by decide⟩
  | extend hp _ _ _ hx ih =>
    obtain ⟨target, htarget⟩ := ih hp.mem
    have hp := h.indexed hp.mem
    rw [(hp.extend hx).target?_eq, hp.find?_extend hx]
    rw [hp.target?_eq] at htarget
    split
    · exact ⟨_, rfl⟩
    · exact ⟨target, htarget⟩

theorem total_construct (hc : CheckedOk p c t₀) {k : String}
    (hk : c.classes.contains k = true) : Total (construct c k) := by
  obtain ⟨l, hl⟩ := ClassTable.contains_eq_true.1 hk
  obtain ⟨target, htarget⟩ := init_of_laid hc.laid (ClassTable.get?_mem hl).1
  have hlayout : Gives (layoutOf c k) l := fun _ => layoutOf_eq_ok.2 ⟨hl, rfl⟩
  refine hlayout.bind ?_
  simp only [htarget]
  exact (Total.addLocal _).bind fun _ => .pure _

/-! ### Cells -/

/-- What a call passes for a capture is a variable with a cell. -/
theorem cell_of_passes (hc : CheckedOk p c t₀) {id q : FunId} {f : Function}
    (hf : t₀.functions[id.index]? = some f) (hp : f.parent = some q) {k : Capture}
    (hk : k ∈ f.captures) {v : VarId} (hv : (t₀.facts c.classes).Passes lv v k) :
    (c.var v).isGlobal = false ∧ (c.var v).isIndirect = true := by
  obtain ⟨⟨r, hr, -, hg⟩, -, -, hhome⟩ := hv
  obtain ⟨outer, d, -, hfok⟩ := hc.exists_definition hf hp
  obtain ⟨⟨a, ha, -, hkind, -⟩, -⟩ := hfok.captures k hk
  have hstate := hc.nest.state
  rw [var_eq hc hr]
  refine ⟨hg, ?_⟩
  cases hcap : r.isCapture with
  | true =>
    obtain ⟨o, ho⟩ : ∃ o, r.kind = .capture o := by
      unfold Variable.isCapture at hcap
      split at hcap
      · next o ho => exact ⟨o, ho⟩
      · cases hcap
    simp [Variable.isIndirect, (hstate.origins v r o hr ho).1]
  | false =>
    -- The variable is what the alias of the capture stands for, and that lives in a cell.
    obtain ⟨s, hs, -, -, -, hrefed⟩ :=
      hstate.get?_home ha (by simp [Variable.isGlobal, hkind])
    have hself : t₀.vars.home v = v :=
      Variables.home_of_not_capture (Variables.get_eq_of_get? hr ▸ hcap)
    have hhome' : t₀.vars.home k.inner = v := hhome.symm.trans hself
    rw [hhome'] at hs
    cases hr.symm.trans hs
    simp [Variable.isIndirect, hrefed (by simp [Variable.isCapture, hkind])]

theorem total_loadCells {vs : List VarId}
    (h : ∀ v ∈ vs, (c.var v).isGlobal = false ∧ (c.var v).isIndirect = true) :
    Total (loadCells c vs) := by
  refine Total.bind (.mapM fun v hv => ?_) fun _ => .pure _
  obtain ⟨hg, hi⟩ := h v hv
  exact fun _ => ⟨_, loadCell_eq_ok.2 ⟨hg, hi, rfl⟩⟩

/-! ### Expressions -/

theorem total_builtinCall {b : Builtin} {args : List Expr} (hlen : args.length = b.arity)
    (hargs : (t₀.facts c.classes).AllOk lv passes (takes b) args) :
    Total (builtinCall b args) := by
  cases b with
  | print =>
    cases args with
    | nil => cases hlen
    | cons e es =>
      simp only [AllOk] at hargs
      obtain ⟨⟨t, he, ht⟩, -⟩ := hargs
      have hty : Gives (tyOf e) t := fun _ => tyOf_eq_ok.2 ⟨ty_of_exprOk he, rfl⟩
      refine hty.bind ?_
      cases t with
      | object k => cases ht
      | _ => exact (Total.pure _).bind fun _ => .pure _
  | _ => exact .pure _

mutual

theorem expr_total (hc : CheckedOk p c t₀) {e : Expr} {t : Ty}
    (he : (t₀.facts c.classes).ExprOk lv passes e t) : Total (expr c e) := by
  match e with
  | .literal i v =>
    rw [expr]
    exact .pure _
  | .name i x b =>
    simp only [ExprOk] at he
    obtain ⟨-, v, rfl, -⟩ := he
    rw [expr]
    exact (gives_bound v x).bind (.pure _)
  | .unary i .neg e =>
    simp only [ExprOk] at he
    rw [expr]
    exact (expr_total hc he.2.2).bind fun _ => .pure _
  | .unary i .not e =>
    simp only [ExprOk] at he
    rw [expr]
    exact (expr_total hc he.2.2).bind fun _ => .pure _
  | .binary i op l r =>
    simp only [ExprOk] at he
    obtain ⟨-, _, _, hl, hr, -⟩ := he
    rw [expr]
    exact (expr_total hc hl).bind fun _ => (expr_total hc hr).bind fun _ => .pure _
  | .call i callee args none =>
    simp only [ExprOk] at he
    exact he.2.elim
  | .call i callee args (some (.function id vs)) =>
    simp only [ExprOk] at he
    obtain ⟨-, f, hf, -, hargs, hcells⟩ := he
    have hcell : ∀ v ∈ vs, (c.var v).isGlobal = false ∧ (c.var v).isIndirect = true := by
      obtain ⟨-, rfl⟩ | ⟨l, _, -, hp, hpass⟩ := hcells
      · exact fun v hv => absurd hv List.not_mem_nil
      · intro v hv
        obtain ⟨k, hk, hvk⟩ := exists_of_forall₂ hpass hv
        exact cell_of_passes hc hf hp hk hvk
    rw [expr]
    exact (exprs_total hc hargs).bind fun _ => (total_loadCells hcell).bind fun _ => .pure _
  | .call i callee args (some (.construct k)) =>
    simp only [ExprOk] at he
    rw [expr]
    exact total_construct hc he.2.2.2.1
  | .call i callee args (some (.builtin b)) =>
    simp only [ExprOk] at he
    obtain ⟨-, -, hlen, hargs⟩ := he
    rw [expr]
    exact (allOk_total hc hargs).bind fun _ => (total_builtinCall hlen hargs).bind fun _ => .pure _
  | .field i o x =>
    simp only [ExprOk] at he
    obtain ⟨-, k, l, j, d, ho, hl, hx, -⟩ := he
    rw [expr]
    exact (total_fieldOffset ho hl hx).bind fun _ => (expr_total hc ho).bind fun _ => .pure _
  | .method i o m args =>
    simp only [ExprOk] at he
    obtain ⟨-, k, id, f, ho, hm, -, -, hargs⟩ := he
    rw [expr]
    exact (total_slotOf ho hm).bind fun _ => (expr_total hc ho).bind fun _ =>
      (Total.newTemp _).bind fun _ => (exprs_total hc hargs).bind fun _ =>
        (Total.signature _).bind fun _ => .pure _

theorem exprs_total (hc : CheckedOk p c t₀) {es : List Expr} {ts : List Ty}
    (he : (t₀.facts c.classes).ArgsOk lv passes es ts) : Total (exprs c es) := by
  match es, ts with
  | [], _ =>
    rw [exprs]
    exact .pure _
  | e :: es, [] => simp only [ArgsOk] at he
  | e :: es, t :: ts =>
    simp only [ArgsOk] at he
    obtain ⟨⟨_, he, -⟩, hes⟩ := he
    rw [exprs]
    exact (expr_total hc he).bind fun _ => (exprs_total hc hes).bind fun _ => .pure _

theorem allOk_total (hc : CheckedOk p c t₀) {es : List Expr} {good : Ty → Prop}
    (he : (t₀.facts c.classes).AllOk lv passes good es) : Total (exprs c es) := by
  match es with
  | [] =>
    rw [exprs]
    exact .pure _
  | e :: es =>
    simp only [AllOk] at he
    obtain ⟨⟨_, he, -⟩, hes⟩ := he
    rw [exprs]
    exact (expr_total hc he).bind fun _ => (allOk_total hc hes).bind fun _ => .pure _

end

/-! ### Statements -/

theorem assignment_total (hc : CheckedOk p c t₀) {value : Expr} {target : Target} {t u : Ty}
    (he : (t₀.facts c.classes).ExprOk lv passes value t)
    (ht : (t₀.facts c.classes).TargetOk lv passes target u) :
    Total (assignment c value target) := by
  cases target with
  | name x b =>
    simp only [TargetOk] at ht
    obtain ⟨v, _, rfl, -⟩ := ht
    exact (gives_bound v x.name).bind ((expr_total hc he).bind fun _ => .pure _)
  | field o x =>
    simp only [TargetOk] at ht
    obtain ⟨k, l, j, d, ho, hl, hx, -⟩ := ht
    exact (total_fieldOffset ho hl hx).bind fun _ => (expr_total hc ho).bind fun _ =>
      (expr_total hc he).bind fun _ => .pure _

mutual

theorem stmt_total (hc : CheckedOk p c t₀) {st : Stmt}
    (hst : (t₀.facts c.classes).StmtOk lv passes ret st) : Total (stmt c st) := by
  match st with
  | .assign target value _ =>
    simp only [StmtOk] at hst
    obtain ⟨_, _, he, ht, -⟩ := hst
    rw [stmt]
    exact assignment_total hc he ht
  | .expr value _ =>
    simp only [StmtOk] at hst
    obtain ⟨_, he⟩ := hst
    rw [stmt]
    exact (Total.addLocal _).bind fun _ => (expr_total hc he).bind fun _ => .pure _
  | .ret value _ =>
    simp only [StmtOk] at hst
    obtain ⟨_, _, he, -, -⟩ := hst
    rw [stmt]
    exact (expr_total hc he).bind fun _ => .pure _
  | .pass _ =>
    rw [stmt]
    exact .pure _
  | .cond first others otherwise _ =>
    simp only [StmtOk] at hst
    obtain ⟨hfirst, hothers, helse⟩ := hst
    rw [stmt]
    exact (Total.newLabel _).bind fun exit => (guarded_total hc exit hfirst).bind fun _ =>
      (guardedAll_total hc exit hothers).bind fun _ => (block_total hc helse).bind fun _ => .pure _
  | .loop (.mk test body) _ =>
    simp only [StmtOk, BranchOk] at hst
    obtain ⟨htest, hbody⟩ := hst
    rw [stmt]
    exact (Total.newLabel _).bind fun _ => (Total.newLabel _).bind fun _ =>
      (expr_total hc htest).bind fun _ => (block_total hc hbody).bind fun _ => .pure _

theorem block_total (hc : CheckedOk p c t₀) {ss : List Stmt}
    (hss : (t₀.facts c.classes).BlockOk lv passes ret ss) : Total (block c ss) := by
  match ss with
  | [] =>
    rw [block]
    exact .pure _
  | st :: ss =>
    simp only [BlockOk] at hss
    obtain ⟨hst, hss⟩ := hss
    rw [block]
    exact (stmt_total hc hst).bind fun _ => (block_total hc hss).bind fun _ => .pure _

theorem guarded_total (hc : CheckedOk p c t₀) (exit : String) {b : Branch}
    (hb : (t₀.facts c.classes).BranchOk lv passes ret b) : Total (guarded c exit b) := by
  match b with
  | .mk test body =>
    simp only [BranchOk] at hb
    obtain ⟨htest, hbody⟩ := hb
    rw [guarded]
    exact (expr_total hc htest).bind fun _ => (block_total hc hbody).bind fun _ => .pure _

theorem guardedAll_total (hc : CheckedOk p c t₀) (exit : String) {bs : List Branch}
    (hbs : (t₀.facts c.classes).BranchesOk lv passes ret bs) : Total (guardedAll c exit bs) := by
  match bs with
  | [] =>
    rw [guardedAll]
    exact .pure _
  | b :: bs =>
    simp only [BranchesOk] at hbs
    obtain ⟨hb, hbs⟩ := hbs
    rw [guardedAll]
    exact (guarded_total hc exit hb).bind fun _ =>
      (guardedAll_total hc exit hbs).bind fun _ => .pure _

end

/-! ### Functions -/

theorem addParams_total {b : FunctionBuilder} {xs : List String} (hb : b.locals = [])
    (h : (b.params ++ xs).Nodup) : ∃ b', addParams b xs = .ok b' := by
  induction xs generalizing b with
  | nil => exact ⟨b, rfl⟩
  | cons x xs ih =>
    have hx : b.declares x = false := by
      rw [Bool.eq_false_iff, ne_eq, FunctionBuilder.declares_iff, FunctionBuilder.names, hb,
        List.append_nil]
      exact fun hmem => (List.nodup_append.1 h).2.2 x hmem x List.mem_cons_self rfl
    have hadd : b.addParam x = .ok { b with params := b.params ++ [x] } := by
      rw [FunctionBuilder.addParam, hx, if_neg Bool.false_ne_true]
    obtain ⟨b', hb'⟩ := ih (b := { b with params := b.params ++ [x] }) hb
      (by rwa [List.append_assoc])
    exact ⟨b', by rw [addParams, List.foldlM_cons, hadd]; exact hb'⟩

theorem frame_total (hc : CheckedOk p c t₀) {outer : List Level} {d : FunDef} {id : FunId}
    {f : Function} (hf : (t₀.facts c.classes).FunctionOk outer d id f) :
    ∃ b, frame c f = .ok b := by
  have hnd := nodup_varNames hc hf
  rw [varNames, List.map_append] at hnd
  obtain ⟨b, hb⟩ := addParams_total (b := { name := f.emitted }) rfl (List.nodup_append.1 hnd).1
  exact ⟨_, except_bind_eq_ok.2 ⟨b, hb, rfl⟩⟩

theorem total_boxParams (f : Function) : Total (boxParams c f) := by
  rw [boxParams]
  split
  · exact (Total.addLocal _).bind fun _ => .pure _
  · exact (Total.pure _).bind fun _ => .pure _

theorem total_initLocals {defs : List VarDef} (h : ∀ d ∈ defs, ∃ v, d.binding = some v) :
    Total (initLocals c defs) := by
  refine Total.bind (.mapM fun d hd => ?_) fun _ => .pure _
  obtain ⟨v, hv⟩ := h d hd
  rw [hv]
  exact (gives_bound v _).bind (.pure _)

theorem assemble_total {code : EmitM (List Instr)} (h : Total code) (b : FunctionBuilder)
    (m : ModuleBuilder) : ∃ m', assemble b code m = .ok m' := by
  obtain ⟨⟨body, s⟩, hs⟩ := h ⟨b, m⟩
  exact ⟨_, except_bind_eq_ok.2 ⟨(body, s), hs, rfl⟩⟩

theorem addFunDef_total (hc : CheckedOk p c t₀) {outer : List FunDef} {d : FunDef}
    (hd : c.Nest outer d) (m : ModuleBuilder) : ∃ m', addFunDef c d m = .ok m' := by
  obtain ⟨id, f, hf, -⟩ := hc.function_ok hd
  obtain ⟨b, hb⟩ := frame_total hc hf
  have hbind : ∀ q ∈ d.vars, ∃ v, q.binding = some v := by
    intro q hq
    obtain ⟨v, -, hv, -⟩ := exists_of_forall₂ hf.locals hq
    exact ⟨v, hv⟩
  have hcode : Total (do
      let boxes ← boxParams c f
      let inits ← initLocals c d.vars
      let body ← block c d.body
      return boxes ++ inits ++ body ++ [.const 0] : EmitM (List Instr)) :=
    (total_boxParams f).bind fun _ => (total_initLocals hbind).bind fun _ =>
      (block_total hc hf.body).bind fun _ => .pure _
  obtain ⟨m', hm'⟩ := assemble_total hcode b m
  refine ⟨m', ?_⟩
  simp only [addFunDef, hf.id_eq, function_eq hc hf.record, hb]
  exact hm'

mutual

theorem addTree_total (hc : CheckedOk p c t₀) {outer : List FunDef} {d : FunDef}
    (hd : c.Nest outer d) (m : ModuleBuilder) : ∃ m', addTree c m d = .ok m' := by
  match d with
  | ⟨name, params, ret, decls, vars, nested, body, span, id⟩ =>
    obtain ⟨m₁, h₁⟩ := addFunDef_total hc hd m
    have hall : ∀ e ∈ nested, c.Nest (_ :: outer) e := fun e he => .nested hd he
    obtain ⟨m₂, h₂⟩ := addTrees_total hc hall m₁
    refine ⟨m₂, ?_⟩
    simp only [addTree, except_bind_eq_ok]
    exact ⟨m₁, h₁, h₂⟩

theorem addTrees_total (hc : CheckedOk p c t₀) {outer : List FunDef} {ds : List FunDef}
    (hds : ∀ d ∈ ds, c.Nest outer d) (m : ModuleBuilder) : ∃ m', addTrees c m ds = .ok m' := by
  match ds with
  | [] =>
    rw [addTrees]
    exact ⟨m, rfl⟩
  | d :: ds =>
    obtain ⟨m₁, h₁⟩ := addTree_total hc (hds d List.mem_cons_self) m
    obtain ⟨m₂, h₂⟩ := addTrees_total hc (fun e he => hds e (List.mem_cons_of_mem _ he)) m₁
    refine ⟨m₂, ?_⟩
    simp only [addTrees, except_bind_eq_ok]
    exact ⟨m₁, h₁, h₂⟩

end

/-! ### Modules -/

theorem addRootInit_total (hc : CheckedOk p c t₀) (m : ModuleBuilder) :
    ∃ m', addRootInit c m = .ok m' := by
  obtain ⟨f, hf, -, -, -, -, -, hlen, -⟩ := hc.root
  obtain ⟨v, hv⟩ := List.length_eq_one_iff.1 hlen
  let start : FunctionBuilder := { name := f.emitted }
  have hnd : (start.params ++ [(c.var v).name]).Nodup := List.nodup_singleton _
  obtain ⟨b, hb⟩ := addParams_total rfl hnd
  refine ⟨_, except_bind_eq_ok.2 ⟨b, ?_, rfl⟩⟩
  rw [function_eq hc hf, hv]
  exact hb

theorem addEntry_total (hc : CheckedOk p c t₀) (m : ModuleBuilder) :
    ∃ m', addEntry c m = .ok m' :=
  assemble_total ((block_total hc hc.body).bind fun _ => .pure _) _ m

/-- The functions of a module have different names. -/
theorem Assembled.nodup (hc : CheckedOk p c t₀) (hp : p.Words) {o : Options} {b : ModuleBuilder}
    (h : Assembled c o b) : (b.imports.map (·.name) ++ b.functions.map (·.name)).Nodup := by
  obtain ⟨⟨types, functions, rfl⟩, -, -, gs, g, hgs, hbuilt, hentry⟩ := h
  obtain ⟨hnd, hmade⟩ := hc.nodup_functionNames hp
  have hroot : (rootFunction c).name = methodTarget rootClass initMethod := by
    obtain ⟨f, hf, -, he, -⟩ := hc.root
    rw [rootFunction, function_eq hc hf, he]
  have hnames : gs.map (·.name) = c.program.allFunctions.map c.emitted := by
    refine forall₂_map_eq hbuilt ?_
    rintro d g ⟨id, f, hb⟩
    rw [hb.frames.name, hc.emitted_eq hb.id_eq (hc.functions_eq ▸ hb.record)]
  have hall : (imports o).map (·.name) ++ functions.map (·.name)
      = ["#print_num", "#print_bool", "#print_none", "#abs", "#min", "#max", "#pow", checkInitName,
          allocName] ++ c.functionNames ++ [entryName] := by
    simp only at hgs
    rw [hgs]
    simp [imports, hostFunctions, allocFunction, hroot, hnames, hentry.name,
      CheckedProgram.functionNames]
  have hhash : ∀ x ∈ ["#print_num", "#print_bool", "#print_none", "#abs", "#min", "#max", "#pow",
      checkInitName, allocName, entryName], ∃ rest, x.toList = '#' :: rest := by
    simp only [List.mem_cons, List.not_mem_nil, or_false]
    rintro x (rfl | rfl | rfl | rfl | rfl | rfl | rfl | rfl | rfl | rfl) <;> exact ⟨_, rfl⟩
  -- Names with a hash in front are told apart one by one, from all others by the hash.
  have hperm : (["#print_num", "#print_bool", "#print_none", "#abs", "#min", "#max", "#pow",
      checkInitName, allocName] ++ c.functionNames ++ [entryName]).Perm
        (["#print_num", "#print_bool", "#print_none", "#abs", "#min", "#max", "#pow",
          checkInitName, allocName, entryName] ++ c.functionNames) := by
    rw [List.append_assoc]
    exact (List.perm_append_comm.append_left _).trans (by simp)
  show ((imports o).map (·.name) ++ functions.map (·.name)).Nodup
  rw [hall, hperm.nodup_iff]
  refine List.nodup_append.2 ⟨by decide, hnd, ?_⟩
  rintro x hx y hy rfl
  obtain ⟨rest, hrest⟩ := hhash x hx
  exact hmade x hy rest hrest

theorem module_total (hc : CheckedOk p c t₀) (hp : p.Words) (o : Options) :
    ∃ m, Emit.module c o = .ok m := by
  have hmethods : ∀ d ∈ c.program.classes.flatMap (·.methods), c.Nest [] d := by
    intro d hd
    obtain ⟨k, hk, hd⟩ := List.mem_flatMap.1 hd
    exact .method hk hd
  obtain ⟨b₁, h₁⟩ := addRootInit_total hc ((skeleton c o).addFunction allocFunction)
  obtain ⟨b₂, h₂⟩ := addTrees_total hc hmethods b₁
  obtain ⟨b₃, h₃⟩ := addTrees_total hc (fun d hd => .function hd) b₂
  obtain ⟨b₄, h₄⟩ := addEntry_total hc b₃
  have hnd := (assembled hc h₁ h₂ h₃ h₄).nodup hc hp
  have hbuild : ∃ m, (b₄.setEntry ⟨o.entryExport, entryName, endsInValue c.program.body⟩).build
      = .ok m := by
    unfold ModuleBuilder.build
    simp only [ModuleBuilder.setEntry, Code.firstRepeated_of_nodup hnd fun n _ => List.not_mem_nil]
    exact ⟨_, rfl⟩
  obtain ⟨m, hm⟩ := hbuild
  refine ⟨m, ?_⟩
  simp only [Emit.module, except_bind_eq_ok]
  exact ⟨b₁, h₁, b₂, h₂, b₃, h₃, b₄, h₄, hm⟩

end

end ObjLang.Emit

namespace ObjLang

/-- A source text that parses and checks has a module.  Code generation never stops: a text without
a module has a fault that the parser or the check reports. -/
theorem compile_total (o : Options) (source : String) :
    (∃ e, Program.parse source = .error e ∧ compile o source = .error (.parse e)) ∨
      (∃ p e, Program.parse source = .ok p ∧ p.check = .error e ∧
        compile o source = .error (.check e)) ∨
      ∃ p c m, Program.parse source = .ok p ∧ p.check = .ok c ∧ Emit.module c o = .ok m ∧
        compile o source = .ok m := by
  unfold compile
  cases hp : Program.parse source with
  | error e => exact .inl ⟨e, rfl, rfl⟩
  | ok p =>
    refine .inr ?_
    cases hc : p.check with
    | error e => exact .inl ⟨p, e, rfl, hc, by simp [Except.mapError, bind, Except.bind, hc]⟩
    | ok c =>
      obtain ⟨s, hok⟩ := Program.check_ok hc
      obtain ⟨m, hm⟩ := Emit.module_total hok (Program.parse_words hp) o
      exact .inr ⟨p, c, m, rfl, hc, hm, by simp [Except.mapError, bind, Except.bind, hc, hm]⟩

end ObjLang
