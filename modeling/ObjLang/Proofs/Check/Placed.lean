import ObjLang.Proofs.Check.Unchecked
import ObjLang.Proofs.Class.Refusals
import ObjLang.Proofs.Tree.Placed

/-!
# ObjLang.Proofs.Check.Placed — the places of refusals

Whatever is wrong with a program, it is refused at a place that stands in its tree.
-/

namespace ObjLang

namespace Check

variable {α β : Type} {P : Span → Prop} {classes : ClassTable}

/-! ### Steps that refuse at a place -/

/-- A step that refuses a program only at places with a property. -/
def RefusesAt (P : Span → Prop) (m : CheckM α) : Prop := ∀ s, Blames (fun e => P e.span) (m s)

namespace RefusesAt

theorem bind_ok {m : CheckM α} {f : α → CheckM β} (hm : RefusesAt P m)
    (hf : ∀ a s s', m s = .ok (a, s') → Blames (fun e => P e.span) (f a s')) :
    RefusesAt P (m >>= f) :=
  fun s => (hm s).bind fun r hr => hf r.1 s r.2 hr

theorem bind {m : CheckM α} {f : α → CheckM β} (hm : RefusesAt P m) (hf : ∀ a, RefusesAt P (f a)) :
    RefusesAt P (m >>= f) :=
  hm.bind_ok fun a _ s' _ => hf a s'

/-- A step that refuses nothing. -/
theorem of_ok {m : CheckM α} (h : ∀ s, ∃ r, m s = .ok r) : RefusesAt P m := by
  intro s e he
  obtain ⟨r, hr⟩ := h s
  rw [hr] at he
  cases he

theorem pure (a : α) : RefusesAt P (Pure.pure a) := of_ok fun s => ⟨(a, s), rfl⟩

theorem get {f : State → CheckM β} (hf : ∀ s, RefusesAt P (f s)) :
    RefusesAt P (MonadState.get >>= f) :=
  fun s => hf s s

theorem refuse {cause : CheckError.Cause} {span : Span} (h : P span) :
    RefusesAt P (Check.refuse cause span : CheckM α) :=
  fun _ => blames_error h

theorem ite {b : Prop} [Decidable b] {m n : CheckM α} (hm : RefusesAt P m) (hn : RefusesAt P n) :
    RefusesAt P (if b then m else n) := by
  split
  · exact hm
  · exact hn

theorem forM {f : α → CheckM PUnit} {as : List α} (h : ∀ a ∈ as, RefusesAt P (f a)) :
    RefusesAt P (as.forM f) := by
  induction as with
  | nil => exact .pure _
  | cons a as ih =>
    exact (h a List.mem_cons_self).bind fun _ => ih fun b hb => h b (List.mem_cons_of_mem a hb)

theorem mapM {f : α → CheckM β} {as : List α} (h : ∀ a ∈ as, RefusesAt P (f a)) :
    RefusesAt P (as.mapM f) := by
  induction as with
  | nil => exact .pure _
  | cons a as ih =>
    rw [List.mapM_cons]
    exact (h a List.mem_cons_self).bind fun _ =>
      (ih fun b hb => h b (List.mem_cons_of_mem a hb)).bind fun _ => .pure _

end RefusesAt

open RefusesAt (of_ok)

/-! ### Names -/

theorem refusesAt_variableOf (v : VarId) : RefusesAt P (variableOf v) := of_ok fun _ => ⟨_, rfl⟩

theorem refusesAt_tyOf (v : VarId) : RefusesAt P (tyOf v) := of_ok fun _ => ⟨_, rfl⟩

theorem refusesAt_functionOf (id : FunId) : RefusesAt P (functionOf id) := of_ok fun _ => ⟨_, rfl⟩

theorem refusesAt_newVariable (v : Variable) : RefusesAt P (newVariable v) := of_ok fun _ => ⟨_, rfl⟩

theorem refusesAt_findVar? (x : String) (mode : SearchMode) : RefusesAt P (findVar? x mode) :=
  of_ok fun _ => ⟨_, rfl⟩

theorem refusesAt_modify (f : State → State) : RefusesAt P (modify f : CheckM Unit) :=
  of_ok fun _ => ⟨_, rfl⟩

theorem refusesAt_resolveTy {written : Ident} (h : P written.span) :
    RefusesAt P (resolveTy classes written) := by
  intro s
  have hblames := @ClassTable.blames_annotated classes.contains written
  unfold resolveTy
  cases hr : ClassLayout.annotated classes.contains written with
  | ok ty => exact RefusesAt.pure ty s
  | error e =>
    have hplace := (hblames e hr).place
    exact blames_error (List.mem_singleton.1 hplace ▸ h)

theorem refusesAt_checkInitializer {d : VarDef} (h : P d.initSpan) (ty : Ty) :
    RefusesAt P (checkInitializer d ty) :=
  .ite (.pure _) (.refuse h)

theorem refusesAt_claimName {x : Ident} (h : P x.span) : RefusesAt P (claimName x) := by
  refine .get fun s => ?_
  split
  · exact .pure _
  · split
    · exact of_ok fun _ => ⟨_, rfl⟩
    · exact .refuse h

theorem refusesAt_declareName {x : Ident} (h : P x.span) (v : VarId) :
    RefusesAt P (declareName x v) :=
  (refusesAt_claimName h).bind fun _ => refusesAt_modify _

theorem refusesAt_capture (x : String) (origin : VarId) (writable : Bool) (span : Span)
    (owner : FunId) : RefusesAt P (capture x origin writable span owner) :=
  of_ok fun _ => ⟨_, rfl⟩

theorem refusesAt_resolveRead (x : String) {span : Span} (h : P span) :
    RefusesAt P (resolveRead x span) := by
  refine (refusesAt_findVar? _ _).bind fun v? => ?_
  split
  · exact .pure _
  refine (refusesAt_findVar? _ _).bind fun origin? => ?_
  split
  · exact .refuse h
  refine (refusesAt_variableOf _).bind fun r => .ite (.pure _) (.get fun s => ?_)
  split
  · exact .pure _
  · exact refusesAt_capture _ _ _ _ _

theorem refusesAt_resolveWrite {x : Ident} (h : P x.span) : RefusesAt P (resolveWrite x) := by
  have hrefuse : RefusesAt P (do
      if (← get).varEnv.contains x.name .all then
        refuse (.undeclaredAssignment x.name) x.span
      else refuse (.undefinedVariable x.name) x.span : CheckM VarId) :=
    .get fun s => .ite (.refuse h) (.refuse h)
  refine (refusesAt_findVar? _ _).bind fun v? => ?_
  cases v? with
  | none => exact hrefuse
  | some v =>
    refine (refusesAt_variableOf v).bind fun r => ?_
    cases r.writable with
    | true => exact .pure v
    | false => exact hrefuse

theorem refusesAt_checkScopeDecl (owner : FunId) {d : ScopeDecl} (h : d.Placed P) :
    RefusesAt P (checkScopeDecl owner d) := by
  unfold checkScopeDecl
  cases d.kind with
  | global =>
    refine (refusesAt_findVar? _ _).bind fun v? => ?_
    split
    · exact (refusesAt_variableOf _).bind fun r =>
        .ite (refusesAt_declareName h.name _) (.refuse h.span)
    · exact .refuse h.span
  | «nonlocal» =>
    refine (refusesAt_findVar? _ _).bind fun v? => ?_
    split
    · exact (refusesAt_variableOf _).bind fun r => .ite (.refuse h.span)
        ((refusesAt_claimName h.name).bind fun _ => (refusesAt_capture _ _ _ _ _).bind fun _ => .pure _)
    · exact .refuse h.span

theorem refusesAt_threadCaptures (id : FunId) : RefusesAt P (threadCaptures id) := by
  refine .get fun s => ?_
  split
  · exact .pure _
  · exact .forM fun k _ => (refusesAt_capture _ _ _ _ _).bind fun _ => .pure _

/-! ### Expressions -/

theorem refusesAt_expectAssignable (actual expected : Ty) {span : Span} (h : P span) :
    RefusesAt P (expectAssignable classes actual expected span) :=
  .ite (.pure _) (.refuse h)

theorem refusesAt_receiverClass (ty : Ty) {span : Span} (h : P span) :
    RefusesAt P (receiverClass ty span) := by
  unfold receiverClass
  split
  · exact .pure _
  · exact .refuse h

theorem refusesAt_fieldType (c : String) {field : Ident} (h : P field.span) :
    RefusesAt P (fieldType classes c field) := by
  unfold fieldType
  split
  · exact .pure _
  · exact .refuse h

theorem refusesAt_methodOf (c : String) {method : Ident} (h : P method.span) :
    RefusesAt P (methodOf classes c method) := by
  refine .get fun s => ?_
  dsimp only
  split
  · exact .pure _
  · exact .refuse h

theorem refusesAt_expectCount (x : String) (expected actual : Nat) {span : Span} (h : P span) :
    RefusesAt P (expectCount x expected actual span) :=
  .ite (.pure _) (.refuse h)

theorem refusesAt_passedCaptures (captures : Captures) {span : Span} (h : P span) :
    RefusesAt P (passedCaptures captures span) :=
  .mapM fun k _ => (refusesAt_findVar? _ _).bind fun v? => by
    split
    · exact .pure _
    · exact .refuse h

/-- A check leaves an expression where it stands. -/
theorem checkExpr_placed {e e' : Expr} {t : Ty} {s s' : State} (he : e.Placed P)
    (h : checkExpr classes e s = .ok ((e', t), s')) : P e'.span := by
  have hspan : e'.unchecked.span = e.unchecked.span := by rw [checkExpr_unchecked h]
  have hunchecked : ∀ d : Expr, d.unchecked.span = d.span := fun d => by cases d <;> rfl
  rw [hunchecked, hunchecked] at hspan
  exact hspan ▸ he.span

mutual

theorem refusesAt_checkExpr : ∀ {e : Expr}, e.Placed P → RefusesAt P (checkExpr classes e)
  | .literal info v, h => by
    rw [checkExpr]
    exact .pure _
  | .name info x v, h => by
    rw [checkExpr]
    exact (refusesAt_resolveRead _ h.span).bind fun _ => (refusesAt_tyOf _).bind fun _ => .pure _
  | .unary info op e, .unary h he => by
    rw [checkExpr]
    exact (refusesAt_checkExpr he).bind fun _ => .ite (.pure _) (.refuse h)
  | .binary info op l r, .binary h hl hr => by
    rw [checkExpr]
    refine (refusesAt_checkExpr hl).bind fun ⟨l', t⟩ => (refusesAt_checkExpr hr).bind fun ⟨r', u⟩ => ?_
    dsimp only
    cases binaryType? op t u with
    | some ty => exact .pure _
    | none => exact .refuse h
  | .call info callee args target, .call h hf hargs => by
    rw [checkExpr]
    refine .ite ((refusesAt_expectCount _ _ _ h).bind fun _ => .pure _) (.get fun s => ?_)
    split
    · exact (refusesAt_functionOf _).bind fun _ => (refusesAt_expectCount _ _ _ h).bind fun _ =>
        (refusesAt_checkArgs _ hargs).bind fun _ => (refusesAt_passedCaptures _ h).bind fun _ => .pure _
    · split
      · next b _ =>
        refine (refusesAt_expectCount _ _ _ h).bind fun _ => ?_
        cases b with
        | print => exact (refusesAt_checkPrinted hargs).bind fun _ => .pure _
        | _ => exact (refusesAt_checkInts hargs).bind fun _ => .pure _
      · exact .refuse hf
  | .field info object f, .field h hobject hf => by
    rw [checkExpr]
    refine (refusesAt_checkExpr hobject).bind_ok fun r s s' hr => ?_
    exact ((refusesAt_receiverClass _ (checkExpr_placed hobject hr)).bind fun c =>
      (refusesAt_fieldType c hf).bind fun _ => .pure _) s'
  | .method info object m args, .method h hobject hm hargs => by
    rw [checkExpr]
    refine (refusesAt_checkExpr hobject).bind_ok fun r s s' hr => ?_
    exact ((refusesAt_receiverClass _ (checkExpr_placed hobject hr)).bind fun c =>
      (refusesAt_methodOf c hm).bind fun _ => (refusesAt_expectCount _ _ _ h).bind fun _ =>
        (refusesAt_checkArgs _ hargs).bind fun _ => .pure _) s'

theorem refusesAt_checkArgs : ∀ (ts : List Ty) {es : List Expr}, (∀ e ∈ es, e.Placed P) →
    RefusesAt P (checkArgs classes ts es)
  | ts, [], h => by
    rw [checkArgs]
    exact .pure _
  | ts, e :: es, h => by
    rw [checkArgs]
    have he := h e List.mem_cons_self
    refine (refusesAt_checkExpr he).bind_ok fun r s s' hr => ?_
    exact ((refusesAt_expectAssignable _ _ (checkExpr_placed he hr)).bind fun _ =>
      (refusesAt_checkArgs _ fun e' he' => h e' (List.mem_cons_of_mem e he')).bind fun _ => .pure _) s'

theorem refusesAt_checkInts : ∀ {es : List Expr}, (∀ e ∈ es, e.Placed P) →
    RefusesAt P (checkInts classes es)
  | [], h => by
    rw [checkInts]
    exact .pure _
  | e :: es, h => by
    rw [checkInts]
    have he := h e List.mem_cons_self
    refine (refusesAt_checkExpr he).bind_ok fun r s s' hr => ?_
    exact RefusesAt.ite ((refusesAt_checkInts fun e' he' => h e' (List.mem_cons_of_mem e he')).bind
      fun _ => .pure _) (.refuse (checkExpr_placed he hr)) s'

theorem refusesAt_checkPrinted : ∀ {es : List Expr}, (∀ e ∈ es, e.Placed P) →
    RefusesAt P (checkPrinted classes es)
  | [], h => by
    rw [checkPrinted]
    exact .pure _
  | e :: es, h => by
    rw [checkPrinted]
    have he := h e List.mem_cons_self
    refine (refusesAt_checkExpr he).bind_ok fun r s s' hr => ?_
    exact RefusesAt.ite ((refusesAt_checkPrinted fun e' he' => h e' (List.mem_cons_of_mem e he')).bind
      fun _ => .pure _) (.refuse (checkExpr_placed he hr)) s'

end

/-! ### Statements -/

theorem refusesAt_checkCondition {e : Expr} (h : e.Placed P) :
    RefusesAt P (checkCondition classes e) := by
  refine (refusesAt_checkExpr h).bind_ok fun r s s' hr => ?_
  exact RefusesAt.ite (.pure _) (.refuse (checkExpr_placed h hr)) s'

theorem refusesAt_checkTarget {target : Target} (h : target.Placed P) :
    RefusesAt P (checkTarget classes target) := by
  cases h with
  | name hx => exact (refusesAt_resolveWrite hx).bind fun v => (refusesAt_tyOf v).bind fun _ => .pure _
  | field hobject hf =>
    refine (refusesAt_checkExpr hobject).bind_ok fun r s s' hr => ?_
    exact ((refusesAt_receiverClass _ (checkExpr_placed hobject hr)).bind fun c =>
      (refusesAt_fieldType c hf).bind fun _ => .pure _) s'

theorem refusesAt_returnType {span : Span} (h : P span) : RefusesAt P (returnType span) := by
  refine .get fun s => ?_
  split
  · exact .pure _
  · exact .refuse h

mutual

theorem refusesAt_checkStmt : ∀ {st : Stmt}, st.Placed P → RefusesAt P (checkStmt classes st)
  | .assign target value span, .assign _ htarget hvalue => by
    rw [checkStmt]
    refine (refusesAt_checkExpr hvalue).bind_ok fun r s s' hr => ?_
    exact ((refusesAt_checkTarget htarget).bind fun _ =>
      (refusesAt_expectAssignable _ _ (checkExpr_placed hvalue hr)).bind fun _ => .pure _) s'
  | .expr value span, .expr _ hvalue => by
    rw [checkStmt]
    exact (refusesAt_checkExpr hvalue).bind fun _ => .pure _
  | .ret value span, .ret h hvalue => by
    rw [checkStmt]
    refine (refusesAt_checkExpr hvalue).bind_ok fun r s s' hr => ?_
    exact ((refusesAt_returnType h).bind fun _ =>
      (refusesAt_expectAssignable _ _ (checkExpr_placed hvalue hr)).bind fun _ => .pure _) s'
  | .pass span, h => by
    rw [checkStmt]
    exact .pure _
  | .cond (.mk test body) others otherwise span, .cond _ htest hbody htests hbodies hotherwise => by
    rw [checkStmt]
    exact (refusesAt_checkBranch (b := .mk test body) ⟨htest, hbody⟩).bind fun _ =>
      (refusesAt_checkBranches fun b hb => ⟨htests b hb, hbodies b hb⟩).bind fun _ =>
        (refusesAt_checkBlock hotherwise).bind fun _ => .pure _
  | .loop (.mk test body) span, .loop _ htest hbody => by
    rw [checkStmt]
    exact (refusesAt_checkBranch (b := .mk test body) ⟨htest, hbody⟩).bind fun _ => .pure _

theorem refusesAt_checkBlock : ∀ {ss : List Stmt}, (∀ st ∈ ss, st.Placed P) →
    RefusesAt P (checkBlock classes ss)
  | [], h => by
    rw [checkBlock]
    exact .pure _
  | st :: ss, h => by
    rw [checkBlock]
    exact (refusesAt_checkStmt (h st List.mem_cons_self)).bind fun _ =>
      (refusesAt_checkBlock fun st' hst' => h st' (List.mem_cons_of_mem st hst')).bind fun _ => .pure _

theorem refusesAt_checkBranch : ∀ {b : Branch}, b.Placed P → RefusesAt P (checkBranch classes b)
  | .mk test body, h => by
    rw [checkBranch]
    exact (refusesAt_checkCondition h.test).bind fun _ =>
      (refusesAt_checkBlock h.body).bind fun _ => .pure _

theorem refusesAt_checkBranches : ∀ {bs : List Branch}, (∀ b ∈ bs, b.Placed P) →
    RefusesAt P (checkBranches classes bs)
  | [], _ => by
    rw [checkBranches]
    exact .pure _
  | b :: bs, h => by
    rw [checkBranches]
    exact (refusesAt_checkBranch (h b List.mem_cons_self)).bind fun _ =>
      (refusesAt_checkBranches fun b' hb' => h b' (List.mem_cons_of_mem b hb')).bind fun _ => .pure _

end

/-! ### Functions -/

theorem refusesAt_declareParam (owner : FunId) {p : TypedName} (h : p.Placed P) :
    RefusesAt P (declareParam classes owner p) :=
  (refusesAt_resolveTy h.type).bind fun _ => (refusesAt_newVariable _).bind fun _ => .pure _

theorem refusesAt_newFunction (f : Function) : RefusesAt P (newFunction f) := of_ok fun _ => ⟨_, rfl⟩

theorem refusesAt_declareSignature {d : FunDef} (h : d.Placed P) (emitted : String)
    (owner : Option String) (parent : Option FunId) :
    RefusesAt P (declareSignature classes d emitted owner parent) := by
  obtain ⟨-, -, hparams, hret, -, -, -, -⟩ := h
  refine .get fun s => (RefusesAt.mapM fun p hp => refusesAt_declareParam _ (hparams p hp)).bind
    fun params => ?_
  cases hr : d.ret with
  | some written => exact (refusesAt_resolveTy (hret written hr)).bind fun _ => refusesAt_newFunction _
  | none => exact refusesAt_newFunction _

theorem refusesAt_checkLocal (owner : FunId) {d : VarDef} (h : d.Placed P) :
    RefusesAt P (checkLocal classes owner d) :=
  (refusesAt_resolveTy h.var.type).bind fun ty => (refusesAt_checkInitializer h.init ty).bind fun _ =>
    (refusesAt_newVariable _).bind fun v => (refusesAt_declareName h.var.name v).bind fun _ =>
      (refusesAt_modify _).bind fun _ => .pure _

theorem refusesAt_declareParams {params : List TypedName} (h : ∀ p ∈ params, p.Placed P)
    (ids : List VarId) : RefusesAt P (declareParams params ids) :=
  .forM fun pv hpv => refusesAt_declareName (h pv.1 (List.of_mem_zip hpv).1).name _

theorem refusesAt_checkReturns {x : Ident} (h : P x.span) (ret : Ty) (body : List Stmt) :
    RefusesAt P (checkReturns x ret body) :=
  .ite (.refuse h) (.pure _)

mutual

theorem refusesAt_checkFunction : ∀ (id : FunId) {d : FunDef}, d.Placed P →
    RefusesAt P (checkFunction classes id d)
  | id, { name, params, ret, decls, vars, nested, body, span, id := _ },
      .intro hspan hname hparams hret hdecls hvars hnested hbody => by
    rw [checkFunction]
    exact (refusesAt_modify _).bind fun _ => (refusesAt_functionOf _).bind fun f =>
      (refusesAt_declareParams hparams _).bind fun _ =>
        (RefusesAt.forM fun d hd => refusesAt_checkScopeDecl id (hdecls d hd)).bind fun _ =>
          (RefusesAt.mapM fun d hd => refusesAt_checkLocal id (hvars d hd)).bind fun _ =>
            (refusesAt_checkReturns hname _ _).bind fun _ =>
              (refusesAt_checkNested id _ hnested).bind fun _ => (refusesAt_checkBlock hbody).bind fun _ =>
                (refusesAt_modify _).bind fun _ => .pure _

theorem refusesAt_checkNested : ∀ (parent : FunId) (path : String) {ds : List FunDef},
    (∀ d ∈ ds, d.Placed P) → RefusesAt P (checkNested classes parent path ds)
  | parent, path, [], _ => by
    rw [checkNested]
    exact .pure _
  | parent, path, d :: ds, h => by
    rw [checkNested]
    have hd := h d List.mem_cons_self
    exact (refusesAt_claimName hd.name).bind fun _ => (refusesAt_declareSignature hd _ _ _).bind fun id =>
      (refusesAt_modify _).bind fun _ => (refusesAt_checkFunction id hd).bind fun _ =>
        (refusesAt_threadCaptures id).bind fun _ =>
          (refusesAt_checkNested parent path fun d' hd' => h d' (List.mem_cons_of_mem d hd')).bind
            fun _ => .pure _

end

/-! ### Programs -/

theorem refusesAt_checkDistinct {is : List Ident} (h : ∀ i ∈ is, P i.span) (seen : List String) :
    RefusesAt P (checkDistinct seen is) := by
  induction is generalizing seen with
  | nil => exact .pure _
  | cons i is ih =>
    exact .ite (.refuse (h i List.mem_cons_self)) (ih (fun j hj => h j (List.mem_cons_of_mem i hj)) _)

theorem refusesAt_checkModuleNames {p : Program} (h : p.Placed P) :
    RefusesAt P (checkModuleNames p) := by
  refine refusesAt_checkDistinct (fun i hi => ?_) _
  rw [List.mem_append, List.mem_append] at hi
  obtain (hi | hi) | hi := hi
  · obtain ⟨d, hd, rfl⟩ := List.mem_map.1 hi
    exact (h.classes d hd).name
  · obtain ⟨d, hd, rfl⟩ := List.mem_map.1 hi
    exact (h.vars d hd).var.name
  · obtain ⟨d, hd, rfl⟩ := List.mem_map.1 hi
    exact (h.functions d hd).name

theorem refusesAt_checkGlobal {d : VarDef} (h : d.Placed P) : RefusesAt P (checkGlobal classes d) :=
  (refusesAt_resolveTy h.var.type).bind fun ty => (refusesAt_checkInitializer h.init ty).bind fun _ =>
    (refusesAt_newVariable _).bind fun _ => (refusesAt_modify _).bind fun _ =>
      (refusesAt_modify _).bind fun _ => .pure _

/-- A record stands where the function is defined. -/
theorem declareSignature_span {d : FunDef} {emitted : String} {owner : Option String}
    {parent : Option FunId} {id : FunId} {s s' : State}
    (h : declareSignature classes d emitted owner parent s = .ok (id, s')) :
    (s'.functions.get id).span = d.span := by
  have hrecord : ∀ {f : Function} {s₁ : State}, newFunction f s₁ = .ok (id, s') →
      s'.functions.get id = f := by
    intro f s₁ hnew
    obtain ⟨rfl, rfl⟩ := Prod.mk.inj (newFunction_eq_ok.1 hnew)
    exact get_of_getElem? (by simp [Functions.nextId])
  simp only [declareSignature, bind_eq_ok] at h
  obtain ⟨_, _, -, params, _, -, h⟩ := h
  cases hret : d.ret with
  | none =>
    simp only [hret, pure_bind] at h
    rw [hrecord h]
  | some written =>
    simp only [hret, bind_eq_ok] at h
    obtain ⟨ret, _, -, h⟩ := h
    rw [hrecord h]

theorem refusesAt_declareMethod (c : String) {m : FunDef} (h : m.Placed P) :
    RefusesAt P (declareMethod classes c m) := by
  have hspan := h.span
  refine (refusesAt_declareSignature h _ _ _).bind_ok fun id s s' hid => ?_
  have hsignature : Blames (fun e => P e.span) (checkMethodSignature classes c id s') := by
    rw [← declareSignature_span hid] at hspan
    exact RefusesAt.ite (.refuse hspan) (.ite (.refuse hspan) (by
      split
      · exact .refuse hspan
      · exact .pure _)) s'
  exact hsignature.bind fun _ _ => .ok _

theorem refusesAt_declareMethods {c : ClassDef} (h : c.Placed P) :
    RefusesAt P (declareMethods classes c) :=
  (RefusesAt.mapM fun m hm => refusesAt_declareMethod _ (h.methods m hm)).bind fun _ => .pure _

theorem refusesAt_declareFunction {d : FunDef} (h : d.Placed P) :
    RefusesAt P (declareFunction classes d) :=
  (refusesAt_declareSignature h _ _ _).bind fun _ => (refusesAt_modify _).bind fun _ => .pure _

theorem refusesAt_checkBodies {ds : List FunDef} (h : ∀ d ∈ ds, d.Placed P) (ids : List FunId) :
    RefusesAt P (checkBodies classes ds ids) :=
  .mapM fun p hp => refusesAt_checkFunction p.2 (h p.1 (List.of_mem_zip hp).1)

theorem refusesAt_checkProgram {p : Program} (h : p.Placed P) :
    RefusesAt P (checkProgram classes p) := by
  have hfirst : ∀ c ∈ ancestorsFirst classes p.classes, c.Placed P :=
    fun c hc => h.classes c (ancestorsFirst_subset c hc)
  refine (refusesAt_checkModuleNames h).bind fun _ =>
    (RefusesAt.mapM fun d hd => refusesAt_checkGlobal (h.vars d hd)).bind fun vars =>
      RefusesAt.bind (of_ok fun _ => ⟨_, rfl⟩) fun root =>
        (RefusesAt.mapM fun c hc => refusesAt_declareMethods (hfirst c hc)).bind_ok fun cs s s' hcs => ?_
  have hdeclared : ∀ c ∈ cs, c.1.Placed P := fun c hc => hfirst c.1 (declareMethods_mem hcs c hc).1
  exact ((RefusesAt.mapM fun d hd => refusesAt_declareFunction (h.functions d hd)).bind fun ids =>
    (RefusesAt.mapM fun c hc =>
      (refusesAt_checkBodies (hdeclared c hc).methods c.2).bind fun _ => .pure _).bind fun methods =>
        (refusesAt_checkBodies h.functions ids).bind fun _ =>
          (refusesAt_checkBlock h.body).bind fun _ => .pure _) s'

end Check

theorem ClassDef.Placed.of_mem {P : Span → Prop} {d : ClassDef} (h : d.Placed P) {s : Span}
    (hs : s ∈ d.headPlaces) : P s := by
  simp only [ClassDef.headPlaces, List.mem_cons, List.mem_append, List.mem_flatMap,
    List.mem_map] at hs
  obtain rfl | rfl | ⟨v, hv, hs⟩ | ⟨m, hm, rfl⟩ := hs
  · exact h.name
  · exact h.superclass
  · simp only [VarDef.headPlaces, List.mem_cons, List.not_mem_nil, or_false] at hs
    obtain rfl | rfl := hs
    · exact (h.fields v hv).var.name
    · exact (h.fields v hv).var.type
  · exact (h.methods m hm).name

/-- A program is refused at a place that stands in its tree. -/
theorem Program.Placed.check {P : Span → Prop} {p : Program} (h : p.Placed P) :
    Blames (fun e => P e.span) p.check := by
  have hresolve : Blames (fun e => P e.span) (ClassTable.resolve p.classes) := by
    refine (ClassTable.blames_resolve p.classes).mono fun e he => ?_
    obtain ⟨d, hd, hs⟩ := List.mem_flatMap.1 he.2
    exact (h.classes d hd).of_mem hs
  exact hresolve.bind fun classes _ => (Check.refusesAt_checkProgram h _).bind fun _ _ => .ok _

end ObjLang
