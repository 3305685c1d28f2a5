import Mathlib.Logic.Relation
import ObjLang.Proofs.Check.Unchecked
import ObjLang.Proofs.Reads

/-!
# ObjLang.Proofs.Check.Reading — a check of statements changes the state by reads alone

Statements declare nothing.  While they are checked the state changes only where a name is read that
an enclosing function declares, so a check of statements goes from state to state by reads of the
names in them.  What stands in checked statements was checked somewhere on that way.
-/

namespace ObjLang.Check

open Facts

variable {classes : ClassTable} {P Q : String → Prop} {s s' t : State}

/-- From one state to another by reads of names of a kind. -/
def Reading (P : String → Prop) : State → State → Prop :=
  Relation.ReflTransGen fun s s' => ∃ x, P x ∧ ∃ span v, resolveRead x span s = .ok (v, s')

namespace Reading

theorem refl (s : State) : Reading P s s := Relation.ReflTransGen.refl

theorem trans (h : Reading P s t) (h' : Reading P t s') : Reading P s s' :=
  Relation.ReflTransGen.trans h h'

theorem mono (h : Reading P s s') (hPQ : ∀ x, P x → Q x) : Reading Q s s' := by
  induction h with
  | refl => exact .refl _
  | tail _ hstep ih =>
    obtain ⟨x, hx, hstep⟩ := hstep
    exact .tail ih ⟨x, hPQ x hx, hstep⟩

theorem any (h : Reading P s s') : Reading (fun _ => True) s s' := h.mono fun _ _ => trivial

theorem keeps {lv : List Level} {passes : String → Bool} (h : Reading P s s')
    (hs : Inside classes lv passes s) : Keeps classes lv passes s s' := by
  induction h with
  | refl => exact .refl hs
  | tail _ hstep ih =>
    obtain ⟨x, -, span, v, hv⟩ := hstep
    exact ih.trans (resolveRead_ok ih.inside hv).1

end Reading

/-! ### Checks are readings -/

/-- Among the names of some reads. -/
abbrev Among (reads : List (String × Option VarId)) (x : String) : Prop := x ∈ reads.map Prod.fst

theorem Among.left {as bs : List (String × Option VarId)} (x : String) (h : Among as x) :
    Among (as ++ bs) x := by
  simp only [Among, List.map_append, List.mem_append]
  exact .inl h

theorem Among.right {as bs : List (String × Option VarId)} (x : String) (h : Among bs x) :
    Among (as ++ bs) x := by
  simp only [Among, List.map_append, List.mem_append]
  exact .inr h

mutual

theorem checkExpr_reading : ∀ {e e' : Expr} {t : Ty} {s s' : State},
    checkExpr classes e s = .ok ((e', t), s') → Reading (Among e'.reads) s s'
  | .literal _ _, e', t, s, s', hc => by
    cases checkExpr_cases hc with
    | literal => exact .refl _
  | .name i x _, e', t, s, s', hc => by
    cases checkExpr_cases hc with
    | name hv => exact .single ⟨x, by simp [Expr.reads], i.span, _, hv⟩
  | .unary _ _ e, e', t, s, s', hc => by
    cases checkExpr_cases hc with
    | unary he =>
      rw [Expr.reads]
      exact checkExpr_reading he
  | .binary _ _ l r, e', t, s, s', hc => by
    cases checkExpr_cases hc with
    | binary hl hr =>
      exact ((checkExpr_reading hl).mono Among.left).trans ((checkExpr_reading hr).mono Among.right)
  | .call _ _ args _, e', t, s, s', hc => by
    cases checkExpr_cases hc with
    | construct => exact .refl _
    | function _ _ hargs => exact checkExprs_reading hargs
    | builtin _ _ _ _ hargs => exact checkExprs_reading hargs
  | .field _ o _, e', t, s, s', hc => by
    cases checkExpr_cases hc with
    | field ho =>
      rw [Expr.reads]
      exact checkExpr_reading ho
  | .method _ o _ args, e', t, s, s', hc => by
    cases checkExpr_cases hc with
    | method ho _ hargs =>
      exact ((checkExpr_reading ho).mono Among.left).trans
        ((checkExprs_reading hargs).mono Among.right)

theorem checkExprs_reading : ∀ {es es' : List Expr} {ts : List Ty} {s s' : State},
    ExprsChecked classes es s es' ts s' → Reading (Among (Expr.readsOf es')) s s'
  | [], es', ts, s, s', hc => by
    cases hc with
    | nil => exact .refl _
  | e :: es, es', ts, s, s', hc => by
    cases hc with
    | cons he hes =>
      exact ((checkExpr_reading he).mono Among.left).trans
        ((checkExprs_reading hes).mono Among.right)

end

theorem checkTarget_reading {target target' : Target} {ty : Ty}
    (hc : checkTarget classes target s = .ok ((target', ty), s')) :
    Reading (Among target'.reads) s s' := by
  cases checkTarget_cases hc with
  | name => exact .refl _
  | field ho => exact checkExpr_reading ho

mutual

theorem checkStmt_reading : ∀ {st st' : Stmt} {s s' : State},
    checkStmt classes st s = .ok (st', s') → Reading (Among st'.reads) s s'
  | .assign _ _ _, st', s, s', hc => by
    cases checkStmt_cases hc with
    | assign he ht =>
      exact ((checkExpr_reading he).mono Among.right).trans
        ((checkTarget_reading ht).mono Among.left)
  | .expr _ _, st', s, s', hc => by
    cases checkStmt_cases hc with
    | expr he => exact checkExpr_reading he
  | .ret _ _, st', s, s', hc => by
    cases checkStmt_cases hc with
    | ret he => exact checkExpr_reading he
  | .pass _, st', s, s', hc => by
    cases checkStmt_cases hc with
    | pass => exact .refl _
  | .cond first others otherwise _, st', s, s', hc => by
    cases checkStmt_cases hc with
    | cond hf ho he =>
      exact ((((checkBranch_reading hf).mono Among.left).trans
        ((checkBranches_reading ho).mono Among.right)).mono Among.left).trans
          ((checkBlock_reading he).mono Among.right)
  | .loop branch _, st', s, s', hc => by
    cases checkStmt_cases hc with
    | loop hb => exact checkBranch_reading hb

theorem checkBlock_reading : ∀ {ss ss' : List Stmt} {s s' : State},
    checkBlock classes ss s = .ok (ss', s') → Reading (Among (Stmt.readsOf ss')) s s'
  | [], ss', s, s', hc => by
    cases checkBlock_cases hc with
    | nil => exact .refl _
  | st :: ss, ss', s, s', hc => by
    cases checkBlock_cases hc with
    | cons hst hss =>
      exact ((checkStmt_reading hst).mono Among.left).trans
        ((checkBlock_reading hss).mono Among.right)

theorem checkBranch_reading : ∀ {b b' : Branch} {s s' : State},
    checkBranch classes b s = .ok (b', s') → Reading (Among b'.reads) s s'
  | .mk test body, b', s, s', hc => by
    cases checkBranch_cases hc with
    | mk ht hb =>
      exact ((checkExpr_reading ht).mono Among.left).trans ((checkBlock_reading hb).mono Among.right)

theorem checkBranches_reading : ∀ {bs bs' : List Branch} {s s' : State},
    checkBranches classes bs s = .ok (bs', s') → Reading (Among (Branch.readsOf bs')) s s'
  | [], bs', s, s', hc => by
    cases checkBranches_cases hc with
    | nil => exact .refl _
  | b :: bs, bs', s, s', hc => by
    cases checkBranches_cases hc with
    | cons hb hbs =>
      exact ((checkBranch_reading hb).mono Among.left).trans
        ((checkBranches_reading hbs).mono Among.right)

end

/-! ### What stands in checked statements -/

/-- An expression was checked on the way from one state to another. -/
def ExprWithin (classes : ClassTable) (s s' : State) (e' : Expr) : Prop :=
  ∃ e t t₁ t₂, Reading (fun _ => True) s t₁ ∧ checkExpr classes e t₁ = .ok ((e', t), t₂) ∧
    Reading (fun _ => True) t₂ s'

/-- A statement was checked on the way from one state to another. -/
def StmtWithin (classes : ClassTable) (s s' : State) (st' : Stmt) : Prop :=
  ∃ st t₁ t₂, Reading (fun _ => True) s t₁ ∧ checkStmt classes st t₁ = .ok (st', t₂) ∧
    Reading (fun _ => True) t₂ s'

section

variable {t₁ t₂ : State}

theorem ExprWithin.widen {e : Expr} (h : ExprWithin classes t₁ t₂ e)
    (h₁ : Reading (fun _ => True) s t₁) (h₂ : Reading (fun _ => True) t₂ s') :
    ExprWithin classes s s' e := by
  obtain ⟨e₀, t, u₁, u₂, hu₁, hc, hu₂⟩ := h
  exact ⟨e₀, t, u₁, u₂, h₁.trans hu₁, hc, hu₂.trans h₂⟩

theorem StmtWithin.widen {st : Stmt} (h : StmtWithin classes t₁ t₂ st)
    (h₁ : Reading (fun _ => True) s t₁) (h₂ : Reading (fun _ => True) t₂ s') :
    StmtWithin classes s s' st := by
  obtain ⟨st₀, u₁, u₂, hu₁, hc, hu₂⟩ := h
  exact ⟨st₀, u₁, u₂, h₁.trans hu₁, hc, hu₂.trans h₂⟩

theorem exprWithin_self {e e' : Expr} {t : Ty} (hc : checkExpr classes e s = .ok ((e', t), s')) :
    ExprWithin classes s s' e' :=
  ⟨e, t, s, s', .refl s, hc, .refl s'⟩

theorem checkExprs_within {es es' : List Expr} {ts : List Ty}
    (hc : ExprsChecked classes es s es' ts s') : ∀ e ∈ es', ExprWithin classes s s' e := by
  induction hc with
  | nil => exact fun e he => absurd he List.not_mem_nil
  | cons he hes ih =>
    exact List.forall_mem_cons.2
      ⟨(exprWithin_self he).widen (.refl _) (checkExprs_reading hes).any,
        fun e' he' => (ih e' he').widen (checkExpr_reading he).any (.refl _)⟩

end

theorem checkExpr_parts {e e' : Expr} {t : Ty} (hc : checkExpr classes e s = .ok ((e', t), s')) :
    ∀ e'' ∈ e'.parts, ExprWithin classes s s' e'' := by
  cases checkExpr_cases hc with
  | literal | name | construct => exact fun e' he => absurd he List.not_mem_nil
  | unary he => exact List.forall_mem_singleton.2 (exprWithin_self he)
  | binary hl hr =>
    exact List.forall_mem_cons.2
      ⟨(exprWithin_self hl).widen (.refl s) (checkExpr_reading hr).any,
        List.forall_mem_singleton.2
          ((exprWithin_self hr).widen (checkExpr_reading hl).any (.refl _))⟩
  | function _ _ hargs => exact checkExprs_within hargs
  | builtin _ _ _ _ hargs => exact checkExprs_within hargs
  | field ho => exact List.forall_mem_singleton.2 (exprWithin_self ho)
  | method ho _ hargs =>
    exact List.forall_mem_cons.2
      ⟨(exprWithin_self ho).widen (.refl s) (checkExprs_reading hargs).any,
        fun e' he' => (checkExprs_within hargs e' he').widen (checkExpr_reading ho).any (.refl _)⟩

theorem ExprWithin.parts {e : Expr} (h : ExprWithin classes s s' e) :
    ∀ e' ∈ e.parts, ExprWithin classes s s' e' := by
  obtain ⟨e₀, t, t₁, t₂, h₁, hc, h₂⟩ := h
  exact fun e' he' => (checkExpr_parts hc e' he').widen h₁ h₂

theorem checkBlock_within {ss ss' : List Stmt} (hc : checkBlock classes ss s = .ok (ss', s')) :
    ∀ st ∈ ss', StmtWithin classes s s' st := by
  induction ss generalizing s ss' with
  | nil =>
    cases checkBlock_cases hc with
    | nil => exact fun st hst => absurd hst List.not_mem_nil
  | cons st ss ih =>
    cases checkBlock_cases hc with
    | cons hst hss =>
      refine List.forall_mem_cons.2 ⟨⟨st, s, _, .refl s, hst, (checkBlock_reading hss).any⟩, ?_⟩
      exact fun st'' hst'' => (ih hss st'' hst'').widen (checkStmt_reading hst).any (.refl _)

theorem checkBranch_within {b b' : Branch} (hc : checkBranch classes b s = .ok (b', s')) :
    ExprWithin classes s s' b'.test ∧ ∀ st ∈ b'.body, StmtWithin classes s s' st := by
  cases checkBranch_cases hc with
  | mk ht hb =>
    exact ⟨(exprWithin_self ht).widen (.refl s) (checkBlock_reading hb).any,
      fun st hst => (checkBlock_within hb st hst).widen (checkExpr_reading ht).any (.refl _)⟩

theorem checkBranches_within {bs bs' : List Branch}
    (hc : checkBranches classes bs s = .ok (bs', s')) :
    ∀ b ∈ bs', ExprWithin classes s s' b.test ∧ ∀ st ∈ b.body, StmtWithin classes s s' st := by
  induction bs generalizing s bs' with
  | nil =>
    cases checkBranches_cases hc with
    | nil => exact fun b hb => absurd hb List.not_mem_nil
  | cons b bs ih =>
    cases checkBranches_cases hc with
    | cons hb hbs =>
      obtain ⟨htest, hbody⟩ := checkBranch_within hb
      refine List.forall_mem_cons.2 ⟨⟨htest.widen (.refl s) (checkBranches_reading hbs).any,
        fun st hst => (hbody st hst).widen (.refl s) (checkBranches_reading hbs).any⟩, ?_⟩
      intro c hc
      obtain ⟨htest, hbody⟩ := ih hbs c hc
      exact ⟨htest.widen (checkBranch_reading hb).any (.refl _),
        fun st hst => (hbody st hst).widen (checkBranch_reading hb).any (.refl _)⟩

/-- What stands directly in a checked statement. -/
theorem checkStmt_within {st st' : Stmt} (hc : checkStmt classes st s = .ok (st', s')) :
    (∀ e ∈ st'.exprs, ExprWithin classes s s' e) ∧
      ∀ st'' ∈ st'.parts, StmtWithin classes s s' st'' := by
  have hnone : ∀ st'' ∈ ([] : List Stmt), StmtWithin classes s s' st'' :=
    fun st hst => absurd hst List.not_mem_nil
  cases checkStmt_cases hc with
  | assign he ht =>
    refine ⟨List.forall_mem_append.2 ⟨?_, List.forall_mem_singleton.2
      ((exprWithin_self he).widen (.refl s) (checkTarget_reading ht).any)⟩, hnone⟩
    cases checkTarget_cases ht with
    | name => exact fun e he => absurd he List.not_mem_nil
    | field ho =>
      exact List.forall_mem_singleton.2
        ((exprWithin_self ho).widen (checkExpr_reading he).any (.refl _))
  | expr he => exact ⟨List.forall_mem_singleton.2 (exprWithin_self he), hnone⟩
  | ret he => exact ⟨List.forall_mem_singleton.2 (exprWithin_self he), hnone⟩
  | pass => exact ⟨fun e he => absurd he List.not_mem_nil, hnone⟩
  | cond hf ho he =>
    have hrest := (checkBranches_reading ho).any.trans (checkBlock_reading he).any
    have hstart := (checkBranch_reading hf).any.trans (checkBranches_reading ho).any
    obtain ⟨htest, hbody⟩ := checkBranch_within hf
    have hothers := checkBranches_within ho
    refine ⟨List.forall_mem_cons.2 ⟨htest.widen (.refl s) hrest, List.forall_mem_map.2 ?_⟩,
      List.forall_mem_append.2 ⟨List.forall_mem_append.2 ⟨?_, ?_⟩, ?_⟩⟩
    · exact fun b hb => (hothers b hb).1.widen (checkBranch_reading hf).any
        (checkBlock_reading he).any
    · exact fun st hst => (hbody st hst).widen (.refl s) hrest
    · intro st hst
      obtain ⟨b, hb, hst⟩ := List.mem_flatMap.1 hst
      exact ((hothers b hb).2 st hst).widen (checkBranch_reading hf).any (checkBlock_reading he).any
    · exact fun st hst => (checkBlock_within he st hst).widen hstart (.refl _)
  | loop hb =>
    obtain ⟨htest, hbody⟩ := checkBranch_within hb
    exact ⟨List.forall_mem_singleton.2 htest, hbody⟩

/-- Every statement in checked statements was checked on the way. -/
theorem stmtWithin_of_occursIn {ss ss' : List Stmt} {st : Stmt}
    (hc : checkBlock classes ss s = .ok (ss', s')) (hst : Stmt.OccursIn ss' st) :
    StmtWithin classes s s' st := by
  induction hst with
  | here hst => exact checkBlock_within hc _ hst
  | part _ hst ih =>
    obtain ⟨st₀, t₁, t₂, h₁, hst₀, h₂⟩ := ih
    exact ((checkStmt_within hst₀).2 _ hst).widen h₁ h₂

/-- Every expression in checked statements was checked on the way. -/
theorem exprWithin_of_occursIn {ss ss' : List Stmt} {e : Expr}
    (hc : checkBlock classes ss s = .ok (ss', s')) (he : Expr.OccursIn ss' e) :
    ExprWithin classes s s' e := by
  induction he with
  | here hst he =>
    obtain ⟨st₀, t₁, t₂, h₁, hst₀, h₂⟩ := stmtWithin_of_occursIn hc hst
    exact ((checkStmt_within hst₀).1 _ he).widen h₁ h₂
  | part _ he ih => exact ih.parts _ he

end ObjLang.Check
