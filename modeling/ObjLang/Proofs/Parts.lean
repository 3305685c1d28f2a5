import ObjLang.Proofs.Check.Typed
import ObjLang.Proofs.Emit.Order

/-!
# ObjLang.Proofs.Parts — what stands in some statements

A statement or an expression stands in a list of statements at any depth.  All that stands in
checked statements is checked, and its code lies in theirs.
-/

namespace ObjLang

open Check Check.Facts

/-! ### Occurrences -/

/-- The expressions directly in an expression. -/
def Expr.parts : Expr → List Expr
  | .literal _ _ | .name _ _ _ => []
  | .unary _ _ operand => [operand]
  | .binary _ _ left right => [left, right]
  | .call _ _ args _ => args
  | .field _ object _ => [object]
  | .method _ object _ args => object :: args

/-- The expression in the left side of an assignment. -/
def Target.parts : Target → List Expr
  | .name _ _ => []
  | .field object _ => [object]

/-- The expressions directly in a statement. -/
def Stmt.exprs : Stmt → List Expr
  | .assign target value _ => target.parts ++ [value]
  | .expr value _ | .ret value _ => [value]
  | .pass _ => []
  | .cond first others _ _ => first.test :: others.map Branch.test
  | .loop branch _ => [branch.test]

/-- The statements directly in a statement. -/
def Stmt.parts : Stmt → List Stmt
  | .cond first others otherwise _ => first.body ++ others.flatMap Branch.body ++ otherwise
  | .loop branch _ => branch.body
  | _ => []

/-- A statement stands in some statements. -/
inductive Stmt.OccursIn (ss : List Stmt) : Stmt → Prop where
  | here {s : Stmt} : s ∈ ss → OccursIn ss s
  | part {s s' : Stmt} : OccursIn ss s → s' ∈ s.parts → OccursIn ss s'

/-- An expression stands in some statements. -/
inductive Expr.OccursIn (ss : List Stmt) : Expr → Prop where
  | here {s : Stmt} {e : Expr} : Stmt.OccursIn ss s → e ∈ s.exprs → OccursIn ss e
  | part {e e' : Expr} : OccursIn ss e → e' ∈ e.parts → OccursIn ss e'

/-- In some statements a field of the value of an expression is read or written, or a method of it
is called. -/
inductive Expr.IsReceiver (ss : List Stmt) (o : Expr) : Prop where
  | read {i : ExprInfo} {f : Ident} : Expr.OccursIn ss (.field i o f) → IsReceiver ss o
  | write {f : Ident} {value : Expr} {span : Span} :
    Stmt.OccursIn ss (.assign (.field o f) value span) → IsReceiver ss o
  | call {i : ExprInfo} {m : Ident} {args : List Expr} :
    Expr.OccursIn ss (.method i o m args) → IsReceiver ss o

theorem Expr.IsReceiver.occursIn {ss : List Stmt} {o : Expr} (h : Expr.IsReceiver ss o) :
    Expr.OccursIn ss o := by
  cases h with
  | read h => exact h.part List.mem_cons_self
  | write h => exact .here h List.mem_cons_self
  | call h => exact h.part List.mem_cons_self

theorem Stmt.not_occursIn_nil {s : Stmt} : ¬ Stmt.OccursIn [] s := by
  intro h
  induction h with
  | here hs => exact absurd hs List.not_mem_nil
  | part _ _ ih => exact ih

theorem Expr.not_occursIn_nil {e : Expr} : ¬ Expr.OccursIn [] e := by
  intro h
  induction h with
  | here hs _ => exact Stmt.not_occursIn_nil hs
  | part _ _ ih => exact ih

theorem Expr.OccursIn.source_ne_nil {ss : List Stmt} {e : Expr} (h : Expr.OccursIn ss e) :
    ss ≠ [] := by
  rintro rfl
  exact Expr.not_occursIn_nil h

/-! ### Checked trees -/

namespace Check.Facts

variable {F : Facts} {lv : List Level} {passes : String → Bool} {ret : Option Ty} {es : List Expr}
  {e : Expr} {s : Stmt} {ss : List Stmt}

theorem argsOk_length {ts : List Ty} (h : F.ArgsOk lv passes es ts) : es.length = ts.length := by
  induction es generalizing ts with
  | nil =>
    cases ts with
    | nil => rfl
    | cons t ts => simp only [ArgsOk] at h
  | cons e es ih =>
    cases ts with
    | nil => simp only [ArgsOk] at h
    | cons t ts =>
      simp only [ArgsOk] at h
      rw [List.length_cons, List.length_cons, ih h.2]

theorem exprOk_of_argsOk {ts : List Ty} (h : F.ArgsOk lv passes es ts) :
    ∀ e ∈ es, ∃ t, F.ExprOk lv passes e t := by
  induction es generalizing ts with
  | nil => exact fun e he => absurd he List.not_mem_nil
  | cons e es ih =>
    cases ts with
    | nil => simp only [ArgsOk] at h
    | cons t ts =>
      simp only [ArgsOk] at h
      obtain ⟨⟨a, ha, -⟩, hes⟩ := h
      exact List.forall_mem_cons.2 ⟨⟨a, ha⟩, ih hes⟩

theorem exprOk_of_allOk {good : Ty → Prop} (h : F.AllOk lv passes good es) :
    ∀ e ∈ es, ∃ t, F.ExprOk lv passes e t := by
  induction es with
  | nil => exact fun e he => absurd he List.not_mem_nil
  | cons e es ih =>
    simp only [AllOk] at h
    obtain ⟨⟨a, ha, -⟩, hes⟩ := h
    exact List.forall_mem_cons.2 ⟨⟨a, ha⟩, ih hes⟩

theorem ExprOk.parts {t : Ty} (h : F.ExprOk lv passes e t) :
    ∀ e' ∈ e.parts, ∃ t', F.ExprOk lv passes e' t' := by
  cases e with
  | literal i v => exact fun e' he => absurd he List.not_mem_nil
  | name i x v => exact fun e' he => absurd he List.not_mem_nil
  | unary i op e =>
    simp only [ExprOk] at h
    exact List.forall_mem_singleton.2 ⟨_, h.2.2⟩
  | binary i op l r =>
    simp only [ExprOk] at h
    obtain ⟨-, a, b, hl, hr, -⟩ := h
    exact List.forall_mem_cons.2 ⟨⟨a, hl⟩, List.forall_mem_singleton.2 ⟨b, hr⟩⟩
  | call i callee args target =>
    simp only [ExprOk] at h
    cases target with
    | none => exact h.2.elim
    | some target =>
      cases target with
      | construct c =>
        obtain ⟨-, -, rfl, -⟩ := h
        exact fun e' he => absurd he List.not_mem_nil
      | function id captures =>
        obtain ⟨-, f, -, -, hargs, -⟩ := h
        exact exprOk_of_argsOk hargs
      | builtin b => exact exprOk_of_allOk h.2.2.2
  | field i o f =>
    simp only [ExprOk] at h
    obtain ⟨-, c, l, k, d, ho, -⟩ := h
    exact List.forall_mem_singleton.2 ⟨_, ho⟩
  | method i o m args =>
    simp only [ExprOk] at h
    obtain ⟨-, c, id, f, ho, -, -, -, hargs⟩ := h
    exact List.forall_mem_cons.2 ⟨⟨_, ho⟩, exprOk_of_argsOk hargs⟩

theorem stmtOk_of_blockOk (h : F.BlockOk lv passes ret ss) :
    ∀ s ∈ ss, F.StmtOk lv passes ret s := by
  induction ss with
  | nil => exact fun s hs => absurd hs List.not_mem_nil
  | cons s ss ih =>
    simp only [BlockOk] at h
    exact List.forall_mem_cons.2 ⟨h.1, ih h.2⟩

theorem branchesOk_iff {bs : List Branch} :
    F.BranchesOk lv passes ret bs ↔ ∀ b ∈ bs, F.BranchOk lv passes ret b := by
  induction bs with
  | nil => exact ⟨fun _ b hb => absurd hb List.not_mem_nil, fun _ => by simp only [BranchesOk]⟩
  | cons b bs ih => rw [List.forall_mem_cons, ← ih, BranchesOk]

theorem branchOk_iff {b : Branch} : F.BranchOk lv passes ret b ↔
    F.ExprOk lv passes b.test .bool ∧ F.BlockOk lv passes ret b.body := by
  cases b
  simp only [BranchOk, Branch.test, Branch.body]

theorem StmtOk.exprs (h : F.StmtOk lv passes ret s) :
    ∀ e ∈ s.exprs, ∃ t, F.ExprOk lv passes e t := by
  cases s with
  | assign target value span =>
    simp only [StmtOk] at h
    obtain ⟨a, t, he, ht, -⟩ := h
    refine List.forall_mem_append.2 ⟨?_, List.forall_mem_singleton.2 ⟨a, he⟩⟩
    cases target with
    | name x b => exact fun e he => absurd he List.not_mem_nil
    | field o f =>
      obtain ⟨c, l, k, d, ho, -⟩ := ht
      exact List.forall_mem_singleton.2 ⟨_, ho⟩
  | expr value span =>
    simp only [StmtOk] at h
    exact List.forall_mem_singleton.2 h
  | ret value span =>
    simp only [StmtOk] at h
    obtain ⟨a, t, he, -⟩ := h
    exact List.forall_mem_singleton.2 ⟨a, he⟩
  | pass span => exact fun e he => absurd he List.not_mem_nil
  | cond first others otherwise span =>
    simp only [StmtOk] at h
    refine List.forall_mem_cons.2 ⟨⟨_, (branchOk_iff.1 h.1).1⟩, List.forall_mem_map.2 ?_⟩
    exact fun b hb => ⟨_, (branchOk_iff.1 (branchesOk_iff.1 h.2.1 b hb)).1⟩
  | loop branch span =>
    simp only [StmtOk] at h
    exact List.forall_mem_singleton.2 ⟨_, (branchOk_iff.1 h).1⟩

theorem StmtOk.parts (h : F.StmtOk lv passes ret s) : ∀ s' ∈ s.parts, F.StmtOk lv passes ret s' := by
  cases s with
  | assign _ _ _ => exact fun s hs => absurd hs List.not_mem_nil
  | expr _ _ => exact fun s hs => absurd hs List.not_mem_nil
  | ret _ _ => exact fun s hs => absurd hs List.not_mem_nil
  | pass _ => exact fun s hs => absurd hs List.not_mem_nil
  | cond first others otherwise span =>
    simp only [StmtOk] at h
    refine List.forall_mem_append.2 ⟨List.forall_mem_append.2 ⟨?_, fun s hs => ?_⟩, ?_⟩
    · exact stmtOk_of_blockOk (branchOk_iff.1 h.1).2
    · obtain ⟨b, hb, hs⟩ := List.mem_flatMap.1 hs
      exact stmtOk_of_blockOk (branchOk_iff.1 (branchesOk_iff.1 h.2.1 b hb)).2 s hs
    · exact stmtOk_of_blockOk h.2.2
  | loop branch span =>
    simp only [StmtOk] at h
    exact stmtOk_of_blockOk (branchOk_iff.1 h).2

/-- Statements in checked statements are checked. -/
theorem stmtOk_of_occursIn (h : F.BlockOk lv passes ret ss) (hs : Stmt.OccursIn ss s) :
    F.StmtOk lv passes ret s := by
  induction hs with
  | here hs => exact stmtOk_of_blockOk h _ hs
  | part _ hs ih => exact StmtOk.parts ih _ hs

/-- Expressions in checked statements are checked. -/
theorem exprOk_of_occursIn (h : F.BlockOk lv passes ret ss) (he : Expr.OccursIn ss e) :
    ∃ t, F.ExprOk lv passes e t := by
  induction he with
  | here hs he => exact StmtOk.exprs (stmtOk_of_occursIn h hs) _ he
  | part _ he ih =>
    obtain ⟨t, ih⟩ := ih
    exact ExprOk.parts ih _ he

end Check.Facts

/-! ### Code -/

namespace Emit

variable {c : CheckedProgram} {N : Names} {arr : Array Op} {F : Facts} {lv : List Level}
  {passes : String → Bool} {ret : Option Ty} {e : Expr} {s : Stmt} {ss : List Stmt}
  {n n' a a' b b' : Nat}

/-- The code of an expression lies in a stretch of code. -/
def ExprIn (c : CheckedProgram) (N : Names) (arr : Array Op) (e : Expr) (a a' : Nat) : Prop :=
  ∃ n b n' b', a ≤ b ∧ b' ≤ a' ∧ ExprAt c N arr e n b n' b'

/-- The code of a statement lies in a stretch of code. -/
def StmtIn (c : CheckedProgram) (N : Names) (arr : Array Op) (s : Stmt) (a a' : Nat) : Prop :=
  ∃ n b n' b', a ≤ b ∧ b' ≤ a' ∧ StmtAt c N arr s n b n' b'

theorem ExprIn.mono (h : ExprIn c N arr e b b') (ha : a ≤ b) (ha' : b' ≤ a') :
    ExprIn c N arr e a a' := by
  obtain ⟨n, i, n', i', hi, hi', hat⟩ := h
  exact ⟨n, i, n', i', Nat.le_trans ha hi, Nat.le_trans hi' ha', hat⟩

theorem StmtIn.mono (h : StmtIn c N arr s b b') (ha : a ≤ b) (ha' : b' ≤ a') :
    StmtIn c N arr s a a' := by
  obtain ⟨n, i, n', i', hi, hi', hat⟩ := h
  exact ⟨n, i, n', i', Nat.le_trans ha hi, Nat.le_trans hi' ha', hat⟩

theorem ExprAt.self (h : ExprAt c N arr e n a n' a') : ExprIn c N arr e a a' :=
  ⟨n, a, n', a', Nat.le_refl _, Nat.le_refl _, h⟩

theorem exprIn_of_exprsAt {es : List Expr} (h : ExprsAt c N arr es n a n' a') :
    ∀ e ∈ es, ExprIn c N arr e a a' := by
  induction es generalizing n a with
  | nil => exact fun e he => absurd he List.not_mem_nil
  | cons e es ih =>
    obtain ⟨n₁, b, hat, hats⟩ := h
    have hle := exprAt_le hat
    have hle' := exprsAt_le hats
    exact List.forall_mem_cons.2 ⟨(ExprAt.self hat).mono (Nat.le_refl _) hle',
      fun e he => (ih hats e he).mono hle (Nat.le_refl _)⟩

theorem exprIn_parts {t : Ty} (hok : F.ExprOk lv passes e t) (h : ExprAt c N arr e n a n' a') :
    ∀ e' ∈ e.parts, ExprIn c N arr e' a a' := by
  cases e with
  | literal i v => exact fun e' he => absurd he List.not_mem_nil
  | name i x v => exact fun e' he => absurd he List.not_mem_nil
  | unary i op e =>
    refine List.forall_mem_singleton.2 ?_
    cases op with
    | neg =>
      obtain ⟨b₁, b₂, hzero, hat, hsub⟩ := h
      exact (ExprAt.self hat).mono (codeAt_le hzero) (codeAt_le hsub)
    | not =>
      obtain ⟨b₁, hat, hnot⟩ := h
      exact (ExprAt.self hat).mono (Nat.le_refl _) (codeAt_le hnot)
  | binary i op l r =>
    obtain ⟨n₁, b₁, b₂, hatl, hatr, hcode⟩ := h
    have hle := codeAt_le hcode
    refine List.forall_mem_cons.2 ⟨?_, List.forall_mem_singleton.2 ?_⟩
    · exact (ExprAt.self hatl).mono (Nat.le_refl _) (Nat.le_trans (exprAt_le hatr) hle)
    · exact (ExprAt.self hatr).mono (exprAt_le hatl) hle
  | call i callee args target =>
    cases target with
    | none => exact h.elim
    | some target =>
      cases target with
      | function id us =>
        obtain ⟨b₁, b₂, hats, hcells, hcall⟩ := h
        exact fun e' he => (exprIn_of_exprsAt hats e' he).mono (Nat.le_refl _)
          (Nat.le_trans (codeAt_le hcells) (codeAt_le hcall))
      | construct y =>
        simp only [ExprOk] at hok
        obtain ⟨-, -, rfl, -⟩ := hok
        exact fun e' he => absurd he List.not_mem_nil
      | builtin f =>
        obtain ⟨b₁, is, hats, -, hcode⟩ := h
        exact fun e' he => (exprIn_of_exprsAt hats e' he).mono (Nat.le_refl _) (codeAt_le hcode)
  | field i o f =>
    obtain ⟨l, j, d, b₁, -, -, hat, hcode⟩ := h
    exact List.forall_mem_singleton.2
      ((ExprAt.self hat).mono (Nat.le_refl _) (codeAt_le hcode))
  | method i o m args =>
    obtain ⟨l, slot, e, n₁, b₁, b₂, b₃, -, -, hat, hguard, hats, hcode⟩ := h
    have hle := Nat.le_trans (exprsAt_le hats) (codeAt_le hcode)
    have hle' := Nat.le_trans (exprAt_le hat) (codeAt_le hguard)
    exact List.forall_mem_cons.2 ⟨(ExprAt.self hat).mono (Nat.le_refl _)
        (Nat.le_trans (codeAt_le hguard) hle),
      fun e' he => (exprIn_of_exprsAt hats e' he).mono hle' (codeAt_le hcode)⟩

theorem stmtIn_of_blockAt (h : BlockAt c N arr ss n a n' a') : ∀ s ∈ ss, StmtIn c N arr s a a' := by
  induction ss generalizing n a with
  | nil => exact fun s hs => absurd hs List.not_mem_nil
  | cons s ss ih =>
    obtain ⟨n₁, b, hat, hats⟩ := h
    have hle := stmtAt_le hat
    have hle' := blockAt_le hats
    exact List.forall_mem_cons.2 ⟨⟨_, _, _, _, Nat.le_refl _, hle', hat⟩,
      fun s hs => (ih hats s hs).mono hle (Nat.le_refl _)⟩

theorem in_of_branchAt {br : Branch} {exit : Nat} (h : BranchAt c N arr exit br n a n' a') :
    ExprIn c N arr br.test a a' ∧ ∀ s ∈ br.body, StmtIn c N arr s a a' := by
  cases br with
  | mk test body =>
    obtain ⟨n₁, b₁, b₂, hat, -, hats, -, rfl⟩ := h
    have hle := exprAt_le hat
    have hle' := blockAt_le hats
    exact ⟨(ExprAt.self hat).mono (Nat.le_refl _) (by omega),
      fun s hs => (stmtIn_of_blockAt hats s hs).mono (by omega) (Nat.le_succ _)⟩

theorem in_of_branchesAt {brs : List Branch} {exit : Nat}
    (h : BranchesAt c N arr exit brs n a n' a') :
    ∀ br ∈ brs, ExprIn c N arr br.test a a' ∧ ∀ s ∈ br.body, StmtIn c N arr s a a' := by
  induction brs generalizing n a with
  | nil => exact fun br hbr => absurd hbr List.not_mem_nil
  | cons br brs ih =>
    obtain ⟨n₁, b, hat, hats⟩ := h
    have hle := branchAt_le hat
    have hle' := branchesAt_le hats
    obtain ⟨htest, hbody⟩ := in_of_branchAt hat
    refine List.forall_mem_cons.2 ⟨⟨htest.mono (Nat.le_refl _) hle',
      fun s hs => (hbody s hs).mono (Nat.le_refl _) hle'⟩, fun br hbr => ?_⟩
    obtain ⟨htest, hbody⟩ := ih hats br hbr
    exact ⟨htest.mono hle (Nat.le_refl _), fun s hs => (hbody s hs).mono hle (Nat.le_refl _)⟩

theorem exprIn_exprs (h : StmtAt c N arr s n a n' a') : ∀ e ∈ s.exprs, ExprIn c N arr e a a' := by
  cases s with
  | assign target value span =>
    refine List.forall_mem_append.2 ?_
    cases target with
    | name x v =>
      obtain ⟨_, b₁, b₂, -, hfirst, hat, hlast⟩ := h
      exact ⟨fun e he => absurd he List.not_mem_nil, List.forall_mem_singleton.2
        ((ExprAt.self hat).mono (codeAt_le hfirst) (codeAt_le hlast))⟩
    | field o f =>
      obtain ⟨l, j, d, n₁, b₁, b₂, b₃, -, -, hato, hguard, hat, hstore⟩ := h
      have hle := Nat.le_trans (exprAt_le hato) (codeAt_le hguard)
      have hle' := Nat.le_trans (exprAt_le hat) (codeAt_le hstore)
      exact ⟨List.forall_mem_singleton.2 ((ExprAt.self hato).mono (Nat.le_refl _)
          (Nat.le_trans (codeAt_le hguard) hle')),
        List.forall_mem_singleton.2 ((ExprAt.self hat).mono hle (codeAt_le hstore))⟩
  | expr value span =>
    obtain ⟨b, hat, hcode⟩ := h
    exact List.forall_mem_singleton.2 ((ExprAt.self hat).mono (Nat.le_refl _) (codeAt_le hcode))
  | ret value span =>
    obtain ⟨b, hat, hcode⟩ := h
    exact List.forall_mem_singleton.2 ((ExprAt.self hat).mono (Nat.le_refl _) (codeAt_le hcode))
  | pass span => exact fun e he => absurd he List.not_mem_nil
  | cond first others otherwise span =>
    obtain ⟨n₁, n₂, b₁, b₂, hatf, hato, hatw⟩ := h
    have hle := branchAt_le hatf
    have hle' := branchesAt_le hato
    have hle'' := blockAt_le hatw
    refine List.forall_mem_cons.2 ⟨(in_of_branchAt hatf).1.mono (Nat.le_refl _) (by omega),
      List.forall_mem_map.2 fun br hbr => ?_⟩
    exact (in_of_branchesAt hato br hbr).1.mono hle hle''
  | loop first span =>
    cases first with
    | mk test body =>
      obtain ⟨n₁, b₁, b₂, hat, -, hats, -, rfl⟩ := h
      have hle := blockAt_le hats
      exact List.forall_mem_singleton.2 ((ExprAt.self hat).mono (Nat.le_refl _) (by omega))

theorem stmtIn_parts (h : StmtAt c N arr s n a n' a') : ∀ s' ∈ s.parts, StmtIn c N arr s' a a' := by
  cases s with
  | assign _ _ _ => exact fun s hs => absurd hs List.not_mem_nil
  | expr _ _ => exact fun s hs => absurd hs List.not_mem_nil
  | ret _ _ => exact fun s hs => absurd hs List.not_mem_nil
  | pass _ => exact fun s hs => absurd hs List.not_mem_nil
  | cond first others otherwise span =>
    obtain ⟨n₁, n₂, b₁, b₂, hatf, hato, hatw⟩ := h
    have hle := branchAt_le hatf
    have hle' := branchesAt_le hato
    have hle'' := blockAt_le hatw
    refine List.forall_mem_append.2 ⟨List.forall_mem_append.2 ⟨fun s hs => ?_, fun s hs => ?_⟩,
      fun s hs => ?_⟩
    · exact ((in_of_branchAt hatf).2 s hs).mono (Nat.le_refl _) (by omega)
    · obtain ⟨br, hbr, hs⟩ := List.mem_flatMap.1 hs
      exact ((in_of_branchesAt hato br hbr).2 s hs).mono hle hle''
    · exact (stmtIn_of_blockAt hatw s hs).mono (by omega) (Nat.le_refl _)
  | loop first span =>
    cases first with
    | mk test body =>
      obtain ⟨n₁, b₁, b₂, hat, -, hats, -, rfl⟩ := h
      have hle := exprAt_le hat
      exact fun s hs => (stmtIn_of_blockAt hats s hs).mono (by omega) (Nat.le_succ _)

/-- The code of some statements holds that of all statements in them. -/
theorem stmtIn_of_occursIn (h : BlockAt c N arr ss n a n' a') (hs : Stmt.OccursIn ss s) :
    StmtIn c N arr s a a' := by
  induction hs with
  | here hs => exact stmtIn_of_blockAt h _ hs
  | part _ hs ih =>
    obtain ⟨m, b, m', b', hb, hb', hat⟩ := ih
    exact (stmtIn_parts hat _ hs).mono hb hb'

/-- The code of checked statements holds that of all expressions in them. -/
theorem exprIn_of_occursIn (hok : F.BlockOk lv passes ret ss) (h : BlockAt c N arr ss n a n' a')
    (he : Expr.OccursIn ss e) : ExprIn c N arr e a a' := by
  induction he with
  | here hs he =>
    obtain ⟨m, b, m', b', hb, hb', hat⟩ := stmtIn_of_occursIn h hs
    exact (exprIn_exprs hat _ he).mono hb hb'
  | part he hpart ih =>
    obtain ⟨m, b, m', b', hb, hb', hat⟩ := ih
    obtain ⟨t, ht⟩ := exprOk_of_occursIn hok he
    exact (exprIn_parts ht hat _ hpart).mono hb hb'

/-! ### Code in pieces -/

theorem blockAt_append {xs ys : List Stmt} : BlockAt c N arr (xs ++ ys) n a n' a' ↔
    ∃ n₁ b, BlockAt c N arr xs n a n₁ b ∧ BlockAt c N arr ys n₁ b n' a' := by
  induction xs generalizing n a with
  | nil =>
    constructor
    · exact fun h => ⟨n, a, ⟨rfl, rfl⟩, h⟩
    · rintro ⟨_, _, ⟨rfl, rfl⟩, h⟩
      exact h
  | cons x xs ih =>
    constructor
    · rintro ⟨n₁, b, hx, h⟩
      obtain ⟨n₂, d, hxs, hys⟩ := ih.1 h
      exact ⟨n₂, d, ⟨n₁, b, hx, hxs⟩, hys⟩
    · rintro ⟨n₂, d, ⟨n₁, b, hx, hxs⟩, hys⟩
      exact ⟨n₁, b, hx, ih.2 ⟨n₂, d, hxs, hys⟩⟩

theorem branchesAt_append {exit : Nat} {xs ys : List Branch} :
    BranchesAt c N arr exit (xs ++ ys) n a n' a' ↔ ∃ n₁ b,
      BranchesAt c N arr exit xs n a n₁ b ∧ BranchesAt c N arr exit ys n₁ b n' a' := by
  induction xs generalizing n a with
  | nil =>
    constructor
    · exact fun h => ⟨n, a, ⟨rfl, rfl⟩, h⟩
    · rintro ⟨_, _, ⟨rfl, rfl⟩, h⟩
      exact h
  | cons x xs ih =>
    constructor
    · rintro ⟨n₁, b, hx, h⟩
      obtain ⟨n₂, d, hxs, hys⟩ := ih.1 h
      exact ⟨n₂, d, ⟨n₁, b, hx, hxs⟩, hys⟩
    · rintro ⟨n₂, d, ⟨n₁, b, hx, hxs⟩, hys⟩
      exact ⟨n₁, b, hx, ih.2 ⟨n₂, d, hxs, hys⟩⟩

/-! ### Places of statements -/

/-- Where the code of some statements starts at a position, that of a statement in them, at any
depth, lies between two other positions. -/
inductive StandsAt (c : CheckedProgram) (N : Names) (arr : Array Op) :
    List Stmt → Nat → Stmt → (b b' : Nat) → Prop where
  | head {s : Stmt} {ss : List Stmt} {n a n' a' : Nat} : StmtAt c N arr s n a n' a' →
    StandsAt c N arr (s :: ss) a s a a'
  | tail {s s' : Stmt} {ss : List Stmt} {n a n' i b b' : Nat} : StmtAt c N arr s n a n' i →
    StandsAt c N arr ss i s' b b' → StandsAt c N arr (s :: ss) a s' b b'
  | loop {test : Expr} {body ss : List Stmt} {span : Span} {s' : Stmt} {n a n' i exit b b' : Nat} :
    ExprAt c N arr test n a n' i → OpsAt arr i [.eqz, .jumpIf exit] →
    StandsAt c N arr body (i + 2) s' b b' →
    StandsAt c N arr (.loop (.mk test body) span :: ss) a s' b b'
  | branch {first : Branch} {others before behind : List Branch} {test : Expr}
    {body otherwise ss : List Stmt} {span : Span} {s' : Stmt}
    {n a n₁ n₂ i j exit next b b' : Nat} :
    first :: others = before ++ .mk test body :: behind →
    BranchesAt c N arr exit before n a n₁ i → ExprAt c N arr test n₁ i n₂ j →
    OpsAt arr j [.jumpUnless next] → StandsAt c N arr body (j + 1) s' b b' →
    StandsAt c N arr (.cond first others otherwise span :: ss) a s' b b'
  | otherwise {first : Branch} {others : List Branch} {otherwise ss : List Stmt} {span : Span}
    {s' : Stmt} {n a n' i exit b b' : Nat} :
    BranchesAt c N arr exit (first :: others) n a n' i → StandsAt c N arr otherwise i s' b b' →
    StandsAt c N arr (.cond first others otherwise span :: ss) a s' b b'

theorem exists_standsAt_of_mem (h : BlockAt c N arr ss n a n' a') (hs : s ∈ ss) :
    ∃ b b', StandsAt c N arr ss a s b b' := by
  induction ss generalizing n a with
  | nil => exact absurd hs List.not_mem_nil
  | cons s₀ ss ih =>
    obtain ⟨n₁, i, hat, hats⟩ := h
    obtain rfl | hs := List.mem_cons.1 hs
    · exact ⟨a, i, .head hat⟩
    · obtain ⟨b, b', hst⟩ := ih hats hs
      exact ⟨b, b', .tail hat hst⟩

/-- The statements directly in a statement stand in its code. -/
theorem exists_standsAt_of_parts (h : StmtAt c N arr s n a n' a') {s' : Stmt} (hs : s' ∈ s.parts) :
    ∃ b b', StandsAt c N arr (s :: ss) a s' b b' := by
  cases s with
  | assign _ _ _ => exact absurd hs List.not_mem_nil
  | expr _ _ => exact absurd hs List.not_mem_nil
  | ret _ _ => exact absurd hs List.not_mem_nil
  | pass _ => exact absurd hs List.not_mem_nil
  | cond first others otherwise span =>
    obtain ⟨n₁, n₂, b₁, b₂, hatf, hato, hatw⟩ := h
    have hall : BranchesAt c N arr a' (first :: others) (n + 1) a n₂ b₂ := ⟨n₁, b₁, hatf, hato⟩
    have hbranch : ∀ br ∈ first :: others, s' ∈ br.body →
        ∃ b b', StandsAt c N arr (.cond first others otherwise span :: ss) a s' b b' := by
      intro br hbr hs
      obtain ⟨before, behind, heq⟩ := List.append_of_mem hbr
      obtain ⟨n₃, i, hbefore, n₄, j, hat, -⟩ := branchesAt_append.1 (heq ▸ hall)
      cases br with
      | mk test body =>
        obtain ⟨n₅, c₁, c₂, htest, hskip, hbody, -⟩ := hat
        obtain ⟨b, b', hst⟩ := exists_standsAt_of_mem hbody hs
        exact ⟨b, b', .branch heq hbefore htest hskip hst⟩
    rw [Stmt.parts, List.mem_append, List.mem_append] at hs
    obtain (hs | hs) | hs := hs
    · exact hbranch first List.mem_cons_self hs
    · obtain ⟨br, hbr, hs⟩ := List.mem_flatMap.1 hs
      exact hbranch br (List.mem_cons_of_mem _ hbr) hs
    · obtain ⟨b, b', hst⟩ := exists_standsAt_of_mem hatw hs
      exact ⟨b, b', .otherwise hall hst⟩
  | loop br span =>
    cases br with
    | mk test body =>
      obtain ⟨n₁, b₁, b₂, htest, hexit, hbody, -⟩ := h
      obtain ⟨b, b', hst⟩ := exists_standsAt_of_mem hbody hs
      exact ⟨b, b', .loop htest hexit hst⟩

theorem StandsAt.part {i j : Nat} (h : StandsAt c N arr ss a s i j) {s' : Stmt}
    (hs : s' ∈ s.parts) : ∃ b b', StandsAt c N arr ss a s' b b' := by
  induction h with
  | head hat => exact exists_standsAt_of_parts hat hs
  | tail hat _ ih =>
    obtain ⟨b, b', hst⟩ := ih hs
    exact ⟨b, b', .tail hat hst⟩
  | loop htest hexit _ ih =>
    obtain ⟨b, b', hst⟩ := ih hs
    exact ⟨b, b', .loop htest hexit hst⟩
  | branch heq hbefore htest hskip _ ih =>
    obtain ⟨b, b', hst⟩ := ih hs
    exact ⟨b, b', .branch heq hbefore htest hskip hst⟩
  | otherwise hall _ ih =>
    obtain ⟨b, b', hst⟩ := ih hs
    exact ⟨b, b', .otherwise hall hst⟩

/-- Every statement in some statements stands in their code. -/
theorem exists_standsAt (h : BlockAt c N arr ss n a n' a') (hs : Stmt.OccursIn ss s) :
    ∃ b b', StandsAt c N arr ss a s b b' := by
  induction hs with
  | here hs => exact exists_standsAt_of_mem h hs
  | part _ hs ih =>
    obtain ⟨i, j, hst⟩ := ih
    exact hst.part hs

/-! ### Guards -/

/-- The code of a receiver fills a stretch of the code of its field access or method call, and the
call of the guard follows. -/
inductive GuardAt (c : CheckedProgram) (N : Names) (arr : Array Op) (ss : List Stmt) (o : Expr)
    (a b : Nat) : Prop where
  | read {i : ExprInfo} {f : Ident} {n n' a' : Nat} : Expr.OccursIn ss (.field i o f) →
    ExprAt c N arr (.field i o f) n a n' a' → ExprAt c N arr o n a n' b →
    arr[b]? = some (.call (N.function checkInitName)) → GuardAt c N arr ss o a b
  | write {f : Ident} {value : Expr} {span : Span} {n n₁ n' a' : Nat} :
    Stmt.OccursIn ss (.assign (.field o f) value span) →
    AssignAt c N arr value (.field o f) n a n' a' → ExprAt c N arr o n a n₁ b →
    arr[b]? = some (.call (N.function checkInitName)) → GuardAt c N arr ss o a b
  | call {i : ExprInfo} {m : Ident} {args : List Expr} {n n₁ n' a' : Nat} :
    Expr.OccursIn ss (.method i o m args) → ExprAt c N arr (.method i o m args) n a n' a' →
    ExprAt c N arr o n a n₁ b → arr[b]? = some (.call (N.function checkInitName)) →
    GuardAt c N arr ss o a b

namespace GuardAt

variable {o : Expr}

theorem isReceiver (h : GuardAt c N arr ss o a b) : o.IsReceiver ss := by
  cases h with
  | read h => exact .read h
  | write h => exact .write h
  | call h => exact .call h

theorem op (h : GuardAt c N arr ss o a b) :
    arr[b]? = some (.call (N.function checkInitName)) := by
  cases h with
  | read _ _ _ h => exact h
  | write _ _ _ h => exact h
  | call _ _ _ h => exact h

theorem exprAt (h : GuardAt c N arr ss o a b) : ∃ n n', ExprAt c N arr o n a n' b := by
  cases h with
  | read _ _ h _ => exact ⟨_, _, h⟩
  | write _ _ h _ => exact ⟨_, _, h⟩
  | call _ _ h _ => exact ⟨_, _, h⟩

end GuardAt

/-- The last instruction of an assignment in some statements stands at a position. -/
def EndsAt (c : CheckedProgram) (N : Names) (arr : Array Op) (ss : List Stmt) (target : Target)
    (b : Nat) : Prop :=
  ∃ value span n a n', Stmt.OccursIn ss (.assign target value span) ∧
    AssignAt c N arr value target n a n' (b + 1)

/-- Every receiver in checked statements has a guard in their code. -/
theorem exists_guardAt (hok : F.BlockOk lv passes ret ss) (h : BlockAt c N arr ss n a n' a')
    {o : Expr} (ho : o.IsReceiver ss) :
    ∃ b b', a ≤ b ∧ GuardAt c N arr ss o b b' := by
  cases ho with
  | read ho =>
    obtain ⟨m, b, m', b', hb, -, hat⟩ := exprIn_of_occursIn hok h ho
    have hwhole := hat
    obtain ⟨l, j, d, b₁, -, -, hato, hcode⟩ := hat
    exact ⟨b, b₁, hb, .read ho hwhole hato (codeAt_cons.1 hcode).1⟩
  | write ho =>
    obtain ⟨m, b, m', b', hb, -, hat⟩ := stmtIn_of_occursIn h ho
    have hwhole := hat
    obtain ⟨l, j, d, n₁, b₁, b₂, b₃, -, -, hato, hguard, -⟩ := hat
    exact ⟨b, b₁, hb, .write ho hwhole hato (codeAt_cons.1 hguard).1⟩
  | call ho =>
    obtain ⟨m, b, m', b', hb, -, hat⟩ := exprIn_of_occursIn hok h ho
    have hwhole := hat
    obtain ⟨l, slot, e, n₁, b₁, b₂, b₃, -, -, hato, hguard, -⟩ := hat
    exact ⟨b, b₁, hb, .call ho hwhole hato (codeAt_cons.1 hguard).1⟩

end Emit

end ObjLang
