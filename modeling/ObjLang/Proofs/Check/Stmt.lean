import ObjLang.Proofs.Check.Expr

/-!
# ObjLang.Proofs.Check.Stmt — checked statements

Statements keep what expressions keep.  An assigned name is bound in the innermost scope, so it
stands for the nearest declaration; it never leads to a new alias.
-/

namespace ObjLang.Check

open Facts

variable {classes : ClassTable} {lv : List Level} {passes : String → Bool} {ret : Option Ty}
  {s s' : State}

theorem resolveWrite_ok {x : Ident} {v : VarId} (h : Inside classes lv passes s)
    (hc : resolveWrite x s = .ok (v, s')) :
    s' = s ∧ ∃ r, s.vars.get? v = some r ∧ (s.facts classes).Reaches lv x.name v ∧
      r.writable = true ∧ (lv ≠ [] → some (s.vars.home v) = nearest s.varEnv.module x.name lv) := by
  obtain ⟨rfl, hl, hwr⟩ := resolveWrite_bound hc
  refine ⟨rfl, ?_⟩
  cases lv with
  | nil =>
    obtain ⟨-, hin, -⟩ := h.nest.at_module
    have hm : List.lookup x.name s'.varEnv.module = some v := by
      simpa [Env.lookup, Env.scopes, hin] using hl
    obtain ⟨r, hr, -⟩ := h.nest.state.module x.name v hm
    rw [Variables.get_eq_of_get? hr] at hwr
    exact ⟨r, hr, h.nest.state.reaches_global hm, hwr, fun hne => absurd rfl hne⟩
  | cons l outer =>
    obtain ⟨f, fs, b, bs, u, us, hf, hin, hfu, hok, hrest⟩ := h.nest.innermost
    have hb : List.lookup x.name b = some v := by
      simpa [Env.lookup, Env.scopes, hin] using hl
    obtain ⟨r, hr, -, hh, -⟩ := hok.bound x.name v hb
    have hr' : s'.vars.get? v = some r := hr
    rw [Variables.get_eq_of_get? hr'] at hwr
    exact ⟨r, hr, hok.reaches hb, hwr, fun _ => hh⟩

theorem checkTarget_ok {target target' : Target} {t : Ty} (h : Inside classes lv passes s)
    (hc : checkTarget classes target s = .ok ((target', t), s')) :
    Keeps classes lv passes s s' ∧ (s'.facts classes).TargetOk lv passes target' t := by
  cases checkTarget_cases hc with
  | name hv =>
    obtain ⟨-, r, hr, hreach, hw, hn⟩ := resolveWrite_ok h hv
    refine ⟨.refl h, _, r, rfl, hr, hreach, hw, ?_, hn⟩
    rw [Variables.get_eq_of_get? hr]
  | field ho hl hd =>
    obtain ⟨hk, hok⟩ := checkExpr_ok h ho
    exact ⟨hk, _, _, _, _, hok, hl, hd, rfl⟩

theorem Keeps.returns (hk : Keeps classes lv passes s s') : s'.returns = s.returns := by
  obtain ⟨cs, hcs⟩ := hk.frames
  unfold State.returns
  rw [hcs]
  cases s.frames <;> rfl

mutual

theorem checkStmt_ok : ∀ {st st' : Stmt} {s s' : State}, Inside classes lv passes s →
    s.returns = ret → checkStmt classes st s = .ok (st', s') →
      Keeps classes lv passes s s' ∧ (s'.facts classes).StmtOk lv passes ret st'
  | .assign _ _ _, st', s, s', h, hret, hc => by
    cases checkStmt_cases hc with
    | assign he ht hle =>
      obtain ⟨hk, hok⟩ := checkExpr_ok h he
      obtain ⟨hk', htok⟩ := checkTarget_ok hk.inside ht
      rw [StmtOk]
      exact ⟨hk.trans hk', _, _, hok.later hk'.later clear_none, htok, hle⟩
  | .expr _ _, st', s, s', h, hret, hc => by
    cases checkStmt_cases hc with
    | expr he =>
      obtain ⟨hk, hok⟩ := checkExpr_ok h he
      rw [StmtOk]
      exact ⟨hk, _, hok⟩
  | .ret _ _, st', s, s', h, hret, hc => by
    cases checkStmt_cases hc with
    | ret he ht hle =>
      obtain ⟨hk, hok⟩ := checkExpr_ok h he
      rw [StmtOk]
      exact ⟨hk, _, _, hok, hret.symm.trans (hk.returns.symm.trans ht), hle⟩
  | .pass _, st', s, s', h, hret, hc => by
    cases checkStmt_cases hc with
    | pass =>
      rw [StmtOk]
      exact ⟨.refl h, trivial⟩
  | .cond first others otherwise _, st', s, s', h, hret, hc => by
    cases checkStmt_cases hc with
    | cond hf ho he =>
      obtain ⟨hk₁, hok₁⟩ := checkBranch_ok h hret hf
      obtain ⟨hk₂, hok₂⟩ := checkBranches_ok hk₁.inside (hk₁.returns.trans hret) ho
      have hk₁₂ := hk₁.trans hk₂
      obtain ⟨hk₃, hok₃⟩ := checkBlock_ok hk₂.inside (hk₁₂.returns.trans hret) he
      rw [StmtOk]
      exact ⟨hk₁₂.trans hk₃, hok₁.later (hk₂.trans hk₃).later clear_none,
        hok₂.later hk₃.later clear_none, hok₃⟩
  | .loop branch _, st', s, s', h, hret, hc => by
    cases checkStmt_cases hc with
    | loop hb =>
      rw [StmtOk]
      exact checkBranch_ok h hret hb

theorem checkBlock_ok : ∀ {ss ss' : List Stmt} {s s' : State}, Inside classes lv passes s →
    s.returns = ret → checkBlock classes ss s = .ok (ss', s') →
      Keeps classes lv passes s s' ∧ (s'.facts classes).BlockOk lv passes ret ss'
  | [], ss', s, s', h, hret, hc => by
    cases checkBlock_cases hc with
    | nil =>
      rw [BlockOk]
      exact ⟨.refl h, trivial⟩
  | st :: ss, ss', s, s', h, hret, hc => by
    cases checkBlock_cases hc with
    | cons hst hss =>
      obtain ⟨hk, hok⟩ := checkStmt_ok h hret hst
      obtain ⟨hk', hoks⟩ := checkBlock_ok hk.inside (hk.returns.trans hret) hss
      rw [BlockOk]
      exact ⟨hk.trans hk', hok.later hk'.later clear_none, hoks⟩

theorem checkBranch_ok : ∀ {b b' : Branch} {s s' : State}, Inside classes lv passes s →
    s.returns = ret → checkBranch classes b s = .ok (b', s') →
      Keeps classes lv passes s s' ∧ (s'.facts classes).BranchOk lv passes ret b'
  | .mk test body, b', s, s', h, hret, hc => by
    cases checkBranch_cases hc with
    | mk ht hb =>
      obtain ⟨hk, hok⟩ := checkExpr_ok h ht
      obtain ⟨hk', hoks⟩ := checkBlock_ok hk.inside (hk.returns.trans hret) hb
      rw [BranchOk]
      exact ⟨hk.trans hk', hok.later hk'.later clear_none, hoks⟩

theorem checkBranches_ok : ∀ {bs bs' : List Branch} {s s' : State}, Inside classes lv passes s →
    s.returns = ret → checkBranches classes bs s = .ok (bs', s') →
      Keeps classes lv passes s s' ∧ (s'.facts classes).BranchesOk lv passes ret bs'
  | [], bs', s, s', h, hret, hc => by
    cases checkBranches_cases hc with
    | nil =>
      rw [BranchesOk]
      exact ⟨.refl h, trivial⟩
  | b :: bs, bs', s, s', h, hret, hc => by
    cases checkBranches_cases hc with
    | cons hb hbs =>
      obtain ⟨hk, hok⟩ := checkBranch_ok h hret hb
      obtain ⟨hk', hoks⟩ := checkBranches_ok hk.inside (hk.returns.trans hret) hbs
      rw [BranchesOk]
      exact ⟨hk.trans hk', hok.later hk'.later clear_none, hoks⟩

end

/-! ### Returns -/

theorem checkBlock_isEmpty {ss ss' : List Stmt} (hc : checkBlock classes ss s = .ok (ss', s')) :
    ss'.isEmpty = ss.isEmpty := by
  cases checkBlock_cases hc with
  | nil => rfl
  | cons _ _ => rfl

mutual

theorem checkStmt_returns : ∀ {st st' : Stmt} {s s' : State},
    checkStmt classes st s = .ok (st', s') → st'.alwaysReturns = st.alwaysReturns
  | .assign _ _ _, st', s, s', hc => by
    cases checkStmt_cases hc with
    | assign => rfl
  | .expr _ _, st', s, s', hc => by
    cases checkStmt_cases hc with
    | expr => rfl
  | .ret _ _, st', s, s', hc => by
    cases checkStmt_cases hc with
    | ret => rfl
  | .pass _, st', s, s', hc => by
    cases checkStmt_cases hc with
    | pass => rfl
  | .cond first others otherwise _, st', s, s', hc => by
    cases checkStmt_cases hc with
    | cond hf ho he =>
      have hempty := checkBlock_isEmpty he
      simp only [Stmt.alwaysReturns, checkBranch_returns hf, checkBranches_returns ho,
        checkBlock_returns he, hempty]
  | .loop _ _, st', s, s', hc => by
    cases checkStmt_cases hc with
    | loop => rfl

theorem checkBlock_returns : ∀ {ss ss' : List Stmt} {s s' : State},
    checkBlock classes ss s = .ok (ss', s') → Stmt.bodyReturns ss' = Stmt.bodyReturns ss
  | [], ss', s, s', hc => by
    cases checkBlock_cases hc with
    | nil => rfl
  | st :: ss, ss', s, s', hc => by
    cases checkBlock_cases hc with
    | cons hst hss =>
      simp only [Stmt.bodyReturns, checkStmt_returns hst, checkBlock_returns hss]

theorem checkBranch_returns : ∀ {b b' : Branch} {s s' : State},
    checkBranch classes b s = .ok (b', s') → b'.returns = b.returns
  | .mk _ body, b', s, s', hc => by
    cases checkBranch_cases hc with
    | mk _ hb => simp only [Branch.returns, checkBlock_returns hb]

theorem checkBranches_returns : ∀ {bs bs' : List Branch} {s s' : State},
    checkBranches classes bs s = .ok (bs', s') → Branch.allReturn bs' = Branch.allReturn bs
  | [], bs', s, s', hc => by
    cases checkBranches_cases hc with
    | nil => rfl
  | b :: bs, bs', s, s', hc => by
    cases checkBranches_cases hc with
    | cons hb hbs =>
      simp only [Branch.allReturn, checkBranch_returns hb, checkBranches_returns hbs]

end

end ObjLang.Check
