import ObjLang.Proofs.Check.Reading

/-!
# ObjLang.Proofs.Check.Adopts — why the innermost function captures what it does

A capture is added in three places: for a `nonlocal` declaration, for a name that a nested function
captures and this one does not know, and for a name that is read.  Only the first kind may be
assigned.  `Adopts P` says of a part of a check that it keeps all captures of the innermost function
and adds such with `P` only, and that the record of each new alias says whether it may be assigned as
the capture does.
-/

namespace ObjLang.Check

open Facts

variable {classes : ClassTable} {P Q : Capture → Prop} {s s' t : State}

/-- The record of the alias of a capture says whether it may be assigned as the capture does. -/
def Marked (vs : Variables) (k : Capture) : Prop :=
  ∃ r, vs.get? k.inner = some r ∧ r.writable = k.writable

theorem Marked.later {vs vs' : Variables} {k : Capture} (h : Marked vs k) (hv : vs.Extends vs') :
    Marked vs' k := by
  obtain ⟨r, hr, hw⟩ := h
  obtain ⟨b, hb, -⟩ := hv _ r hr
  exact ⟨_, hb, hw⟩

/-- The innermost function keeps its captures and gets new ones of a kind only. -/
structure Adopts (P : Capture → Prop) (s s' : State) : Prop where
  vars : s.vars.Extends s'.vars
  frames : ∀ f fs, s.frames = f :: fs → ∃ f', s'.frames = f' :: fs ∧
    (∀ k ∈ f.captures, k ∈ f'.captures) ∧
    ∀ k ∈ f'.captures, k ∈ f.captures ∨ P k ∧ Marked s'.vars k

namespace Adopts

theorem mono (h : Adopts P s s') (hPQ : ∀ k, P k → Q k) : Adopts Q s s' where
  vars := h.vars
  frames := by
    intro f fs hf
    obtain ⟨f', hf', hkept, hnew⟩ := h.frames f fs hf
    exact ⟨f', hf', hkept, fun k hk => (hnew k hk).imp_right (And.imp_left (hPQ k))⟩

theorem of_captures (hv : s.vars.Extends s'.vars)
    (hf : ∀ f fs, s.frames = f :: fs → ∃ f', s'.frames = f' :: fs ∧ f'.captures = f.captures) :
    Adopts P s s' where
  vars := hv
  frames := by
    intro f fs hfr
    obtain ⟨f', hf', heq⟩ := hf f fs hfr
    exact ⟨f', hf', fun k hk => heq ▸ hk, fun k hk => .inl (heq ▸ hk)⟩

theorem refl (s : State) : Adopts P s s :=
  .of_captures (.refl _) fun f _ hf => ⟨f, hf, rfl⟩

theorem trans (h : Adopts P s t) (h' : Adopts P t s') : Adopts P s s' where
  vars := h.vars.trans h'.vars
  frames := by
    intro f fs hf
    obtain ⟨f₁, hf₁, hkept₁, hnew₁⟩ := h.frames f fs hf
    obtain ⟨f₂, hf₂, hkept₂, hnew₂⟩ := h'.frames f₁ fs hf₁
    refine ⟨f₂, hf₂, fun k hk => hkept₂ k (hkept₁ k hk), fun k hk => ?_⟩
    obtain hk | hk := hnew₂ k hk
    · exact (hnew₁ k hk).imp_right (And.imp_right (·.later h'.vars))
    · exact .inr hk

theorem has {f : Frame} {fs : List Frame} {f' : Frame} {fs' : List Frame} (h : Adopts P s s')
    (hf : s.frames = f :: fs) (hf' : s'.frames = f' :: fs') {x : String}
    (hx : f.captures.has x = true) : f'.captures.has x = true := by
  obtain ⟨f₁, hf₁, hkept, -⟩ := h.frames f fs hf
  cases hf'.symm.trans hf₁
  obtain ⟨k, hk, rfl⟩ := Captures.has_eq_true.1 hx
  exact Captures.has_eq_true.2 ⟨k, hkept k hk, rfl⟩

/-- One new alias. -/
theorem withAlias {x : String} {origin : VarId} {writable : Bool} {span : Span} {owner : FunId}
    (h : P ⟨x, s.vars.nextId, origin, writable, span⟩) :
    Adopts P s (s.withAlias x origin writable span owner) where
  vars := extends_withAlias
  frames := by
    intro f fs hf
    refine ⟨_, by simp only [State.withAlias, hf]; rfl,
      fun k hk => Captures.mem_add_of_mem hk _, fun k hk => ?_⟩
    obtain hk | rfl := Captures.mem_add hk
    · exact .inl hk
    · refine .inr ⟨h, ?_⟩
      simp only [Marked, State.withAlias, Variables.get?_markCaptured, Variables.get?_push_self]
      split
      · obtain ⟨b, hb, -⟩ := Variable.captured_eq (aliasRecord s x origin writable span owner)
        exact ⟨_, congrArg some hb, rfl⟩
      · exact ⟨_, rfl, rfl⟩

end Adopts

/-! ### Reads -/

/-- A read changes nothing, or it makes an alias of a name that neither the innermost scope nor the
module knows. -/
theorem resolveRead_cases {x : String} {span : Span} {v : VarId}
    (hc : resolveRead x span s = .ok (v, s')) : s' = s ∨
      ∃ f fs origin, s.frames = f :: fs ∧ s.varEnv.lookup x .localAndGlobal = none ∧
        s' = s.withAlias x origin false span f.function := by
  simp only [resolveRead, bind_eq_ok, findVar?_eq_ok, Prod.mk.injEq, and_assoc, exists_and_left,
    exists_eq_left] at hc
  cases hl : s.varEnv.lookup x .localAndGlobal with
  | some w =>
    simp only [hl, pure_eq_ok, Prod.mk.injEq] at hc
    exact .inl hc.2
  | none =>
    simp only [hl, bind_eq_ok, findVar?_eq_ok, Prod.mk.injEq, and_assoc, exists_and_left,
      exists_eq_left] at hc
    cases ho : s.varEnv.lookup x .nonlocalScopes with
    | none => simp only [ho, refuse_eq_ok] at hc
    | some origin =>
      simp only [ho, bind_eq_ok, variableOf_eq_ok, Prod.mk.injEq, and_assoc, exists_and_left,
        exists_eq_left] at hc
      split at hc
      · simp only [pure_eq_ok, Prod.mk.injEq] at hc
        exact .inl hc.2
      · simp only [bind_eq_ok, get_eq_ok, Prod.mk.injEq, and_assoc, exists_and_left,
          exists_eq_left] at hc
        cases hf : s.frames with
        | nil =>
          simp only [hf, pure_eq_ok, Prod.mk.injEq] at hc
          exact .inl hc.2
        | cons f fs =>
          simp only [hf, capture_eq_ok, Prod.mk.injEq] at hc
          exact .inr ⟨f, fs, origin, rfl, rfl, hc.2⟩

/-- What neither the innermost scope nor that of the module binds. -/
theorem Scoped.not_declared {l : Level} {outer : List Level} (h : Scoped classes (l :: outer) s)
    {x : String} (hx : s.varEnv.lookup x .localScope = none) : l.declares x = false := by
  obtain ⟨f, fs, b, bs, u, us, hf, hb, -, hl, -⟩ := h.innermost
  exact hl.not_declared (by simpa [Env.lookup, Env.scopes, hb] using hx)

theorem Env.lookup_localAndGlobal_eq_none {α : Type} {e : Env α} {x : String}
    (h : e.lookup x .localAndGlobal = none) :
    e.lookup x .localScope = none ∧ List.lookup x e.module = none := by
  simpa [Env.lookup, Env.scopes] using h

theorem Env.lookup_localAndGlobal_of_local {α : Type} {e : Env α} {x : String}
    (h : e.lookup x .localScope = none) :
    e.lookup x .localAndGlobal = List.lookup x e.module := by
  rw [Env.lookup, Env.scopes, List.findSome?_singleton] at h
  rw [Env.lookup, Env.scopes, List.findSome?_cons, h, List.findSome?_singleton]

theorem Reading.adopts {R : String → Prop} {l : Level} {outer : List Level} {passes : String → Bool}
    (hr : Reading R s s') (h : Inside classes (l :: outer) passes s) :
    Adopts (fun k => k.writable = false ∧ R k.name ∧ l.declares k.name = false ∧
      List.lookup k.name s.varEnv.module = none) s s' := by
  induction hr with
  | refl => exact .refl s
  | @tail t u hst hstep ih =>
    obtain ⟨x, hx, span, v, hv⟩ := hstep
    obtain rfl | ⟨f, fs, origin, hf, hl, rfl⟩ := resolveRead_cases hv
    · exact ih
    · have hk := Reading.keeps hst h
      obtain ⟨hlocal, hmodule⟩ := Env.lookup_localAndGlobal_eq_none hl
      have hmod : t.varEnv.module = s.varEnv.module := hk.later.module
      exact ih.trans (.withAlias ⟨rfl, hx, hk.inside.nest.not_declared hlocal, hmod ▸ hmodule⟩)

/-! ### Scope declarations -/

theorem claimName_adopts {x : Ident} (hc : claimName x s = .ok ((), s')) : Adopts P s s' := by
  cases hf : s.frames with
  | nil =>
    simp only [claimName, bind_eq_ok, get_eq_ok, Prod.mk.injEq, and_assoc, exists_and_left,
      exists_eq_left, hf, pure_eq_ok, true_and] at hc
    obtain rfl := hc
    exact .refl _
  | cons f fs =>
    obtain ⟨-, hs'⟩ := (claimName_eq_ok hf).1 hc
    cases hs'
    refine .of_captures (.refl _) fun f₀ fs₀ hf₀ => ?_
    cases hf.symm.trans hf₀
    exact ⟨_, rfl, rfl⟩

theorem declareName_adopts {x : Ident} {v : VarId} (hc : declareName x v s = .ok ((), s')) :
    Adopts P s s' := by
  simp only [declareName, bind_eq_ok, bindVar_eq_ok, Prod.mk.injEq, true_and] at hc
  obtain ⟨_, t, hclaim, rfl⟩ := hc
  exact (claimName_adopts hclaim).trans (.of_captures (.refl _) fun f fs hf => ⟨f, hf, rfl⟩)

theorem checkScopeDecl_adopts {owner : FunId} {d : ScopeDecl}
    (hc : checkScopeDecl owner d s = .ok ((), s')) :
    Adopts (fun k => k.writable = true ∧ k.name = d.name.name ∧ d.kind = .nonlocal) s s' := by
  simp only [checkScopeDecl] at hc
  cases hk : d.kind with
  | global =>
    simp only [hk, bind_eq_ok, findVar?_eq_ok, Prod.mk.injEq, and_assoc, exists_and_left,
      exists_eq_left] at hc
    cases hm : s.varEnv.lookup d.name.name .globalScope with
    | none => simp only [hm, refuse_eq_ok] at hc
    | some v =>
      simp only [hm, bind_eq_ok, variableOf_eq_ok, Prod.mk.injEq, and_assoc, exists_and_left,
        exists_eq_left] at hc
      split at hc
      · exact declareName_adopts hc
      · simp only [refuse_eq_ok] at hc
  | nonlocal =>
    simp only [hk, bind_eq_ok, findVar?_eq_ok, Prod.mk.injEq, and_assoc, exists_and_left,
      exists_eq_left] at hc
    cases ho : s.varEnv.lookup d.name.name .nonlocalScopes with
    | none => simp only [ho, refuse_eq_ok] at hc
    | some origin =>
      simp only [ho, bind_eq_ok, variableOf_eq_ok, Prod.mk.injEq, and_assoc, exists_and_left,
        exists_eq_left] at hc
      split at hc
      · simp only [refuse_eq_ok] at hc
      · simp only [bind_eq_ok, capture_eq_ok, pure_eq_ok, Prod.mk.injEq] at hc
        obtain ⟨_, s₁, hclaim, _, _, ⟨-, rfl⟩, -, rfl⟩ := hc
        exact (claimName_adopts hclaim).trans (.withAlias ⟨rfl, rfl, rfl⟩)

/-! ### The head of a function -/

theorem forM_adopts {α : Type} {g : α → CheckM PUnit} {as : List α}
    (hg : ∀ a ∈ as, ∀ t t', g a t = .ok ((), t') → Adopts P t t')
    (hc : as.forM g s = .ok ((), s')) : Adopts P s s' := by
  induction as generalizing s with
  | nil =>
    obtain ⟨-, rfl⟩ := Prod.mk.inj (forM_nil_eq_ok.1 hc)
    exact .refl _
  | cons a as ih =>
    obtain ⟨s₁, ha, hc⟩ := forM_cons_eq_ok.1 hc
    exact (hg a List.mem_cons_self s s₁ ha).trans
      (ih (fun b hb => hg b (List.mem_cons_of_mem _ hb)) hc)

theorem checkLocal_adopts {owner : FunId} {d d' : VarDef}
    (hc : checkLocal classes owner d s = .ok (d', s')) : Adopts P s s' := by
  simp only [checkLocal, bind_eq_ok, resolveTy_eq_ok, checkInitializer_eq_ok, newVariable_eq_ok,
    modifyFunction_eq_ok, pure_eq_ok, Prod.mk.injEq] at hc
  obtain ⟨t, s₀, ⟨hs₀, -⟩, _, s₁, ⟨⟨-, hs₁⟩, -⟩, v, _, ⟨rfl, rfl⟩, _, s₂, hdecl, _, _, ⟨-, rfl⟩, -,
    rfl⟩ := hc
  obtain rfl : s = s₁ := (hs₁.trans hs₀).symm
  have hpush : ∀ r, Adopts P s { s with vars := s.vars.push r } := fun r =>
    .of_captures (.push _ _) fun f fs hf => ⟨f, hf, rfl⟩
  refine (hpush _).trans ((declareName_adopts hdecl).trans ?_)
  exact .of_captures (.refl _) fun f fs hf => ⟨f, hf, rfl⟩

theorem checkLocals_adopts {owner : FunId} {ds ds' : List VarDef}
    (hc : ds.mapM (checkLocal classes owner) s = .ok (ds', s')) : Adopts P s s' := by
  induction ds generalizing s ds' with
  | nil =>
    simp only [List.mapM_nil, pure_eq_ok, Prod.mk.injEq] at hc
    obtain ⟨-, rfl⟩ := hc
    exact .refl _
  | cons d ds ih =>
    simp only [List.mapM_cons, bind_eq_ok, pure_eq_ok, Prod.mk.injEq] at hc
    obtain ⟨d', s₁, hd, ds₁, s₂, hds, -, rfl⟩ := hc
    exact (checkLocal_adopts hd).trans (ih hds)

/-- At the head of a function the names are captured that it declares nonlocal. -/
theorem head_adopts {d : FunDef} {id : FunId} {ps : List VarId} {vars' : List VarDef}
    {s₁ s₂ s₃ s₄ : State} (hparams : declareParams d.params ps s₁ = .ok ((), s₂))
    (hdecls : d.decls.forM (checkScopeDecl id) s₂ = .ok ((), s₃))
    (hvars : d.vars.mapM (checkLocal classes id) s₃ = .ok (vars', s₄)) :
    Adopts (fun k => k.writable = true ∧ (d.declared .nonlocal).contains k.name = true) s₁ s₄ := by
  refine (forM_adopts (fun _ _ _ _ => declareName_adopts) hparams).trans (.trans ?_
    (checkLocals_adopts hvars))
  refine forM_adopts (fun e he t t' ht => (checkScopeDecl_adopts ht).mono ?_) hdecls
  rintro k ⟨hw, hn, hk⟩
  refine ⟨hw, ?_⟩
  rw [FunDef.contains_declared, List.any_eq_true]
  exact ⟨e, he, by simp [hk, hn]⟩

/-! ### Captures that pass through -/

theorem threadCaptures_adopts {nested : FunId} (hc : threadCaptures nested s = .ok ((), s')) :
    Adopts (fun k => k.writable = false ∧ (s.functions.get nested).captures.has k.name = true ∧
      s.varEnv.lookup k.name .localScope = none) s s' := by
  simp only [threadCaptures, bind_eq_ok, get_eq_ok, Prod.mk.injEq, and_assoc, exists_and_left,
    exists_eq_left] at hc
  cases hf : s.frames with
  | nil =>
    simp only [hf, pure_eq_ok, Prod.mk.injEq, true_and] at hc
    obtain rfl := hc
    exact .refl _
  | cons f fs =>
    simp only [hf] at hc
    refine forM_adopts (fun k hk t t' ht => ?_) hc
    simp only [bind_eq_ok, capture_eq_ok, pure_eq_ok, Prod.mk.injEq] at ht
    obtain ⟨_, _, ⟨-, rfl⟩, -, rfl⟩ := ht
    obtain ⟨hk, hx⟩ := List.mem_filter.1 hk
    exact .withAlias ⟨rfl, Captures.has_eq_true.2 ⟨k, hk, rfl⟩, by simpa using hx⟩

end ObjLang.Check
