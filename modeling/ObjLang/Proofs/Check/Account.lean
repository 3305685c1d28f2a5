import ObjLang.Proofs.Check.Adopts

/-!
# ObjLang.Proofs.Check.Account — an account of every function

For every function that is checked, at any depth: why it captures each of its captures, that it
captures what functions nested in it capture and it does not declare, that the names it assigns are
declared in it, and what the names it calls stand for.
-/

namespace ObjLang

namespace Check

open Facts

variable {classes : ClassTable} {s s' : State}

namespace Facts

variable {F F' : Facts} {changed : Option FunId} {roots : Bindings FunId} {d e : FunDef}
  {ds : List FunDef}

/-- The record of a function has a capture of a name. -/
def Captured (F : Facts) (d : FunDef) (x : String) : Prop :=
  ∃ i f, d.id = some i ∧ F.functions[i.index]? = some f ∧ f.captures.has x = true

/-- What a called name stands for that is no class: a function nested in the calling one, else a
function of the module, else a builtin function. -/
inductive CallOk (roots : Bindings FunId) (nested : List FunDef) (x : String) :
    Option CallTarget → Prop where
  | nested {e : FunDef} {id : FunId} {vs : List VarId} : e ∈ nested → e.name.name = x →
    e.id = some id → CallOk roots nested x (some (.function id vs))
  | root {id : FunId} {vs : List VarId} : (∀ e ∈ nested, e.name.name ≠ x) →
    List.lookup x roots = some id → CallOk roots nested x (some (.function id vs))
  | builtin {b : Builtin} : (∀ e ∈ nested, e.name.name ≠ x) → List.lookup x roots = none →
    Builtin.ofName? x = some b → CallOk roots nested x (some (.builtin b))

/-- An account of a function with its record. -/
structure AccountOk (F : Facts) (roots : Bindings FunId) (d : FunDef) (f : Function) : Prop where
  marked : ∀ k ∈ f.captures, Marked F.vars k
  writable : ∀ k ∈ f.captures,
    (k.writable = true ↔ (d.declared .nonlocal).contains k.name = true)
  /-- A name that is not declared nonlocal is captured for a read or for a nested function. -/
  reasons : ∀ k ∈ f.captures, k.writable = false →
    (Among (Stmt.readsOf d.body) k.name ∧ List.lookup k.name F.module = none) ∨
      ∃ e ∈ d.nested, F.Captured e k.name
  threaded : ∀ e ∈ d.nested, ∀ x, F.Captured e x → d.declares x = false → f.captures.has x = true
  writes : ∀ x b value span, Stmt.OccursIn d.body (.assign (.name x b) value span) →
    d.declares x.name = true
  calls : ∀ i callee args target, Expr.OccursIn d.body (.call i callee args target) →
    F.classes.contains callee.name = false → CallOk roots d.nested callee.name target

/-- There is an account of a function. -/
def Accounted (F : Facts) (roots : Bindings FunId) (d : FunDef) : Prop :=
  ∃ i f, d.id = some i ∧ F.functions[i.index]? = some f ∧ F.AccountOk roots d f

/-! ### Accounts stay true -/

theorem captured_later (h : Later changed F F') (hd : ∃ i f, d.id = some i ∧
      F.functions[i.index]? = some f ∧ changed ≠ some i) (x : String) :
    F'.Captured d x ↔ F.Captured d x := by
  obtain ⟨i, f, hi, hf, hne⟩ := hd
  obtain ⟨ls, cs, hls, hsame⟩ := h.functions i f hf
  obtain ⟨rfl, rfl⟩ := hsame hne
  constructor
  · rintro ⟨j, g, hj, hg, hx⟩
    cases hi.symm.trans hj
    cases hls.symm.trans hg
    exact ⟨i, f, hi, hf, hx⟩
  · rintro ⟨j, g, hj, hg, hx⟩
    cases hi.symm.trans hj
    cases hf.symm.trans hg
    exact ⟨i, f, hi, hls, hx⟩

theorem AccountOk.later {f : Function} (h : Later changed F F') (hd : F.AccountOk roots d f)
    (hn : ∀ e ∈ d.nested, ∃ i f, e.id = some i ∧ F.functions[i.index]? = some f ∧
      changed ≠ some i) : F'.AccountOk roots d f where
  marked := fun k hk => (hd.marked k hk).later h.vars
  writable := hd.writable
  reasons := by
    intro k hk hw
    rw [h.module]
    refine (hd.reasons k hk hw).imp_right ?_
    rintro ⟨e, he, hx⟩
    exact ⟨e, he, (captured_later h (hn e he) _).2 hx⟩
  threaded := fun e he x hx => hd.threaded e he x ((captured_later h (hn e he) x).1 hx)
  writes := hd.writes
  calls := h.classes ▸ hd.calls

theorem Accounted.later (h : Later changed F F') (hall : ∀ e ∈ FunDef.allOf ds, F.Accounted roots e)
    (hne : ∀ e ∈ FunDef.allOf ds, ∀ i, e.id = some i → changed ≠ some i) :
    ∀ e ∈ FunDef.allOf ds, F'.Accounted roots e := by
  intro e he
  obtain ⟨i, f, hi, hf, hok⟩ := hall e he
  obtain ⟨ls, cs, hls, hsame⟩ := h.functions i f hf
  obtain ⟨rfl, rfl⟩ := hsame (hne e he i hi)
  refine ⟨i, f, hi, hls, hok.later h fun e' he' => ?_⟩
  have hmem := FunDef.mem_allOf_of_nested he he'
  obtain ⟨j, g, hj, hg, -⟩ := hall e' hmem
  exact ⟨j, g, hj, hg, hne e' hmem j hj⟩

end Facts

/-! ### Statements -/

section

variable {l : Level} {outer : List Level} {passes : String → Bool}

/-- A name that the innermost scope binds to a variable that may be assigned is declared in the
innermost function, if only captures declared nonlocal may be assigned. -/
theorem Scoped.declares_of_writable (h : Scoped classes (l :: outer) s)
    (hw : ∀ f fs, s.frames = f :: fs → ∀ k ∈ f.captures,
      Marked s.vars k ∧ (k.writable = true → l.nonlocals.contains k.name = true))
    {x : String} {v : VarId} (hv : s.varEnv.lookup x .localScope = some v)
    (hwr : (s.vars.get v).writable = true) : l.declares x = true := by
  obtain ⟨f, fs, b, bs, u, us, hf, hb, -, hl, -⟩ := h.innermost
  have hxb : List.lookup x b = some v := by
    simpa [Env.lookup, Env.scopes, hb] using hv
  obtain ⟨r, hr, -, -, ⟨-, -, hg⟩ | hown | ⟨k, hk, rfl, rfl⟩⟩ := hl.bound x v hxb
  · simp only [Level.declares, hg, Bool.or_true, Bool.true_or]
  · simp only [Level.declares, hown, Option.isSome_some, Bool.true_or]
  · obtain ⟨⟨q, hq, hqw⟩, hnl⟩ := hw f fs hf k hk
    rw [Variables.get_eq_of_get? hq, hqw] at hwr
    simp only [Level.declares, hnl hwr, Bool.or_true]

theorem checkStmt_assign {st : Stmt} {x : Ident} {b : Option VarId} {value : Expr} {span : Span}
    (hc : checkStmt classes st s = .ok (.assign (.name x b) value span, s')) :
    ∃ v, Reading (fun _ => True) s s' ∧ b = some v ∧
      s'.varEnv.lookup x.name .localScope = some v ∧ (s'.vars.get v).writable = true := by
  cases checkStmt_cases hc with
  | assign he ht =>
    cases checkTarget_cases ht with
    | name hv =>
      obtain ⟨-, hl, hwr⟩ := resolveWrite_bound hv
      exact ⟨_, (checkExpr_reading he).any, rfl, hl, hwr⟩

theorem callOk_of_exprChecked {e : Expr} {i : ExprInfo} {callee : Ident} {args : List Expr}
    {target : Option CallTarget} {t : Ty} {nested : List FunDef}
    (hc : ExprChecked classes e s (.call i callee args target) t s')
    (hn : ∀ e ∈ nested, s.funEnv.lookup e.name.name .localScope = e.id ∧ e.id ≠ none)
    (ho : ∀ x, (∀ e ∈ nested, e.name.name ≠ x) →
      s.funEnv.lookup x .localAndGlobal = List.lookup x s.funEnv.module)
    (hcl : classes.contains callee.name = false) :
    CallOk s.funEnv.module nested callee.name target := by
  by_cases hin : ∃ e ∈ nested, e.name.name = callee.name
  · obtain ⟨e, he, hname⟩ := hin
    obtain ⟨hlook, hsome⟩ := hn e he
    obtain ⟨id, hid⟩ := Option.ne_none_iff_exists'.1 hsome
    rw [hname, hid] at hlook
    have hlook := Env.lookup_of_local hlook
    cases hc with
    | construct h => cases hcl.symm.trans h
    | function _ h =>
      cases hlook.symm.trans h
      exact .nested he hname hid
    | builtin _ h => cases hlook.symm.trans h
  · have hne : ∀ e ∈ nested, e.name.name ≠ callee.name := fun e he hname => hin ⟨e, he, hname⟩
    cases hc with
    | construct h => cases hcl.symm.trans h
    | function _ h => exact .root hne (ho _ hne ▸ h)
    | builtin _ h hb => exact .builtin hne (ho _ hne ▸ h) hb

end

/-! ### Functions nested in a function -/

/-- A name that the innermost scope binds and the innermost function does not declare is one that it
captures. -/
theorem Scoped.captured_of_bound {l : Level} {outer : List Level} (h : Scoped classes (l :: outer) s)
    {f : Frame} {fs : List Frame} (hf : s.frames = f :: fs) {x : String}
    (hx : s.varEnv.lookup x .localScope ≠ none) (hd : l.declares x = false) :
    f.captures.has x = true := by
  obtain ⟨f', fs', b, bs, u, us, hf', hb, -, hl, -⟩ := h.innermost
  cases hf.symm.trans hf'
  obtain ⟨v, hv⟩ := Option.ne_none_iff_exists'.1 hx
  have hxb : List.lookup x b = some v := by
    simpa [Env.lookup, Env.scopes, hb] using hv
  simp only [Level.declares, Bool.or_eq_false_iff, Option.isSome_eq_false_iff,
    Option.isNone_iff_eq_none] at hd
  obtain ⟨-, -, -, -, ⟨-, -, hg⟩ | hown | ⟨k, hk, hkx, -⟩⟩ := hl.bound x v hxb
  · cases hd.1.2.symm.trans hg
  · cases hd.1.1.symm.trans hown
  · exact Captures.has_eq_true.2 ⟨k, hk, hkx⟩

/-- What is known after the functions nested in the innermost one are checked. -/
structure NestedAccount (classes : ClassTable) (l : Level) (ds : List FunDef) (s s' : State) :
    Prop where
  accounts : ∀ e ∈ FunDef.allOf ds, (s'.facts classes).Accounted s.funEnv.module e
  ids : ∀ e ∈ FunDef.allOf ds, ∃ i, e.id = some i ∧ s.functions.size ≤ i.index
  adopts : Adopts (fun k => k.writable = false ∧ l.declares k.name = false ∧
    ∃ e ∈ ds, (s'.facts classes).Captured e k.name) s s'
  threaded : ∀ e ∈ ds, ∀ x, (s'.facts classes).Captured e x → l.declares x = false →
    ∀ f fs, s'.frames = f :: fs → f.captures.has x = true
  named : ∀ e ∈ ds, s'.funEnv.lookup e.name.name .localScope = e.id
  others : ∀ x, (∀ e ∈ ds, e.name.name ≠ x) →
    s'.funEnv.lookup x .localScope = s.funEnv.lookup x .localScope

theorem NestedAccount.nil (l : Level) : NestedAccount classes l [] s s :=
  ⟨nofun, nofun, .refl s, nofun, nofun, fun _ _ => rfl⟩

/-- One nested function: it is announced in `s`, checked from `s₃` to `s₄`, and its captures are
threaded to `s'`. -/
theorem NestedAccount.single {l : Level} {outer : List Level} {d d' : FunDef} {es : List FunDef}
    {id : FunId} {s₃ s₄ : State} (hin : Inside classes (l :: outer) (FunDef.handsOnAny · es) s)
    (hann : Announced classes l outer d id s s₃)
    (hfin : Finishes classes (l :: outer) id d d' s₃ s₄)
    (hall : ∀ e ∈ d'.all, (s₄.facts classes).Accounted s₃.funEnv.module e)
    (hids : ∀ e ∈ FunDef.allOf d'.nested, ∃ i, e.id = some i ∧ s₃.functions.size ≤ i.index)
    (hth : threadCaptures id s₄ = .ok ((), s')) : NestedAccount classes l [d'] s s' := by
  obtain ⟨fr, fs, b, bs, u, us, hfr, hb, hu, hl, -⟩ := hin.nest.innermost
  obtain ⟨-, hfr₃⟩ := hann.frames fr fs hfr
  obtain ⟨h₄, -, c, hc₄, hcs, hnd⟩ := hann.finish hin hfin
  obtain ⟨-, hev, -, hfe, hfr'⟩ := threadCaptures_ok h₄ hc₄ hcs hnd (hfin.handsOn c hc₄) hth
  have hmod : s₃.funEnv.module = s.funEnv.module := by
    rw [hann.funEnv, Env.declare, hu]
  have hname : d'.name.name = d.name.name := congrArg Ident.name hfin.binds.name
  have hcaptured : ∀ x, (s'.facts classes).Captured d' x ↔ c.captures.has x = true := by
    intro x
    rw [captured_later hev.later ⟨id, c, hfin.id_eq, hc₄, (Option.some_ne_none _).symm⟩]
    constructor
    · rintro ⟨i, f, hi, hf, hx⟩
      cases hfin.id_eq.symm.trans hi
      cases hc₄.symm.trans hf
      exact hx
    · exact fun hx => ⟨id, c, hfin.id_eq, hc₄, hx⟩
  have hadopts₄ : ∀ {P : Capture → Prop}, Adopts P s s₄ := by
    refine .of_captures (hann.later.vars.trans hfin.later.vars) fun f fs' hf => ?_
    cases hfr.symm.trans hf
    exact ⟨_, hfin.frames.trans hfr₃, rfl⟩
  have hadopts : Adopts (fun k => k.writable = false ∧ l.declares k.name = false ∧
      ∃ e ∈ [d'], (s'.facts classes).Captured e k.name) s₄ s' := by
    refine (threadCaptures_adopts hth).mono ?_
    rintro k ⟨hw, hk, hx⟩
    rw [get_of_getElem? hc₄] at hk
    exact ⟨hw, h₄.nest.not_declared hx, d', List.mem_cons_self, (hcaptured _).2 hk⟩
  refine ⟨fun e he => ?_, fun e he => ?_, hadopts₄.trans hadopts, fun e he x hx hd f fs' hf => ?_,
    fun e he => ?_, fun x hx => ?_⟩
  · have hds : ∀ e ∈ FunDef.allOf [d'], (s₄.facts classes).Accounted s.funEnv.module e := by
      simpa only [FunDef.allOf, List.append_nil, ← hmod] using hall
    exact Accounted.later hev.later hds (fun _ _ _ _ => (Option.some_ne_none _).symm) e he
  · simp only [FunDef.allOf, FunDef.all_eq, List.append_nil, List.mem_cons] at he
    obtain rfl | he := he
    · exact ⟨id, hfin.id_eq, hann.id_eq ▸ Nat.le_refl _⟩
    · obtain ⟨i, hi, hle⟩ := hids e he
      exact ⟨i, hi, Nat.le_trans (hann.size ▸ Nat.le_succ _) hle⟩
  · obtain rfl := List.mem_singleton.1 he
    obtain ⟨k, hk, rfl⟩ := Captures.has_eq_true.1 ((hcaptured x).1 hx)
    obtain ⟨f', hf', -, hhas⟩ := hfr' _ _ (hfin.frames.trans hfr₃)
    cases hf'.symm.trans hf
    -- The function around it binds the name already, or captures it now.
    cases hb₄ : s₄.varEnv.lookup k.name .localScope with
    | none => exact hhas k hk hb₄
    | some v =>
      have hbound : s₄.varEnv.lookup k.name .localScope ≠ none := by
        rw [hb₄]
        exact Option.some_ne_none v
      exact hadopts.has (hfin.frames.trans hfr₃) hf
        (h₄.nest.captured_of_bound (hfin.frames.trans hfr₃) hbound hd)
  · obtain rfl := List.mem_singleton.1 he
    rw [hname, hfe, hfin.funEnv, hann.funEnv, Env.lookup_declare_self, hfin.id_eq]
  · have hxd : x ≠ d.name.name := fun h => hx d' List.mem_cons_self (hname.trans h.symm)
    rw [hfe, hfin.funEnv, hann.funEnv, Env.lookup_declare_of_ne _ hxd]

/-- One nested function, and the others behind it. -/
theorem NestedAccount.cons {l : Level} {d : FunDef} {ds : List FunDef} {t : State}
    (h : NestedAccount classes l [d] s t) (h' : NestedAccount classes l ds t s')
    (hev : Evolves classes none t s') (hframes : ∃ f fs, s.frames = f :: fs)
    (hmod : t.funEnv.module = s.funEnv.module) (hsize : s.functions.size ≤ t.functions.size)
    (hne : ∀ e ∈ ds, e.name.name ≠ d.name.name) : NestedAccount classes l (d :: ds) s s' := by
  have hall : ∀ e ∈ FunDef.allOf [d], (s'.facts classes).Accounted s.funEnv.module e :=
    Accounted.later hev.later h.accounts fun _ _ _ _ => (Option.some_ne_none _).symm
  have hcaptured : ∀ x, (s'.facts classes).Captured d x ↔ (t.facts classes).Captured d x := by
    obtain ⟨i, f, hi, hf, -⟩ := h.accounts d (FunDef.mem_allOf.2 ⟨d, List.mem_cons_self,
      self_mem_all d⟩)
    exact captured_later hev.later ⟨i, f, hi, hf, (Option.some_ne_none _).symm⟩
  have hadopts : Adopts (fun k => k.writable = false ∧ l.declares k.name = false ∧
      ∃ e ∈ d :: ds, (s'.facts classes).Captured e k.name) s t := by
    refine h.adopts.mono ?_
    rintro k ⟨hw, hd, e, he, hx⟩
    obtain rfl := List.mem_singleton.1 he
    exact ⟨hw, hd, e, List.mem_cons_self, (hcaptured _).2 hx⟩
  refine ⟨fun e he => ?_, fun e he => ?_, hadopts.trans (h'.adopts.mono ?_),
    fun e he x hx hd f' fs' hf' => ?_, fun e he => ?_, fun x hx => ?_⟩
  · simp only [FunDef.allOf, List.mem_append] at he
    obtain he | he := he
    · exact hall e (by simpa [FunDef.allOf] using he)
    · exact hmod ▸ h'.accounts e he
  · simp only [FunDef.allOf, List.mem_append] at he
    obtain he | he := he
    · exact h.ids e (by simpa [FunDef.allOf] using he)
    · obtain ⟨i, hi, hle⟩ := h'.ids e he
      exact ⟨i, hi, Nat.le_trans hsize hle⟩
  · rintro k ⟨hw, hd, e, he, hx⟩
    exact ⟨hw, hd, e, List.mem_cons_of_mem _ he, hx⟩
  · obtain rfl | he := List.mem_cons.1 he
    · obtain ⟨f, fs, hf⟩ := hframes
      obtain ⟨ft, hft, -⟩ := h.adopts.frames f fs hf
      exact h'.adopts.has hft hf'
        (h.threaded e List.mem_cons_self x ((hcaptured x).1 hx) hd ft fs hft)
    · exact h'.threaded e he x hx hd f' fs' hf'
  · obtain rfl | he := List.mem_cons.1 he
    · rw [h'.others _ hne]
      exact h.named e List.mem_cons_self
    · exact h'.named e he
  · obtain ⟨hxd, hxs⟩ := List.forall_mem_cons.1 hx
    rw [h'.others x hxs]
    exact h.others x (List.forall_mem_singleton.2 hxd)

/-! ### Functions -/

/-- Why a function whose statements read some names captures what it does: the name is declared
nonlocal, or else it is read or captured by a function nested in it. -/
def Reason (F : Facts) (d : FunDef) (R : String → Prop) (k : Capture) : Prop :=
  (k.writable = true ∧ (d.declared .nonlocal).contains k.name = true) ∨
    (k.writable = false ∧ d.declares k.name = false ∧
      ((R k.name ∧ List.lookup k.name F.module = none) ∨ ∃ e ∈ d.nested, F.Captured e k.name))

/-- A function whose head is checked from `s₁` to `s₂` and the functions nested in it to `s₃`. -/
structure Opened (classes : ClassTable) (outer : List Level) (d : FunDef) (id : FunId)
    (g : Function) (s₁ s₂ s₃ : State) : Prop where
  declares : ∀ x, (Level.ofFunction id d g).declares x = d.declares x
  start : ∃ f fs, s₁.frames = f :: fs ∧ f.captures = []
  head : Adopts (fun k => k.writable = true ∧ (d.declared .nonlocal).contains k.name = true) s₁ s₂
  scope : ∃ us, s₂.funEnv.inner = [] :: us
  nested : NestedAccount classes (.ofFunction id d g) d.nested s₂ s₃
  evolves : Evolves classes none s₂ s₃
  inside : Inside classes (.ofFunction id d g :: outer) d.passes s₃

namespace Opened

variable {outer : List Level} {d : FunDef} {id : FunId} {g : Function} {s₁ s₂ s₃ t : State}
  {R : String → Prop}

/-- There is a reason for every capture while the statements are checked. -/
theorem reason (h : Opened classes outer d id g s₁ s₂ s₃) (hr : Reading R s₃ t) {f : Frame}
    {fs : List Frame} (hf : t.frames = f :: fs) :
    ∀ k ∈ f.captures, Reason (s₃.facts classes) d R k ∧ Marked t.vars k := by
  have hhead : Adopts (Reason (s₃.facts classes) d R) s₁ s₂ := h.head.mono fun _ => .inl
  have hnested : Adopts (Reason (s₃.facts classes) d R) s₂ s₃ := by
    refine h.nested.adopts.mono ?_
    rintro k ⟨hw, hd, hk⟩
    exact .inr ⟨hw, h.declares _ ▸ hd, .inr hk⟩
  have hread : Adopts (Reason (s₃.facts classes) d R) s₃ t := by
    refine (hr.adopts h.inside).mono ?_
    rintro k ⟨hw, hR, hd, hm⟩
    exact .inr ⟨hw, h.declares _ ▸ hd, .inl ⟨hR, hm⟩⟩
  obtain ⟨f₁, fs₁, hf₁, hempty⟩ := h.start
  obtain ⟨f', hf', -, hnew⟩ := (hhead.trans (hnested.trans hread)).frames f₁ fs₁ hf₁
  cases hf.symm.trans hf'
  intro k hk
  refine (hnew k hk).resolve_left fun hold => ?_
  rw [hempty] at hold
  exact absurd hold List.not_mem_nil

/-- An assigned name is declared. -/
theorem writes (h : Opened classes outer d id g s₁ s₂ s₃) {body : List Stmt} {s₄ : State}
    (hbody : checkBlock classes body s₃ = .ok (d.body, s₄)) {x : Ident} {b : Option VarId}
    {value : Expr} {span : Span}
    (hocc : Stmt.OccursIn d.body (.assign (.name x b) value span)) :
    d.declares x.name = true := by
  obtain ⟨st, t₁, t₂, h₁, hst, -⟩ := stmtWithin_of_occursIn hbody hocc
  obtain ⟨v, h₂, -, hlook, hwr⟩ := checkStmt_assign hst
  have hr := h₁.trans h₂
  refine h.declares _ ▸ (hr.keeps h.inside).inside.nest.declares_of_writable ?_ hlook hwr
  intro f fs hf k hk
  obtain ⟨hreason, hmark⟩ := h.reason hr hf k hk
  refine ⟨hmark, fun hw => ?_⟩
  obtain ⟨-, hn⟩ | ⟨hn, -⟩ := hreason
  · exact hn
  · cases hw.symm.trans hn

/-- A called name stands for what the function knows under it. -/
theorem calls (h : Opened classes outer d id g s₁ s₂ s₃) {body : List Stmt} {s₄ : State}
    (hbody : checkBlock classes body s₃ = .ok (d.body, s₄)) {i : ExprInfo} {callee : Ident}
    {args : List Expr} {target : Option CallTarget}
    (hocc : Expr.OccursIn d.body (.call i callee args target))
    (hcl : classes.contains callee.name = false) :
    CallOk s₂.funEnv.module d.nested callee.name target := by
  obtain ⟨e, ty, t₁, t₂, h₁, he, -⟩ := exprWithin_of_occursIn hbody hocc
  have hfun : t₁.funEnv = s₃.funEnv := (h₁.keeps h.inside).funEnv
  have hmod : t₁.funEnv.module = s₂.funEnv.module := by rw [hfun, h.evolves.funModule]
  obtain ⟨us, hus⟩ := h.scope
  rw [← hmod]
  refine callOk_of_exprChecked (checkExpr_cases he) (fun e he => ⟨?_, ?_⟩) (fun x hx => ?_) hcl
  · rw [hfun]
    exact h.nested.named e he
  · obtain ⟨j, hj, -⟩ := h.nested.ids e (FunDef.mem_allOf.2 ⟨e, he, self_mem_all e⟩)
    rw [hj]
    exact Option.some_ne_none j
  · have hlocal : t₁.funEnv.lookup x .localScope = none := by
      rw [hfun, h.nested.others x hx]
      simp [Env.lookup, Env.scopes, hus]
    exact Env.lookup_localAndGlobal_of_local hlocal

/-- The account of the function when its statements are checked. -/
theorem accountOk (h : Opened classes outer d id g s₁ s₂ s₃) {body : List Stmt} {s₄ : State}
    (hbody : checkBlock classes body s₃ = .ok (d.body, s₄)) {f : Frame} {fs : List Frame}
    (hf : s₄.frames = f :: fs) :
    (s₄.facts classes).AccountOk s₂.funEnv.module d { g with captures := f.captures } := by
  have hr := checkBlock_reading hbody
  have hkeeps := hr.keeps h.inside
  have hcaptured : ∀ e ∈ d.nested, ∀ x,
      (s₄.facts classes).Captured e x ↔ (s₃.facts classes).Captured e x := by
    intro e he
    obtain ⟨i, f, hi, hf, -⟩ := h.nested.accounts e (FunDef.mem_allOf.2 ⟨e, he, self_mem_all e⟩)
    exact captured_later hkeeps.later ⟨i, f, hi, hf, (Option.some_ne_none _).symm⟩
  have hreason := h.reason hr hf
  refine ⟨fun k hk => (hreason k hk).2, fun k hk => ⟨fun hw => ?_, fun hn => ?_⟩, fun k hk hw => ?_,
    fun e he x hx hd => ?_, fun x b value span hocc => h.writes hbody hocc,
    fun i callee args target hocc hcl => h.calls hbody hocc hcl⟩
  · obtain ⟨-, hn⟩ | ⟨hn, -⟩ := (hreason k hk).1
    · exact hn
    · cases hw.symm.trans hn
  · obtain ⟨hw, -⟩ | ⟨-, hd, -⟩ := (hreason k hk).1
    · exact hw
    · rw [← h.declares] at hd
      simp only [Level.declares, Level.ofFunction, hn, Bool.or_true] at hd
      cases hd
  · obtain ⟨hw', -⟩ | ⟨-, -, hread | ⟨e, he, hx⟩⟩ := (hreason k hk).1
    · cases hw.symm.trans hw'
    · exact .inl ⟨hread.1, hkeeps.later.module ▸ hread.2⟩
    · exact .inr ⟨e, he, (hcaptured e he _).2 hx⟩
  · obtain ⟨f₃, fs₃, b, bs, u, us, hf₃, -⟩ := h.inside.nest.innermost
    exact (hr.adopts h.inside).has hf₃ hf
      (h.nested.threaded e he x ((hcaptured e he x).1 hx) ((h.declares x).trans hd) f₃ fs₃ hf₃)

/-- There are accounts of the function and of those in it when it is left. -/
theorem accounted (h : Opened classes outer d id g s₁ s₂ s₃) (hid : d.id = some id)
    (hg : s₂.functions[id.index]? = some g) {body : List Stmt} {s₄ s' : State}
    (hbody : checkBlock classes body s₃ = .ok (d.body, s₄))
    (hleave : leave id s₄ = .ok ((), s')) :
    ∀ e ∈ d.all, (s'.facts classes).Accounted s₂.funEnv.module e := by
  have hkeeps := (checkBlock_reading hbody).keeps h.inside
  obtain ⟨f, fs, b, bs, u, us, hf, -⟩ := hkeeps.inside.nest.innermost
  have hleaves : Leaves classes (.ofFunction id d g) outer f s₄ s' :=
    leave_ok hkeeps.inside.nest hf hleave
  have hlater₄ : Later none (s₂.facts classes) (s₄.facts classes) :=
    h.evolves.later.trans hkeeps.later
  have hg₄ : s₄.functions[id.index]? = some g := by
    obtain ⟨ls, cs, hls, hsame⟩ := hlater₄.functions id g hg
    obtain ⟨rfl, rfl⟩ := hsame (Option.some_ne_none _).symm
    exact hls
  have hlt : id.index < s₂.functions.size := (Array.getElem?_eq_some_iff.1 hg).1
  have hne : ∀ e ∈ FunDef.allOf d.nested, ∀ i, e.id = some i → some id ≠ some i := by
    rintro e he i hi heq
    cases heq
    obtain ⟨j, hj, hle⟩ := h.nested.ids e he
    cases hi.symm.trans hj
    exact Nat.lt_irrefl _ (Nat.lt_of_lt_of_le hlt hle)
  have hnested₄ := Accounted.later hkeeps.later h.nested.accounts fun _ _ _ _ =>
    (Option.some_ne_none _).symm
  intro e he
  rw [FunDef.all_eq, List.mem_cons] at he
  obtain rfl | he := he
  · refine ⟨id, _, hid, hleaves.record g hg₄, (h.accountOk hbody hf).later hleaves.later ?_⟩
    intro e' he'
    have hmem := FunDef.mem_allOf.2 ⟨e', he', self_mem_all e'⟩
    obtain ⟨i, f', hi, hf', -⟩ := hnested₄ e' hmem
    exact ⟨i, f', hi, hf', hne e' hmem i hi⟩
  · exact Accounted.later hleaves.later hnested₄ hne e he

end Opened

/-- The records of a function that is checked and of those in it. -/
structure Accounts (classes : ClassTable) (d : FunDef) (s s' : State) : Prop where
  accounts : ∀ e ∈ d.all, (s'.facts classes).Accounted s.funEnv.module e
  ids : ∀ e ∈ FunDef.allOf d.nested, ∃ i, e.id = some i ∧ s.functions.size ≤ i.index

mutual

theorem checkFunction_account : ∀ {d d' : FunDef} {outer : List Level} {id : FunId} {f : Function}
    {s s' : State}, Scoped classes outer s →
    SignatureOk (s.facts classes) (outer.head?.map Level.id) d id f →
    (s.facts classes).EmittedOk outer d f →
    checkFunction classes id d s = .ok (d', s') → Accounts classes d' s s'
  | { name, params, ret, decls, vars, nested, body, span, id := _ }, d', outer, id, f, s, s', h,
      hs, hem, hc => by
    obtain ⟨s₂, s₃, vars', s₄, nested', s₅, body', s₆, hparams, hdecls, hvars, -, hnested, hbody,
      hleave, rfl⟩ := checkFunction_cases (get_of_getElem? hs.record) hc
    obtain ⟨vs, h₄, hev₄, hsize₄, hrec₄, hlocals, hsame⟩ := checkHead_ok h hs hparams hdecls hvars
    obtain ⟨h₅, hev₅, -⟩ := checkNested_ok h₄.inside ⟨_, hrec₄, rfl⟩ hnested
    let d' : FunDef :=
      { name, params, ret, decls, span, vars := vars', nested := nested', body := body',
        id := some id }
    have hopened : Opened classes outer d' id { f with locals := vs } (s.entered id f.ret) s₄ s₅ :=
      { declares := Level.declares_ofFunction (by
          rw [hs.params.length_eq, List.length_zip, ← hs.params_length, Nat.min_self])
          hlocals.length_eq
        start := ⟨_, _, rfl, rfl⟩
        head := head_adopts (d := ⟨name, params, ret, decls, vars, nested, body, span, none⟩)
          hparams hdecls hvars
        scope := by
          obtain ⟨_, _, _, _, us, _, _, hu, _⟩ := h₄.nested
          exact ⟨us, hu⟩
        nested := checkNested_account h₄.inside ⟨_, hrec₄, rfl⟩ hnested
        evolves := hev₅
        inside := h₅ }
    have hmod : s₄.funEnv.module = s.funEnv.module := hev₄.funModule
    refine ⟨fun e he => hmod ▸ hopened.accounted rfl hrec₄ hbody hleave e he, fun e he => ?_⟩
    obtain ⟨i, hi, hle⟩ := hopened.nested.ids e he
    exact ⟨i, hi, hsize₄ ▸ hle⟩

theorem checkNested_account : ∀ {ds ds' es : List FunDef} {l : Level} {outer : List Level}
    {path : String} {s s' : State},
    Inside classes (l :: outer) (FunDef.handsOnAny · es) s →
    (∃ g, s.functions[l.id.index]? = some g ∧ g.emitted = path) →
    checkNested classes l.id path ds s = .ok (ds', s') → NestedAccount classes l ds' s s'
  | [], ds', es, l, outer, path, s, s', _, _, hc => by
    obtain ⟨rfl, rfl⟩ := Prod.mk.inj (checkNested_nil_eq_ok.1 hc)
    exact .nil l
  | d :: ds, ds', es, l, outer, path, s, s', h, hpath, hc => by
    have hall := checkNested_ok h hpath hc
    obtain ⟨s₁, id, s₂, d', s₄, s₅, ds₁, hclaim, hsig, hd, hth, hds, rfl⟩ :=
      checkNested_cons_cases hc
    have hann := announce_ok h.nest hpath hclaim hsig
    obtain ⟨f, hsigOk, hemitted⟩ := hann.signature
    have hfin : Finishes classes (l :: outer) id d d' _ s₄ :=
      checkFunction_ok hann.nest hsigOk hemitted hd
    have hacc := checkFunction_account hann.nest hsigOk hemitted hd
    obtain ⟨h₄, hev₄, c, hc₄, hcs, hnd⟩ := hann.finish h hfin
    obtain ⟨h₅, hev₅, hfs₅, -⟩ := threadCaptures_ok h₄ hc₄ hcs hnd (hfin.handsOn c hc₄) hth
    obtain ⟨fr, fs, -, -, -, -, hfr, -⟩ := h.nest.innermost
    have hle : s.functions.size ≤ s₅.functions.size := by
      have h₃ := hann.size
      have h₄ := hfin.covers.1
      rw [hfs₅]
      omega
    obtain ⟨gl, hgl, rfl⟩ := hpath
    obtain ⟨ls, cs, hpath, -⟩ := (hev₄.trans hev₅).later.functions l.id gl hgl
    obtain ⟨-, hev₆, -⟩ := checkNested_ok h₅ ⟨_, hpath, rfl⟩ hds
    obtain ⟨-, -, -, -, -, -, -, hdistinct, -⟩ := hall
    refine .cons (.single h hann hfin hacc.accounts hacc.ids hth)
      (checkNested_account h₅ ⟨_, hpath, rfl⟩ hds) hev₆ ⟨fr, fs, hfr⟩
      (hev₄.trans hev₅).funModule hle fun e he heq => ?_
    exact (List.nodup_cons.1 hdistinct).1 (List.mem_map.2 ⟨e, he, heq⟩)

end

end Check

end ObjLang
