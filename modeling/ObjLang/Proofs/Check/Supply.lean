import ObjLang.Proofs.Check.Program
import ObjLang.Proofs.Class.Refusals

/-!
# ObjLang.Proofs.Check.Supply — calls find what they pass

The captures of a nested function are known when it is left, and each of them whose name the
function around it does not bind is captured there too.  A name that is bound in the innermost scope
stays bound while that function is checked.  So whatever can be called from a function finds all its
captures there by name, and no program is refused because one of them is missing.
-/

namespace ObjLang

open Check Check.Facts

namespace Check

/-! ### Steps that lack no capture -/

/-- A result other than the complaint that a capture is missing where it should be passed. -/
def Supplied {α : Type} (r : Except CheckError α) : Prop :=
  ∀ y span, r ≠ .error ⟨.unresolvedCapture y, span⟩

section

variable {α β : Type} {s : State}

theorem Supplied.ok (a : α) : Supplied (.ok a) := by
  rintro _ _ ⟨⟩

theorem supplied_error {cause : CheckError.Cause} {span : Span}
    (h : ∀ y, cause ≠ .unresolvedCapture y) :
    Supplied (.error ⟨cause, span⟩ : Except CheckError α) := by
  rintro y _ heq
  cases heq
  exact h y rfl

theorem Supplied.of_eq_ok {r : Except CheckError α} {a : α} (h : r = .ok a) : Supplied r :=
  h ▸ .ok a

theorem Supplied.bind {r : Except CheckError α} {f : α → Except CheckError β} (hr : Supplied r)
    (hf : ∀ a, r = .ok a → Supplied (f a)) : Supplied (r >>= f) := by
  cases r with
  | error e => exact fun y span h => hr y span (by cases h; rfl)
  | ok a => exact hf a rfl

theorem Supplied.andThen {x : CheckM α} {f : α → CheckM β} (hx : Supplied (x s))
    (hf : ∀ a s', x s = .ok (a, s') → Supplied (f a s')) : Supplied ((x >>= f) s) :=
  Supplied.bind hx fun p hp => hf p.1 p.2 hp

theorem supplied_pure (a : α) : Supplied ((pure a : CheckM α) s) := .ok _

theorem supplied_refuse {cause : CheckError.Cause} {span : Span}
    (h : ∀ y, cause ≠ .unresolvedCapture y) : Supplied ((refuse cause span : CheckM α) s) :=
  supplied_error h

theorem supplied_forM {f : α → CheckM PUnit} (hf : ∀ a s, Supplied (f a s)) (as : List α) :
    Supplied (as.forM f s) := by
  induction as generalizing s with
  | nil => exact supplied_pure _
  | cons a as ih => exact .andThen (hf a s) fun _ _ _ => ih

theorem supplied_mapM {f : α → CheckM β} (hf : ∀ a s, Supplied (f a s)) (as : List α) :
    Supplied (as.mapM f s) := by
  induction as generalizing s with
  | nil => exact supplied_pure _
  | cons a as ih =>
    rw [List.mapM_cons]
    exact .andThen (hf a s) fun _ _ _ => .andThen ih fun _ _ _ => supplied_pure _

end

/-! ### Small steps -/

section

variable {classes : ClassTable} {s : State}

/-- What is refused for other causes lacks no capture. -/
theorem supplied_of_blames {α : Type} {P : CheckError → Prop} {r : Except CheckError α}
    (h : Blames P r) (hP : ∀ y span, ¬ P ⟨.unresolvedCapture y, span⟩) : Supplied r :=
  fun y span he => hP y span (h _ he)

theorem supplied_resolve (ds : List ClassDef) : Supplied (ClassTable.resolve ds) := by
  refine supplied_of_blames (ClassTable.blames_resolve ds) fun _ _ h => ?_
  obtain h | ⟨_, ⟨⟩⟩ := h.1
  exact h

theorem supplied_resolveTy (written : Ident) : Supplied (resolveTy classes written s) := by
  have h : Supplied (ClassLayout.annotated classes.contains written) :=
    supplied_of_blames (ClassTable.blames_annotated written) fun _ _ h => h.cause
  unfold resolveTy
  cases hr : ClassLayout.annotated classes.contains written with
  | ok ty => exact supplied_pure ty
  | error e =>
    rw [hr] at h
    exact fun y span he => h y span (congrArg Except.error (Except.error.inj he))

theorem supplied_checkInitializer {d : VarDef} {t : Ty} : Supplied (checkInitializer d t s) := by
  unfold checkInitializer
  split
  · exact supplied_pure _
  · exact supplied_refuse (by rintro _ ⟨⟩)

theorem supplied_claimName (x : Ident) : Supplied (claimName x s) := by
  unfold claimName
  refine .andThen (.ok _) fun t _ _ => ?_
  cases t.frames with
  | nil => exact supplied_pure _
  | cons f fs =>
    dsimp only
    cases f.claim? x.name with
    | some f' => exact .ok _
    | none => exact supplied_refuse (by rintro _ ⟨⟩)

theorem supplied_declareName (x : Ident) (v : VarId) : Supplied (declareName x v s) :=
  .andThen (supplied_claimName x) fun _ _ _ => .ok _

theorem supplied_capture {x : String} {origin : VarId} {writable : Bool} {span : Span}
    {owner : FunId} : Supplied (capture x origin writable span owner s) :=
  .of_eq_ok (capture_eq_ok.2 rfl)

theorem supplied_resolveRead (x : String) (span : Span) : Supplied (resolveRead x span s) := by
  unfold resolveRead
  refine .andThen (.ok _) fun _ _ _ => ?_
  split
  · exact supplied_pure _
  refine .andThen (.ok _) fun _ _ _ => ?_
  split
  · exact supplied_refuse (by rintro _ ⟨⟩)
  refine .andThen (.of_eq_ok (variableOf_eq_ok.2 rfl)) fun _ _ _ => ?_
  split
  · exact supplied_pure _
  refine .andThen (.ok _) fun t _ _ => ?_
  cases t.frames with
  | nil => exact supplied_pure _
  | cons f fs => exact supplied_capture

theorem supplied_resolveWrite (x : Ident) : Supplied (resolveWrite x s) := by
  have hrefuse : ∀ {t : State}, Supplied ((do
      if (← get).varEnv.contains x.name .all then
        refuse (.undeclaredAssignment x.name) x.span
      else refuse (.undefinedVariable x.name) x.span : CheckM VarId) t) := by
    refine .andThen (.ok _) fun _ _ _ => ?_
    split
    · exact supplied_refuse (by rintro _ ⟨⟩)
    · exact supplied_refuse (by rintro _ ⟨⟩)
  unfold resolveWrite
  refine .andThen (.ok _) fun v? _ _ => ?_
  cases v? with
  | none => exact hrefuse
  | some v =>
    refine .andThen (.of_eq_ok (variableOf_eq_ok.2 rfl)) fun r _ _ => ?_
    cases r.writable with
    | true => exact supplied_pure _
    | false => exact hrefuse

theorem supplied_checkScopeDecl (owner : FunId) (d : ScopeDecl) :
    Supplied (checkScopeDecl owner d s) := by
  unfold checkScopeDecl
  cases d.kind with
  | global =>
    refine .andThen (.ok _) fun _ _ _ => ?_
    split
    · refine .andThen (.of_eq_ok (variableOf_eq_ok.2 rfl)) fun _ _ _ => ?_
      split
      · exact supplied_declareName _ _
      · exact supplied_refuse (by rintro _ ⟨⟩)
    · exact supplied_refuse (by rintro _ ⟨⟩)
  | «nonlocal» =>
    refine .andThen (.ok _) fun _ _ _ => ?_
    split
    · refine .andThen (.of_eq_ok (variableOf_eq_ok.2 rfl)) fun _ _ _ => ?_
      split
      · exact supplied_refuse (by rintro _ ⟨⟩)
      · exact .andThen (supplied_claimName _) fun _ _ _ =>
          .andThen supplied_capture fun _ _ _ => supplied_pure _
    · exact supplied_refuse (by rintro _ ⟨⟩)

theorem supplied_threadCaptures (id : FunId) : Supplied (threadCaptures id s) := by
  unfold threadCaptures
  refine .andThen (.ok _) fun t _ _ => ?_
  cases t.frames with
  | nil => exact supplied_pure _
  | cons f fs =>
    exact supplied_forM (fun _ _ => .andThen supplied_capture fun _ _ _ => supplied_pure _) _

theorem supplied_expectAssignable {a t : Ty} {span : Span} :
    Supplied (expectAssignable classes a t span s) := by
  unfold expectAssignable
  split
  · exact supplied_pure _
  · exact supplied_refuse (by rintro _ ⟨⟩)

theorem supplied_expectCount {x : String} {n m : Nat} {span : Span} :
    Supplied (expectCount x n m span s) := by
  unfold expectCount
  split
  · exact supplied_pure _
  · exact supplied_refuse (by rintro _ ⟨⟩)

theorem supplied_receiverClass (t : Ty) (span : Span) : Supplied (receiverClass t span s) := by
  unfold receiverClass
  split
  · exact supplied_pure _
  · exact supplied_refuse (by rintro _ ⟨⟩)

theorem supplied_fieldType (c : String) (field : Ident) :
    Supplied (fieldType classes c field s) := by
  unfold fieldType
  cases (classes.get? c).bind (·.field? field.name) with
  | some f => exact supplied_pure _
  | none => exact supplied_refuse (by rintro _ ⟨⟩)

theorem supplied_methodOf (c : String) (method : Ident) :
    Supplied (methodOf classes c method s) := by
  unfold methodOf
  refine .andThen (.ok _) fun t _ _ => ?_
  cases (do
    let target ← (← classes.get? c).target? method.name
    List.lookup target t.methods : Option FunId) with
  | some id => exact supplied_pure _
  | none => exact supplied_refuse (by rintro _ ⟨⟩)

theorem supplied_checkReturns {x : Ident} {t : Ty} {body : List Stmt} :
    Supplied (checkReturns x t body s) := by
  unfold checkReturns
  split
  · exact supplied_refuse (by rintro _ ⟨⟩)
  · exact supplied_pure _

theorem supplied_declareSignature {d : FunDef} {emitted : String} {owner : Option String}
    {parent : Option FunId} : Supplied (declareSignature classes d emitted owner parent s) := by
  have hparam : ∀ id (p : TypedName) (s : State), Supplied (declareParam classes id p s) :=
    fun _ _ _ => .andThen (supplied_resolveTy _) fun _ _ _ => .andThen (.ok _) fun _ _ _ => .ok _
  unfold declareSignature
  refine .andThen (.ok _) fun _ _ _ => .andThen (supplied_mapM (hparam _) _) fun _ _ _ => ?_
  cases d.ret with
  | some written => exact .andThen (supplied_resolveTy _) fun _ _ _ => .ok _
  | none => exact .ok _

theorem supplied_checkLocal (owner : FunId) (d : VarDef) :
    Supplied (checkLocal classes owner d s) :=
  .andThen (supplied_resolveTy _) fun _ _ _ => .andThen supplied_checkInitializer fun _ _ _ =>
    .andThen (.ok _) fun _ _ _ => .andThen (supplied_declareName _ _) fun _ _ _ => .ok _

end

/-! ### Names that stay bound -/

section

variable {classes : ClassTable} {l : Level} {outer : List Level} {s s' : State}

theorem Nested.exists_level {F : Facts} {lv : List Level} {fs : List Frame}
    {bs : List (Bindings VarId)} {us : List (Bindings FunId)} (hn : Nested F lv fs bs us)
    {f : Frame} (hf : f ∈ fs) : ∃ l ∈ lv, f.function = l.id := by
  induction hn with
  | nil => exact absurd hf List.not_mem_nil
  | cons hl _ ih =>
    obtain rfl | hf := List.mem_cons.1 hf
    · exact ⟨_, List.mem_cons_self, hl.function⟩
    · obtain ⟨l, hl, hfl⟩ := ih hf
      exact ⟨l, List.mem_cons_of_mem _ hl, hfl⟩

/-- What is bound in the scope of a function stays bound there while more becomes known: it is
declared, or it is an alias, and aliases are among the captures of their function. -/
theorem Scoped.bound_later {changed : Option FunId} (h : Scoped classes (l :: outer) s)
    (h' : Scoped classes (l :: outer) s')
    (hlater : Later changed (s.facts classes) (s'.facts classes)) {x : String}
    (hx : (s.varEnv.lookup x .localScope).isSome = true) :
    (s'.varEnv.lookup x .localScope).isSome = true := by
  obtain ⟨f, fs, b, bs, u, us, hf, hb, hu, hl, hn⟩ := h.innermost
  obtain ⟨f', fs', b', bs', u', us', hf', hb', hu', hl', hn'⟩ := h'.innermost
  obtain ⟨v, hv⟩ : ∃ v, List.lookup x b = some v := by
    simpa [Env.lookup, Env.scopes, hb, Option.isSome_iff_exists] using hx
  have hbound : (List.lookup x b').isSome = true → (s'.varEnv.lookup x .localScope).isSome := by
    intro hb₁
    simpa [Env.lookup, Env.scopes, hb', Option.isSome_iff_exists] using hb₁
  refine hbound ?_
  obtain ⟨r, hr, hname, -, ⟨-, -, hg⟩ | hown | ⟨k, hk, -, rfl⟩⟩ := hl.bound x v hv
  · exact hl'.declared x (by simp only [Level.declares, hg, Bool.or_true, Bool.true_or])
  · exact hl'.declared x (by simp only [Level.declares, hown, Option.isSome_some, Bool.true_or])
  obtain ⟨⟨rk, hrk, -, hkind, howner, -⟩, -⟩ := (hl.captures k hk).2
  cases hr.symm.trans hrk
  obtain ⟨r', hr', hname', -, hkind', howner', -⟩ := hlater.vars.isSome hr
  obtain ⟨i, hi, hcase⟩ := h'.state.aliases k.inner r' hr'
    (by simp [Variable.isCapture, hkind', hkind])
  obtain rfl : l.id = i := Option.some.inj ((howner'.trans howner).symm.trans hi)
  obtain ⟨fr, hfr, hfn, k', hk', hin⟩ | ⟨g, hg, k', hk', -⟩ := hcase
  · rw [hf'] at hfr
    obtain rfl | hfr := List.mem_cons.1 hfr
    · obtain ⟨hb₁, ⟨r₁, hr₁, hn₁, -⟩, -⟩ := hl'.captures k' hk'
      rw [hin] at hr₁ hb₁
      cases hr'.symm.trans hr₁
      rw [← hname, ← hname', hn₁, hb₁]
      rfl
    · obtain ⟨m, hm, hfm⟩ := hn'.exists_level hfr
      have hlt := (Nested.cons hl' hn').head_before h'.state.parents m hm
      rw [← hfm, hfn] at hlt
      exact absurd hlt (Nat.lt_irrefl _)
  · obtain ⟨g', hg', -, hcs, -⟩ := hl'.record
    cases hg.symm.trans hg'
    rw [hcs] at hk'
    exact absurd hk' List.not_mem_nil

/-- The innermost scope binds the name of every capture of a function. -/
def State.Knows (s : State) (id : FunId) : Prop :=
  ∀ k ∈ (s.functions.get id).captures, (s.varEnv.lookup k.name .localScope).isSome = true

/-- What can be called finds its captures in the innermost scope. -/
def State.Threaded (s : State) : Prop :=
  ∀ x id, s.funEnv.lookup x .localAndGlobal = some id → s.Knows id

theorem StateOk.knows_root (h : StateOk s) {x : String} {id : FunId}
    (hx : List.lookup x s.funEnv.module = some id) : s.Knows id := by
  obtain ⟨f, hf, hp⟩ := h.roots x id hx
  intro k hk
  rw [get_of_getElem? hf, h.orphans id f hf hp] at hk
  exact absurd hk List.not_mem_nil

/-- A function that can be called is one of the module, or nested in the innermost function. -/
theorem State.lookup_fun {x : String} {id : FunId}
    (h : s.funEnv.lookup x .localAndGlobal = some id) :
    List.lookup x s.funEnv.module = some id ∨
      ∃ u us, s.funEnv.inner = u :: us ∧ List.lookup x u = some id := by
  cases hi : s.funEnv.inner with
  | nil =>
    cases hm : List.lookup x s.funEnv.module with
    | none => simp [Env.lookup, Env.scopes, hi, hm] at h
    | some w => exact .inl (by simpa [Env.lookup, Env.scopes, hi, hm] using h)
  | cons u us =>
    cases hu : List.lookup x u with
    | none => exact .inl (by simpa [Env.lookup, Env.scopes, hi, hu] using h)
    | some w => exact .inr ⟨u, us, rfl, by simpa [Env.lookup, Env.scopes, hi, hu] using h⟩

theorem Scoped.exists_fun {lv : List Level} (h : Scoped classes lv s) {x : String} {id : FunId}
    (hx : s.funEnv.lookup x .localAndGlobal = some id) :
    ∃ f, s.functions[id.index]? = some f := by
  obtain hm | ⟨u, us, hu, hl⟩ := State.lookup_fun hx
  · obtain ⟨f, hf, -⟩ := h.state.roots x id hm
    exact ⟨f, hf⟩
  · cases lv with
    | nil =>
      rw [h.at_module.2.2] at hu
      cases hu
    | cons l outer =>
      obtain ⟨f, fs, b, bs, u', us', -, -, hu', hlv, -⟩ := h.innermost
      cases hu.symm.trans hu'
      obtain ⟨c, hc, -⟩ := hlv.children x id hl
      exact ⟨c, hc⟩

/-- What the innermost scope binds for a function it still binds later. -/
theorem State.Knows.later {id : FunId} {f : Function} (hk : s.Knows id)
    (hf : s.functions[id.index]? = some f) (h : Scoped classes (l :: outer) s)
    (h' : Scoped classes (l :: outer) s')
    (hlater : Later none (s.facts classes) (s'.facts classes)) : s'.Knows id := by
  obtain ⟨ls, cs, hf', hn⟩ := hlater.functions id f hf
  obtain ⟨rfl, rfl⟩ := hn (by rintro ⟨⟩)
  intro k hkc
  rw [show s'.functions.get id = _ from get_of_getElem? hf'] at hkc
  exact h.bound_later h' hlater (hk k (by rwa [get_of_getElem? hf]))

theorem Scoped.threaded_module (h : Scoped classes [] s) : s.Threaded := by
  intro x id hx
  obtain hm | ⟨u, us, hi, -⟩ := State.lookup_fun hx
  · exact h.state.knows_root hm
  · rw [h.at_module.2.2] at hi
    cases hi

theorem Declaring.threaded (h : Declaring classes l outer s) : s.Threaded := by
  obtain ⟨f, fs, b, bs, us, -, -, hu, -⟩ := h.nested
  intro x id hx
  obtain hm | ⟨u, us', hi, hl⟩ := State.lookup_fun hx
  · exact h.state.knows_root hm
  · cases hu.symm.trans hi
    cases hl

end

/-! ### Expressions and statements -/

/-- The invariant while statements are checked, with what can be called. -/
structure Ready (classes : ClassTable) (lv : List Level) (passes : String → Bool) (s : State) :
    Prop where
  inside : Inside classes lv passes s
  threaded : s.Threaded

section

variable {classes : ClassTable} {lv : List Level} {passes : String → Bool} {s s' : State}

theorem Ready.keeps (h : Ready classes lv passes s) (hk : Keeps classes lv passes s s') :
    Ready classes lv passes s' := by
  refine ⟨hk.inside, ?_⟩
  cases lv with
  | nil => exact hk.inside.nest.threaded_module
  | cons l outer =>
    intro x id hx
    rw [hk.funEnv] at hx
    obtain ⟨f, hf⟩ := h.inside.nest.exists_fun hx
    exact (h.threaded x id hx).later hf h.inside.nest hk.inside.nest hk.later

theorem supplied_passedCaptures {ks : Captures} {span : Span}
    (h : ∀ k ∈ ks, (s.varEnv.lookup k.name .localScope).isSome = true) :
    Supplied (passedCaptures ks span s) := by
  unfold passedCaptures
  induction ks with
  | nil => exact supplied_pure _
  | cons k ks ih =>
    obtain ⟨v, hv⟩ := Option.isSome_iff_exists.1 (h k List.mem_cons_self)
    have hfind : findVar? k.name .localScope s = .ok (some v, s) := findVar?_eq_ok.2 (by rw [hv])
    rw [List.mapM_cons]
    refine .andThen (.andThen (.of_eq_ok hfind) fun r t hr => ?_) fun w t hw => ?_
    · cases hfind.symm.trans hr
      exact supplied_pure _
    · obtain ⟨r, t', hr, hw⟩ := bind_eq_ok.1 hw
      cases hfind.symm.trans hr
      cases hw
      exact .andThen (ih fun c hc => h c (List.mem_cons_of_mem _ hc)) fun _ _ _ => supplied_pure _

mutual

theorem supplied_checkExpr : ∀ {e : Expr} {s : State}, Ready classes lv passes s →
    Supplied (checkExpr classes e s)
  | .literal info v, s, h => by
    rw [checkExpr]
    exact supplied_pure _
  | .name info x b, s, h => by
    rw [checkExpr]
    exact .andThen (supplied_resolveRead _ _) fun _ _ _ =>
      .andThen (.of_eq_ok (tyOf_eq_ok.2 rfl)) fun _ _ _ => supplied_pure _
  | .unary info op e, s, h => by
    rw [checkExpr]
    refine .andThen (supplied_checkExpr h) fun r _ _ => ?_
    dsimp only
    split
    · exact supplied_pure _
    · exact supplied_refuse (by rintro _ ⟨⟩)
  | .binary info op l r, s, h => by
    rw [checkExpr]
    refine .andThen (supplied_checkExpr h) fun _ _ hl => ?_
    have hk := (checkExpr_ok h.inside hl).1
    refine .andThen (supplied_checkExpr (h.keeps hk)) fun r' _ _ => ?_
    dsimp only
    cases binaryType? op _ r'.2 with
    | some ty => exact supplied_pure _
    | none => exact supplied_refuse (by rintro _ ⟨⟩)
  | .call info callee args target, s, h => by
    rw [checkExpr]
    dsimp only
    split
    · exact .andThen supplied_expectCount fun _ _ _ => supplied_pure _
    refine .andThen (.ok _) fun t _ ht => ?_
    cases ht
    cases hid : s.funEnv.lookup callee.name .localAndGlobal with
    | some id =>
      refine .andThen (.of_eq_ok (functionOf_eq_ok.2 rfl)) fun f _ hf => ?_
      obtain ⟨rfl, rfl⟩ := Prod.mk.inj (functionOf_eq_ok.1 hf)
      refine .andThen supplied_expectCount fun _ _ hn => ?_
      obtain ⟨heq, hlen⟩ := expectCount_eq_ok.1 hn
      obtain ⟨-, rfl⟩ := Prod.mk.inj heq
      refine .andThen (supplied_checkArgs h) fun _ s₁ hargs => ?_
      obtain ⟨ts, hargs, -⟩ := checkArgs_cases hargs hlen.symm
      obtain ⟨hk, -⟩ := checkExprs_ok h.inside hargs
      refine .andThen (supplied_passedCaptures ?_) fun _ _ _ => supplied_pure _
      rw [← hk.functions]
      exact (h.keeps hk).threaded callee.name id (by rw [hk.funEnv, hid])
    | none =>
      dsimp only
      cases Builtin.ofName? callee.name with
      | none => exact supplied_refuse (by rintro _ ⟨⟩)
      | some b =>
        refine .andThen supplied_expectCount fun _ _ hn => ?_
        obtain ⟨-, rfl⟩ := Prod.mk.inj (expectCount_eq_ok.1 hn).1
        cases b with
        | print =>
          exact .andThen (supplied_checkPrinted h) fun _ _ _ => supplied_pure _
        | _ => exact .andThen (supplied_checkInts h) fun _ _ _ => supplied_pure _
  | .field info o field, s, h => by
    rw [checkExpr]
    exact .andThen (supplied_checkExpr h) fun _ _ _ => .andThen (supplied_receiverClass _ _)
      fun _ _ _ => .andThen (supplied_fieldType _ _) fun _ _ _ => supplied_pure _
  | .method info o method args, s, h => by
    rw [checkExpr]
    refine .andThen (supplied_checkExpr h) fun _ _ ho => ?_
    have hk := (checkExpr_ok h.inside ho).1
    refine .andThen (supplied_receiverClass _ _) fun _ _ hc => ?_
    obtain ⟨rfl, -⟩ := receiverClass_eq_ok.1 hc
    refine .andThen (supplied_methodOf _ _) fun _ _ hm => ?_
    obtain ⟨rfl, -⟩ := methodOf_eq_ok.1 hm
    refine .andThen supplied_expectCount fun _ _ hn => ?_
    obtain ⟨-, rfl⟩ := Prod.mk.inj (expectCount_eq_ok.1 hn).1
    exact .andThen (supplied_checkArgs (h.keeps hk)) fun _ _ _ => supplied_pure _

theorem supplied_checkArgs : ∀ {es : List Expr} {ts : List Ty} {s : State},
    Ready classes lv passes s → Supplied (checkArgs classes ts es s)
  | [], ts, s, h => by
    rw [checkArgs]
    exact supplied_pure _
  | e :: es, ts, s, h => by
    rw [checkArgs]
    refine .andThen (supplied_checkExpr h) fun _ _ he => ?_
    have hk := (checkExpr_ok h.inside he).1
    refine .andThen supplied_expectAssignable fun _ _ ha => ?_
    obtain ⟨-, rfl⟩ := Prod.mk.inj (expectAssignable_eq_ok.1 ha).1
    exact .andThen (supplied_checkArgs (h.keeps hk)) fun _ _ _ => supplied_pure _

theorem supplied_checkInts : ∀ {es : List Expr} {s : State}, Ready classes lv passes s →
    Supplied (checkInts classes es s)
  | [], s, h => by
    rw [checkInts]
    exact supplied_pure _
  | e :: es, s, h => by
    rw [checkInts]
    refine .andThen (supplied_checkExpr h) fun _ _ he => ?_
    have hk := (checkExpr_ok h.inside he).1
    dsimp only
    split
    · exact .andThen (supplied_checkInts (h.keeps hk)) fun _ _ _ => supplied_pure _
    · exact supplied_refuse (by rintro _ ⟨⟩)

theorem supplied_checkPrinted : ∀ {es : List Expr} {s : State}, Ready classes lv passes s →
    Supplied (checkPrinted classes es s)
  | [], s, h => by
    rw [checkPrinted]
    exact supplied_pure _
  | e :: es, s, h => by
    rw [checkPrinted]
    refine .andThen (supplied_checkExpr h) fun _ _ he => ?_
    have hk := (checkExpr_ok h.inside he).1
    dsimp only
    split
    · exact .andThen (supplied_checkPrinted (h.keeps hk)) fun _ _ _ => supplied_pure _
    · exact supplied_refuse (by rintro _ ⟨⟩)

end

theorem supplied_checkTarget {g : Target} (h : Ready classes lv passes s) :
    Supplied (checkTarget classes g s) := by
  cases g with
  | name x b =>
    exact .andThen (supplied_resolveWrite _) fun _ _ _ =>
      .andThen (.of_eq_ok (tyOf_eq_ok.2 rfl)) fun _ _ _ => supplied_pure _
  | field o field =>
    exact .andThen (supplied_checkExpr h) fun _ _ _ => .andThen (supplied_receiverClass _ _)
      fun _ _ _ => .andThen (supplied_fieldType _ _) fun _ _ _ => supplied_pure _

theorem supplied_checkCondition {e : Expr} (h : Ready classes lv passes s) :
    Supplied (checkCondition classes e s) := by
  unfold checkCondition
  refine .andThen (supplied_checkExpr h) fun _ _ _ => ?_
  dsimp only
  split
  · exact supplied_pure _
  · exact supplied_refuse (by rintro _ ⟨⟩)

theorem supplied_returnType (span : Span) : Supplied (returnType span s) := by
  unfold returnType
  refine .andThen (.ok _) fun t _ _ => ?_
  cases t.frames with
  | nil => exact supplied_refuse (by rintro _ ⟨⟩)
  | cons f fs => exact supplied_pure _

mutual

theorem supplied_checkStmt : ∀ {st : Stmt} {s : State}, Ready classes lv passes s →
    Supplied (checkStmt classes st s)
  | .assign target value span, s, h => by
    rw [checkStmt]
    refine .andThen (supplied_checkExpr h) fun _ _ he => ?_
    have hk := (checkExpr_ok h.inside he).1
    exact .andThen (supplied_checkTarget (h.keeps hk)) fun _ _ _ =>
      .andThen supplied_expectAssignable fun _ _ _ => supplied_pure _
  | .expr value span, s, h => by
    rw [checkStmt]
    exact .andThen (supplied_checkExpr h) fun _ _ _ => supplied_pure _
  | .ret value span, s, h => by
    rw [checkStmt]
    exact .andThen (supplied_checkExpr h) fun _ _ _ => .andThen (supplied_returnType _)
      fun _ _ _ => .andThen supplied_expectAssignable fun _ _ _ => supplied_pure _
  | .pass span, s, h => by
    rw [checkStmt]
    exact supplied_pure _
  | .cond first others otherwise span, s, h => by
    rw [checkStmt]
    refine .andThen (supplied_checkBranch h) fun _ _ hf => ?_
    have h₁ := h.keeps (checkBranch_ok h.inside rfl hf).1
    refine .andThen (supplied_checkBranches h₁) fun _ _ ho => ?_
    have h₂ := h₁.keeps (checkBranches_ok h₁.inside rfl ho).1
    exact .andThen (supplied_checkBlock h₂) fun _ _ _ => supplied_pure _
  | .loop branch span, s, h => by
    rw [checkStmt]
    exact .andThen (supplied_checkBranch h) fun _ _ _ => supplied_pure _

theorem supplied_checkBlock : ∀ {ss : List Stmt} {s : State}, Ready classes lv passes s →
    Supplied (checkBlock classes ss s)
  | [], s, h => by
    rw [checkBlock]
    exact supplied_pure _
  | st :: ss, s, h => by
    rw [checkBlock]
    refine .andThen (supplied_checkStmt h) fun _ _ hst => ?_
    have h₁ := h.keeps (checkStmt_ok h.inside rfl hst).1
    exact .andThen (supplied_checkBlock h₁) fun _ _ _ => supplied_pure _

theorem supplied_checkBranch : ∀ {b : Branch} {s : State}, Ready classes lv passes s →
    Supplied (checkBranch classes b s)
  | .mk test body, s, h => by
    rw [checkBranch]
    refine .andThen (supplied_checkCondition h) fun _ _ ht => ?_
    have h₁ := h.keeps (checkExpr_ok h.inside (checkCondition_eq_ok.1 ht)).1
    exact .andThen (supplied_checkBlock h₁) fun _ _ _ => supplied_pure _

theorem supplied_checkBranches : ∀ {bs : List Branch} {s : State}, Ready classes lv passes s →
    Supplied (checkBranches classes bs s)
  | [], s, h => by
    rw [checkBranches]
    exact supplied_pure _
  | b :: bs, s, h => by
    rw [checkBranches]
    refine .andThen (supplied_checkBranch h) fun _ _ hb => ?_
    have h₁ := h.keeps (checkBranch_ok h.inside rfl hb).1
    exact .andThen (supplied_checkBranches h₁) fun _ _ _ => supplied_pure _

end

end

/-! ### Functions -/

section

variable {classes : ClassTable} {l : Level} {outer : List Level} {s s' : State}

/-- Once its captures are threaded through, a nested function can be called like the others. -/
theorem threadCaptures_ready {ds : List FunDef} {d d' : FunDef} {id : FunId} {path : String}
    {s₃ s₄ : State} (h : Ready classes (l :: outer) (FunDef.handsOnAny · ds) s)
    (hpath : ∃ g, s.functions[l.id.index]? = some g ∧ g.emitted = path)
    (hann : Announced classes l outer d id s s₃)
    (hfin : Finishes classes (l :: outer) id d d' s₃ s₄)
    (hc : threadCaptures id s₄ = .ok ((), s')) :
    Ready classes (l :: outer) (FunDef.handsOnAny · (ds ++ [d'])) s' ∧
      ∃ g, s'.functions[l.id.index]? = some g ∧ g.emitted = path := by
  obtain ⟨h₄, hev₄, c, hc₄, hcs, hnd⟩ := hann.finish h.inside hfin
  obtain ⟨h', hev', hfs', hfe', hfr'⟩ := threadCaptures_ok h₄ hc₄ hcs hnd (hfin.handsOn c hc₄) hc
  have hev := hev₄.trans hev'
  obtain ⟨g, hg, hgp⟩ := hpath
  obtain ⟨ls, _, hg', -⟩ := hev.later.functions l.id g hg
  refine ⟨⟨h', ?_⟩, _, hg', hgp⟩
  have hknows : s'.Knows id := by
    intro k hk
    rw [hfs', get_of_getElem? hc₄] at hk
    cases hx : s₄.varEnv.lookup k.name .localScope with
    | some v => exact h₄.nest.bound_later h'.nest hev'.later (by rw [hx]; rfl)
    | none =>
      obtain ⟨f, fs, b, bs, u, us, hf, -⟩ := h₄.nest.innermost
      obtain ⟨f', hf', -, hhas⟩ := hfr' f fs hf
      obtain ⟨f₁, fs₁, b₁, bs₁, u₁, us₁, hf₁, hb₁, -, hl₁, -⟩ := h'.nest.innermost
      cases hf'.symm.trans hf₁
      obtain ⟨k', hk', hkn⟩ := Captures.has_eq_true.1 (hhas k hk hx)
      have hbound := (hl₁.captures k' hk').1
      rw [hkn] at hbound
      simp [Env.lookup, Env.scopes, hb₁, hbound]
  intro x i hx
  by_cases hxd : x = d.name.name
  · rw [hfe', hfin.funEnv, hann.funEnv, hxd,
      Env.lookup_of_local (Env.lookup_declare_self _ _ _)] at hx
    cases hx
    exact hknows
  · rw [hfe', hfin.funEnv, hann.funEnv, Env.lookup_declare_of_ne _ hxd] at hx
    obtain ⟨f, hf⟩ := h.inside.nest.exists_fun hx
    exact (h.threaded x i hx).later hf h.inside.nest h'.nest hev.later

theorem checkNested_ready {ds ds' es : List FunDef} {path : String}
    (h : Ready classes (l :: outer) (FunDef.handsOnAny · es) s)
    (hpath : ∃ g, s.functions[l.id.index]? = some g ∧ g.emitted = path)
    (hc : checkNested classes l.id path ds s = .ok (ds', s')) :
    Ready classes (l :: outer) (FunDef.handsOnAny · (es ++ ds')) s' := by
  induction ds generalizing s es ds' with
  | nil =>
    obtain ⟨rfl, rfl⟩ := Prod.mk.inj (checkNested_nil_eq_ok.1 hc)
    rwa [List.append_nil]
  | cons d ds ih =>
    obtain ⟨s₁, id, s₂, d', s₄, s₅, ds₁, hclaim, hsig, hd, hth, hds, rfl⟩ :=
      checkNested_cons_cases hc
    have hann := announce_ok h.inside.nest hpath hclaim hsig
    obtain ⟨f, hsigOk, hemitted⟩ := hann.signature
    obtain ⟨h₅, hpath₅⟩ := threadCaptures_ready h hpath hann
      (checkFunction_ok hann.nest hsigOk hemitted hd) hth
    have h₆ := ih h₅ hpath₅ hds
    rwa [List.append_assoc] at h₆

mutual

theorem supplied_checkFunction : ∀ {d : FunDef} {outer : List Level} {id : FunId} {f : Function}
    {s : State}, Scoped classes outer s →
    SignatureOk (s.facts classes) (outer.head?.map Level.id) d id f →
    Supplied (checkFunction classes id d s)
  | { name, params, ret, decls, vars, nested, body, span, id := _ }, outer, id, f, s, h, hs => by
    rw [checkFunction]
    have hf : s.functions[id.index]? = some f := hs.record
    refine .andThen (.of_eq_ok (enter_eq_ok.2 rfl)) fun _ _ henter => ?_
    cases enter_eq_ok.1 henter
    rw [get_of_getElem? hf]
    refine .andThen (.of_eq_ok (functionOf_eq_ok.2 rfl)) fun f₀ _ hfun => ?_
    obtain ⟨hf₀, rfl⟩ := Prod.mk.inj (functionOf_eq_ok.1 hfun)
    obtain rfl : f₀ = f := hf₀.trans (get_of_getElem? hf)
    refine .andThen (supplied_forM (fun _ _ => supplied_declareName _ _) _) fun _ s₂ hparams => ?_
    refine .andThen (supplied_forM (fun _ _ => supplied_checkScopeDecl _ _) _) fun _ s₃ hdecls => ?_
    refine .andThen (supplied_mapM (fun _ _ => supplied_checkLocal _ _) _) fun vars' s₄ hvars => ?_
    obtain ⟨vs, h₄, -, -, hrec₄, -⟩ := checkHead_ok h hs hparams hdecls hvars
    refine .andThen supplied_checkReturns fun _ t hret => ?_
    obtain ⟨-, rfl⟩ := Prod.mk.inj (checkReturns_eq_ok.1 hret).1
    have hready : Ready classes _ _ t := ⟨h₄.inside, h₄.threaded⟩
    have hpath : ∃ g, t.functions[id.index]? = some g ∧ g.emitted = f₀.emitted := ⟨_, hrec₄, rfl⟩
    refine .andThen (supplied_checkNested hready hpath) fun _ _ hnested => ?_
    have hready' := checkNested_ready hready hpath hnested
    exact .andThen (supplied_checkBlock hready') fun _ _ _ => .ok _

theorem supplied_checkNested : ∀ {ds es : List FunDef} {l : Level} {outer : List Level}
    {path : String} {s : State}, Ready classes (l :: outer) (FunDef.handsOnAny · es) s →
    (∃ g, s.functions[l.id.index]? = some g ∧ g.emitted = path) →
    Supplied (checkNested classes l.id path ds s)
  | [], es, l, outer, path, s, h, hpath => by
    rw [checkNested]
    exact supplied_pure _
  | d :: ds, es, l, outer, path, s, h, hpath => by
    rw [checkNested]
    refine .andThen (supplied_claimName _) fun _ s₁ hclaim => ?_
    refine .andThen supplied_declareSignature fun id s₂ hsig => ?_
    refine .andThen (.of_eq_ok (bindFunction_eq_ok.2 rfl)) fun _ _ hbind => ?_
    cases bindFunction_eq_ok.1 hbind
    have hann := announce_ok h.inside.nest hpath hclaim hsig
    obtain ⟨f, hsigOk, hemitted⟩ := hann.signature
    refine .andThen (supplied_checkFunction hann.nest hsigOk) fun d' s₄ hd => ?_
    refine .andThen (supplied_threadCaptures _) fun _ s₅ hth => ?_
    obtain ⟨h₅, hpath₅⟩ := threadCaptures_ready h hpath hann
      (checkFunction_ok hann.nest hsigOk hemitted hd) hth
    exact .andThen (supplied_checkNested h₅ hpath₅) fun _ _ _ => supplied_pure _

end

end

/-! ### Programs -/

section

variable {classes : ClassTable} {s : State} {base : Nat} {done : List FunDef}
  {todo : List (FunDef × FunId)}

theorem Progress.supplied {ps : List (FunDef × FunId)}
    (h : Progress classes base done (ps ++ todo) s) :
    Supplied (ps.mapM (fun p => checkFunction classes p.2 p.1) s) := by
  induction ps generalizing done s with
  | nil => exact supplied_pure _
  | cons p ps ih =>
    obtain ⟨f, hsig⟩ := h.signatures p List.mem_cons_self
    rw [List.mapM_cons]
    refine .andThen (supplied_checkFunction h.nest hsig) fun d' s₁ hd => ?_
    obtain ⟨h₁, -⟩ := Progress.step h hd
    exact .andThen (ih h₁) fun _ _ _ => supplied_pure _

theorem Progress.supplied_methods {cs : List (ClassDef × List FunId)}
    (h : Progress classes base done (cs.flatMap (fun c => c.1.methods.zip c.2) ++ todo) s) :
    Supplied ((cs.mapM fun c => do
      return (c.1.name.name, ← checkBodies classes c.1.methods c.2) : CheckM _) s) := by
  induction cs generalizing done s with
  | nil => exact supplied_pure _
  | cons c cs ih =>
    rw [List.flatMap_cons, List.append_assoc] at h
    rw [List.mapM_cons]
    refine .andThen (.andThen h.supplied fun _ _ _ => supplied_pure _) fun _ s₁ hc => ?_
    simp only [bind_eq_ok, pure_eq_ok, Prod.mk.injEq] at hc
    obtain ⟨ds, _, hds, -, rfl⟩ := hc
    obtain ⟨h₁, -⟩ := h.bodies hds
    exact .andThen (ih h₁) fun _ _ _ => supplied_pure _

theorem supplied_checkDistinct {seen : List String} (is : List Ident) :
    Supplied (checkDistinct seen is s) := by
  induction is generalizing seen with
  | nil => exact supplied_pure _
  | cons i is ih =>
    unfold checkDistinct
    split
    · exact supplied_refuse (by rintro _ ⟨⟩)
    · exact ih

theorem supplied_checkGlobal (d : VarDef) : Supplied (checkGlobal classes d s) :=
  .andThen (supplied_resolveTy _) fun _ _ _ => .andThen supplied_checkInitializer fun _ _ _ => .ok _

theorem supplied_checkMethodSignature (c : String) (id : FunId) :
    Supplied (checkMethodSignature classes c id s) := by
  unfold checkMethodSignature
  refine .andThen (.ok _) fun t _ _ => ?_
  cases hasReceiver t.vars c (t.functions.get id) with
  | false => exact supplied_refuse (by rintro _ ⟨⟩)
  | true =>
  simp only [Bool.not_true, Bool.false_eq_true, if_false]
  split
  · exact supplied_refuse (by rintro _ ⟨⟩)
  cases (inherited? classes t c (t.functions.get id).name).bind
      (overrideFault? classes · (t.functions.get id)) with
  | some reason => exact supplied_refuse (by rintro _ ⟨⟩)
  | none => exact supplied_pure _

theorem supplied_declareMethods (c : ClassDef) : Supplied (declareMethods classes c s) := by
  refine .andThen (supplied_mapM (fun m t => ?_) _) fun _ _ _ => supplied_pure _
  exact .andThen supplied_declareSignature fun _ _ _ =>
    .andThen (supplied_checkMethodSignature _ _) fun _ _ _ => .ok _

theorem supplied_checkProgram {p : Program} (hl : classes.LaidOut p.classes) :
    Supplied (checkProgram classes p {}) := by
  unfold checkProgram
  refine .andThen (supplied_checkDistinct _) fun _ s₀ hnames => ?_
  obtain rfl := (checkModuleNames_ok hnames).1
  refine .andThen (supplied_mapM (fun _ _ => supplied_checkGlobal _) _) fun vars s₁ hvars => ?_
  refine .andThen (.ok _) fun root s₂ hrootInit => ?_
  refine .andThen (supplied_mapM (fun _ _ => supplied_declareMethods _) _) fun cs s₃ hcs => ?_
  refine .andThen (supplied_mapM (fun _ _ => .andThen supplied_declareSignature fun _ _ _ => .ok _)
    _) fun ids s₄ hids => ?_
  have hprog := (announced_ok hl hnames hvars hrootInit hcs hids).progress
  refine .andThen hprog.supplied_methods fun ms s₅ hms => ?_
  obtain ⟨h₅, -⟩ := hprog.methods hms
  rw [← List.append_nil (p.functions.zip ids)] at h₅
  refine .andThen h₅.supplied fun ds s₆ hds => ?_
  obtain ⟨h₆, -⟩ := h₅.bodies hds
  have hready : Ready classes [] (fun _ => false) s₆ :=
    ⟨⟨h₆.nest, trivial⟩, h₆.nest.threaded_module⟩
  exact .andThen (supplied_checkBlock hready) fun _ _ _ => supplied_pure _

end

end Check

/-- No program is refused because a call does not find a variable that it should pass. -/
theorem Program.supplied_check (p : Program) : Supplied p.check := by
  refine (supplied_resolve _).bind fun classes hcl => ?_
  refine .bind (supplied_checkProgram (ClassTable.resolve_ok hcl)) fun r _ => ?_
  exact .ok _

end ObjLang
