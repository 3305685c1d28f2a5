import ObjLang.Proofs.Check.Typed

/-!
# ObjLang.Proofs.Check.Growth — what was found out stays true

A check only adds records.  The record of a function changes in one way, and only while its own
body is checked: its variables and captures are noted.  So what holds of an expression, a statement
or a definition still holds when more is known.
-/

namespace ObjLang.Check.Facts

variable {F F' G : Facts} {changed : Option FunId}

/-- `F'` knows what `F` knows; only of function `changed` the variables and captures may have changed. -/
structure Later (changed : Option FunId) (F F' : Facts) : Prop where
  classes : F'.classes = F.classes
  methods : F'.methods = F.methods
  module : F'.module = F.module
  vars : F.vars.Extends F'.vars
  descending : F.vars.Descending
  descending' : F'.vars.Descending
  functions : ∀ (id : FunId) f, F.functions[id.index]? = some f →
    ∃ ls cs, F'.functions[id.index]? = some { f with locals := ls, captures := cs } ∧
      (changed ≠ some id → ls = f.locals ∧ cs = f.captures)

/-- The function that may have changed is not called from the innermost of some functions. -/
def Clear (F : Facts) (changed : Option FunId) (lv : List Level) : Prop :=
  ∀ g f l, changed = some g → F.functions[g.index]? = some f → lv.head? = some l → f.parent ≠ some l.id

theorem clear_none {lv : List Level} : F.Clear none lv := by
  rintro g f l ⟨⟩

theorem Later.refl (h : F.vars.Descending) : Later changed F F :=
  ⟨rfl, rfl, rfl, .refl _, h, h, fun _ f hf => ⟨f.locals, f.captures, hf, fun _ => ⟨rfl, rfl⟩⟩⟩

theorem Later.trans (h : Later changed F F') (h' : Later changed F' G) : Later changed F G where
  classes := h'.classes.trans h.classes
  methods := h'.methods.trans h.methods
  module := h'.module.trans h.module
  vars := h.vars.trans h'.vars
  descending := h.descending
  descending' := h'.descending'
  functions := by
    intro id f hf
    obtain ⟨ls, cs, hls, hn⟩ := h.functions id f hf
    obtain ⟨ls', cs', hls', hn'⟩ := h'.functions id _ hls
    refine ⟨ls', cs', hls', fun hno => ?_⟩
    obtain ⟨rfl, rfl⟩ := hn hno
    exact hn' hno

theorem Later.weaken (h : Later none F F') : Later changed F F' :=
  { h with
    functions := fun id f hf =>
      let ⟨ls, cs, hls, hn⟩ := h.functions id f hf
      ⟨ls, cs, hls, fun _ => hn nofun⟩ }

/-- A change of a function that was not there before is none. -/
theorem Later.of_fresh {g : FunId} (h : Later (some g) F F')
    (hg : F.functions[g.index]? = none) : Later none F F' :=
  { h with
    functions := by
      intro id f hf
      obtain ⟨ls, cs, hls, hn⟩ := h.functions id f hf
      refine ⟨ls, cs, hls, fun _ => hn fun he => ?_⟩
      cases he
      simp [hg] at hf }

/-- Functions that are not called from outside keep their captures. -/
theorem Later.function (h : Later changed F F') {lv : List Level} (hc : F.Clear changed lv) {id : FunId}
    {f : Function} {l : Level} (hf : F.functions[id.index]? = some f) (hl : lv.head? = some l)
    (hp : f.parent = some l.id) : F'.functions[id.index]? = some f := by
  obtain ⟨ls, cs, hls, hn⟩ := h.functions id f hf
  obtain ⟨rfl, rfl⟩ := hn fun he => hc id f l he hf hl hp
  exact hls

section

variable (h : Later changed F F')

include h

theorem Later.home {v : VarId} {r : Variable} (hv : F.vars.get? v = some r) :
    F'.vars.home v = F.vars.home v :=
  h.vars.home_eq h.descending h.descending' (Variables.get?_eq_some_lt hv)

theorem Later.get {v : VarId} {r : Variable} (hv : F.vars.get? v = some r) :
    (F'.vars.get v).ty = (F.vars.get v).ty ∧ (F'.vars.get v).name = (F.vars.get v).name := by
  obtain ⟨r', hr', hn, ht, -⟩ := h.vars.isSome hv
  rw [Variables.get_eq_of_get? hv, Variables.get_eq_of_get? hr']
  exact ⟨ht, hn⟩

theorem Later.methodId? (c m : String) : F'.methodId? c m = F.methodId? c m := by
  simp only [Facts.methodId?, h.classes, h.methods]

variable {lv : List Level}

theorem IsOwn.later {x : String} {v : VarId} (hv : F.IsOwn lv x v) : F'.IsOwn lv x v := by
  obtain ⟨l, outer, rfl, hown | ⟨r, hr, hc, ho⟩⟩ := hv
  · exact ⟨l, outer, rfl, .inl hown⟩
  · obtain ⟨r', hr', -, -, hk, howner, -⟩ := h.vars.isSome hr
    refine ⟨l, outer, rfl, .inr ⟨r', hr', ?_, howner.trans ho⟩⟩
    simpa [Variable.isCapture, hk] using hc

theorem Reaches.later {x : String} {v : VarId} (hv : F.Reaches lv x v) : F'.Reaches lv x v := by
  obtain ⟨r, hr, hx, hcase⟩ := hv
  obtain ⟨r', hr', hn, -, hk, -, -⟩ := h.vars.isSome hr
  refine ⟨r', hr', hn.trans hx, ?_⟩
  obtain ⟨hg, hm⟩ | hown := hcase
  · exact .inl ⟨by simpa [Variable.isGlobal, hk] using hg, h.module ▸ hm⟩
  · exact .inr (IsOwn.later h hown)

theorem Passes.later {v : VarId} {k : Capture} (hv : F.Passes lv v k) : F'.Passes lv v k := by
  obtain ⟨⟨q, hq, hn, hg⟩, hown, ⟨r, hr⟩, hhome⟩ := hv
  obtain ⟨q', hq', hn', -, hkind, -, -⟩ := h.vars.isSome hq
  obtain ⟨r', hr', -⟩ := h.vars.isSome hr
  refine ⟨⟨q', hq', hn'.trans hn, by simpa [Variable.isGlobal, hkind] using hg⟩,
    IsOwn.later h hown, ⟨r', hr'⟩, ?_⟩
  rw [h.home hq, h.home hr, hhome]

end

theorem CaptureOk.later (h : Later changed F F') {outer : List Level} {id : FunId}
    {k : Capture}
    (hk : F.CaptureOk outer id k) : F'.CaptureOk outer id k := by
  obtain ⟨⟨r, hr, hn, hkind, ho, hb⟩, hh⟩ := hk
  obtain ⟨r', hr', hn', ht', hk', ho', -⟩ := h.vars.isSome hr
  refine ⟨⟨r', hr', hn'.trans hn, hk'.trans hkind, ho'.trans ho, ht' ▸ hb⟩, ?_⟩
  rw [h.home hr, h.module, hh]

variable {lv : List Level} {passes : String → Bool}

mutual

theorem ExprOk.later (h : Later changed F F') (hc : F.Clear changed lv) :
    ∀ {e : Expr} {t : Ty}, F.ExprOk lv passes e t → F'.ExprOk lv passes e t
  | .literal _ _, _, he => by
    simp only [ExprOk] at he ⊢
    exact he
  | .name _ x _, _, he => by
    simp only [ExprOk] at he ⊢
    obtain ⟨hi, v, hb, hv, hd, ht⟩ := he
    have ⟨r, hr, _⟩ := hv
    refine ⟨hi, v, hb, Reaches.later h hv, ?_, ?_⟩
    · rw [h.home hr, h.module, hd]
    · rw [(h.get hr).1, ht]
  | .unary _ _ _, _, he => by
    simp only [ExprOk] at he ⊢
    exact ⟨he.1, he.2.1, ExprOk.later h hc he.2.2⟩
  | .binary _ _ _ _, _, he => by
    simp only [ExprOk] at he ⊢
    obtain ⟨hi, a, b, ha, hb, ht⟩ := he
    exact ⟨hi, a, b, ExprOk.later h hc ha, ExprOk.later h hc hb, ht⟩
  | .call _ _ _ none, _, he => by
    simp only [ExprOk] at he
    exact he.2.elim
  | .call _ _ _ (some (.construct _)), _, he => by
    simp only [ExprOk] at he ⊢
    rw [h.classes]
    exact he
  | .call _ _ args (some (.function id captures)), _, he => by
    simp only [ExprOk] at he ⊢
    obtain ⟨hi, f, hf, ht, hargs, hcap⟩ := he
    obtain hcap | ⟨l, outer, hl, hp, hcap⟩ := hcap
    · obtain ⟨ls, cs, hls, -⟩ := h.functions id f hf
      exact ⟨hi, _, hls, ht, ArgsOk.later h hc hargs, .inl hcap⟩
    · have hf' := h.function hc hf (hl ▸ List.head?_cons) hp
      refine ⟨hi, f, hf', ht, ArgsOk.later h hc hargs, .inr ⟨l, outer, hl, hp, ?_⟩⟩
      exact hcap.imp fun _ _ => Passes.later h
  | .call _ _ _ (some (.builtin _)), _, he => by
    simp only [ExprOk] at he ⊢
    exact ⟨he.1, he.2.1, he.2.2.1, AllOk.later h hc he.2.2.2⟩
  | .field _ _ _, _, he => by
    simp only [ExprOk] at he ⊢
    obtain ⟨hi, c, l, k, d, ho, hl, hk, ht⟩ := he
    exact ⟨hi, c, l, k, d, ExprOk.later h hc ho, h.classes ▸ hl, hk, ht⟩
  | .method _ _ _ _, _, he => by
    simp only [ExprOk] at he ⊢
    obtain ⟨hi, c, id, f, ho, hid, hf, ht, hargs⟩ := he
    obtain ⟨ls, cs, hls, -⟩ := h.functions id f hf
    exact ⟨hi, c, id, _, ExprOk.later h hc ho, h.methodId? c _ ▸ hid, hls, ht,
      ArgsOk.later h hc hargs⟩

theorem ArgsOk.later (h : Later changed F F') (hc : F.Clear changed lv) : ∀ {es : List Expr} {ts : List Ty},
    F.ArgsOk lv passes es ts → F'.ArgsOk lv passes es ts
  | [], [], _ => by simp only [ArgsOk]
  | [], _ :: _, he => by simp only [ArgsOk] at he
  | _ :: _, [], he => by simp only [ArgsOk] at he
  | _ :: _, _ :: _, he => by
    simp only [ArgsOk] at he ⊢
    obtain ⟨⟨a, ha, hle⟩, hrest⟩ := he
    exact ⟨⟨a, ExprOk.later h hc ha, h.classes ▸ hle⟩, ArgsOk.later h hc hrest⟩

theorem AllOk.later (h : Later changed F F') (hc : F.Clear changed lv) {good : Ty → Prop} : ∀ {es : List Expr},
    F.AllOk lv passes good es → F'.AllOk lv passes good es
  | [], _ => by simp only [AllOk]
  | _ :: _, he => by
    simp only [AllOk] at he ⊢
    obtain ⟨⟨a, ha, hg⟩, hrest⟩ := he
    exact ⟨⟨a, ExprOk.later h hc ha, hg⟩, AllOk.later h hc hrest⟩

end

theorem TargetOk.later (h : Later changed F F') (hc : F.Clear changed lv) : ∀ {target : Target} {t : Ty},
    F.TargetOk lv passes target t → F'.TargetOk lv passes target t
  | .name x b, t, ht => by
    obtain ⟨v, r, hb, hr, hv, hw, ht, hn⟩ := ht
    obtain ⟨b', hb', -⟩ := h.vars v r hr
    refine ⟨v, _, hb, hb', Reaches.later h hv, hw, ht, fun hlv => ?_⟩
    rw [h.home hr, h.module, hn hlv]
  | .field o f, t, ht => by
    obtain ⟨c, l, k, d, ho, hl, hk, ht⟩ := ht
    exact ⟨c, l, k, d, ExprOk.later h hc ho, h.classes ▸ hl, hk, ht⟩

variable {ret : Option Ty}

mutual

theorem StmtOk.later (h : Later changed F F') (hc : F.Clear changed lv) :
    ∀ {s : Stmt}, F.StmtOk lv passes ret s → F'.StmtOk lv passes ret s
  | .assign _ _ _, hs => by
    simp only [StmtOk] at hs ⊢
    obtain ⟨a, t, ha, ht, hle⟩ := hs
    exact ⟨a, t, ExprOk.later h hc ha, TargetOk.later h hc ht, h.classes ▸ hle⟩
  | .expr _ _, hs => by
    simp only [StmtOk] at hs ⊢
    obtain ⟨a, ha⟩ := hs
    exact ⟨a, ExprOk.later h hc ha⟩
  | .ret _ _, hs => by
    simp only [StmtOk] at hs ⊢
    obtain ⟨a, t, ha, ht, hle⟩ := hs
    exact ⟨a, t, ExprOk.later h hc ha, ht, h.classes ▸ hle⟩
  | .pass _, _ => by simp only [StmtOk]
  | .cond _ _ _ _, hs => by
    simp only [StmtOk] at hs ⊢
    exact ⟨BranchOk.later h hc hs.1, BranchesOk.later h hc hs.2.1, BlockOk.later h hc hs.2.2⟩
  | .loop _ _, hs => by
    simp only [StmtOk] at hs ⊢
    exact BranchOk.later h hc hs

theorem BlockOk.later (h : Later changed F F') (hc : F.Clear changed lv) : ∀ {ss : List Stmt},
    F.BlockOk lv passes ret ss → F'.BlockOk lv passes ret ss
  | [], _ => by simp only [BlockOk]
  | _ :: _, hs => by
    simp only [BlockOk] at hs ⊢
    exact ⟨StmtOk.later h hc hs.1, BlockOk.later h hc hs.2⟩

theorem BranchOk.later (h : Later changed F F') (hc : F.Clear changed lv) :
    ∀ {b : Branch}, F.BranchOk lv passes ret b → F'.BranchOk lv passes ret b
  | .mk _ _, hb => by
    simp only [BranchOk] at hb ⊢
    exact ⟨ExprOk.later h hc hb.1, BlockOk.later h hc hb.2⟩

theorem BranchesOk.later (h : Later changed F F') (hc : F.Clear changed lv) : ∀ {bs : List Branch},
    F.BranchesOk lv passes ret bs → F'.BranchesOk lv passes ret bs
  | [], _ => by simp only [BranchesOk]
  | _ :: _, hs => by
    simp only [BranchesOk] at hs ⊢
    exact ⟨BranchOk.later h hc hs.1, BranchesOk.later h hc hs.2⟩

end

/-! ### Definitions -/

theorem ParamOk.later (h : Later changed F F') {id : FunId} {p : TypedName} {t : Ty} {v : VarId}
    (hv : F.ParamOk id p t v) : F'.ParamOk id p t v := by
  obtain ⟨r, hr, hn, ht, hk, ho, hw, hty⟩ := hv
  obtain ⟨b, hb, -⟩ := h.vars v r hr
  exact ⟨_, hb, hn, ht, hk, ho, hw, h.classes ▸ hty⟩

theorem RetOk.later (h : Later changed F F') {d : FunDef} {t : Ty} (hd : F.RetOk d t) :
    F'.RetOk d t := by
  unfold RetOk at hd ⊢
  rw [h.classes]
  exact hd

theorem LocalOk.later (h : Later changed F F') {id : FunId} {d : VarDef} {v : VarId}
    (hv : F.LocalOk id d v) : F'.LocalOk id d v := by
  obtain ⟨hd, r, t, hr, hn, ht, hk, ho, hw, hty, hi⟩ := hv
  obtain ⟨b, hb, -⟩ := h.vars v r hr
  exact ⟨hd, _, t, hb, hn, ht, hk, ho, hw, h.classes ▸ hty, hi⟩

theorem EmittedOk.later (h : Later changed F F') {outer : List Level} {d : FunDef} {f : Function}
    (hf : F.EmittedOk outer d f) : F'.EmittedOk outer d f := by
  intro l hl
  obtain ⟨g, hg, he⟩ := hf l hl
  obtain ⟨ls, cs, hls, -⟩ := h.functions l.id g hg
  exact ⟨_, hls, he⟩

/-- Neither a function nor one that it calls by name is the one that may have changed. -/
structure Apart (F : Facts) (changed : Option FunId) (id : FunId) : Prop where
  ne : changed ≠ some id
  parent : ∀ g f, changed = some g → F.functions[g.index]? = some f →
    f.parent = none ∨ g.index < id.index

theorem apart_none {id : FunId} : F.Apart none id := ⟨nofun, nofun⟩

theorem Apart.clear {id : FunId} (ho : F.functions.Ordered) (ha : F.Apart changed id)
    {l : Level} {outer : List Level} (hl : l.id = id) : F.Clear changed (l :: outer) := by
  rintro g f l' hg hf hl' hp
  cases hl'
  obtain hnone | hlt := ha.parent g f hg hf
  · simp [hnone] at hp
  · exact absurd (ho g f _ hf hp) (by rw [hl]; omega)

/-- A function nested in another that is apart is apart too. -/
theorem Apart.nested {id p : FunId} {f : Function} (ho : F.functions.Ordered)
    (ha : F.Apart changed p) (hf : F.functions[id.index]? = some f) (hp : f.parent = some p) :
    F.Apart changed id := by
  have hlt : p.index < id.index := ho id f p hf hp
  refine ⟨fun he => ?_, fun g fg hg hfg => ?_⟩
  · obtain hnone | hlt' := ha.parent id f he hf
    · simp [hnone] at hp
    · omega
  · obtain hnone | hlt' := ha.parent g fg hg hfg
    · exact .inl hnone
    · exact .inr (Nat.lt_trans hlt' hlt)

theorem FunctionOk.later (h : Later changed F F') (ho : F.functions.Ordered) {id : FunId}
    (ha : F.Apart changed id) {outer : List Level} {d : FunDef} {f : Function}
    (hf : F.FunctionOk outer d id f) : F'.FunctionOk outer d id f where
  id_eq := hf.id_eq
  record := by
    obtain ⟨ls, cs, hls, hn⟩ := h.functions id f hf.record
    obtain ⟨rfl, rfl⟩ := hn ha.ne
    exact hls
  parent := hf.parent
  emitted := hf.emitted.later h
  params := hf.params.imp fun _ _ => ParamOk.later h
  params_length := hf.params_length
  ret := hf.ret.later h
  locals := hf.locals.imp fun _ _ => LocalOk.later h
  captures := fun k hk => (hf.captures k hk).later h
  names := hf.names
  nestedNames := hf.nestedNames
  globals := h.module ▸ hf.globals
  handsOn := hf.handsOn
  captured := h.module ▸ hf.captured
  notGlobal := hf.notGlobal
  returns := hf.returns
  body := BlockOk.later h (ha.clear ho rfl) hf.body

/-- A function that may have changed is apart from those nested in it. -/
theorem apart_nested_self {g id : FunId} {f : Function} (ho : F.functions.Ordered)
    (hf : F.functions[id.index]? = some f) (hp : f.parent = some g) : F.Apart (some g) id := by
  have hlt : g.index < id.index := ho id f g hf hp
  refine ⟨fun he => ?_, fun g' _ hg _ => ?_⟩
  · cases he
    omega
  · cases hg
    exact .inr hlt

mutual

theorem FunOk.later (h : Later changed F F') (ho : F.functions.Ordered) :
    ∀ {outer : List Level} {d : FunDef}, (∀ id, d.id = some id → F.Apart changed id) →
      F.FunOk outer d → F'.FunOk outer d
  | _, { nested, .. }, ha, hd => by
    simp only [FunOk] at hd ⊢
    obtain ⟨id, f, hf, hn⟩ := hd
    have hid := ha id hf.id_eq
    exact ⟨id, f, hf.later h ho hid, FunsOk.later h ho (fun _ _ => hid.nested ho) hn⟩

theorem FunsOk.later (h : Later changed F F') (ho : F.functions.Ordered) :
    ∀ {l : Level} {outer : List Level} {ds : List FunDef},
      (∀ id f, F.functions[id.index]? = some f → f.parent = some l.id → F.Apart changed id) →
      F.FunsOk (l :: outer) ds → F'.FunsOk (l :: outer) ds
  | _, _, [], _, _ => by simp only [FunsOk]
  | _, _, { nested, .. } :: ds, ha, hd => by
    simp only [FunsOk, FunOk] at hd ⊢
    obtain ⟨⟨id, f, hf, hn⟩, hrest⟩ := hd
    have hid := ha id f hf.record hf.parent
    exact ⟨⟨id, f, hf.later h ho hid, FunsOk.later h ho (fun _ _ => hid.nested ho) hn⟩,
      FunsOk.later h ho ha hrest⟩

end

/-! ### Growth between functions -/

/-- `F'` knows what `F` knows, but for the variables and captures of functions, and maybe more
methods. -/
structure Grows (F F' : Facts) : Prop where
  classes : F'.classes = F.classes
  module : F'.module = F.module
  vars : F.vars.Extends F'.vars
  functions : ∀ (id : FunId) f, F.functions[id.index]? = some f →
    ∃ ls cs, F'.functions[id.index]? = some { f with locals := ls, captures := cs }
  methods : ∀ m ∈ F.methods, m ∈ F'.methods

theorem Grows.refl (F : Facts) : Grows F F :=
  ⟨rfl, rfl, .refl _, fun _ f hf => ⟨f.locals, f.captures, hf⟩, fun _ => id⟩

theorem Grows.trans (h : Grows F F') (h' : Grows F' G) : Grows F G where
  classes := h'.classes.trans h.classes
  module := h'.module.trans h.module
  vars := h.vars.trans h'.vars
  functions := by
    intro id f hf
    obtain ⟨ls, cs, hls⟩ := h.functions id f hf
    obtain ⟨ls', cs', hls'⟩ := h'.functions id _ hls
    exact ⟨ls', cs', hls'⟩
  methods := fun m hm => h'.methods m (h.methods m hm)

theorem Later.grows (h : Later changed F F') : Grows F F' where
  classes := h.classes
  module := h.module
  vars := h.vars
  functions := by
    intro id f hf
    obtain ⟨ls, cs, hls, -⟩ := h.functions id f hf
    exact ⟨ls, cs, hls⟩
  methods := by
    intro m hm
    rw [h.methods]
    exact hm

end ObjLang.Check.Facts
