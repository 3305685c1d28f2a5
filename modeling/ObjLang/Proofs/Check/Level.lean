import ObjLang.Proofs.Check.Records

/-!
# ObjLang.Proofs.Check.Level — what a name denotes, by declarations alone

A level is one function of a nest of functions: its number, its parameters and variables by name,
and the names that it declares global or nonlocal.  `nearest` follows a name from a function
outwards to the declaration that it reaches; `denotes` is what a read of the name means.
-/

namespace ObjLang

theorem Bindings.mem_of_lookup {α : Type} {b : Bindings α} {x : String} {v : α}
    (h : List.lookup x b = some v) : (x, v) ∈ b := by
  obtain ⟨l₁, l₂, rfl, -⟩ := List.lookup_eq_some_iff.1 h
  simp

/-! ### Declarations of a function -/

namespace FunDef

/-- The names that a function declares with a kind. -/
def declared (d : FunDef) (kind : ScopeKind) : List String :=
  (d.decls.filter (·.kind = kind)).map (·.name.name)

/-- Whether a function has a parameter, a variable or a scope declaration of a name. -/
def declares (d : FunDef) (x : String) : Bool :=
  d.params.any (·.name.name == x) || d.vars.any (·.var.name.name == x)
    || d.decls.any (·.name.name == x)

mutual

/-- Whether a function takes the variable `x` from the function around it on behalf of a `nonlocal`
declaration, its own or one of a function nested in it. -/
def handsOn (x : String) : FunDef → Bool
  | d@{ decls, nested, .. } =>
    decls.any (fun s => s.kind == .nonlocal && s.name.name == x)
      || (!d.declares x && handsOnAny x nested)

/-- Whether one of some functions does. -/
def handsOnAny (x : String) : List FunDef → Bool
  | [] => false
  | d :: rest => d.handsOn x || handsOnAny x rest

end

/-- Whether a variable `x` passes through a function to one nested in it that declares it
`nonlocal`. -/
def passes (d : FunDef) (x : String) : Bool := handsOnAny x d.nested

mutual

/-- A function with those nested in it, each before those nested in it. -/
def all : FunDef → List FunDef
  | d@{ nested, .. } => d :: allOf nested

/-- Some functions with those nested in them. -/
def allOf : List FunDef → List FunDef
  | [] => []
  | d :: rest => d.all ++ allOf rest

end

mutual

/-- The variables that a function and those nested in it define, with their first values. -/
def definitions : FunDef → List (TypedName × Literal)
  | { vars, nested, .. } => vars.map (fun d => (d.var, d.init)) ++ definitionsOf nested

/-- The variables that some functions and those nested in them define. -/
def definitionsOf : List FunDef → List (TypedName × Literal)
  | [] => []
  | d :: rest => d.definitions ++ definitionsOf rest

end

mutual

/-- The parameters of a function and of those nested in it. -/
def parameters : FunDef → List TypedName
  | { params, nested, .. } => params ++ parametersOf nested

/-- The parameters of some functions and of those nested in them. -/
def parametersOf : List FunDef → List TypedName
  | [] => []
  | d :: rest => d.parameters ++ parametersOf rest

end

theorem mem_parametersOf {ds : List FunDef} {q : TypedName} :
    q ∈ parametersOf ds ↔ ∃ d ∈ ds, q ∈ d.parameters := by
  induction ds with
  | nil => simp [parametersOf]
  | cons d ds ih => simp [parametersOf, ih]

theorem mem_definitionsOf {ds : List FunDef} {x : TypedName × Literal} :
    x ∈ definitionsOf ds ↔ ∃ d ∈ ds, x ∈ d.definitions := by
  induction ds with
  | nil => simp [definitionsOf]
  | cons d ds ih => simp [definitionsOf, ih]

theorem mem_allOf {ds : List FunDef} {d : FunDef} : d ∈ allOf ds ↔ ∃ e ∈ ds, d ∈ e.all := by
  induction ds with
  | nil => simp [allOf]
  | cons e ds ih => simp [allOf, ih]

/-- A function that binds the same names as another one, to the same first values. -/
structure Binds (d d' : FunDef) : Prop where
  name : d'.name = d.name
  /-- At any depth. -/
  names : d'.all.map (·.name.name) = d.all.map (·.name.name)
  definitions : d'.definitions = d.definitions
  parameters : d'.parameters = d.parameters

theorem handsOnAny_append (x : String) (ds es : List FunDef) :
    handsOnAny x (ds ++ es) = (handsOnAny x ds || handsOnAny x es) := by
  induction ds with
  | nil => simp [handsOnAny]
  | cons d ds ih => simp [handsOnAny, ih, Bool.or_assoc]

theorem contains_declared (d : FunDef) (kind : ScopeKind) (x : String) :
    (d.declared kind).contains x = d.decls.any (fun s => s.kind == kind && s.name.name == x) := by
  rw [Bool.eq_iff_iff]
  simp only [declared, List.contains_iff_mem, List.mem_map, List.mem_filter, decide_eq_true_eq,
    List.any_eq_true, Bool.and_eq_true, beq_iff_eq, and_assoc]

theorem handsOn_eq (x : String) (d : FunDef) :
    d.handsOn x = ((d.declared .nonlocal).contains x || (!d.declares x && d.passes x)) := by
  rw [contains_declared]
  cases d
  rfl

theorem all_eq (d : FunDef) : d.all = d :: allOf d.nested := by
  cases d
  rfl

end FunDef

theorem self_mem_all (d : FunDef) : d ∈ d.all := by
  rw [FunDef.all_eq]
  exact List.mem_cons_self

namespace FunDef

mutual

theorem mem_all_of_nested : ∀ {d e e' : FunDef}, e ∈ d.all → e' ∈ e.nested → e' ∈ d.all
  | ⟨_, _, _, _, _, nested, _, _, _⟩, e, e', he, he' => by
    rw [all_eq] at he ⊢
    refine List.mem_cons_of_mem _ ?_
    obtain rfl | he := List.mem_cons.1 he
    · exact mem_allOf.2 ⟨e', he', self_mem_all e'⟩
    · exact mem_allOf_of_nested he he'

theorem mem_allOf_of_nested : ∀ {ds : List FunDef} {e e' : FunDef}, e ∈ allOf ds →
    e' ∈ e.nested → e' ∈ allOf ds
  | [], _, _, he, _ => absurd he List.not_mem_nil
  | _ :: _, _, _, he, he' => by
    simp only [allOf, List.mem_append] at he ⊢
    obtain he | he := he
    · exact .inl (mem_all_of_nested he he')
    · exact .inr (mem_allOf_of_nested he he')

end

end FunDef

namespace Check

/-- One function of a nest of functions. -/
structure Level where
  id : FunId
  /-- Its parameters and variables. -/
  own : Bindings VarId
  globals : List String
  nonlocals : List String

namespace Level

/-- Whether the function declares a name. -/
def declares (l : Level) (x : String) : Bool :=
  (List.lookup x l.own).isSome || l.globals.contains x || l.nonlocals.contains x

/-- The level of a function with a record. -/
def ofFunction (id : FunId) (d : FunDef) (f : Function) : Level where
  id
  own := (d.params.map (·.name.name)).zip f.params ++ (d.vars.map (·.var.name.name)).zip f.locals
  globals := d.declared .global
  nonlocals := d.declared .nonlocal

theorem lookup_zip_isSome {names : List String} {vs : List VarId}
    (h : names.length = vs.length) (x : String) :
    (List.lookup x (names.zip vs)).isSome = names.contains x := by
  induction names generalizing vs with
  | nil => rfl
  | cons n names ih =>
    cases vs with
    | nil => simp at h
    | cons v vs =>
      rw [List.zip_cons_cons, List.lookup_cons, List.contains_cons]
      cases hx : x == n with
      | true => rfl
      | false => simpa using ih (by simpa using h)

theorem declares_ofFunction {id : FunId} {d : FunDef} {f : Function}
    (hp : d.params.length = f.params.length) (hv : d.vars.length = f.locals.length) (x : String) :
    (ofFunction id d f).declares x = d.declares x := by
  have hdecl : ((d.declared .global).contains x || (d.declared .nonlocal).contains x)
      = d.decls.any (·.name.name == x) := by
    rw [FunDef.contains_declared, FunDef.contains_declared, Bool.eq_iff_iff]
    simp only [Bool.or_eq_true, List.any_eq_true, Bool.and_eq_true, beq_iff_eq]
    constructor
    · rintro (⟨s, hs, -, hx⟩ | ⟨s, hs, -, hx⟩) <;> exact ⟨s, hs, hx⟩
    · rintro ⟨s, hs, hx⟩
      cases hk : s.kind with
      | global => exact .inl ⟨s, hs, hk, hx⟩
      | nonlocal => exact .inr ⟨s, hs, hk, hx⟩
  have hany : ∀ {α : Type} (as : List α) (g : α → String),
      (as.map g).contains x = as.any (g · == x) := by
    intro α as g
    rw [Bool.eq_iff_iff]
    simp only [List.contains_iff_mem, List.mem_map, List.any_eq_true, beq_iff_eq]
  simp only [declares, ofFunction, FunDef.declares, List.lookup_append, Option.isSome_or,
    Bool.or_assoc, hdecl]
  rw [lookup_zip_isSome (by simpa using hp), lookup_zip_isSome (by simpa using hv), hany, hany]

end Level

/-- The variable of a name that is declared nearest, in the functions of a nest from the innermost
outwards.  A `global` declaration leads to the module. -/
def nearest (module : Bindings VarId) (x : String) : List Level → Option VarId
  | [] => none
  | l :: outer =>
    match List.lookup x l.own with
    | some v => some v
    | none => if l.globals.contains x then List.lookup x module else nearest module x outer

/-- What a read of a name denotes in the innermost function of a nest: what the function declares;
a variable that passes through it; the variable of the module; the nearest one around it. -/
def denotes (module : Bindings VarId) (passes : String → Bool) (x : String) :
    List Level → Option VarId
  | [] => List.lookup x module
  | l :: outer =>
    if l.declares x then nearest module x (l :: outer)
    else if passes x then nearest module x outer
    else (List.lookup x module).or (nearest module x outer)

theorem nearest_of_not_declared {module : Bindings VarId} {x : String} {l : Level}
    (h : l.declares x = false) (outer : List Level) :
    nearest module x (l :: outer) = nearest module x outer := by
  simp only [Level.declares, Bool.or_eq_false_iff, Option.isSome_eq_false_iff,
    Option.isNone_iff_eq_none] at h
  simp only [nearest, h.1.1, h.1.2, Bool.false_eq_true, if_false]

theorem nearest_of_own {module : Bindings VarId} {x : String} {l : Level} {v : VarId}
    (h : List.lookup x l.own = some v) (outer : List Level) :
    nearest module x (l :: outer) = some v := by
  simp [nearest, h]

theorem nearest_of_nonlocal {module : Bindings VarId} {x : String} {l : Level}
    (ho : List.lookup x l.own = none) (hg : l.globals.contains x = false) (outer : List Level) :
    nearest module x (l :: outer) = nearest module x outer := by
  simp only [nearest, ho, hg, Bool.false_eq_true, if_false]

theorem nearest_of_global {module : Bindings VarId} {x : String} {l : Level}
    (ho : List.lookup x l.own = none) (hg : l.globals.contains x = true) (outer : List Level) :
    nearest module x (l :: outer) = List.lookup x module := by
  simp only [nearest, ho, hg, if_true]

section

variable {module : Bindings VarId} {passes : String → Bool} {x : String} {l : Level}

theorem denotes_of_declared (h : l.declares x = true) (outer : List Level) :
    denotes module passes x (l :: outer) = nearest module x (l :: outer) := by
  simp only [denotes, h, if_true]

theorem denotes_of_passes (h : l.declares x = false) (hp : passes x = true)
    (outer : List Level) : denotes module passes x (l :: outer) = nearest module x outer := by
  simp only [denotes, h, hp, Bool.false_eq_true, if_false, if_true]

theorem denotes_of_not_passes (h : l.declares x = false) (hp : passes x = false)
    (outer : List Level) :
    denotes module passes x (l :: outer)
      = (List.lookup x module).or (nearest module x outer) := by
  simp only [denotes, h, hp, Bool.false_eq_true, if_false]

end

/-- The nearest variable is one of a function of the nest, or of the module. -/
theorem nearest_mem {module : Bindings VarId} {x : String} {v : VarId} {lv : List Level}
    (h : nearest module x lv = some v) :
    (∃ l ∈ lv, List.lookup x l.own = some v) ∨ List.lookup x module = some v := by
  induction lv with
  | nil => simp [nearest] at h
  | cons l outer ih =>
    cases ho : List.lookup x l.own with
    | some w =>
      rw [nearest_of_own ho] at h
      exact .inl ⟨l, List.mem_cons_self, h ▸ ho⟩
    | none =>
      cases hg : l.globals.contains x with
      | true =>
        rw [nearest_of_global ho hg] at h
        exact .inr h
      | false =>
        rw [nearest_of_nonlocal ho hg] at h
        obtain ⟨m, hm, hv⟩ | hv := ih h
        · exact .inl ⟨m, List.mem_cons_of_mem _ hm, hv⟩
        · exact .inr hv

end Check

end ObjLang
