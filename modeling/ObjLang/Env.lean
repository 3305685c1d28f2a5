/-!
# ObjLang.Env — nested scopes of names

The module scope lies at the bottom and always exists; each function body adds a scope on top of
it.  A search mode tells which scopes a look-up may see, and nearer scopes come first.
-/

namespace ObjLang

/-- A finite map from names, as an association list without repeated names. -/
abbrev Bindings (α : Type) := List (String × α)

namespace Bindings

variable {α : Type}

/-- Binds a name, in place of an earlier value if there is one. -/
def insert (name : String) (value : α) : Bindings α → Bindings α
  | [] => [(name, value)]
  | (n, v) :: rest => if n = name then (n, value) :: rest else (n, v) :: insert name value rest

theorem lookup_insert_self (name : String) (value : α) (b : Bindings α) :
    List.lookup name (b.insert name value) = some value := by
  induction b with
  | nil => simp [insert]
  | cons p rest ih =>
    obtain ⟨n, v⟩ := p
    by_cases h : n = name
    · simp [insert, h]
    · have hb : (name == n) = false := by simpa using fun e => h e.symm
      simp [insert, h, List.lookup_cons, hb, ih]

theorem lookup_insert_of_ne {name other : String} (h : other ≠ name) (value : α) (b : Bindings α) :
    List.lookup other (b.insert name value) = List.lookup other b := by
  induction b with
  | nil =>
    have hb : (other == name) = false := by simpa using h
    simp [insert, List.lookup_cons, hb]
  | cons p rest ih =>
    obtain ⟨n, v⟩ := p
    by_cases hn : n = name
    · subst hn
      have hb : (other == n) = false := by simpa using h
      simp [insert, List.lookup_cons, hb]
    · by_cases ho : other == n
      · simp [insert, hn, List.lookup_cons, ho]
      · simp [insert, hn, List.lookup_cons, ho, ih]

end Bindings

/-- Scopes above the module scope, innermost first, and the module scope. -/
structure Env (α : Type) where
  inner : List (Bindings α)
  module : Bindings α

/-- Which scopes a look-up may see. -/
inductive SearchMode where
  /-- The innermost scope. -/
  | localScope
  /-- The module scope. -/
  | globalScope
  /-- The scopes strictly between the module scope and the innermost one. -/
  | nonlocalScopes
  /-- The innermost scope, then the module scope. -/
  | localAndGlobal
  /-- Every scope. -/
  | all
deriving DecidableEq

namespace Env

variable {α : Type}

/-- Only an empty module scope. -/
def empty : Env α := ⟨[], []⟩

/-- Number of scopes, the module scope included. -/
def depth (e : Env α) : Nat := e.inner.length + 1

/-- Enters a new innermost scope. -/
def push (e : Env α) : Env α := ⟨[] :: e.inner, e.module⟩

/-- Leaves the innermost scope and gives its contents; the module scope stays. -/
def pop (e : Env α) : Option (Bindings α) × Env α :=
  match e.inner with
  | [] => (none, e)
  | s :: rest => (some s, ⟨rest, e.module⟩)

/-- Binds a name in the innermost scope. -/
def declare (e : Env α) (name : String) (value : α) : Env α :=
  match e.inner with
  | [] => ⟨[], e.module.insert name value⟩
  | s :: rest => ⟨s.insert name value :: rest, e.module⟩

/-- The scopes that a mode searches, in order. -/
def scopes (e : Env α) : SearchMode → List (Bindings α)
  | .localScope => [e.inner.headD e.module]
  | .globalScope => [e.module]
  | .nonlocalScopes => e.inner.tail
  | .localAndGlobal => [e.inner.headD e.module, e.module]
  | .all => e.inner ++ [e.module]

/-- The value of a name in the scopes of a mode. -/
def lookup (e : Env α) (name : String) (mode : SearchMode) : Option α :=
  (e.scopes mode).findSome? (List.lookup name)

/-- Whether a name is bound in the scopes of a mode. -/
def contains (e : Env α) (name : String) (mode : SearchMode) : Bool := (e.lookup name mode).isSome

/-! ### Laws -/

theorem pop_push (e : Env α) : e.push.pop = (some [], e) := rfl

theorem lookup_declare_self (e : Env α) (name : String) (value : α) :
    (e.declare name value).lookup name .localScope = some value := by
  unfold declare lookup scopes
  cases e.inner with
  | nil => simp [Bindings.lookup_insert_self]
  | cons s rest => simp [Bindings.lookup_insert_self]

theorem lookup_of_local {e : Env α} {name : String} {value : α}
    (h : e.lookup name .localScope = some value) :
    e.lookup name .localAndGlobal = some value := by
  have hl : List.lookup name (e.inner.headD e.module) = some value := by
    simpa [lookup, scopes] using h
  simp only [lookup, scopes, List.findSome?_cons, hl]

theorem lookup_declare_of_ne (e : Env α) {name other : String} (h : other ≠ name) (value : α)
    (mode : SearchMode) : (e.declare name value).lookup other mode = e.lookup other mode := by
  unfold declare lookup scopes
  have key := Bindings.lookup_insert_of_ne (α := α) h value
  cases hi : e.inner <;> cases mode <;> simp [List.findSome?_cons, key]

end Env

end ObjLang
