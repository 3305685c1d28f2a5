/-!
# ObjLang.Toml.Table — tables and the ways to define them

A table comes into being in one of three ways, and may be extended only in the way it came: by a
header of its own, on the way to a longer header, or by a dotted key.  A table of the second kind
can still get its header, once.
-/

namespace ObjLang.Toml

/-- A value.  Settings are texts, integers or truth values; of any other value only the kind is
kept. -/
inductive Value where
  | string (s : String)
  | integer (i : Int)
  | boolean (b : Bool)
  | float
  | moment
  | array
  | inlineTable
deriving DecidableEq

/-- How a table came into being. -/
inductive TableForm where
  /-- By its own header. -/
  | header
  /-- On the way to another header. -/
  | implicit
  /-- By a dotted key. -/
  | dotted
deriving DecidableEq

/-- What a key stands for. -/
inductive Node where
  | value (v : Value)
  | table (form : TableForm) (entries : List (String × Node))
  /-- Tables under one key, the latest first. -/
  | tables (items : List (List (String × Node)))

/-- A table with its entries. -/
structure Table where
  form : TableForm
  entries : List (String × Node)

namespace Table

/-- What a key stands for in a table. -/
def get? (t : Table) (key : String) : Option Node := t.entries.lookup key

/-- Lets a key stand for something, in place of what it stood for. -/
def set (t : Table) (key : String) (n : Node) : Table :=
  match t.get? key with
  | none => { t with entries := t.entries ++ [(key, n)] }
  | some _ =>
    { t with entries := t.entries.map fun (k, old) => if k = key then (k, n) else (k, old) }

/-- Changes the table at a path.  Missing tables on the way get the form `new`; of several tables
under one key the path leads to the latest.  A dotted path does not lead into a table with a
header. -/
def changeAt (new : TableForm) (change : Table → Option Table) : List String → Table → Option Table
  | [], t => change t
  | key :: path, t =>
    match t.get? key with
    | none => do
      let sub ← changeAt new change path ⟨new, []⟩
      return t.set key (.table sub.form sub.entries)
    | some (.value _) => none
    | some (.table form entries) => do
      if new = .dotted ∧ form = .header then none
      let sub ← changeAt new change path ⟨form, entries⟩
      return t.set key (.table sub.form sub.entries)
    | some (.tables []) => none
    | some (.tables (latest :: earlier)) => do
      let sub ← changeAt new change path ⟨.header, latest⟩
      return t.set key (.tables (sub.entries :: earlier))

/-- Gives a value to a key that follows a dotted path.  The key must be new, and the table must be
the starting one or come from a dotted key. -/
def insert (t : Table) (path : List String) (key : String) (v : Value) : Option Table :=
  changeAt .dotted
    (fun t =>
      if (t.form = .dotted) = (path = []) ∨ (t.get? key).isSome then none
      else some (t.set key (.value v)))
    path t

/-- Starts a table by a header. -/
def openTable (t : Table) (path : List String) (key : String) : Option Table :=
  changeAt .implicit
    (fun t =>
      match t.get? key with
      | none => some (t.set key (.table .header []))
      | some (.table .implicit entries) => some (t.set key (.table .header entries))
      | some _ => none)
    path t

/-- Starts a further table under a key. -/
def openItem (t : Table) (path : List String) (key : String) : Option Table :=
  changeAt .implicit
    (fun t =>
      match t.get? key with
      | none => some (t.set key (.tables [[]]))
      | some (.tables items) => some (t.set key (.tables ([] :: items)))
      | some _ => none)
    path t

end Table

end ObjLang.Toml
