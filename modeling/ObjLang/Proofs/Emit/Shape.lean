import ObjLang.Emit.Block
import ObjLang.Linked.Link

/-!
# ObjLang.Proofs.Emit.Shape — where the code of a program lies

Linked code is one array for each function.  `ExprAt` and `StmtAt` say that the code of an expression
or a statement fills a stretch of it, part by part, with every name resolved and every jump leading to
where the structure of the source says.  The numbers beside the positions count labels and
temporaries.
-/

namespace ObjLang

open Code (Instr)

/-! ### Resolved instructions -/

/-- Where the names in the code of a function lead. -/
structure Names where
  /-- The parameters and locals in the order of their slots. -/
  frame : List String
  global : String → Nat
  function : String → Nat
  /-- The number of parameters of a signature. -/
  arity : String → Nat

/-- The slot of a parameter or local. -/
def Names.slot (N : Names) (x : String) : Nat := (lastIndex? x N.frame).getD 0

/-- The names of a function in a module. -/
def Code.Module.names (m : Code.Module) (f : Code.Func) : Names where
  frame := f.params ++ f.locals
  global x := (lastIndex? x (m.globals.map (·.name))).getD 0
  function x := (lastIndex? x m.functionNames).getD 0
  arity t := ((m.type? t).map (·.params)).getD 0

/-- The resolved form of an instruction that is no part of control flow. -/
def Names.op (N : Names) : Instr → Op
  | .const n => .const n
  | .localGet x => .localGet (N.slot x)
  | .localSet x => .localSet (N.slot x)
  | .globalGet x => .globalGet (N.global x)
  | .globalSet x => .globalSet (N.global x)
  | .load o => .load o
  | .store o => .store o
  | .binary op => .binary op
  | .eqz => .eqz
  | .call g => .call (N.function g)
  | .callIndirect t => .callIndirect (N.arity t)
  | .drop => .drop
  | .ret => .ret
  | _ => .unreachable

/-- Whether an instruction names parameters and locals only that there are. -/
def Names.Declares (N : Names) : Instr → Prop
  | .localGet x | .localSet x => x ∈ N.frame
  | _ => True

/-- Instructions that fill an array from a position on. -/
def OpsAt (arr : Array Op) (a : Nat) (ops : List Op) : Prop :=
  ∀ (i : Nat) (op : Op), ops[i]? = some op → arr[a + i]? = some op

theorem opsAt_nil (arr : Array Op) (a : Nat) : OpsAt arr a [] := by
  intro i op h
  simp at h

theorem opsAt_cons {arr : Array Op} {a : Nat} {op : Op} {ops : List Op} :
    OpsAt arr a (op :: ops) ↔ arr[a]? = some op ∧ OpsAt arr (a + 1) ops := by
  constructor
  · intro h
    refine ⟨h 0 op rfl, fun i op' hi => ?_⟩
    have hs := h (i + 1) op' (by simpa using hi)
    rwa [Nat.add_assoc, Nat.add_comm 1 i]
  · rintro ⟨h₀, h⟩ i op' hi
    cases i with
    | zero => simpa using hi ▸ h₀
    | succ i =>
      have hs := h i op' (by simpa using hi)
      rwa [Nat.add_assoc, Nat.add_comm 1 i] at hs

theorem opsAt_append {arr : Array Op} {a : Nat} {xs ys : List Op} :
    OpsAt arr a (xs ++ ys) ↔ OpsAt arr a xs ∧ OpsAt arr (a + xs.length) ys := by
  induction xs generalizing a with
  | nil => simp [opsAt_nil]
  | cons x xs ih =>
    rw [List.cons_append, opsAt_cons, opsAt_cons, ih, and_assoc, List.length_cons,
      Nat.add_assoc, Nat.add_comm 1]

/-- Straight-line code between two positions. -/
def CodeAt (N : Names) (arr : Array Op) (is : List Instr) (a a' : Nat) : Prop :=
  OpsAt arr a (is.map N.op) ∧ (∀ i ∈ is, N.Declares i) ∧ a' = a + is.length

section

variable {N : Names} {arr : Array Op} {a a' : Nat}

theorem codeAt_nil : CodeAt N arr [] a a' ↔ a' = a := by
  simp [CodeAt, opsAt_nil]

theorem codeAt_cons {i : Instr} {is : List Instr} : CodeAt N arr (i :: is) a a' ↔
    arr[a]? = some (N.op i) ∧ N.Declares i ∧ CodeAt N arr is (a + 1) a' := by
  simp only [CodeAt, List.map_cons, opsAt_cons, List.forall_mem_cons, List.length_cons,
    Nat.add_assoc, Nat.add_comm 1]
  constructor
  · rintro ⟨⟨h, hs⟩, ⟨hd, hds⟩, ha⟩
    exact ⟨h, hd, hs, hds, ha⟩
  · rintro ⟨h, hd, hs, hds, ha⟩
    exact ⟨⟨h, hs⟩, ⟨hd, hds⟩, ha⟩

theorem codeAt_singleton {i : Instr} :
    CodeAt N arr [i] a a' ↔ arr[a]? = some (N.op i) ∧ N.Declares i ∧ a' = a + 1 := by
  rw [codeAt_cons, codeAt_nil]

theorem codeAt_append {is js : List Instr} :
    CodeAt N arr (is ++ js) a a' ↔ ∃ b, CodeAt N arr is a b ∧ CodeAt N arr js b a' := by
  simp only [CodeAt, List.map_append, opsAt_append, List.length_map, List.length_append,
    List.forall_mem_append]
  constructor
  · rintro ⟨⟨hi, hj⟩, ⟨hdi, hdj⟩, rfl⟩
    exact ⟨_, ⟨hi, hdi, rfl⟩, hj, hdj, (Nat.add_assoc _ _ _).symm⟩
  · rintro ⟨b, ⟨hi, hdi, rfl⟩, hj, hdj, rfl⟩
    exact ⟨⟨hi, hj⟩, ⟨hdi, hdj⟩, Nat.add_assoc _ _ _⟩

end

namespace Emit

/-! ### Code without control flow -/

/-- The local that holds the receiver of a method call. -/
def receiverName (n : Nat) : String := "#recv" ++ toString n

/-- The code that makes an object of a class with a layout. -/
def constructCode (l : ClassLayout) (init : String) : List Instr :=
  allocWords l.words
    ++ [.localSet newName, .localGet newName, .const (word l.vtableBase), .store 0]
    ++ initFields 0 l.fields
    ++ [.localGet newName, .call init, .drop, .localGet newName]

/-- The code of a builtin function behind the code of its arguments. -/
def builtinCode (b : Builtin) (args : List Expr) : Option (List Instr) :=
  match b, args.head?.bind Expr.ty with
  | .print, some .int => some [.call "#print_num", .const 0]
  | .print, some .bool => some [.call "#print_bool", .const 0]
  | .print, some .none => some [.call "#print_none", .const 0]
  | .print, _ => none
  | .abs, _ => some [.call "#abs"]
  | .min, _ => some [.call "#min"]
  | .max, _ => some [.call "#max"]
  | .pow, _ => some [.call "#pow"]

variable (c : CheckedProgram) (N : Names) (arr : Array Op)

/-- The layout that the type of a receiver names. -/
def ReceiverLayout (object : Expr) (l : ClassLayout) : Prop :=
  ∃ k, object.ty = some (.object k) ∧ c.classes.get? k = some l

/-- The code that makes an object, instruction by instruction.  The fields are filled up to `b`. -/
structure ConstructAt (l : ClassLayout) (init : String) (a b : Nat) : Prop where
  words : arr[a]? = some (.const (word l.words))
  alloc : arr[a + 1]? = some (.call (N.function allocName))
  keep : arr[a + 2]? = some (.localSet (N.slot newName))
  declared : newName ∈ N.frame
  object : arr[a + 3]? = some (.localGet (N.slot newName))
  base : arr[a + 4]? = some (.const (word l.vtableBase))
  tag : arr[a + 5]? = some (.store 0)
  fields : CodeAt N arr (initFields 0 l.fields) (a + 6) b
  receiver : arr[b]? = some (.localGet (N.slot newName))
  call : arr[b + 1]? = some (.call (N.function init))
  drop : arr[b + 2]? = some .drop
  result : arr[b + 3]? = some (.localGet (N.slot newName))

variable {N arr} in
theorem codeAt_construct {l : ClassLayout} {init : String} {a a' : Nat}
    (h : CodeAt N arr (constructCode l init) a a') :
    ∃ b, ConstructAt N arr l init a b ∧ a' = b + 4 := by
  obtain ⟨b, hcode, hlast⟩ := codeAt_append.1 h
  obtain ⟨b', hcode, hfields⟩ := codeAt_append.1 hcode
  obtain ⟨hwords, -, hcode⟩ := codeAt_cons.1 hcode
  obtain ⟨halloc, -, hcode⟩ := codeAt_cons.1 hcode
  obtain ⟨hkeep, hdeclared, hcode⟩ := codeAt_cons.1 hcode
  obtain ⟨hobject, -, hcode⟩ := codeAt_cons.1 hcode
  obtain ⟨hbase, -, hcode⟩ := codeAt_cons.1 hcode
  obtain ⟨htag, -, rfl⟩ := codeAt_singleton.1 hcode
  obtain ⟨hreceiver, -, hcode⟩ := codeAt_cons.1 hlast
  obtain ⟨hcall, -, hcode⟩ := codeAt_cons.1 hcode
  obtain ⟨hdrop, -, hcode⟩ := codeAt_cons.1 hcode
  obtain ⟨hresult, -, rfl⟩ := codeAt_singleton.1 hcode
  exact ⟨b, ⟨hwords, halloc, hkeep, hdeclared, hobject, hbase, htag, hfields, hreceiver, hcall, hdrop,
    hresult⟩, rfl⟩

/-- The code that moves a parameter into a new cell, instruction by instruction. -/
structure BoxAt (v : Variable) (a : Nat) : Prop where
  words : arr[a]? = some (.const 1)
  alloc : arr[a + 1]? = some (.call (N.function allocName))
  keep : arr[a + 2]? = some (.localSet (N.slot cellName))
  declared : cellName ∈ N.frame
  cell : arr[a + 3]? = some (.localGet (N.slot cellName))
  value : arr[a + 4]? = some (.localGet (N.slot v.name))
  fill : arr[a + 5]? = some (.store 0)
  again : arr[a + 6]? = some (.localGet (N.slot cellName))
  move : arr[a + 7]? = some (.localSet (N.slot v.name))

variable {N arr} in
theorem codeAt_boxParam {v : Variable} {a a' : Nat} (h : CodeAt N arr (boxParam v) a a') :
    BoxAt N arr v a ∧ a' = a + 8 := by
  obtain ⟨hwords, -, hcode⟩ := codeAt_cons.1 h
  obtain ⟨halloc, -, hcode⟩ := codeAt_cons.1 hcode
  obtain ⟨hkeep, hdeclared, hcode⟩ := codeAt_cons.1 hcode
  obtain ⟨hcell, -, hcode⟩ := codeAt_cons.1 hcode
  obtain ⟨hvalue, -, hcode⟩ := codeAt_cons.1 hcode
  obtain ⟨hfill, -, hcode⟩ := codeAt_cons.1 hcode
  obtain ⟨hagain, -, hcode⟩ := codeAt_cons.1 hcode
  obtain ⟨hmove, -, rfl⟩ := codeAt_singleton.1 hcode
  exact ⟨⟨hwords, halloc, hkeep, hdeclared, hcell, hvalue, hfill, hagain, hmove⟩, rfl⟩

/-- The code that gives a captured variable a new cell with its first value, instruction by
instruction. -/
structure CellAt (v : Variable) (init : Literal) (a : Nat) : Prop where
  words : arr[a]? = some (.const 1)
  alloc : arr[a + 1]? = some (.call (N.function allocName))
  keep : arr[a + 2]? = some (.localSet (N.slot v.name))
  cell : arr[a + 3]? = some (.localGet (N.slot v.name))
  value : arr[a + 4]? = some (.const init.word)
  fill : arr[a + 5]? = some (.store 0)

variable {N arr} in
theorem codeAt_initLocal {v : Variable} {init : Literal} {a a' : Nat} (hrefed : v.refed = true)
    (h : CodeAt N arr (initLocal v init) a a') : CellAt N arr v init a ∧ a' = a + 6 := by
  rw [initLocal, if_pos hrefed] at h
  obtain ⟨hwords, -, hcode⟩ := codeAt_cons.1 h
  obtain ⟨halloc, -, hcode⟩ := codeAt_cons.1 hcode
  obtain ⟨hkeep, -, hcode⟩ := codeAt_cons.1 hcode
  obtain ⟨hcell, -, hcode⟩ := codeAt_cons.1 hcode
  obtain ⟨hvalue, -, hcode⟩ := codeAt_cons.1 hcode
  obtain ⟨hfill, -, rfl⟩ := codeAt_singleton.1 hcode
  exact ⟨⟨hwords, halloc, hkeep, hcell, hvalue, hfill⟩, rfl⟩

/-- The code that keeps the receiver of a method call, instruction by instruction. -/
structure ReceiverAt (n a : Nat) : Prop where
  guard : arr[a]? = some (.call (N.function checkInitName))
  keep : arr[a + 1]? = some (.localSet (N.slot (receiverName n)))
  declared : receiverName n ∈ N.frame
  object : arr[a + 2]? = some (.localGet (N.slot (receiverName n)))

variable {N arr} in
theorem codeAt_receiver {n a a' : Nat}
    (h : CodeAt N arr [.call checkInitName, .localSet (receiverName n), .localGet (receiverName n)]
      a a') : ReceiverAt N arr n a ∧ a' = a + 3 := by
  obtain ⟨hguard, -, hcode⟩ := codeAt_cons.1 h
  obtain ⟨hkeep, hdeclared, hcode⟩ := codeAt_cons.1 hcode
  obtain ⟨hobject, -, rfl⟩ := codeAt_singleton.1 hcode
  exact ⟨⟨hguard, hkeep, hdeclared, hobject⟩, rfl⟩

/-- The code that calls a method through the dispatch table, instruction by instruction: the place in
the table is the slot behind the first place of the class of the receiver, which the local `y`
holds. -/
structure DispatchAt (y : String) (slot count a : Nat) : Prop where
  object : arr[a]? = some (.localGet (N.slot y))
  base : arr[a + 1]? = some (.load 0)
  slot : arr[a + 2]? = some (.const (word slot))
  place : arr[a + 3]? = some (.binary .add)
  call : arr[a + 4]? = some (.callIndirect (N.arity (Code.signatureName count)))

variable {N arr} in
theorem codeAt_dispatch {y : String} {slot count a a' : Nat}
    (h : CodeAt N arr [.localGet y, .load 0, .const (word slot), .binary .add,
      .callIndirect (Code.signatureName count)] a a') :
    DispatchAt N arr y slot count a ∧ a' = a + 5 := by
  obtain ⟨hobject, -, hcode⟩ := codeAt_cons.1 h
  obtain ⟨hbase, -, hcode⟩ := codeAt_cons.1 hcode
  obtain ⟨hslot, -, hcode⟩ := codeAt_cons.1 hcode
  obtain ⟨hplace, -, hcode⟩ := codeAt_cons.1 hcode
  obtain ⟨hcall, -, rfl⟩ := codeAt_singleton.1 hcode
  exact ⟨⟨hobject, hbase, hslot, hplace, hcall⟩, rfl⟩

/-! ### Expressions -/

mutual

/-- The code of an expression. -/
def ExprAt : Expr → (n a n' a' : Nat) → Prop
  | .literal _ v, n, a, n', a' => CodeAt N arr [.const v.word] a a' ∧ n' = n
  | .name _ _ b, n, a, n', a' => ∃ v, b = some v ∧ CodeAt N arr (loadVar (c.var v)) a a' ∧ n' = n
  | .unary _ .neg e, n, a, n', a' =>
    ∃ b₁ b₂, CodeAt N arr [.const 0] a b₁ ∧ ExprAt e n b₁ n' b₂ ∧
      CodeAt N arr [.binary .sub] b₂ a'
  | .unary _ .not e, n, a, n', a' => ∃ b, ExprAt e n a n' b ∧ CodeAt N arr [.eqz] b a'
  | .binary _ op l r, n, a, n', a' =>
    ∃ n₁ b₁ b₂, ExprAt l n a n₁ b₁ ∧ ExprAt r n₁ b₁ n' b₂ ∧
      CodeAt N arr [.binary (binaryOp op)] b₂ a'
  | .call _ _ args target, n, a, n', a' =>
    match target with
    | none => False
    | some (.function id vs) =>
      ∃ b₁ b₂, ExprsAt args n a n' b₁ ∧
        CodeAt N arr (vs.map fun v => .localGet (c.var v).name) b₁ b₂ ∧
        CodeAt N arr [.call (c.function id).emitted] b₂ a'
    | some (.construct k) =>
      ∃ l init, c.classes.get? k = some l ∧ l.target? initMethod = some init ∧
        CodeAt N arr (constructCode l init) a a' ∧ n' = n
    | some (.builtin f) =>
      ∃ b is, ExprsAt args n a n' b ∧ builtinCode f args = some is ∧ CodeAt N arr is b a'
  | .field _ o f, n, a, n', a' =>
    ∃ l i d b, ReceiverLayout c o l ∧ l.field? f.name = some (i, d) ∧ ExprAt o n a n' b ∧
      CodeAt N arr [.call checkInitName, .load (ClassLayout.fieldOffset i)] b a'
  | .method _ o m args, n, a, n', a' =>
    ∃ l slot e n₁ b₁ b₂ b₃, ReceiverLayout c o l ∧ l.method? m.name = some (slot, e) ∧
      ExprAt o n a n₁ b₁ ∧
      CodeAt N arr [.call checkInitName, .localSet (receiverName n₁), .localGet (receiverName n₁)]
        b₁ b₂ ∧
      ExprsAt args (n₁ + 1) b₂ n' b₃ ∧
      CodeAt N arr [.localGet (receiverName n₁), .load 0, .const (word slot), .binary .add,
        .callIndirect (Code.signatureName (args.length + 1))] b₃ a'

/-- The code of arguments, one after the other. -/
def ExprsAt : List Expr → (n a n' a' : Nat) → Prop
  | [], n, a, n', a' => a' = a ∧ n' = n
  | e :: es, n, a, n', a' => ∃ n₁ b, ExprAt e n a n₁ b ∧ ExprsAt es n₁ b n' a'

end

/-! ### Statements -/

/-- The code of an assignment. -/
def AssignAt (value : Expr) : Target → (n a n' a' : Nat) → Prop
  | .name _ b, n, a, n', a' =>
    ∃ v b₁ b₂, b = some v ∧
      CodeAt N arr
        (if (c.var v).isGlobal = false ∧ (c.var v).isIndirect = true then
          [.localGet (c.var v).name] else []) a b₁ ∧
      ExprAt c N arr value n b₁ n' b₂ ∧
      CodeAt N arr
        (if (c.var v).isGlobal then [.globalSet (c.var v).name]
          else if (c.var v).isIndirect then [.store 0] else [.localSet (c.var v).name]) b₂ a'
  | .field o f, n, a, n', a' =>
    ∃ l i d n₁ b₁ b₂ b₃, ReceiverLayout c o l ∧ l.field? f.name = some (i, d) ∧
      ExprAt c N arr o n a n₁ b₁ ∧ CodeAt N arr [.call checkInitName] b₁ b₂ ∧
      ExprAt c N arr value n₁ b₂ n' b₃ ∧
      CodeAt N arr [.store (ClassLayout.fieldOffset i)] b₃ a'

mutual

/-- The code of a statement. -/
def StmtAt : Stmt → (n a n' a' : Nat) → Prop
  | .assign g e _, n, a, n', a' => AssignAt c N arr e g n a n' a'
  | .expr e _, n, a, n', a' =>
    ∃ b, ExprAt c N arr e n a n' b ∧ CodeAt N arr [.localSet scratchName] b a'
  | .ret e _, n, a, n', a' => ∃ b, ExprAt c N arr e n a n' b ∧ CodeAt N arr [.ret] b a'
  | .pass _, n, a, n', a' => a' = a ∧ n' = n
  | .cond first others otherwise _, n, a, n', a' =>
    ∃ n₁ n₂ b₁ b₂, BranchAt a' first (n + 1) a n₁ b₁ ∧ BranchesAt a' others n₁ b₁ n₂ b₂ ∧
      BlockAt otherwise n₂ b₂ n' a'
  | .loop (.mk test body) _, n, a, n', a' =>
    ∃ n₁ b₁ b₂, ExprAt c N arr test (n + 2) a n₁ b₁ ∧
      OpsAt arr b₁ [.eqz, .jumpIf a'] ∧ BlockAt body n₁ (b₁ + 2) n' b₂ ∧
      OpsAt arr b₂ [.jump a] ∧ a' = b₂ + 1

/-- The code of statements in order. -/
def BlockAt : List Stmt → (n a n' a' : Nat) → Prop
  | [], n, a, n', a' => a' = a ∧ n' = n
  | s :: ss, n, a, n', a' => ∃ n₁ b, StmtAt s n a n₁ b ∧ BlockAt ss n₁ b n' a'

/-- The code of a branch, which leaves to `exit`. -/
def BranchAt (exit : Nat) : Branch → (n a n' a' : Nat) → Prop
  | .mk test body, n, a, n', a' =>
    ∃ n₁ b₁ b₂, ExprAt c N arr test n a n₁ b₁ ∧ OpsAt arr b₁ [.jumpUnless a'] ∧
      BlockAt body n₁ (b₁ + 1) n' b₂ ∧ OpsAt arr b₂ [.jump exit] ∧ a' = b₂ + 1

/-- The code of branches in order. -/
def BranchesAt (exit : Nat) : List Branch → (n a n' a' : Nat) → Prop
  | [], n, a, n', a' => a' = a ∧ n' = n
  | b :: bs, n, a, n', a' => ∃ n₁ k, BranchAt exit b n a n₁ k ∧ BranchesAt exit bs n₁ k n' a'

end

end Emit

end ObjLang
