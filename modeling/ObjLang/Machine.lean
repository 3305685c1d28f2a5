import ObjLang.Linked
import ObjLang.Memory

/-!
# ObjLang.Machine — execution of linked modules

A thread is a stack of frames, one for each call under way, over a store that outlives it.  A step
runs one instruction of the innermost frame.  A call of a host function is part of a step.
-/

namespace ObjLang

/-- What outlives an invocation: memory, globals, and the lines printed so far. -/
structure Store where
  memory : Memory
  globals : Array Int32
  output : Array String := #[]

/-- A call under way. -/
structure Frame where
  code : Array Op
  /-- The position of the next instruction. -/
  position : Nat := 0
  locals : Array Int32
  /-- The operands, the latest first. -/
  stack : List Int32 := []
  /-- Number of calls that this one is nested in. -/
  depth : Nat

/-- An invocation under way: the innermost call, and those that wait for it, innermost first. -/
structure Thread where
  store : Store
  frame : Frame
  callers : List Frame := []

/-- Why an invocation gives no value. -/
inductive Fault where
  | trap (t : Trap)
  /-- An instruction names a slot or a global that does not exist; linking rules this out. -/
  | noVariable

/-- What a step leads to. -/
inductive Step where
  | next (t : Thread)
  | done (s : Store) (value : Int32)
  | fault (s : Store) (f : Fault)

namespace Thread

/-! ### Operands -/

/-- Stops with a trap. -/
def trap (t : Thread) (e : Trap) : Step := .fault t.store (.trap e)

/-- Replaces the operands. -/
def withStack (t : Thread) (stack : List Int32) : Thread :=
  { t with frame := { t.frame with stack } }

/-- Adds an operand. -/
def push (t : Thread) (v : Int32) : Thread := t.withStack (v :: t.frame.stack)

/-- Takes an operand. -/
@[inline] def pop (t : Thread) (k : Int32 → Thread → Step) : Step :=
  match t.frame.stack with
  | [] => t.trap .stackUnderflow
  | v :: rest => k v (t.withStack rest)

/-- Goes on at a position. -/
def jump (t : Thread) (position : Nat) : Thread :=
  { t with frame := { t.frame with position } }

/-! ### Variables and memory -/

/-- Gives a local a value. -/
def setLocal (t : Thread) (slot : Nat) (v : Int32) : Step :=
  if slot < t.frame.locals.size then
    .next { t with frame := { t.frame with locals := t.frame.locals.setIfInBounds slot v } }
  else .fault t.store .noVariable

/-- Gives a global a value. -/
def setGlobal (t : Thread) (index : Nat) (v : Int32) : Step :=
  if index < t.store.globals.size then
    .next { t with store := { t.store with globals := t.store.globals.setIfInBounds index v } }
  else .fault t.store .noVariable

/-- Reads a word of memory. -/
def load (t : Thread) (address : Int32) (offset : Nat) : Step :=
  match t.store.memory.load address offset with
  | .ok v => .next (t.push v)
  | .error e => t.trap e

/-- Writes a word of memory. -/
def save (t : Thread) (address : Int32) (offset : Nat) (v : Int32) : Step :=
  let i := Memory.position address offset
  if t.store.memory.holds i then
    .next { t with store := { t.store with memory := t.store.memory.setWord i v } }
  else t.trap (.memoryOutOfBounds i)

/-- Adds a line to the output. -/
def print (t : Thread) (line : String) : Thread :=
  { t with store := { t.store with output := t.store.output.push line } }

/-! ### Calls -/

/-- The frame of a new call. -/
def newFrame (p : LinkedModule) (maxDepth index : Nat) (args : List Int32) (depth : Nat) :
    Except Trap Frame :=
  match p.function? index with
  | none => .error (.undefinedElement (Int32.ofNat index))
  | some f =>
    if args.length ≠ f.params then .error (.callMismatch f.params args.length)
    else if maxDepth ≤ depth then .error (.callDepth depth)
    else
      let locals := (args ++ List.replicate (f.slots - args.length) 0).take f.slots
      .ok { code := f.code, locals := locals.toArray, depth }

/-- Calls a function with the latest operands as arguments. -/
def call (p : LinkedModule) (maxDepth : Nat) (t : Thread) (index params : Nat) : Step :=
  let args := (t.frame.stack.take params).reverse
  if args.length < params then t.trap .stackUnderflow
  else
    let t := t.withStack (t.frame.stack.drop params)
    match p.import? index with
    | some f =>
      match f.call args with
      | .ok (.line s) => .next (t.print s)
      | .ok (.value v) => .next (t.push v)
      | .error e => t.trap e
    | none =>
      match newFrame p maxDepth index args (t.frame.depth + 1) with
      | .ok frame => .next ⟨t.store, frame, t.frame :: t.callers⟩
      | .error e => t.trap e

/-- Calls the function at a position of the table, which must have a given number of parameters and
give a word. -/
def callThrough (p : LinkedModule) (maxDepth : Nat) (t : Thread) (position : Int32)
    (params : Nat) : Step :=
  let index? := if position < 0 then none else p.table[position.toInt.toNat]?
  match index?.bind fun index => (p.signature? index).map (index, ·) with
  | none => t.trap (.undefinedElement position)
  | some (index, actual, hasResult) =>
    if actual = params ∧ hasResult then t.call p maxDepth index params
    else t.trap (.callMismatch params actual)

/-- Ends the innermost call; its latest operand is its value. -/
def leave (t : Thread) : Step :=
  t.pop fun v t =>
    match t.callers with
    | [] => .done t.store v
    | caller :: callers => .next (push ⟨t.store, caller, callers⟩ v)

/-! ### Steps -/

/-- Runs an instruction. -/
def exec (p : LinkedModule) (maxDepth : Nat) (t : Thread) : Op → Step
  | .const n => .next (t.push n)
  | .localGet slot =>
    match t.frame.locals[slot]? with
    | some v => .next (t.push v)
    | none => .fault t.store .noVariable
  | .localSet slot => t.pop fun v t => t.setLocal slot v
  | .globalGet index =>
    match t.store.globals[index]? with
    | some v => .next (t.push v)
    | none => .fault t.store .noVariable
  | .globalSet index => t.pop fun v t => t.setGlobal index v
  | .load offset => t.pop fun address t => t.load address offset
  | .store offset => t.pop fun v t => t.pop fun address t => t.save address offset v
  | .binary op => t.pop fun b t => t.pop fun a t =>
    match op.eval a b with
    | .ok v => .next (t.push v)
    | .error e => t.trap e
  | .eqz => t.pop fun v t => .next (t.push (truthWord (v == 0)))
  | .call index =>
    match p.signature? index with
    | some (params, _) => t.call p maxDepth index params
    | none => t.trap (.undefinedElement (Int32.ofNat index))
  | .callIndirect params => t.pop fun position t => t.callThrough p maxDepth position params
  | .drop => t.pop fun _ t => .next t
  | .ret => t.leave
  | .unreachable => t.trap .unreachable
  | .jump target => .next (t.jump target)
  | .jumpIf target => t.pop fun v t => .next (if v = 0 then t else t.jump target)
  | .jumpUnless target => t.pop fun v t => .next (if v = 0 then t.jump target else t)

/-- Runs the next instruction; behind the last one, the call ends. -/
def step (p : LinkedModule) (maxDepth : Nat) (t : Thread) : Step :=
  match t.frame.code[t.frame.position]? with
  | some op => (t.jump (t.frame.position + 1)).exec p maxDepth op
  | none => t.leave

/-- Runs at most a number of steps: the store at the end with the value or the fault. -/
def run (p : LinkedModule) (maxDepth : Nat) : Nat → Thread → Option (Store × Except Fault Int32)
  | 0, _ => none
  | n + 1, t =>
    match t.step p maxDepth with
    | .next t => run p maxDepth n t
    | .done s v => some (s, .ok v)
    | .fault s f => some (s, .error f)

end Thread

namespace Store

/-- The store in which a module starts. -/
def start (p : LinkedModule) (pages : Nat) : Store :=
  { memory := .ofPages pages, globals := p.globals }

/-- Calls a function from outside, for at most a number of steps.  There is no value if the function
is a host function that prints. -/
def invoke (p : LinkedModule) (maxDepth steps : Nat) (s : Store) (index : Nat)
    (args : List Int32) : Option (Store × Except Fault (Option Int32)) :=
  match p.import? index with
  | some f =>
    match f.call args with
    | .ok (.line l) => some ({ s with output := s.output.push l }, .ok none)
    | .ok (.value v) => some (s, .ok (some v))
    | .error e => some (s, .error (.trap e))
  | none =>
    match Thread.newFrame p maxDepth index args 0 with
    | .ok frame =>
      (Thread.run p maxDepth steps { store := s, frame }).map fun (s, r) => (s, r.map some)
    | .error e => some (s, .error (.trap e))

end Store

end ObjLang
