import ObjLang.Proofs.Linked.Layout
import ObjLang.Proofs.Machine.Trace

/-!
# ObjLang.Proofs.Machine.Structured — running bodies as trees

A body can be run without positions and jumps: a call keeps the items that are left in the innermost
region and, for each region around them, what follows it.  A conditional region runs its first part
if the word is not zero, and else the next one, if there is one.  A branch leaves the innermost block
of its label, or restarts the innermost loop.  A machine that runs linked code and this one take the
same steps.
-/

namespace ObjLang

open Code (Instr Item Func Module itemsCode ItemsFit)

namespace Structured

/-! ### Places in a body -/

/-- A region around some items, with the items behind it. -/
inductive Around where
  | block (label : String) (after : List Item)
  | loop (label : String) (body after : List Item)
  /-- A part of a conditional region, with the parts that follow it. -/
  | part (others : List (List Item)) (after : List Item)

/-- A place in a body: the items that are left in the innermost region, and the regions around it,
innermost first. -/
structure Place where
  items : List Item
  around : List Around := []

/-- The place behind a part of a conditional region that is skipped: the start of the next part, or
what follows the region. -/
def Place.behind (others : List (List Item)) (after : List Item) (around : List Around) : Place :=
  match others with
  | [] => ⟨after, around⟩
  | p :: ps => ⟨p, .part ps after :: around⟩

/-- What stands at a place. -/
inductive Point where
  /-- An instruction, with the place behind it. -/
  | plain (i : Instr) (next : Place)
  /-- A conditional region, with the places where it goes on for a word that is not zero and for
  zero. -/
  | test (yes no : Place)
  /-- The end of a part of a conditional region; the part that follows it is skipped. -/
  | skip (next : Place)
  /-- The end of the body. -/
  | finish

/-- Bounds the number of regions that are entered or left before an instruction is met. -/
noncomputable def weight : List Around → Nat
  | [] => 0
  | .block _ after :: around | .loop _ _ after :: around | .part _ after :: around =>
    sizeOf after + 1 + weight around

/-- What stands at a place.  To enter a block or a loop, or to come to its end, takes no step. -/
def point : List Item → List Around → Point
  | .plain i :: after, around => .plain i ⟨after, around⟩
  | .cond first others :: after, around =>
    .test ⟨first, .part others after :: around⟩ (.behind others after around)
  | .block l body :: after, around => point body (.block l after :: around)
  | .loop l body :: after, around => point body (.loop l body after :: around)
  | [], .part (_ :: others) after :: around => .skip (.behind others after around)
  | [], .part [] after :: around => point after around
  | [], .block _ after :: around => point after around
  | [], .loop _ _ after :: around => point after around
  | [], [] => .finish
termination_by items around => sizeOf items + weight around
decreasing_by all_goals simp [weight]; try omega

/-- The place to which a branch leads: behind the innermost block of its label, or to the start of
the innermost loop.  A label that no region has leads to the end of the body. -/
def Place.branch (label : String) : List Around → Place
  | [] => ⟨[], []⟩
  | .block l after :: around => if l = label then ⟨after, around⟩ else branch label around
  | .loop l body after :: around =>
    if l = label then ⟨body, .loop l body after :: around⟩ else branch label around
  | .part _ _ :: around => branch label around

/-! ### States -/

/-- A module whose functions are given as trees. -/
structure Forest where
  module : Module
  linked : LinkedModule
  maxDepth : Nat
  tree : Func → List Item

namespace Forest

/-- The function of a number that is not imported. -/
def function? (p : Forest) (k : Nat) : Option Func :=
  p.module.functions[k - p.module.imports.length]?

/-- Where the names in a function lead. -/
def names (p : Forest) (k : Nat) : Names :=
  match p.function? k with
  | some f => p.module.names f
  | none => ⟨[], fun _ => 0, fun _ => 0, fun _ => 0⟩

/-- The tree of a function. -/
def body (p : Forest) (k : Nat) : List Item :=
  match p.function? k with
  | some f => p.tree f
  | none => []

variable {p : Forest} {k : Nat} {f : Func}

theorem names_eq (h : p.function? k = some f) : p.names k = p.module.names f := by
  rw [names, h]

theorem body_eq (h : p.function? k = some f) : p.body k = p.tree f := by
  rw [body, h]

end Forest

/-- A call under way. -/
structure Call where
  function : Nat
  place : Place
  locals : Array Int32
  /-- The operands, the latest first. -/
  stack : List Int32
  /-- Number of calls that this one is nested in. -/
  depth : Nat

/-- An invocation under way: the innermost call, and those that wait for it, innermost first. -/
structure State where
  store : Store
  call : Call
  callers : List Call := []

/-- What a step leads to. -/
inductive Outcome where
  | next (s : State)
  | done (s : Store) (value : Int32)
  | fault (s : Store) (f : Fault)

namespace State

/-- Stops with a trap. -/
def trap (s : State) (e : Trap) : Outcome := .fault s.store (.trap e)

/-- Goes on at a place. -/
def go (s : State) (place : Place) : State := { s with call := { s.call with place } }

/-- Replaces the operands. -/
def withStack (s : State) (stack : List Int32) : State :=
  { s with call := { s.call with stack } }

/-- Adds an operand. -/
def push (s : State) (v : Int32) : State := s.withStack (v :: s.call.stack)

/-- Takes an operand. -/
def pop (s : State) (k : Int32 → State → Outcome) : Outcome :=
  match s.call.stack with
  | [] => s.trap .stackUnderflow
  | v :: rest => k v (s.withStack rest)

/-- Gives a local a value. -/
def setLocal (s : State) (slot : Nat) (v : Int32) : Outcome :=
  if slot < s.call.locals.size then
    .next { s with call := { s.call with locals := s.call.locals.setIfInBounds slot v } }
  else .fault s.store .noVariable

/-- Gives a global a value. -/
def setGlobal (s : State) (index : Nat) (v : Int32) : Outcome :=
  if index < s.store.globals.size then
    .next { s with store := { s.store with globals := s.store.globals.setIfInBounds index v } }
  else .fault s.store .noVariable

/-- Reads a word of memory. -/
def load (s : State) (address : Int32) (offset : Nat) : Outcome :=
  match s.store.memory.load address offset with
  | .ok v => .next (s.push v)
  | .error e => s.trap e

/-- Writes a word of memory. -/
def save (s : State) (address : Int32) (offset : Nat) (v : Int32) : Outcome :=
  match s.store.memory.store address offset v with
  | .ok memory => .next { s with store := { s.store with memory } }
  | .error e => s.trap e

/-- Adds a line to the output. -/
def print (s : State) (line : String) : State :=
  { s with store := { s.store with output := s.store.output.push line } }

/-- Calls a function with the latest operands as arguments. -/
def invoke (p : Forest) (s : State) (index params : Nat) : Outcome :=
  let args := (s.call.stack.take params).reverse
  if args.length < params then s.trap .stackUnderflow
  else
    let s := s.withStack (s.call.stack.drop params)
    match p.linked.import? index with
    | some f =>
      match f.call args with
      | .ok (.line l) => .next (s.print l)
      | .ok (.value v) => .next (s.push v)
      | .error e => s.trap e
    | none =>
      match Thread.newFrame p.linked p.maxDepth index args (s.call.depth + 1) with
      | .ok F =>
        .next ⟨s.store, ⟨index, ⟨p.body index, []⟩, F.locals, F.stack, F.depth⟩,
          s.call :: s.callers⟩
      | .error e => s.trap e

/-- Calls the function at a position of the table. -/
def invokeThrough (p : Forest) (s : State) (position : Int32) (params : Nat) : Outcome :=
  let index? := if position < 0 then none else p.linked.table[position.toInt.toNat]?
  match index?.bind fun index => (p.linked.signature? index).map (index, ·) with
  | none => s.trap (.undefinedElement position)
  | some (index, actual, hasResult) =>
    if actual = params ∧ hasResult then s.invoke p index params
    else s.trap (.callMismatch params actual)

/-- Ends the innermost call; its latest operand is its value. -/
def leave (s : State) : Outcome :=
  s.pop fun v s =>
    match s.callers with
    | [] => .done s.store v
    | caller :: callers => .next (push ⟨s.store, caller, callers⟩ v)

/-- Runs an instruction, from the place behind it. -/
def exec (p : Forest) (s : State) : Instr → Outcome
  | .const n => .next (s.push n)
  | .localGet x =>
    match s.call.locals[(p.names s.call.function).slot x]? with
    | some v => .next (s.push v)
    | none => .fault s.store .noVariable
  | .localSet x => s.pop fun v s => s.setLocal ((p.names s.call.function).slot x) v
  | .globalGet x =>
    match s.store.globals[(p.names s.call.function).global x]? with
    | some v => .next (s.push v)
    | none => .fault s.store .noVariable
  | .globalSet x => s.pop fun v s => s.setGlobal ((p.names s.call.function).global x) v
  | .load offset => s.pop fun address s => s.load address offset
  | .store offset => s.pop fun v s => s.pop fun address s => s.save address offset v
  | .binary op => s.pop fun b s => s.pop fun a s =>
    match op.eval a b with
    | .ok v => .next (s.push v)
    | .error e => s.trap e
  | .eqz => s.pop fun v s => .next (s.push (truthWord (v == 0)))
  | .call g =>
    match p.linked.signature? ((p.names s.call.function).function g) with
    | some (params, _) => s.invoke p ((p.names s.call.function).function g) params
    | none => s.trap (.undefinedElement (Int32.ofNat ((p.names s.call.function).function g)))
  | .callIndirect x => s.pop fun position s =>
    s.invokeThrough p position ((p.names s.call.function).arity x)
  | .drop => s.pop fun _ s => .next s
  | .ret => s.leave
  | .br l => .next (s.go (.branch l s.call.place.around))
  | .brIf l => s.pop fun v s =>
    .next (if v = 0 then s else s.go (.branch l s.call.place.around))
  | .unreachable | .block _ | .loop _ | .ifNonzero | .orElse | .endRegion => s.trap .unreachable

/-- Takes the next step; at the end of its body, the call ends. -/
def step (p : Forest) (s : State) : Outcome :=
  match point s.call.place.items s.call.place.around with
  | .plain i next => (s.go next).exec p i
  | .test yes no => s.pop fun v s => .next (s.go (if v = 0 then no else yes))
  | .skip next => .next (s.go next)
  | .finish => s.leave

/-- What a number of steps lead to; an invocation that is over stays as it is. -/
def after (p : Forest) : Nat → State → Outcome
  | 0, s => .next s
  | n + 1, s =>
    match s.step p with
    | .next s => after p n s
    | ended => ended

end State

/-- The store at the end of an invocation with its value or fault. -/
def Outcome.result : Outcome → Option (Store × Except Fault Int32)
  | .next _ => none
  | .done s v => some (s, .ok v)
  | .fault s f => some (s, .error f)

end Structured

/-- What a number of steps lead to; an invocation that is over stays as it is. -/
def Thread.after (p : LinkedModule) (maxDepth : Nat) : Nat → Thread → Step
  | 0, t => .next t
  | n + 1, t =>
    match t.step p maxDepth with
    | .next t => after p maxDepth n t
    | ended => ended

namespace Structured

/-! ### Linked code and trees -/

/-- The regions around some items lie behind the end of the items; the labels of the regions lead to
some targets. -/
inductive AroundAt (N : Names) (arr : Array Op) : List Around → Nat → List (String × Nat) → Prop where
  | body {e : Nat} (h : arr[e]? = none) : AroundAt N arr [] e []
  | block {l : String} {after : List Item} {around : List Around} {e e' : Nat}
      {targets : List (String × Nat)} (hafter : ItemsAt N arr targets after e e')
      (h : AroundAt N arr around e' targets) :
      AroundAt N arr (.block l after :: around) e ((l, e) :: targets)
  | loop {l : String} {body after : List Item} {around : List Around} {start e e' : Nat}
      {targets : List (String × Nat)} (hbody : ItemsAt N arr ((l, start) :: targets) body start e)
      (hafter : ItemsAt N arr targets after e e') (h : AroundAt N arr around e' targets) :
      AroundAt N arr (.loop l body after :: around) e ((l, start) :: targets)
  | part {others : List (List Item)} {after : List Item} {around : List Around}
      {e c e' skip : Nat} {targets : List (String × Nat)}
      (hothers : PartsAt N arr targets others e c skip) (hafter : ItemsAt N arr targets after c e')
      (h : AroundAt N arr around e' targets) :
      AroundAt N arr (.part others after :: around) e targets

/-- A place lies at a position, where the labels around it lead to some targets. -/
def Place.At (N : Names) (arr : Array Op) (targets : List (String × Nat)) (place : Place)
    (a : Nat) : Prop :=
  ∃ e, ItemsAt N arr targets place.items a e ∧ AroundAt N arr place.around e targets

/-- A position in linked code stands for a place. -/
def Place.Stands (N : Names) (arr : Array Op) (place : Place) (a : Nat) : Prop :=
  ∃ targets, place.At N arr targets a

/-- A position in linked code stands for a point. -/
def Point.Stands (N : Names) (arr : Array Op) (a : Nat) : Point → Prop
  | .plain i next => ∃ targets op, N.resolve targets i = some op ∧ arr[a]? = some op ∧
    next.At N arr targets (a + 1)
  | .test yes no => ∃ t, arr[a]? = some (.jumpUnless t) ∧ yes.Stands N arr (a + 1) ∧
    no.Stands N arr t
  | .skip next => ∃ t, arr[a]? = some (.jump t) ∧ next.Stands N arr t
  | .finish => arr[a]? = none

variable {N : Names} {arr : Array Op} {targets : List (String × Nat)} {around : List Around}

theorem stands_behind {others : List (List Item)} {after : List Item} {e c e' skip : Nat}
    (hothers : PartsAt N arr targets others e c skip) (hafter : ItemsAt N arr targets after c e')
    (h : AroundAt N arr around e' targets) :
    (Place.behind others after around).Stands N arr skip := by
  cases others with
  | nil =>
    obtain ⟨rfl, rfl⟩ := hothers
    exact ⟨targets, e', hafter, h⟩
  | cons p ps =>
    obtain ⟨rfl, b, skip', -, hp, hps⟩ := hothers
    exact ⟨targets, b, hp, .part hps hafter h⟩

/-- A branch leads to where its label does. -/
theorem stands_branch {l : String} {e t : Nat} (h : AroundAt N arr around e targets)
    (ht : targets.lookup l = some t) : (Place.branch l around).Stands N arr t := by
  induction h with
  | body h => cases ht
  | @block l' after around e e' targets hafter h ih =>
    by_cases hl : l' = l
    · obtain rfl : e = t := by simpa [hl] using ht
      rw [Place.branch, if_pos hl]
      exact ⟨targets, e', hafter, h⟩
    · have hne : (l == l') = false := beq_eq_false_iff_ne.2 (Ne.symm hl)
      rw [Place.branch, if_neg hl]
      rw [List.lookup_cons, hne] at ht
      exact ih ht
  | @loop l' body after around start e e' targets hbody hafter h ih =>
    by_cases hl : l' = l
    · obtain rfl : start = t := by simpa [hl] using ht
      rw [Place.branch, if_pos hl]
      exact ⟨_, e, hbody, .loop hbody hafter h⟩
    · have hne : (l == l') = false := beq_eq_false_iff_ne.2 (Ne.symm hl)
      rw [Place.branch, if_neg hl]
      rw [List.lookup_cons, hne] at ht
      exact ih ht
  | part hothers hafter h ih => exact ih ht

/-- The position of a place stands for what is there. -/
theorem stands_point {items : List Item} {a e : Nat} (hitems : ItemsAt N arr targets items a e)
    (h : AroundAt N arr around e targets) : (point items around).Stands N arr a := by
  induction items, around using point.induct generalizing targets a e with
  | case1 around i after =>
    obtain ⟨b, ⟨⟨op, hresolve, hop⟩, rfl⟩, hafter⟩ := hitems
    rw [point]
    exact ⟨targets, op, hresolve, hop, e, hafter, h⟩
  | case2 around first others after =>
    obtain ⟨c, ⟨b, skip, hop, hfirst, hothers⟩, hafter⟩ := hitems
    rw [point]
    exact ⟨skip, hop, ⟨targets, b, hfirst, .part hothers hafter h⟩, stands_behind hothers hafter h⟩
  | case3 around l body after ih =>
    obtain ⟨b, hbody, hafter⟩ := hitems
    rw [point]
    exact ih hbody (.block hafter h)
  | case4 around l body after ih =>
    obtain ⟨b, hbody, hafter⟩ := hitems
    rw [point]
    exact ih hbody (.loop hbody hafter h)
  | case5 p others after around =>
    obtain rfl := hitems
    rw [point]
    cases h with
    | part hothers hafter h =>
      obtain ⟨-, b, skip, hop, hp, hothers⟩ := hothers
      exact ⟨skip, hop, stands_behind hothers hafter h⟩
  | case6 after around ih =>
    obtain rfl := hitems
    rw [point]
    cases h with
    | part hothers hafter h =>
      obtain ⟨rfl, rfl⟩ := hothers
      exact ih hafter h
  | case7 l after around ih =>
    obtain rfl := hitems
    rw [point]
    cases h with
    | block hafter h => exact ih hafter h
  | case8 l body after around ih =>
    obtain rfl := hitems
    rw [point]
    cases h with
    | loop hbody hafter h => exact ih hafter h
  | case9 =>
    obtain rfl := hitems
    rw [point]
    cases h with
    | body h => exact h

/-! ### Steps of both machines -/

/-- A call of linked code and a call of a tree: they have the same function, locals, operands and
depth. -/
structure Same (p : LinkedModule) (F : Frame) (c : Call) : Prop where
  code : (p.function? c.function).map (·.code) = some F.code
  locals : F.locals = c.locals
  stack : F.stack = c.stack
  depth : F.depth = c.depth

/-- Moreover they are at the same place. -/
structure Follows (p : Forest) (F : Frame) (c : Call) : Prop extends Same p.linked F c where
  stands : c.place.Stands (p.names c.function) F.code F.position

/-- Two invocations with the same store and the same calls, at the same places. -/
structure Mirrors (p : Forest) (t : Thread) (s : State) : Prop where
  store : t.store = s.store
  call : Follows p t.frame s.call
  callers : List.Forall₂ (Follows p) t.callers s.callers

/-- Steps that lead to such invocations, or end them alike. -/
inductive Alike (p : Forest) : Step → Outcome → Prop where
  | next {t : Thread} {s : State} (h : Mirrors p t s) : Alike p (.next t) (.next s)
  | done (s : Store) (v : Int32) : Alike p (.done s v) (.done s v)
  | fault (s : Store) (f : Fault) : Alike p (.fault s f) (.fault s f)

/-- The bodies of functions lie in their linked code. -/
def Forest.Laid (p : Forest) : Prop :=
  ∀ k lf, p.linked.function? k = some lf →
    ItemsAt (p.names k) lf.code [] (p.body k) 0 lf.code.size

theorem Forest.Laid.stands {p : Forest} (hp : p.Laid) {k : Nat} {lf : LinkedFunction}
    (hlf : p.linked.function? k = some lf) :
    Place.Stands (p.names k) lf.code ⟨p.body k, []⟩ 0 :=
  ⟨[], _, hp k lf hlf, .body (Array.getElem?_eq_none (Nat.le_refl _))⟩

namespace Mirrors

variable {p : Forest} {t : Thread} {s : State}

theorem fault (h : Mirrors p t s) (f : Fault) : Alike p (.fault t.store f) (.fault s.store f) :=
  h.store ▸ .fault _ f

theorem trap (h : Mirrors p t s) (e : Trap) : Alike p (t.trap e) (s.trap e) := h.fault (.trap e)

theorem withStack (h : Mirrors p t s) (S : List Int32) :
    Mirrors p (t.withStack S) (s.withStack S) where
  store := h.store
  call := { h.call with stack := rfl }
  callers := h.callers

theorem push (h : Mirrors p t s) (v : Int32) : Mirrors p (t.push v) (s.push v) := by
  rw [Thread.push, State.push, h.call.stack]
  exact h.withStack _

theorem withStore (h : Mirrors p t s) (store : Store) :
    Mirrors p { t with store } { s with store } where
  store := rfl
  call := h.call
  callers := h.callers

theorem go (h : Mirrors p t s) {place : Place} {a : Nat}
    (hstands : place.Stands (p.names s.call.function) t.frame.code a) :
    Mirrors p (t.jump a) (s.go place) where
  store := h.store
  call := { h.call with stands := hstands }
  callers := h.callers

theorem pop (h : Mirrors p t s) {k : Int32 → Thread → Step} {k' : Int32 → State → Outcome}
    (hk : ∀ v S, Alike p (k v (t.withStack S)) (k' v (s.withStack S))) :
    Alike p (t.pop k) (s.pop k') := by
  unfold Thread.pop State.pop
  rw [h.call.stack]
  cases s.call.stack with
  | nil => exact h.trap _
  | cons v S => exact hk v S

theorem setLocal (h : Mirrors p t s) (slot : Nat) (v : Int32) :
    Alike p (t.setLocal slot v) (s.setLocal slot v) := by
  unfold Thread.setLocal State.setLocal
  rw [h.call.locals]
  split
  · exact .next ⟨h.store, { h.call with locals := rfl }, h.callers⟩
  · exact h.fault _

theorem setGlobal (h : Mirrors p t s) (index : Nat) (v : Int32) :
    Alike p (t.setGlobal index v) (s.setGlobal index v) := by
  unfold Thread.setGlobal State.setGlobal
  rw [h.store]
  split
  · exact .next (h.withStore _)
  · exact .fault _ _

theorem load (h : Mirrors p t s) (address : Int32) (offset : Nat) :
    Alike p (t.load address offset) (s.load address offset) := by
  unfold Thread.load State.load
  rw [h.store]
  cases s.store.memory.load address offset with
  | ok v => exact .next (h.push v)
  | error e => exact h.trap e

theorem save (h : Mirrors p t s) (address : Int32) (offset : Nat) (v : Int32) :
    Alike p (t.save address offset v) (s.save address offset v) := by
  unfold Thread.save State.save Memory.store
  rw [h.store]
  simp only
  split
  · exact .next (h.withStore _)
  · exact h.trap _

theorem print (h : Mirrors p t s) (line : String) : Mirrors p (t.print line) (s.print line) := by
  unfold Thread.print State.print
  rw [h.store]
  exact h.withStore _

theorem leave (h : Mirrors p t s) : Alike p t.leave s.leave := by
  refine h.pop fun v S => ?_
  obtain ⟨store, F, Fs⟩ := t
  obtain ⟨store', c, cs⟩ := s
  obtain ⟨rfl, -, hcallers⟩ := h
  cases hcallers with
  | nil => exact .done _ _
  | cons hcaller hcallers => exact .next (push ⟨rfl, hcaller, hcallers⟩ v)

theorem newFrame (hp : p.Laid) {k depth : Nat} {args : List Int32} {F : Frame}
    (h : Thread.newFrame p.linked p.maxDepth k args depth = .ok F) :
    Follows p F ⟨k, ⟨p.body k, []⟩, F.locals, F.stack, F.depth⟩ := by
  obtain ⟨lf, hlf, -, hcode, hposition, -, -⟩ := Thread.newFrame_ok h
  refine { code := by rw [hlf, hcode]; rfl, locals := rfl, stack := rfl, depth := rfl, stands := ?_ }
  rw [hcode, hposition]
  exact hp.stands hlf

theorem invoke (h : Mirrors p t s) (hp : p.Laid) (k params : Nat) :
    Alike p (t.call p.linked p.maxDepth k params) (s.invoke p k params) := by
  unfold Thread.call State.invoke
  rw [h.call.stack]
  simp only
  split
  · exact h.trap _
  · have h := h.withStack (s.call.stack.drop params)
    cases p.linked.import? k with
    | some f =>
      simp only
      cases f.call (s.call.stack.take params).reverse with
      | error e => exact h.trap e
      | ok r =>
        cases r with
        | line l => exact .next (h.print l)
        | value v => exact .next (h.push v)
    | none =>
      simp only [h.call.depth]
      cases hF : Thread.newFrame p.linked p.maxDepth k (s.call.stack.take params).reverse
          ((s.withStack (s.call.stack.drop params)).call.depth + 1) with
      | error e => exact h.trap e
      | ok F => exact .next ⟨h.store, newFrame hp hF, .cons h.call h.callers⟩

theorem invokeThrough (h : Mirrors p t s) (hp : p.Laid) (position : Int32) (params : Nat) :
    Alike p (t.callThrough p.linked p.maxDepth position params)
      (s.invokeThrough p position params) := by
  unfold Thread.callThrough State.invokeThrough
  simp only
  generalize (if position < 0 then none else p.linked.table[position.toInt.toNat]?).bind
    (fun k => (p.linked.signature? k).map (k, ·)) = found
  cases found with
  | none => exact h.trap _
  | some callee =>
    simp only
    split
    · exact h.invoke hp _ _
    · exact h.trap _

/-- An instruction does the same in linked code and in a tree. -/
theorem exec (h : Mirrors p t s) (hp : p.Laid) {targets : List (String × Nat)} {i : Instr} {op : Op}
    {e : Nat} (hop : (p.names s.call.function).resolve targets i = some op)
    (haround : AroundAt (p.names s.call.function) t.frame.code s.call.place.around e targets) :
    Alike p (t.exec p.linked p.maxDepth op) (s.exec p i) := by
  cases i with
  | br l =>
    obtain ⟨a, ha, rfl⟩ := Option.map_eq_some_iff.1 hop
    exact .next (h.go (stands_branch haround ha))
  | brIf l =>
    obtain ⟨a, ha, rfl⟩ := Option.map_eq_some_iff.1 hop
    simp only [Thread.exec, State.exec]
    refine h.pop fun v S => ?_
    have h := h.withStack S
    by_cases hv : v = 0
    · simp only [hv, if_true]
      exact .next h
    · simp only [hv, if_false]
      exact .next (h.go (stands_branch haround ha))
  | localGet x =>
    obtain rfl : Op.localGet _ = op := Option.some.inj hop
    simp only [Thread.exec, State.exec, h.call.locals]
    cases s.call.locals[(p.names s.call.function).slot x]? with
    | some v => exact .next (h.push v)
    | none => exact h.fault _
  | globalGet x =>
    obtain rfl : Op.globalGet _ = op := Option.some.inj hop
    simp only [Thread.exec, State.exec, h.store]
    cases s.store.globals[(p.names s.call.function).global x]? with
    | some v => exact .next (h.push v)
    | none => exact .fault _ _
  | localSet x =>
    obtain rfl : Op.localSet _ = op := Option.some.inj hop
    simp only [Thread.exec, State.exec]
    refine h.pop fun v S => ?_
    exact (h.withStack S).setLocal _ v
  | globalSet x =>
    obtain rfl : Op.globalSet _ = op := Option.some.inj hop
    simp only [Thread.exec, State.exec]
    refine h.pop fun v S => ?_
    exact (h.withStack S).setGlobal _ v
  | load o =>
    obtain rfl : Op.load _ = op := Option.some.inj hop
    simp only [Thread.exec, State.exec]
    refine h.pop fun a S => ?_
    exact (h.withStack S).load a o
  | store o =>
    obtain rfl : Op.store _ = op := Option.some.inj hop
    simp only [Thread.exec, State.exec]
    refine h.pop fun v S => ?_
    refine (h.withStack S).pop fun a S' => ?_
    exact ((h.withStack S).withStack S').save a o v
  | binary o =>
    obtain rfl : Op.binary _ = op := Option.some.inj hop
    simp only [Thread.exec, State.exec]
    refine h.pop fun b S => ?_
    refine (h.withStack S).pop fun a S' => ?_
    have h := (h.withStack S).withStack S'
    cases o.eval a b with
    | ok v => exact .next (h.push v)
    | error e => exact h.trap e
  | call g =>
    obtain rfl : Op.call _ = op := Option.some.inj hop
    simp only [Thread.exec, State.exec]
    cases p.linked.signature? ((p.names s.call.function).function g) with
    | some sig => exact h.invoke hp _ _
    | none => exact h.trap _
  | callIndirect x =>
    obtain rfl : Op.callIndirect _ = op := Option.some.inj hop
    simp only [Thread.exec, State.exec]
    refine h.pop fun a S => ?_
    exact (h.withStack S).invokeThrough hp a _
  | const n =>
    cases hop
    exact .next (h.push n)
  | eqz =>
    obtain rfl : Op.eqz = op := Option.some.inj hop
    simp only [Thread.exec, State.exec]
    refine h.pop fun v S => ?_
    exact .next ((h.withStack S).push _)
  | drop =>
    obtain rfl : Op.drop = op := Option.some.inj hop
    simp only [Thread.exec, State.exec]
    refine h.pop fun v S => ?_
    exact .next (h.withStack S)
  | ret =>
    cases hop
    exact h.leave
  | unreachable | block l | loop l | ifNonzero | orElse | endRegion =>
    cases hop
    exact h.trap _

/-- A step does the same in linked code and in a tree. -/
theorem step (h : Mirrors p t s) (hp : p.Laid) :
    Alike p (t.step p.linked p.maxDepth) (s.step p) := by
  obtain ⟨targets, e, hitems, haround⟩ := h.call.stands
  have hpoint := stands_point hitems haround
  unfold Thread.step State.step
  cases hat : point s.call.place.items s.call.place.around with
  | plain i next =>
    rw [hat] at hpoint
    obtain ⟨targets, op, hresolve, hop, e, hnext, haround⟩ := hpoint
    rw [hop]
    exact (h.go ⟨targets, e, hnext, haround⟩).exec hp hresolve haround
  | test yes no =>
    rw [hat] at hpoint
    obtain ⟨a, hop, hyes, hno⟩ := hpoint
    rw [hop]
    simp only [Thread.exec, Thread.pop, State.pop, Thread.jump, h.call.stack]
    cases s.call.stack with
    | nil => exact h.trap _
    | cons v S =>
      by_cases hv : v = 0
      · simp only [hv, if_true]
        exact .next ((h.withStack S).go hno)
      · simp only [hv, if_false]
        exact .next ((h.withStack S).go hyes)
  | skip next =>
    rw [hat] at hpoint
    obtain ⟨a, hop, hnext⟩ := hpoint
    rw [hop]
    exact .next (h.go hnext)
  | finish =>
    rw [hat] at hpoint
    have hop : t.frame.code[t.frame.position]? = none := hpoint
    rw [hop]
    exact h.leave

theorem after (h : Mirrors p t s) (hp : p.Laid) (n : Nat) :
    Alike p (t.after p.linked p.maxDepth n) (s.after p n) := by
  induction n generalizing t s with
  | zero => exact .next h
  | succ n ih =>
    have hstep := h.step hp
    rw [Thread.after, State.after]
    generalize t.step p.linked p.maxDepth = x, s.step p = y at hstep
    cases hstep with
    | next h => exact ih h
    | done s v => exact .done s v
    | fault s f => exact .fault s f

end Mirrors

/-- Two invocations with the same store and the same calls, or which ended alike. -/
inductive Agree (p : LinkedModule) : Step → Outcome → Prop where
  | next {t : Thread} {s : State} (hstore : t.store = s.store)
      (hcalls : List.Forall₂ (Same p) t.frames (s.call :: s.callers)) : Agree p (.next t) (.next s)
  | done (s : Store) (v : Int32) : Agree p (.done s v) (.done s v)
  | fault (s : Store) (f : Fault) : Agree p (.fault s f) (.fault s f)

theorem Alike.agree {p : Forest} {x : Step} {y : Outcome} (h : Alike p x y) :
    Agree p.linked x y := by
  cases h with
  | next h =>
    exact .next h.store (.cons h.call.toSame (h.callers.imp fun _ _ h => h.toSame))
  | done s v => exact .done s v
  | fault s f => exact .fault s f

/-- Invocations that agree have the same result, and if one is under way, so is the other. -/
theorem run_eq_result {p : LinkedModule} {maxDepth : Nat} {n : Nat} {t : Thread} {y : Outcome}
    (h : Agree p (t.after p maxDepth n) y) : t.run p maxDepth n = y.result := by
  induction n generalizing t with
  | zero =>
    cases h
    rfl
  | succ n ih =>
    rw [Thread.after] at h
    rw [Thread.run]
    cases hstep : t.step p maxDepth with
    | next t' =>
      rw [hstep] at h
      exact ih h
    | done s v =>
      rw [hstep] at h
      cases h
      rfl
    | fault s f =>
      rw [hstep] at h
      cases h
      rfl

end Structured

/-! ### Linked modules -/

/-- A function of a linked module, by its number. -/
theorem Code.Module.Links.function? {m : Module} {L : LinkedModule} (h : m.Links L) {k : Nat}
    {f : Func} (hf : m.functions[k]? = some f) :
    ∃ lf, f.link m = .ok lf ∧ L.function? (m.imports.length + k) = some lf := by
  have hsize : L.imports.size = m.imports.length := h.imports.length_eq.symm
  obtain ⟨hlt, rfl⟩ := List.getElem?_eq_some_iff.1 hf
  have hlt' : k < L.functions.toList.length := h.functions.length_eq ▸ hlt
  refine ⟨_, (List.forall₂_iff_get.1 h.functions).2 k hlt hlt', ?_⟩
  rw [LinkedModule.function?, hsize, if_neg (by omega), Nat.add_sub_cancel_left]
  exact Array.getElem?_eq_getElem hlt'

theorem Code.Module.Links.exists_function {m : Module} {L : LinkedModule} (h : m.Links L) {k : Nat}
    {lf : LinkedFunction} (hlf : L.function? k = some lf) :
    ∃ f, m.functions[k - m.imports.length]? = some f ∧ f.link m = .ok lf := by
  have hsize : L.imports.size = m.imports.length := h.imports.length_eq.symm
  unfold LinkedModule.function? at hlf
  split at hlf
  · cases hlf
  · rw [hsize] at hlf
    obtain ⟨hlt, rfl⟩ := Array.getElem?_eq_some_iff.1 hlf
    have hlt' : k - m.imports.length < m.functions.length := h.functions.length_eq ▸ hlt
    exact ⟨_, List.getElem?_eq_getElem hlt', (List.forall₂_iff_get.1 h.functions).2 _ hlt' hlt⟩

open Structured

theorem Structured.Forest.laid {p : Forest} (h : p.module.Links p.linked)
    (htree : ∀ f ∈ p.module.functions,
      itemsCode (p.tree f) = f.body ∧ ItemsFit p.module f [] (p.tree f)) : p.Laid := by
  intro k lf hlf
  obtain ⟨f, hf, hlink⟩ := h.exists_function hlf
  obtain ⟨hcode, hfits⟩ := htree f (List.mem_of_getElem? hf)
  rw [Forest.names_eq hf, Forest.body_eq hf]
  exact itemsAt_of_link hlink hcode hfits

/-- Linked code takes the same steps as the trees of its functions: from the start of a body on, with
any locals and operands, both come to the same store, calls and results after every number of
steps. -/
theorem Code.Module.runs_structured {m : Module} (h : m.Closed) : ∃ L, m.link = .ok L ∧
    ∀ tree : Func → List Item,
      (∀ f ∈ m.functions, itemsCode (tree f) = f.body ∧ ItemsFit m f [] (tree f)) →
    ∀ k f, m.functions[k]? = some f → ∃ lf, f.link m = .ok lf ∧
      L.function? (m.imports.length + k) = some lf ∧
      ∀ maxDepth store locals stack depth n,
        let t : Thread := ⟨store, ⟨lf.code, 0, locals, stack, depth⟩, []⟩
        let s : State :=
          ⟨store, ⟨m.imports.length + k, ⟨tree f, []⟩, locals, stack, depth⟩, []⟩
        let p : Forest := ⟨m, L, maxDepth, tree⟩
        Agree L (t.after L maxDepth n) (s.after p n) ∧
          t.run L maxDepth n = (s.after p n).result := by
  obtain ⟨L, hL⟩ := link_isOk.2 h
  have hlinks := link_eq_ok hL
  refine ⟨L, hL, fun tree htree k f hf => ?_⟩
  obtain ⟨lf, hlink, hlf⟩ := hlinks.function? hf
  refine ⟨lf, hlink, hlf, fun maxDepth store locals stack depth n => ?_⟩
  intro t s p
  have hlaid : p.Laid := Forest.laid hlinks htree
  have hlf' : p.linked.function? s.call.function = some lf := hlf
  have hbody : p.body s.call.function = tree f := Forest.body_eq (by
    rw [Forest.function?, Nat.add_sub_cancel_left]
    exact hf)
  have hstands := hlaid.stands hlf'
  rw [hbody] at hstands
  have hsame : Same L t.frame s.call := ⟨by rw [hlf]; rfl, rfl, rfl, rfl⟩
  have hmirrors : Mirrors p t s := ⟨rfl, ⟨hsame, hstands⟩, .nil⟩
  have hagree := (hmirrors.after hlaid n).agree
  exact ⟨hagree, run_eq_result hagree⟩

namespace Code

/-- Items that take one from an odd number and two from an even one until it is zero. -/
def countdownItems : List Item :=
  [.block "done" [.loop "again" [.plain (.localGet "n"), .plain .eqz, .plain (.brIf "done"),
    .plain (.localGet "n"), .plain (.const 2), .plain (.binary .remS),
    .cond [.plain (.localGet "n"), .plain (.const 1), .plain (.binary .sub), .plain (.localSet "n")]
      [[.plain (.localGet "n"), .plain (.const 2), .plain (.binary .sub), .plain (.localSet "n")]],
    .plain (.br "again")]], .plain (.localGet "n")]

/-- A function with these items as its body. -/
def Func.countdown : Func := ⟨"count", ["n"], [], itemsCode countdownItems⟩

/-- A module with this function. -/
def Module.countdown : Module where
  imports := []
  memory := ⟨"js", "memory", 1⟩
  types := []
  globals := []
  table := []
  functions := [Func.countdown]
  entry := ⟨"main", "count", true⟩

theorem Func.countdown_fits : ItemsFit Module.countdown Func.countdown [] countdownItems := by
  simp [countdownItems, ItemsFit, Item.Fits, PartsFit, Func.Admits, Func.countdown]

theorem Module.countdown_closed : countdown.Closed where
  imports := nofun
  bodies f hf := by
    obtain rfl := List.mem_singleton.1 hf
    exact ⟨countdownItems, rfl, Func.countdown_fits⟩
  table := nofun
  entry := List.mem_singleton.2 rfl

/-- Counting down does the same in linked code and in the tree. -/
theorem Module.countdown_runs : countdown.Closed ∧ ∃ L lf, countdown.link = .ok L ∧
    L.function? 0 = some lf ∧ ∀ maxDepth store locals stack depth n,
      Thread.run L maxDepth n ⟨store, ⟨lf.code, 0, locals, stack, depth⟩, []⟩
        = (State.after ⟨countdown, L, maxDepth, fun _ => countdownItems⟩ n
          ⟨store, ⟨0, ⟨countdownItems, []⟩, locals, stack, depth⟩, []⟩).result := by
  obtain ⟨L, hL, h⟩ := Module.runs_structured countdown_closed
  have htree : ∀ f ∈ countdown.functions, itemsCode countdownItems = f.body ∧
      ItemsFit countdown f [] countdownItems := by
    intro f hf
    obtain rfl := List.mem_singleton.1 hf
    exact ⟨rfl, Func.countdown_fits⟩
  obtain ⟨lf, -, hlf, hrun⟩ := h (fun _ => countdownItems) htree 0 Func.countdown rfl
  exact ⟨countdown_closed, L, lf, hL, hlf, fun maxDepth store locals stack depth n =>
    (hrun maxDepth store locals stack depth n).2⟩

end Code

end ObjLang
