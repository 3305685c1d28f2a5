import ObjLang.Proofs.Class.Subclass
import ObjLang.Proofs.Initializers
import ObjLang.Proofs.Machine.Memory
import ObjLang.Proofs.Machine.Visits

/-!
# ObjLang.Proofs.Machine.Typed.Ledger — words of a type, and the blocks of the heap

Words carry no types.  A ledger lists the blocks that a run has allocated so far and what each is
for: an object of a class, or a cell of a variable.  By it a word suits a type or does not: a word of
an object type is zero or the address of an object of a class below.  The heap is sound by a ledger
if the blocks lie apart and every word of a block, and every variable of the module, suits its type.
-/

namespace ObjLang

open Check Check.Facts

-- Memories are compared by the laws of their words, never byte by byte.
attribute [local irreducible] Memory.setWord

/-! ### Blocks -/

/-- What a block of the heap is for. -/
inductive BlockKind where
  | object (l : ClassLayout)
  | cell (v : VarId)

/-- The words of a block. -/
def BlockKind.words : BlockKind → Nat
  | object l => l.words
  | cell _ => 1

/-- A block of the heap. -/
structure Block where
  address : Nat
  kind : BlockKind

/-- The address behind a block. -/
def Block.stop (B : Block) : Nat := B.address + 4 * B.kind.words

/-- The blocks that a run has allocated, with states that it has come to behind the allocator. -/
structure Ledger where
  blocks : List Block
  states : List Trace

namespace Ledger

/-- A ledger that goes on from another one. -/
structure Sub (H H' : Ledger) : Prop where
  blocks : ∀ B ∈ H.blocks, B ∈ H'.blocks
  states : ∀ t ∈ H.states, t ∈ H'.states

theorem Sub.refl (H : Ledger) : H.Sub H := ⟨fun _ h => h, fun _ h => h⟩

theorem Sub.trans {H H' H'' : Ledger} (h : H.Sub H') (h' : H'.Sub H'') : H.Sub H'' :=
  ⟨fun B hB => h'.blocks B (h.blocks B hB), fun t ht => h'.states t (h.states t ht)⟩

/-- The ledger with a further state. -/
def saw (H : Ledger) (t : Trace) : Ledger := ⟨H.blocks, t :: H.states⟩

/-- The ledger with a further block. -/
def add (H : Ledger) (B : Block) : Ledger := ⟨B :: H.blocks, H.states⟩

theorem sub_saw (H : Ledger) (t : Trace) : H.Sub (H.saw t) :=
  ⟨fun _ h => h, fun _ h => List.mem_cons_of_mem _ h⟩

theorem sub_add (H : Ledger) (B : Block) : H.Sub (H.add B) :=
  ⟨fun _ h => List.mem_cons_of_mem _ h, fun _ h => h⟩

end Ledger

/-! ### Words of a type -/

/-- The type of the values of a variable. -/
def CheckedProgram.typeOf (c : CheckedProgram) (v : VarId) : Ty := (c.var v).ty.ty

/-- A word that may stand for a value of a type. -/
def CheckedProgram.Suits (c : CheckedProgram) (bs : List Block) (x : Int32) : Ty → Prop
  | .int => True
  | .bool => x = 0 ∨ x = 1
  | .none => x = 0
  | .object k => x = 0 ∨ ∃ B ∈ bs, x = Int32.ofNat B.address ∧ ∃ l, B.kind = .object l ∧
      c.classes.Below l.name k

/-- A word that may stand at a place in a block: the first word of an object is the start of its
class in the dispatch table, behind it come the fields. -/
def BlockKind.Takes (c : CheckedProgram) (bs : List Block) : BlockKind → Nat → Int32 → Prop
  | object l, 0, x => x = Emit.word l.vtableBase
  | object l, j + 1, x => ∀ f, l.fields[j]? = some f → c.Suits bs x f.ty
  | cell v, _, x => c.Suits bs x (c.typeOf v)

section

variable {c : CheckedProgram} {bs bs' : List Block} {x : Int32} {t t' : Ty}

theorem CheckedProgram.Suits.mono (h : c.Suits bs x t) (hbs : ∀ B ∈ bs, B ∈ bs') :
    c.Suits bs' x t := by
  cases t with
  | object k =>
    obtain h | ⟨B, hB, hx⟩ := h
    · exact .inl h
    · exact .inr ⟨B, hbs B hB, hx⟩
  | _ => exact h

theorem BlockKind.Takes.mono {k : BlockKind} {j : Nat} (h : k.Takes c bs j x)
    (hbs : ∀ B ∈ bs, B ∈ bs') : k.Takes c bs' j x := by
  cases k with
  | object l =>
    cases j with
    | zero => exact h
    | succ j => exact fun f hf => (h f hf).mono hbs
  | cell v => exact CheckedProgram.Suits.mono h hbs

theorem CheckedProgram.suits_zero (c : CheckedProgram) (bs : List Block) (t : Ty) :
    c.Suits bs 0 t := by
  cases t with
  | int => trivial
  | bool => exact .inl rfl
  | none => exact rfl
  | object k => exact .inl rfl

theorem CheckedProgram.suits_truthWord (c : CheckedProgram) (bs : List Block) (b : Bool) :
    c.Suits bs (truthWord b) .bool := by
  cases b
  · exact .inl rfl
  · exact .inr rfl

/-- The word for a literal suits every type that the literal can be the first value of. -/
theorem CheckedProgram.suits_word {v : Literal} (h : v.Fits t) : c.Suits bs v.word t := by
  obtain rfl | ⟨rfl, -⟩ := h
  · cases v with
    | number n => trivial
    | bool b => exact c.suits_truthWord bs b
    | none => exact rfl
  · exact c.suits_zero bs t

/-- What suits a type suits every type that it may be assigned to. -/
theorem CheckedProgram.Suits.assign {defs : List ClassDef} (hl : c.classes.LaidOut defs)
    (h : c.Suits bs x t) (ht : c.classes.hierarchy.isAssignable t t' = true) :
    c.Suits bs x t' := by
  obtain rfl | ⟨rfl, -⟩ | ⟨k, k', rfl, rfl, hk⟩ := hl.isAssignable_iff.1 ht
  · exact h
  · obtain rfl : x = 0 := h
    exact c.suits_zero bs t'
  · obtain h | ⟨B, hB, hx, l, hkind, hbelow⟩ := h
    · exact .inl h
    · exact .inr ⟨B, hB, hx, l, hkind, hbelow.trans hk⟩

end

/-! ### Traps -/

/-- A trap that has nothing to do with the dispatch table or the memory. -/
def Trap.IsPlain : Trap → Prop
  | .undefinedElement _ | .callMismatch _ _ | .memoryOutOfBounds _ => False
  | _ => True

/-! ### Where blocks come from -/

/-- The innermost call is one of the allocator, and about to end: it was asked for `n` words and its
value is `x`. -/
structure Trace.Allocates (m : Code.Module) (u : Trace) (x n : Int32) : Prop where
  function : ∃ a, u.calls.head? = some a ∧ a.function = m.index Emit.allocName
  ends : u.thread.frame.code[u.thread.frame.position]? = none
  value : u.thread.frame.stack.head? = some x
  words : u.thread.frame.locals[0]? = some n

namespace Setting

variable (w : Setting) (s₀ : Trace)

/-- What the innermost call has just asked the allocator for a block for. -/
inductive Wants (t : Trace) : BlockKind → Prop where
  | object {g : Code.Func} {ss : List Stmt} {i : ExprInfo} {callee : Ident} {args : List Expr}
    {y : String} {l : ClassLayout} {n n' a a' : Nat} : t.Executes w.program w.module g ss →
    Expr.OccursIn ss (.call i callee args (some (.construct y))) →
    w.program.classes.get? y = some l →
    Emit.ExprAt w.program (w.module.names g) t.thread.frame.code
      (.call i callee args (some (.construct y))) n a n' a' →
    t.thread.frame.position = a + 2 → Wants t (.object l)
  | cell {outer : List FunDef} {d : FunDef} {g : Code.Func} {v : VarId} {a a' : Nat} :
    w.program.Nest outer d → v ∈ w.program.boxed d → g ∈ w.module.functions →
    g.name = w.program.emitted d →
    (∃ b, t.calls.head? = some b ∧ b.function = w.module.index g.name) →
    (CodeAt (w.module.names g) t.thread.frame.code (Emit.boxParam (w.program.var v)) a a' ∨
      ∃ x, CodeAt (w.module.names g) t.thread.frame.code (Emit.initLocal (w.program.var v) x)
        a a') →
    t.thread.frame.position = a + 2 → Wants t (.cell v)

/-- A state of the run in which the allocator has just handed out some words. -/
structure Hands (a q : Nat) (t : Trace) : Prop where
  seen : Trace.Reaches w.linked w.maxDepth s₀ t
  returned : ∃ u, Trace.Reaches w.linked w.maxDepth s₀ u ∧
    u.next w.linked w.maxDepth = some t ∧ u.Allocates w.module (Int32.ofNat a) (Emit.word q)
  value : t.thread.frame.stack.head? = some (Int32.ofNat a)

/-- A state of the run in which the allocator has just returned a block. -/
structure Gets (B : Block) (t : Trace) : Prop where
  handed : w.Hands s₀ B.address B.kind.words t
  wanted : w.Wants t B.kind

/-! ### The heap -/

/-- The number of a global. -/
def globalIndex (x : String) : Nat := (lastIndex? x (w.module.globals.map (·.name))).getD 0

/-- What is assumed of a program and of the limits that it runs under, and what is known of its
runs. -/
structure Solid (t₀ : State) : Prop where
  compiled : ∃ p o, Compiled p w.program t₀ o w.module w.linked
  base : 0 < w.base ∧ 4 ∣ w.base
  size : w.size < 2 ^ 31
  fields : ∀ l ∈ w.program.classes.layouts, l.fields.length < 2 ^ 28 ∧
    ∀ f ∈ l.fields, f.init.Fits f.ty
  table : w.program.classes.vtable.entries.length < 2 ^ 31
  fits : w.fits
  sound : ∀ s, Trace.Reaches w.linked w.maxDepth s₀ s → w.Sound s

/-- A store is sound by a ledger, where the heap pointer has come to a number.  The pointer may lie
behind the memory, where there was no room for the last block. -/
structure HeapOk (H : Ledger) (st : Store) (heap : Nat) : Prop where
  pointer : st.globals[0]? = some (Int32.ofNat heap)
  memory : st.memory.size = w.size
  low : w.base ≤ heap
  high : heap ≤ w.size + 2 ^ 30
  aligned : 4 ∣ heap
  /-- The run has come to where the allocator handed out each block. -/
  gets : ∀ B ∈ H.blocks, ∃ t ∈ H.states, w.Gets s₀ B t
  inside : ∀ B ∈ H.blocks, w.base ≤ B.address ∧ 4 ∣ B.address ∧ B.stop ≤ heap ∧ B.stop ≤ w.size
  apart : ∀ B ∈ H.blocks, ∀ B' ∈ H.blocks, B = B' ∨ B.stop ≤ B'.address ∨ B'.stop ≤ B.address
  /-- Objects start with the place of their class in the dispatch table; fields and cells hold words
  of their types. -/
  words : ∀ B ∈ H.blocks, ∀ j < B.kind.words,
    B.kind.Takes w.program H.blocks j (st.memory.word (B.address + 4 * j))
  /-- So do the variables of the module. -/
  globals : ∀ d ∈ w.program.program.vars, ∀ v, d.binding = some v →
    ∃ x, st.globals[w.globalIndex d.var.name.name]? = some x ∧
      w.program.Suits H.blocks x (w.program.typeOf v)

variable {w s₀} {H H' : Ledger} {st : Store} {heap : Nat} {B : Block}

theorem HeapOk.saw (h : w.HeapOk s₀ H st heap) (t : Trace) : w.HeapOk s₀ (H.saw t) st heap :=
  { h with gets := fun B hB =>
      (h.gets B hB).imp fun _ ht => ⟨List.mem_cons_of_mem _ ht.1, ht.2⟩ }

/-- A word in a block is written; the others stay. -/
theorem HeapOk.write (h : w.HeapOk s₀ H st heap) (hB : B ∈ H.blocks) {j : Nat}
    (hj : j < B.kind.words) {x : Int32} (hx : B.kind.Takes w.program H.blocks j x) :
    w.HeapOk s₀ H { st with memory := st.memory.setWord (B.address + 4 * j) x } heap where
  pointer := h.pointer
  memory := (Memory.size_setWord ..).trans h.memory
  low := h.low
  high := h.high
  aligned := h.aligned
  gets := h.gets
  inside := h.inside
  apart := h.apart
  words := by
    intro B' hB' j' hj'
    have hstop : B.stop = B.address + 4 * B.kind.words := rfl
    have hstop' : B'.stop = B'.address + 4 * B'.kind.words := rfl
    by_cases hsame : B = B' ∧ j = j'
    · obtain ⟨rfl, rfl⟩ := hsame
      rw [Memory.word_setWord]
      exact hx
    · rw [Memory.word_setWord_of_apart]
      · exact h.words B' hB' j' hj'
      · obtain rfl | hapart | hapart := h.apart B hB B' hB'
        · have hne : j ≠ j' := fun heq => hsame ⟨rfl, heq⟩
          omega
        · omega
        · omega
  globals := h.globals

/-- A word behind all blocks is written. -/
theorem HeapOk.writeFresh (h : w.HeapOk s₀ H st heap) {i : Nat}
    (hi : ∀ B ∈ H.blocks, B.stop ≤ i) (x : Int32) :
    w.HeapOk s₀ H { st with memory := st.memory.setWord i x } heap where
  pointer := h.pointer
  memory := (Memory.size_setWord ..).trans h.memory
  low := h.low
  high := h.high
  aligned := h.aligned
  gets := h.gets
  inside := h.inside
  apart := h.apart
  words := by
    intro B' hB' j' hj'
    have hstop' : B'.stop = B'.address + 4 * B'.kind.words := rfl
    have hle := hi B' hB'
    rw [Memory.word_setWord_of_apart (by omega)]
    exact h.words B' hB' j' hj'
  globals := h.globals

/-- A block behind all others, all of whose words have been written, comes into the ledger. -/
theorem HeapOk.add (h : w.HeapOk s₀ H st heap) (hgets : ∃ t ∈ H.states, w.Gets s₀ B t)
    (hlow : w.base ≤ B.address) (haligned : 4 ∣ B.address) (hheap : B.stop ≤ heap)
    (hsize : B.stop ≤ w.size) (hlast : ∀ B' ∈ H.blocks, B'.stop ≤ B.address)
    (hwords : ∀ j < B.kind.words,
      B.kind.Takes w.program (H.add B).blocks j (st.memory.word (B.address + 4 * j))) :
    w.HeapOk s₀ (H.add B) st heap where
  pointer := h.pointer
  memory := h.memory
  low := h.low
  high := h.high
  aligned := h.aligned
  gets := List.forall_mem_cons.2 ⟨hgets, h.gets⟩
  inside := List.forall_mem_cons.2 ⟨⟨hlow, haligned, hheap, hsize⟩, h.inside⟩
  apart := by
    refine List.forall_mem_cons.2 ⟨List.forall_mem_cons.2 ⟨.inl rfl, fun B' hB' => ?_⟩,
      fun B' hB' => List.forall_mem_cons.2 ⟨?_, h.apart B' hB'⟩⟩
    · exact .inr (.inr (hlast B' hB'))
    · exact .inr (.inl (hlast B' hB'))
  words := List.forall_mem_cons.2 ⟨hwords, fun B' hB' j hj =>
    (h.words B' hB' j hj).mono (H.sub_add B).blocks⟩
  globals := fun d hd v hv => by
    obtain ⟨x, hx, hsuits⟩ := h.globals d hd v hv
    exact ⟨x, hx, hsuits.mono (H.sub_add B).blocks⟩

/-- The heap pointer is moved on. -/
theorem HeapOk.move (h : w.HeapOk s₀ H st heap) {heap' : Nat} (hle : heap ≤ heap')
    (hhigh : heap' ≤ w.size + 2 ^ 30) (haligned : 4 ∣ heap') (hglobals : ∀ d ∈ w.program.program.vars,
      w.globalIndex d.var.name.name ≠ 0) :
    w.HeapOk s₀ H
      { st with globals := st.globals.setIfInBounds 0 (Int32.ofNat heap') } heap' where
  pointer := by
    obtain ⟨hlt, -⟩ := Array.getElem?_eq_some_iff.1 h.pointer
    exact Array.getElem?_setIfInBounds_self_of_lt hlt
  memory := h.memory
  low := Nat.le_trans h.low hle
  high := hhigh
  aligned := haligned
  gets := h.gets
  inside := fun B hB => by
    obtain ⟨hlow, ha, hstop, hsize⟩ := h.inside B hB
    exact ⟨hlow, ha, Nat.le_trans hstop hle, hsize⟩
  apart := h.apart
  words := h.words
  globals := fun d hd v hv => by
    obtain ⟨x, hx, hsuits⟩ := h.globals d hd v hv
    refine ⟨x, ?_, hsuits⟩
    rw [← hx]
    exact Array.getElem?_setIfInBounds_ne (hglobals d hd).symm

/-- A module variable gets a value of its type. -/
theorem HeapOk.setGlobal (h : w.HeapOk s₀ H st heap) {j : Nat} (hj : j ≠ 0) {x : Int32}
    (hx : ∀ d ∈ w.program.program.vars, w.globalIndex d.var.name.name = j → ∀ v,
      d.binding = some v → w.program.Suits H.blocks x (w.program.typeOf v)) :
    w.HeapOk s₀ H { st with globals := st.globals.setIfInBounds j x } heap where
  pointer := (Array.getElem?_setIfInBounds_ne hj).trans h.pointer
  memory := h.memory
  low := h.low
  high := h.high
  aligned := h.aligned
  gets := h.gets
  inside := h.inside
  apart := h.apart
  words := h.words
  globals := fun d hd v hv => by
    obtain ⟨y, hy, hsuits⟩ := h.globals d hd v hv
    by_cases heq : w.globalIndex d.var.name.name = j
    · obtain ⟨hlt, -⟩ := Array.getElem?_eq_some_iff.1 hy
      subst heq
      exact ⟨x, Array.getElem?_setIfInBounds_self_of_lt hlt, hx d hd rfl v hv⟩
    · exact ⟨y, (Array.getElem?_setIfInBounds_ne (Ne.symm heq)).trans hy, hsuits⟩

/-- Something is printed. -/
theorem HeapOk.print (h : w.HeapOk s₀ H st heap) (output : Array String) :
    w.HeapOk s₀ H { st with output } heap :=
  ⟨h.pointer, h.memory, h.low, h.high, h.aligned, h.gets, h.inside, h.apart, h.words, h.globals⟩

/-! ### Variables -/

/-- A word is the address of a cell of what a variable stands for. -/
def CellOf (w : Setting) (bs : List Block) (x : Int32) (v : VarId) : Prop :=
  ∃ B ∈ bs, ∃ u, x = Int32.ofNat B.address ∧ B.kind = .cell u ∧
    w.program.vars.home u = w.program.vars.home v ∧ w.program.typeOf u = w.program.typeOf v

/-- The slot of a variable holds a word of its type, or the address of a cell with one. -/
def VarOk (w : Setting) (bs : List Block) (F : Frame) (v : VarId) : Prop :=
  ∃ x, F.locals[w.program.slot v]? = some x ∧
    if (w.program.var v).isIndirect then w.CellOf bs x v
    else w.program.Suits bs x (w.program.typeOf v)

/-- The slot of a variable in a prologue: a word that is still to move into a cell stands in it
itself, and a cell may still be without its first value. -/
def VarSafe (w : Setting) (s₀ : Trace) (H : Ledger) (F : Frame) (v : VarId) : Prop :=
  w.VarOk H.blocks F v ∨ ∃ x, F.locals[w.program.slot v]? = some x ∧
    (w.program.Suits H.blocks x (w.program.typeOf v) ∨
      ∃ a, x = Int32.ofNat a ∧ ∃ t ∈ H.states, w.Gets s₀ ⟨a, .cell v⟩ t)

/-- The variables of a call of a definition. -/
def FrameOk (w : Setting) (s₀ : Trace) (H : Ledger) (F : Frame) (a : Trace.Call) : Prop :=
  ∀ outer d, w.program.Nest outer d → a.function = w.module.index (w.program.emitted d) →
    ∀ v ∈ (w.program.record d).slots, w.VarSafe s₀ H F v ∧
      (w.program.prologue d ≤ F.position → w.VarOk H.blocks F v)

/-- The calls that wait, none of which is one of the allocator. -/
def CallersOk (w : Setting) (s₀ : Trace) (H : Ledger) (Fs : List Frame) (as : List Trace.Call) :
    Prop :=
  List.Forall₂ (fun F a => w.FrameOk s₀ H F a ∧ a.function ≠ w.module.index Emit.allocName) Fs as

variable {bs bs' : List Block} {F F' : Frame} {a : Trace.Call} {v : VarId} {x : Int32}

theorem CellOf.mono (h : w.CellOf bs x v) (hbs : ∀ B ∈ bs, B ∈ bs') : w.CellOf bs' x v := by
  obtain ⟨B, hB, hx⟩ := h
  exact ⟨B, hbs B hB, hx⟩

theorem VarOk.mono (h : w.VarOk bs F v) (hbs : ∀ B ∈ bs, B ∈ bs')
    (hslot : F'.locals[w.program.slot v]? = F.locals[w.program.slot v]?) : w.VarOk bs' F' v := by
  obtain ⟨x, hx, hok⟩ := h
  refine ⟨x, hslot.trans hx, ?_⟩
  split at hok
  · next hind =>
    rw [if_pos hind]
    exact hok.mono hbs
  · next hind =>
    rw [if_neg hind]
    exact hok.mono hbs

theorem VarSafe.mono (h : w.VarSafe s₀ H F v) (hH : H.Sub H')
    (hslot : F'.locals[w.program.slot v]? = F.locals[w.program.slot v]?) :
    w.VarSafe s₀ H' F' v := by
  obtain h | ⟨x, hx, hok | ⟨a, ha, t, ht, hgets⟩⟩ := h
  · exact .inl (h.mono hH.blocks hslot)
  · exact .inr ⟨x, hslot.trans hx, .inl (hok.mono hH.blocks)⟩
  · exact .inr ⟨x, hslot.trans hx, .inr ⟨a, ha, t, hH.states t ht, hgets⟩⟩

theorem FrameOk.mono (h : w.FrameOk s₀ H F a) (hH : H.Sub H') : w.FrameOk s₀ H' F a :=
  fun outer d hd ha v hv => ⟨(h outer d hd ha v hv).1.mono hH rfl,
    fun hpos => ((h outer d hd ha v hv).2 hpos).mono hH.blocks rfl⟩

theorem CallersOk.mono {Fs : List Frame} {as : List Trace.Call} (h : w.CallersOk s₀ H Fs as)
    (hH : H.Sub H') : w.CallersOk s₀ H' Fs as :=
  List.Forall₂.imp (fun _ _ h => ⟨h.1.mono hH, h.2⟩) h

/-! ### States -/

/-- The block that the allocator handed out last does not lie in the memory, and an address lies in
the block. -/
def Exhausted (w : Setting) (s₀ s : Trace) (n : Nat) : Prop :=
  ∃ B t, Trace.Reaches w.linked w.maxDepth t s ∧ w.Gets s₀ B t ∧ B.address ≤ n ∧ n < B.stop ∧
    w.size < B.stop ∧ B.stop = s.heap

/-- A trap that may stop a run in a state: the dispatch table is never left, and the memory only by a
new block for which there is no room. -/
def Calm (w : Setting) (s₀ s : Trace) : Trap → Prop
  | .undefinedElement _ => False
  | .callMismatch _ _ => False
  | .memoryOutOfBounds n => w.Exhausted s₀ s n
  | _ => True

theorem calm_of_isPlain {s : Trace} {e : Trap} (h : e.IsPlain) : w.Calm s₀ s e := by
  cases e <;> trivial

/-- A state is typed by a ledger: the run went through the states of the ledger, and the heap, the
variables of the module and those of all calls under way suit their types. -/
structure TypedBy (w : Setting) (s₀ : Trace) (H : Ledger) (s : Trace) : Prop where
  states : ∀ t ∈ H.states, Trace.Reaches w.linked w.maxDepth t s
  heap : w.HeapOk s₀ H s.thread.store s.heap
  calls : ∃ a as, s.calls = a :: as ∧ w.FrameOk s₀ H s.thread.frame a ∧
    w.CallersOk s₀ H s.thread.callers as

/-- The allocator, at the end of a call, has moved the heap pointer on by the words asked for; its
value is the address at which the heap pointer was before. -/
structure Allocated (w : Setting) (s : Trace) (x n : Int32) : Prop where
  start : ∃ a as, s.calls = a :: as ∧ x = Int32.ofNat a.start ∧ w.base ≤ a.start ∧
    a.start ≤ w.size ∧ 4 ∣ a.start ∧ s.heap = a.start + 4 * n.toUInt32.toNat ∧
    ∀ b ∈ as, b.function ≠ w.module.index Emit.allocName

/-- What holds of every state of a run. -/
structure Typed (w : Setting) (s₀ : Trace) (s : Trace) : Prop where
  typed : ∃ H, w.TypedBy s₀ H s
  calm : ∀ st e, s.thread.step w.linked w.maxDepth = .fault st (.trap e) → w.Calm s₀ s e
  allocated : ∀ x n, s.Allocates w.module x n → w.Allocated s x n

end Setting

end ObjLang
