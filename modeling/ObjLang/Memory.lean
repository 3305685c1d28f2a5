import ObjLang.Trap
import Std.Data.HashMap

/-!
# ObjLang.Memory — memory of a running program

A memory is a row of bytes, zero at first.  Words are four bytes, the lowest first, at any address.
The address of an access is an unsigned word to which an offset is added without wrapping around.
-/

namespace ObjLang

/-- Bytes of a memory page. -/
def pageSize : Nat := 65536

/-- A memory.  Only bytes that were written are kept. -/
structure Memory where
  /-- The number of bytes. -/
  size : Nat
  written : Std.HashMap Nat UInt8 := ∅

namespace Memory

/-- A memory of a number of pages. -/
def ofPages (pages : Nat) : Memory := { size := pages * pageSize }

/-- The byte at a position. -/
def byte (m : Memory) (i : Nat) : UInt8 := m.written.getD i 0

/-- The position that an address and an offset lead to. -/
def position (address : Int32) (offset : Nat) : Nat := address.toUInt32.toNat + offset

/-- Whether a word at a position lies in the memory. -/
def holds (m : Memory) (i : Nat) : Bool := i + 4 ≤ m.size

/-- The word with given bytes, the lowest first. -/
def wordOfBytes (b₀ b₁ b₂ b₃ : UInt8) : Int32 :=
  Int32.ofNat (b₀.toNat + 0x100 * b₁.toNat + 0x10000 * b₂.toNat + 0x1000000 * b₃.toNat)

/-- The byte of a word that has a number of bytes below it. -/
def byteOfWord (v : Int32) (below : Nat) : UInt8 :=
  UInt8.ofNat (v.toUInt32.toNat >>> (8 * below))

/-- The word at a position. -/
def word (m : Memory) (i : Nat) : Int32 :=
  wordOfBytes (m.byte i) (m.byte (i + 1)) (m.byte (i + 2)) (m.byte (i + 3))

/-- Puts a word at a position. -/
def setWord (m : Memory) (i : Nat) (v : Int32) : Memory :=
  { m with
    written := (((m.written.insert i (byteOfWord v 0)).insert (i + 1) (byteOfWord v 1)).insert
      (i + 2) (byteOfWord v 2)).insert (i + 3) (byteOfWord v 3) }

@[simp] theorem size_setWord (m : Memory) (i : Nat) (v : Int32) : (m.setWord i v).size = m.size := by
  rw [setWord]

/-- Reads a word. -/
def load (m : Memory) (address : Int32) (offset : Nat) : Except Trap Int32 :=
  let i := position address offset
  if m.holds i then .ok (m.word i) else .error (.memoryOutOfBounds i)

/-- Writes a word. -/
def store (m : Memory) (address : Int32) (offset : Nat) (v : Int32) : Except Trap Memory :=
  let i := position address offset
  if m.holds i then .ok (m.setWord i v) else .error (.memoryOutOfBounds i)

end Memory

end ObjLang
