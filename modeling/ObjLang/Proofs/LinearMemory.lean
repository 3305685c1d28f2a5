import Mathlib.Algebra.Ring.Int.Defs
import ObjLang.Proofs.Machine.Memory

/-!
# ObjLang.Proofs.LinearMemory — the laws of the memory

An access is in bounds exactly if the four bytes from its effective address on are.  A store changes
these four bytes and no others, so every later load is known from the word stored and the bytes that
were there before, also a load that overlaps with the store in part.  Stores apart from each other
commute.
-/

namespace ObjLang

namespace Memory

/-- The byte of a word in two's complement that has `k` bytes below it. -/
def digit (v : Int32) (k : Nat) : Int := v.toInt / 256 ^ k % 256

/-! ### Words and bytes -/

theorem toInt_emod (v : Int32) : v.toInt % 2 ^ 32 = v.toUInt32.toNat := by
  have hint : v.toInt = if 2 * v.toUInt32.toNat < 2 ^ 32 then (v.toUInt32.toNat : Int)
      else (v.toUInt32.toNat : Int) - (2 ^ 32 : Nat) := rfl
  have hlt := v.toUInt32.toNat_lt
  rw [hint]
  split <;> omega

/-- Only the lowest 32 bits of a number count for the bytes of its word. -/
theorem digit_eq (v : Int32) {k : Nat} (hk : k < 4) :
    digit v k = (v.toUInt32.toNat / 256 ^ k % 256 : Nat) := by
  have hmod := toInt_emod v
  unfold digit
  obtain rfl | rfl | rfl | rfl : k = 0 ∨ k = 1 ∨ k = 2 ∨ k = 3 := by omega
  all_goals omega

theorem toNat_byteOfWord (v : Int32) {k : Nat} (hk : k < 4) :
    ((byteOfWord v k).toNat : Int) = digit v k := by
  rw [digit_eq v hk, byteOfWord, UInt8.toNat_ofNat', Nat.shiftRight_eq_div_pow, Nat.pow_mul]

theorem digit_wordOfBytes (b : Nat → UInt8) {k : Nat} (hk : k < 4) :
    digit (wordOfBytes (b 0) (b 1) (b 2) (b 3)) k = (b k).toNat := by
  rw [digit_eq _ hk, wordOfBytes, address_ofNat]
  have h₀ := (b 0).toNat_lt
  have h₁ := (b 1).toNat_lt
  have h₂ := (b 2).toNat_lt
  have h₃ := (b 3).toNat_lt
  obtain rfl | rfl | rfl | rfl : k = 0 ∨ k = 1 ∨ k = 2 ∨ k = 3 := by omega
  all_goals omega

variable {m m' : Memory} {a : Int32} {k i e : Nat} {v : Int32}

theorem digit_word (m : Memory) (i : Nat) {k : Nat} (hk : k < 4) :
    digit (m.word i) k = (m.byte (i + k)).toNat :=
  digit_wordOfBytes (fun k => m.byte (i + k)) hk

/-- A store at a position writes the bytes of the word from there on. -/
theorem byte_setWord_add (m : Memory) (i : Nat) (v : Int32) {k : Nat} (hk : k < 4) :
    (m.setWord i v).byte (i + k) = byteOfWord v k := by
  rw [byte_setWord]
  obtain rfl | rfl | rfl | rfl : k = 0 ∨ k = 1 ∨ k = 2 ∨ k = 3 := by omega
  all_goals simp

theorem byte_setWord_of_apart (v : Int32) (h : i < e ∨ e + 4 ≤ i) :
    (m.setWord e v).byte i = m.byte i := by
  rw [byte_setWord, if_neg (by omega), if_neg (by omega), if_neg (by omega), if_neg (by omega)]

/-! ### Accesses -/

theorem load_eq (m : Memory) (a : Int32) (k : Nat) :
    m.load a k = if position a k + 4 ≤ m.size then .ok (m.word (position a k))
      else .error (.memoryOutOfBounds (position a k)) := by
  simp only [load, holds, decide_eq_true_eq]

theorem store_eq (m : Memory) (a : Int32) (k : Nat) (v : Int32) :
    m.store a k v = if position a k + 4 ≤ m.size then .ok (m.setWord (position a k) v)
      else .error (.memoryOutOfBounds (position a k)) := by
  simp only [store, holds, decide_eq_true_eq]

theorem load_eq_ok : m.load a k = .ok v ↔ position a k + 4 ≤ m.size ∧ m.word (position a k) = v := by
  rw [load_eq]
  by_cases h : position a k + 4 ≤ m.size <;> simp [h]

theorem store_eq_ok :
    m.store a k v = .ok m' ↔ position a k + 4 ≤ m.size ∧ m.setWord (position a k) v = m' := by
  rw [store_eq]
  by_cases h : position a k + 4 ≤ m.size <;> simp [h]

/-! ### What a store leaves -/

/-- `m'` is the memory `m` with the word `v` at the position `e`. -/
structure Stored (m : Memory) (e : Nat) (v : Int32) (m' : Memory) : Prop where
  size : m'.size = m.size
  inside : ∀ j < 4, ((m'.byte (e + j)).toNat : Int) = digit v j
  outside : ∀ i, i < e ∨ e + 4 ≤ i → m'.byte i = m.byte i
  /-- The word is read back, however its address is split. -/
  back : ∀ a k, position a k = e → m'.load a k = .ok v
  /-- A load at a distance of four bytes or more gives what it gave before, a trap included. -/
  apart : ∀ a k, position a k + 4 ≤ e ∨ e + 4 ≤ position a k → m'.load a k = m.load a k
  /-- Each byte of any other word comes from the word stored or was there before. -/
  overlap : ∀ a k w, m'.load a k = .ok w → ∀ j < 4, digit w j =
    if e ≤ position a k + j ∧ position a k + j < e + 4 then digit v (position a k + j - e)
    else (m.byte (position a k + j)).toNat

theorem stored_setWord (he : e + 4 ≤ m.size) : Stored m e v (m.setWord e v) where
  size := size_setWord m e v
  inside j hj := by rw [byte_setWord_add m e v hj, toNat_byteOfWord v hj]
  outside i hi := byte_setWord_of_apart v hi
  back a k hpos := by
    rw [load_eq_ok, size_setWord, hpos]
    exact ⟨he, word_setWord⟩
  apart a k hpos := by
    rw [load_eq, load_eq, size_setWord, word_setWord_of_apart hpos.symm]
  overlap a k w hw j hj := by
    obtain ⟨-, rfl⟩ := load_eq_ok.1 hw
    rw [digit_word _ _ hj]
    split
    · next hin =>
      have hk : position a k + j - e < 4 := by omega
      have hsum : position a k + j = e + (position a k + j - e) := by omega
      rw [← toNat_byteOfWord v hk, ← byte_setWord_add m e v hk, ← hsum]
    · next hout => rw [byte_setWord_of_apart v (by omega)]

/-! ### Two stores -/

/-- Two memories of one size with the same bytes. -/
structure Same (m m' : Memory) : Prop where
  size : m.size = m'.size
  byte : ∀ i, m.byte i = m'.byte i

theorem Same.load (h : Same m m') (a : Int32) (k : Nat) : m.load a k = m'.load a k := by
  rw [load_eq, load_eq, h.size, word, word, h.byte, h.byte, h.byte, h.byte]

theorem same_setWord {e e' : Nat} (h : e + 4 ≤ e' ∨ e' + 4 ≤ e) (v v' : Int32) :
    Same ((m.setWord e v).setWord e' v') ((m.setWord e' v').setWord e v) where
  size := by simp only [size_setWord]
  byte i := by
    by_cases hi : i < e ∨ e + 4 ≤ i
    · rw [byte_setWord_of_apart v hi]
      by_cases hi' : i < e' ∨ e' + 4 ≤ i
      · rw [byte_setWord_of_apart v' hi', byte_setWord_of_apart v' hi', byte_setWord_of_apart v hi]
      · obtain ⟨k, hk, rfl⟩ : ∃ k < 4, i = e' + k := ⟨i - e', by omega, by omega⟩
        rw [byte_setWord_add _ _ _ hk, byte_setWord_add _ _ _ hk]
    · have hi' : i < e' ∨ e' + 4 ≤ i := by omega
      rw [byte_setWord_of_apart v' hi']
      obtain ⟨k, hk, rfl⟩ : ∃ k < 4, i = e + k := ⟨i - e, by omega, by omega⟩
      rw [byte_setWord_add _ _ _ hk, byte_setWord_add _ _ _ hk]

/-- Two stores in either order. -/
structure Commutes (m : Memory) (a a' : Int32) (k k' : Nat) (v v' : Int32) : Prop where
  /-- If both are in bounds, both orders succeed and leave the same bytes, so the same loads. -/
  both : position a k + 4 ≤ m.size → position a' k' + 4 ≤ m.size → ∃ m₁ m₂,
    m.store a k v >>= (·.store a' k' v') = .ok m₁ ∧
    m.store a' k' v' >>= (·.store a k v) = .ok m₂ ∧
    Same m₁ m₂ ∧ ∀ b l, m₁.load b l = m₂.load b l
  /-- If one of them is out of bounds and the other is not, both orders end with its trap. -/
  one : m.size < position a k + 4 → position a' k' + 4 ≤ m.size →
    m.store a k v >>= (·.store a' k' v') = .error (.memoryOutOfBounds (position a k)) ∧
    m.store a' k' v' >>= (·.store a k v) = .error (.memoryOutOfBounds (position a k))

theorem commutes {a' : Int32} {k' : Nat} {v' : Int32}
    (h : position a k + 4 ≤ position a' k' ∨ position a' k' + 4 ≤ position a k) :
    Commutes m a a' k k' v v' where
  both he he' := by
    have hsame := same_setWord (m := m) h v v'
    refine ⟨_, _, ?_, ?_, hsame, hsame.load⟩
    · rw [store_eq, if_pos he]
      exact store_eq_ok.2 ⟨by rwa [size_setWord], rfl⟩
    · rw [store_eq, if_pos he']
      exact store_eq_ok.2 ⟨by rwa [size_setWord], rfl⟩
  one he he' := by
    constructor
    · rw [store_eq, if_neg (by omega)]
      rfl
    · rw [store_eq m a', if_pos he']
      show (m.setWord (position a' k') v').store a k v = _
      rw [store_eq, size_setWord, if_neg (by omega)]

/-! ### The laws -/

/-- What holds of all accesses to a memory. -/
structure Laws (m : Memory) : Prop where
  /-- The effective address is the address as an unsigned word plus the offset; it does not wrap
  around. -/
  address : ∀ a k, (position a k : Int) = a.toInt % 2 ^ 32 + k
  loads : ∀ a k, (∃ v, m.load a k = .ok v) ↔ position a k + 4 ≤ m.size
  stores : ∀ a k v, (∃ m', m.store a k v = .ok m') ↔ position a k + 4 ≤ m.size
  loadTraps : ∀ a k, m.size < position a k + 4 →
    m.load a k = .error (.memoryOutOfBounds (position a k))
  storeTraps : ∀ a k v, m.size < position a k + 4 →
    m.store a k v = .error (.memoryOutOfBounds (position a k))
  /-- A word is read from its four bytes, the lowest first. -/
  bytes : ∀ a k v, m.load a k = .ok v → ∀ j < 4,
    digit v j = (m.byte (position a k + j)).toNat
  stored : ∀ a k v m', m.store a k v = .ok m' → Stored m (position a k) v m'
  commutes : ∀ a a' k k' v v',
    position a k + 4 ≤ position a' k' ∨ position a' k' + 4 ≤ position a k →
    Commutes m a a' k k' v v'
  /-- The instruction that loads gives the word, or stops the run and leaves the store as it is. -/
  loadStep : ∀ p maxDepth (t : Thread) k a S, t.store.memory = m → t.frame.stack = a :: S →
    t.exec p maxDepth (.load k) = match m.load a k with
      | .ok v => .next (t.withStack (v :: S))
      | .error e => .fault t.store (.trap e)
  /-- The instruction that stores leaves the memory with the word, or stops the run and leaves the
  store as it is. -/
  storeStep : ∀ p maxDepth (t : Thread) k v a S, t.store.memory = m → t.frame.stack = v :: a :: S →
    t.exec p maxDepth (.store k) = match m.store a k v with
      | .ok m' => .next { t.withStack S with store := { t.store with memory := m' } }
      | .error e => .fault t.store (.trap e)

/-- Every memory obeys the laws. -/
theorem lawful (m : Memory) : m.Laws where
  address a k := by
    rw [toInt_emod, position]
    exact Int.natCast_add _ _
  loads a k := by
    simp only [load_eq_ok]
    constructor
    · rintro ⟨_, h, -⟩
      exact h
    · intro h
      exact ⟨_, h, rfl⟩
  stores a k v := by
    simp only [store_eq_ok]
    constructor
    · rintro ⟨_, h, -⟩
      exact h
    · intro h
      exact ⟨_, h, rfl⟩
  loadTraps a k h := by rw [load_eq, if_neg (by omega)]
  storeTraps a k v h := by rw [store_eq, if_neg (by omega)]
  bytes a k v h j hj := by
    obtain ⟨-, rfl⟩ := load_eq_ok.1 h
    exact digit_word m _ hj
  stored a k v m' h := by
    obtain ⟨he, rfl⟩ := store_eq_ok.1 h
    exact stored_setWord he
  commutes _ _ _ _ _ _ h := Memory.commutes h
  loadStep p maxDepth t k a S hm hS := by
    subst hm
    simp only [Thread.exec, Thread.pop, hS, Thread.load]
    rfl
  storeStep p maxDepth t k v a S hm hS := by
    subst hm
    simp only [Thread.exec, Thread.pop, hS, Thread.save, store]
    show (if t.store.memory.holds (position a k) then _ else _) = _
    by_cases hin : t.store.memory.holds (position a k) = true
    · rw [if_pos hin, if_pos hin]
      rfl
    · rw [if_neg hin, if_neg hin]
      rfl

-- the address `-4` is just below `2 ^ 32`, and the offset does not bring it back to the start
example : (ofPages 1).load (-4) 8 = .error (.memoryOutOfBounds 0x100000004) := rfl

end Memory

end ObjLang
