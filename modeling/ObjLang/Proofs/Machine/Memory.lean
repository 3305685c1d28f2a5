import ObjLang.Proofs.Machine.Outcomes

/-!
# ObjLang.Proofs.Machine.Memory — words in memory

A word that was written reads back, a word apart from it stays as it is, and nothing but a store
writes.
-/

namespace ObjLang

namespace Memory

variable {m : Memory} {i j : Nat} {v : Int32}

/-! ### Words -/

theorem wordOfBytes_byteOfWord (v : Int32) :
    wordOfBytes (byteOfWord v 0) (byteOfWord v 1) (byteOfWord v 2) (byteOfWord v 3) = v := by
  have hlt := v.toUInt32.toNat_lt
  have hsum : (byteOfWord v 0).toNat + 0x100 * (byteOfWord v 1).toNat
      + 0x10000 * (byteOfWord v 2).toNat + 0x1000000 * (byteOfWord v 3).toNat
        = v.toUInt32.toNat := by
    simp only [byteOfWord, UInt8.toNat_ofNat', Nat.shiftRight_eq_div_pow]
    omega
  rw [wordOfBytes, hsum, ofNat_address]

theorem byte_setWord : (m.setWord i v).byte j = if j = i + 3 then byteOfWord v 3
    else if j = i + 2 then byteOfWord v 2 else if j = i + 1 then byteOfWord v 1
    else if j = i then byteOfWord v 0 else m.byte j := by
  simp only [byte, setWord, Std.HashMap.getD_insert, beq_iff_eq, @eq_comm _ j]

/-- A word reads back as it was written. -/
theorem word_setWord : (m.setWord i v).word i = v := by
  refine Eq.trans ?_ (wordOfBytes_byteOfWord v)
  simp [word, byte_setWord]

/-- A word stays as it is where another one apart from it is written. -/
theorem word_setWord_of_apart (h : i + 4 ≤ j ∨ j + 4 ≤ i) : (m.setWord i v).word j = m.word j := by
  have hbyte : ∀ k < 4, (m.setWord i v).byte (j + k) = m.byte (j + k) := by
    intro k hk
    rw [byte_setWord, if_neg (by omega), if_neg (by omega), if_neg (by omega), if_neg (by omega)]
  rw [word, word, hbyte 1 (by decide), hbyte 2 (by decide), hbyte 3 (by decide)]
  rw [show (m.setWord i v).byte j = m.byte j from hbyte 0 (by decide)]

theorem position_ofNat {n : Nat} (h : n < 2 ^ 32) (k : Nat) :
    position (Int32.ofNat n) k = n + k := by
  rw [position, address_ofNat, Nat.mod_eq_of_lt h]

end Memory

/-! ### Steps -/

/-- Of the instructions that stay in the call only a store changes the memory. -/
theorem Frame.Executes.memory {F F' : Frame} {st st' : Store} {op : Op}
    (h : F.Executes st op F' st') : st'.memory = st.memory ∨
      ∃ k v a S, op = .store k ∧ F.stack = v :: a :: S ∧
        st'.memory = st.memory.setWord (Memory.position a k) v := by
  cases h with
  | store hstack => exact .inr ⟨_, _, _, _, rfl, hstack, rfl⟩
  | const | localGet | localSet | globalGet | globalSet | load | binary | eqz | drop | jump
  | jumpIf_past | jumpIf | jumpUnless_past | jumpUnless => exact .inl rfl

/-- Only a store changes the memory, and only the word that it writes. -/
theorem Thread.step_memory {p : LinkedModule} {maxDepth : Nat} {t t' : Thread}
    (h : t.step p maxDepth = .next t') :
    t'.store.memory = t.store.memory ∨
      ∃ k v a S, t.frame.code[t.frame.position]? = some (.store k) ∧
        t.frame.stack = v :: a :: S ∧
        t'.store.memory = t.store.memory.setWord (Memory.position a k) v := by
  cases outcome_of_step h with
  | on hop hexec =>
    obtain hsame | ⟨k, v, a, S, rfl, hstack, hmem⟩ := hexec.memory
    · exact .inl hsame
    · exact .inr ⟨k, v, a, S, hop, hstack, hmem⟩
  | line | value | enter | leave => exact .inl rfl

end ObjLang
