import ObjLang.Proofs.Token.Digits
import ObjLang.Proofs.Tree.Integers
import ObjLang.Proofs.Tree.Unchecked
import ObjLang.Proofs.TypeSound

/-!
# ObjLang.Proofs.Literals — integer literals are exact

A digit string is followed from the text to the machine.  It is read exactly if its value, with the
minus before it, fits a word, and then the word that a run computes for it has this value.  Otherwise
it is refused as a number that is too large, by the tokens or by the parser.
-/

namespace ObjLang

open Token (Stands sign signTokens digitsItem digitsValue maxInt tokenize items)
open ObjLang.Parser (Reads Refuses TakesInt EndsLevel readerOf literalInit)

/-! ### Running the code of an integer -/

theorem toInt_zero_sub {v : Int32} (h : 0 ≤ v.toInt) : (0 - v).toInt = -v.toInt := by
  have hlt := v.toInt_lt
  rw [Int32.toInt_sub, Int32.toInt_zero, Int.zero_sub]
  exact Int.bmod_eq_of_le (by omega) (by omega)

theorem Thread.run_succ {L : LinkedModule} {maxDepth : Nat} {t t' : Thread}
    (h : t.step L maxDepth = .next t') (k : Nat) :
    Thread.run L maxDepth (k + 1) t = Thread.run L maxDepth k t' := by
  rw [Thread.run, h]

namespace Expr

variable {c : CheckedProgram} {N : Names} {e : Expr} {z : Int} {n n' b : Nat}

/-- Checking does not change which integer is written. -/
theorem IsInt.of_unchecked (h : e.unchecked.IsInt z) : e.IsInt z := by
  cases e with
  | literal i v =>
    cases h with
    | number i v => exact .number _ _
  | unary i op operand =>
    cases operand with
    | literal j v =>
      cases h with
      | negative i j v hv => exact .negative _ _ _ hv
    | _ => cases h
  | _ => cases h

/-- The code of an integer leaves the word with its value and changes nothing else. -/
theorem IsInt.runs (he : e.IsInt z) {t : Thread}
    (hat : Emit.ExprAt c N t.frame.code e n t.frame.position n' b) (L : LinkedModule)
    (maxDepth : Nat) : ∃ (w : Int32) (j : Nat), w.toInt = z ∧ ∀ k,
      Thread.run L maxDepth (k + j) t = Thread.run L maxDepth k (t.on b (w :: t.frame.stack)) := by
  cases he with
  | number i v =>
    obtain ⟨hop, -, rfl⟩ := codeAt_singleton.1 hat.1
    exact ⟨v, 1, rfl, Thread.run_succ (Thread.step_const (S := t.frame.stack) hop)⟩
  | negative i j v hv =>
    obtain ⟨b₁, b₂, hzero, ⟨hnumber, -⟩, hsub⟩ := hat
    obtain ⟨hop₀, -, rfl⟩ := codeAt_singleton.1 hzero
    obtain ⟨hop₁, -, rfl⟩ := codeAt_singleton.1 hnumber
    obtain ⟨hop₂, -, rfl⟩ := codeAt_singleton.1 hsub
    refine ⟨0 - v, 3, toInt_zero_sub hv, fun k => ?_⟩
    calc Thread.run L maxDepth (k + 3) t
        = Thread.run L maxDepth (k + 2) (t.on (t.frame.position + 1) (0 :: t.frame.stack)) :=
          Thread.run_succ (Thread.step_const (S := t.frame.stack) hop₀) _
      _ = Thread.run L maxDepth (k + 1) (t.on (t.frame.position + 1 + 1) (v :: 0 :: t.frame.stack)) :=
          Thread.run_succ (Thread.step_const hop₁) _
      _ = _ := Thread.run_succ (Thread.step_on hop₂) _

end Expr

/-! ### From the text to the machine -/

/-- What becomes of the digits `d`, behind a minus if they are negative. -/
structure ExactInt (negative : Bool) (d : List Char) : Prop where
  /-- Wherever they stand in a text, they give one item: an integer, or a fault. -/
  item : ∀ before after, Stands negative d before after → ∃ front back s₀ s,
    items (before ++ (sign negative ++ d) ++ after) =
      front ++ (signTokens negative s₀).map .ok ++ digitsItem d s :: back ∧
    s₀.start = Source.byteSize before ∧
    s.start = Source.byteSize before + (sign negative).length ∧ s.stop = s.start + d.length
  /-- The tokens of a text have the integer where the digits stand. -/
  token : ∀ source before after, source.toList = before ++ (sign negative ++ d) ++ after →
    Stands negative d before after → ∀ tokens, tokenize source = .ok tokens →
      digitsValue d ≤ maxInt ∧ ∃ front back s₀ s,
        tokens = front ++ signTokens negative s₀ ++ ⟨.int (digitsValue d), s⟩ :: back ∧
        s₀.start = Source.byteSize before ∧
        s.start = Source.byteSize before + (sign negative).length ∧ s.stop = s.start + d.length
  /-- A text with digits whose value no token can hold is refused at their place. -/
  fault : maxInt < digitsValue d → ∀ source before after,
    source.toList = before ++ (sign negative ++ d) ++ after → Stands negative d before after →
      ∃ errors s, tokenize source = .error errors ∧ ⟨.invalidNumber (String.ofList d), s⟩ ∈ errors ∧
        s.start = Source.byteSize before + (sign negative).length ∧ s.stop = s.start + d.length
  /-- A variable starts with the integer if it is within the limits, and else is refused. -/
  first : ∀ t us, (digitsValue d ≤ intLimit negative →
      Reads literalInit (intTokens negative (digitsValue d) ++ t :: us) (t :: us)
        (·.IsInt (signedInt negative (digitsValue d)))) ∧
    (intLimit negative < digitsValue d →
      Refuses literalInit (intTokens negative (digitsValue d) ++ t :: us) negative.toNat
        (.wideInt (signedInt negative (digitsValue d))))
  /-- So it is with an operand of any level. -/
  operand : ∀ level k t us, TakesInt negative level → (digitsValue d ≤ intLimit negative →
      EndsLevel level t →
      Reads (readerOf k level) (intTokens negative (digitsValue d) ++ t :: us) (t :: us)
        (·.IsInt (signedInt negative (digitsValue d)))) ∧
    (intLimit negative < digitsValue d →
      Refuses (readerOf k level) (intTokens negative (digitsValue d) ++ t :: us) negative.toNat
        (.wideInt (digitsValue d)))
  /-- A variable of a module has the integer when a run starts. -/
  start : ∀ o source m p c L, compile o source = .ok m → Program.parse source = .ok p →
    p.check = .ok c → m.link = .ok L → ∀ i v, c.program.vars[i]? = some v →
      v.init.IsInt (signedInt negative (digitsValue d)) →
        ∀ pages, ∃ w : Int32, (Store.start L pages).globals[i + 1]? = some w ∧
          w.toInt = signedInt negative (digitsValue d)
  /-- An expression that was read as the integer has code, and this code leaves the integer. -/
  runs : ∀ o source m p c L, compile o source = .ok m → Program.parse source = .ok p →
    p.check = .ok c → m.link = .ok L → ∀ x ss start, c.Statements x ss start →
      ∀ e, Expr.OccursIn ss e → e.unchecked.IsInt (signedInt negative (digitsValue d)) →
        ∃ g ∈ m.functions, g.name = x ∧ ∃ f, L.function? (m.index x) = some f ∧
          ∃ n a n' b, start ≤ a ∧ Emit.ExprAt c (m.names g) f.code e n a n' b ∧
            ∀ t maxDepth, t.frame.code = f.code → t.frame.position = a → ∃ (w : Int32) (j : Nat),
              w.toInt = signedInt negative (digitsValue d) ∧ ∀ k,
                Thread.run L maxDepth (k + j) t =
                  Thread.run L maxDepth k (t.on b (w :: t.frame.stack))

namespace Token

variable {negative : Bool} {d before after : List Char} {source : String}

/-- A value that is too large is a fault of the text. -/
theorem mem_errorsOf_digits (h : maxInt < digitsValue d) (front back : List Item) (s : Span) :
    ⟨.invalidNumber (String.ofList d), s⟩ ∈ errorsOf (front ++ digitsItem d s :: back) := by
  rw [digitsItem, if_neg (Nat.not_le.2 h), errorsOf_append]
  exact List.mem_append_right _ List.mem_cons_self

theorem lexemesOf_sign (s : Span) :
    lexemesOf ((signTokens negative s).map .ok) = signTokens negative s := by
  cases negative <;> rfl

theorem Stands.token (h : Stands negative d before after)
    (hsource : source.toList = before ++ (sign negative ++ d) ++ after) {tokens : List Lexeme}
    (htokens : tokenize source = .ok tokens) : digitsValue d ≤ maxInt ∧ ∃ front back s₀ s,
      tokens = front ++ signTokens negative s₀ ++ ⟨.int (digitsValue d), s⟩ :: back ∧
      s₀.start = Source.byteSize before ∧
      s.start = Source.byteSize before + (sign negative).length ∧ s.stop = s.start + d.length := by
  obtain ⟨front, back, s₀, s, hitems, hplace⟩ := h.items
  obtain ⟨herrors, rfl⟩ := tokens_of_tokenize htokens
  rw [hsource, hitems] at herrors ⊢
  have hle : digitsValue d ≤ maxInt := by
    by_contra hlt
    have hmem := mem_errorsOf_digits (Nat.lt_of_not_le hlt)
      (front ++ (signTokens negative s₀).map .ok) back s
    rw [herrors] at hmem
    exact List.not_mem_nil hmem
  refine ⟨hle, lexemesOf front, lexemesOf back, s₀, s, ?_, hplace⟩
  rw [digitsItem, if_pos hle, lexemesOf_append, lexemesOf_append, lexemesOf_sign]
  rfl

theorem Stands.fault (h : Stands negative d before after)
    (hsource : source.toList = before ++ (sign negative ++ d) ++ after)
    (hlarge : maxInt < digitsValue d) : ∃ errors s, tokenize source = .error errors ∧
      ⟨.invalidNumber (String.ofList d), s⟩ ∈ errors ∧
      s.start = Source.byteSize before + (sign negative).length ∧ s.stop = s.start + d.length := by
  obtain ⟨front, back, s₀, s, hitems, -, hplace⟩ := h.items
  have hmem : ⟨.invalidNumber (String.ofList d), s⟩ ∈ errorsOf (Token.items source.toList) := by
    rw [hsource, hitems]
    exact mem_errorsOf_digits hlarge _ back s
  exact ⟨_, s, tokenize_of_ne_nil (List.ne_nil_of_mem hmem), hmem, hplace⟩

end Token

/-! ### The main result -/

/-- Integer literals are exact at the limits of words, on every path from the text to the machine. -/
theorem literals_exact (negative : Bool) (d : List Char) : ExactInt negative d where
  item _ _ h := h.items
  token _ _ _ hsource h _ htokens := h.token hsource htokens
  fault hlarge _ _ _ hsource h := h.fault hsource hlarge
  first _ _ := ⟨Parser.reads_literalInit_int, Parser.refuses_literalInit_int⟩
  operand _ _ _ _ hlevel :=
    ⟨fun hn ht => Parser.reads_int hlevel hn ht, fun hn => Parser.refuses_int hlevel hn⟩
  start o source m p c L hm hp hc hL i v hv hinit pages := by
    obtain ⟨p', c', hp', hc', hmodule⟩ := compile_ok_iff.1 hm
    cases hp.symm.trans hp'
    cases hc.symm.trans hc'
    obtain ⟨t₀, h⟩ := exists_compiled hp hc hmodule hL
    refine ⟨v.init.word, ?_, hinit.2⟩
    rw [Store.start, h.linked.globals, List.getElem?_toArray, List.getElem?_cons_succ,
      List.getElem?_map, hv, Option.map_some]
  runs o source m p c L hm hp hc hL x ss start hss e he hint := by
    obtain ⟨p', c', hp', hc', hmodule⟩ := compile_ok_iff.1 hm
    cases hp.symm.trans hp'
    cases hc.symm.trans hc'
    obtain ⟨t₀, h⟩ := exists_compiled hp hc hmodule hL
    obtain ⟨-, g, hg, hname, f, hf, n, a, n', b, ha, hat⟩ := h.typed_placed hss he
    refine ⟨g, hg, hname, f, hf, n, a, n', b, ha, hat, fun t maxDepth hcode hposition => ?_⟩
    exact hint.of_unchecked.runs (by rw [hcode, hposition]; exact hat) L maxDepth

/-- The smallest integer as the first value of a variable and as an argument. -/
def smallestTwice : String := "x:int = -2147483648\nprint(x)\nprint(-2147483648)\n"

theorem literals_exact_smallest :
    Stands true "2147483648".toList "x:int = ".toList "\nprint(x)\nprint(-2147483648)\n".toList ∧
      ExactInt true "2147483648".toList := by
  refine ⟨⟨by decide, List.all_eq_true.1 (by decide +kernel), by decide +kernel, nofun, ?_⟩,
    literals_exact true _⟩
  rintro _ ⟨⟩
  rfl

example : (compile {} smallestTwice).toOption.any
    (fun m => (m.run {} 100).output == ["-2147483648", "-2147483648"]) = true := by
  decide +kernel

end ObjLang
