import ObjLang.Proofs.Indentation
import ObjLang.Proofs.Token.Lines

/-!
# ObjLang.Proofs.Slices — the places of the tokens in a source text

A text that is read without faults is a sequence of stretches that are passed over and of words, where
each word is as long as possible.  The tokens of the words have their places as spans, so the spans cut
the text into these parts again.
-/

namespace ObjLang

namespace Source

/-! ### Slices of a text -/

theorem sliceFrom_append (as cs : List Char) (start stop : Nat) :
    sliceFrom (byteSize as + start) stop (as ++ cs) = sliceFrom start (stop - byteSize as) cs := by
  induction as generalizing stop with
  | nil => rw [byteSize_nil, Nat.zero_add, List.nil_append, Nat.sub_zero]
  | cons c as ih =>
    have hpos := c.utf8Size_pos
    rw [List.cons_append, sliceFrom, byteSize_cons, if_neg (by omega), ← Nat.sub_sub, ← ih,
      Nat.add_assoc, Nat.add_sub_cancel_left]

theorem sliceFrom_zero_zero (cs : List Char) : sliceFrom 0 0 cs = [] := by
  induction cs with
  | nil => rfl
  | cons c cs ih => rw [sliceFrom, if_neg (by omega), Nat.zero_sub, ih]

/-- The slice of a part of a text is this part. -/
theorem sliceFrom_middle (as bs cs : List Char) :
    sliceFrom (byteSize as) (byteSize as + byteSize bs) (as ++ bs ++ cs) = bs := by
  rw [List.append_assoc, ← Nat.add_zero (byteSize as), sliceFrom_append, Nat.add_zero,
    Nat.add_sub_cancel_left]
  induction bs with
  | nil => exact sliceFrom_zero_zero cs
  | cons c bs ih =>
    have hpos := c.utf8Size_pos
    rw [List.cons_append, sliceFrom, byteSize_cons, if_pos (by omega), Nat.zero_sub,
      Nat.add_sub_cancel_left, ih]

/-- A slice from the start of a text is a start of the text, and it reaches up to where it ends. -/
theorem sliceFrom_zero (stop : Nat) (cs : List Char) :
    ∃ tail, sliceFrom 0 stop cs ++ tail = cs ∧
      (stop ≤ byteSize cs → stop ≤ byteSize (sliceFrom 0 stop cs)) := by
  induction cs generalizing stop with
  | nil => exact ⟨[], rfl, id⟩
  | cons c cs ih =>
    obtain ⟨tail, htail, hstop⟩ := ih (stop - c.utf8Size)
    rw [sliceFrom, Nat.zero_sub]
    split
    · refine ⟨tail, by rw [List.cons_append, htail], fun hle => ?_⟩
      rw [byteSize_cons] at hle ⊢
      omega
    · next hzero =>
      obtain rfl : stop = 0 := by omega
      rw [Nat.zero_sub, sliceFrom_zero_zero]
      exact ⟨c :: cs, rfl, fun _ => Nat.le_refl _⟩

theorem byteSize_pos {cs : List Char} (h : cs ≠ []) : 0 < byteSize cs := by
  obtain ⟨c, cs, rfl⟩ := List.exists_cons_of_ne_nil h
  exact Nat.lt_of_lt_of_le c.utf8Size_pos (Nat.le_add_right _ _)

/-- Of two starts of a text, the one with more characters has more bytes. -/
theorem byteSize_le_of_append {as as' bs bs' : List Char} (h : as ++ as' = bs ++ bs')
    (hlength : as.length ≤ bs.length) : byteSize as ≤ byteSize bs := by
  obtain ⟨cs, rfl⟩ : as <+: bs :=
    List.prefix_of_prefix_length_le (h ▸ List.prefix_append as as') (List.prefix_append bs bs') hlength
  rw [byteSize_append]
  exact Nat.le_add_right _ _

end Source

namespace Token

/-! ### Words and what is passed over -/

/-- A text that is written for a token.  An integer is written as any digits with its value. -/
def WrittenAs : Token → List Char → Prop
  | .keyword k, cs => cs = k.text.toList
  | .symbol s, cs => cs = s.text.toList
  | .int n, cs => cs ≠ [] ∧ (∀ c ∈ cs, isDigit c = true) ∧ digitsValue cs = n
  | .name x, cs => Name x ∧ cs = x.toList
  | .newline, _ | .indent, _ | .dedent, _ | .eof, _ => False

/-- A text without tokens, before the text `rest`: blanks, line feeds, and comments, which run up to a
line feed or the end of the text. -/
inductive Skipped (rest : List Char) : List Char → Prop
  | nil : Skipped rest []
  | blank {c : Char} {cs : List Char} (hc : c ∈ [' ', '\t', '\r', '\x0c', '\n'])
    (h : Skipped rest cs) : Skipped rest (c :: cs)
  | comment {body cs : List Char} (hbody : '\n' ∉ body)
    (hend : ∀ c ∈ (cs ++ rest).head?, c = '\n') (h : Skipped rest cs) :
    Skipped rest ('#' :: body ++ cs)

instance : DecidablePred IsText := fun t => match t with
  | .keyword _ | .symbol _ | .int _ | .name _ => isTrue trivial
  | .newline | .indent | .dedent | .eof => isFalse id

/-- The tokens that stand for text. -/
def texts (tokens : List Lexeme) : List Lexeme := tokens.filter (·.token.IsText)

/-- The stretches of the text from `start` to `stop` before, between and after some spans. -/
def gaps (start stop : Nat) : List Span → List (Nat × Nat)
  | [] => [(start, stop)]
  | s :: ss => (start, s.start) :: gaps s.stop stop ss

/-- The spans of tokens cut a text, from the byte `start` on, into words and stretches that are passed
over.  Each word is as long as possible. -/
structure Covers (source : String) (start : Nat) (tokens : List Lexeme) : Prop where
  behind : ∀ l ∈ tokens, start ≤ l.span.start
  nonempty : ∀ l ∈ tokens, l.span.start < l.span.stop
  ordered : tokens.Pairwise fun l m => l.span.stop ≤ m.span.start
  inside : ∀ l ∈ tokens, l.span.stop ≤ Source.byteSize source.toList
  written : ∀ l ∈ tokens, l.token.WrittenAs (Source.slice l.span source).toList
  longest : ∀ l ∈ tokens, ∀ (t : Token) (span : Span), span.start = l.span.start →
    span.stop ≤ Source.byteSize source.toList → t.WrittenAs (Source.slice span source).toList →
      span.stop ≤ l.span.stop
  between : ∀ g ∈ gaps start (Source.byteSize source.toList) (tokens.map Lexeme.span),
    Skipped (Source.sliceFrom g.2 (Source.byteSize source.toList) source.toList)
      (Source.sliceFrom g.1 g.2 source.toList)

namespace Skipped

variable {as bs rest : List Char}

theorem append (h : Skipped (bs ++ rest) as) (h' : Skipped rest bs) : Skipped rest (as ++ bs) := by
  induction h with
  | nil => exact h'
  | blank hc _ ih => exact .blank hc ih
  | @comment body cs hbody hend _ ih =>
    rw [List.append_assoc]
    exact .comment hbody (by rwa [List.append_assoc]) ih

theorem of_blanks (h : ∀ c ∈ as, c ∈ [' ', '\t', '\r', '\x0c', '\n']) : Skipped rest as := by
  induction as with
  | nil => exact .nil
  | cons c as ih =>
    exact .blank (h c List.mem_cons_self) (ih fun d hd => h d (List.mem_cons_of_mem c hd))

end Skipped

theorem mem_blanks_of_isBlank {c : Char} (h : isBlank c = true) :
    c ∈ [' ', '\t', '\r', '\x0c', '\n'] := by
  simp only [isBlank, Bool.or_eq_true, beq_iff_eq] at h
  obtain ((rfl | rfl) | rfl) | rfl := h <;> decide

theorem mem_blanks_of_isIndent {c : Char} (h : isIndent c = true) :
    c ∈ [' ', '\t', '\r', '\x0c', '\n'] :=
  mem_blanks_of_isBlank (by rw [isBlank, show (c == ' ' || c == '\t') = true from h]; rfl)

/-- A comment and the carriage returns behind it. -/
theorem Skipped.comment_line {body returns rest : List Char} (hbody : '\n' ∉ body)
    (hreturns : ∀ c ∈ returns, c = '\r') (hrest : ∀ c ∈ rest.head?, c = '\n') :
    Skipped rest ('#' :: body ++ returns) := by
  have hmem : '\n' ∉ body ++ returns := by
    intro hmem
    obtain hmem | hmem := List.mem_append.1 hmem
    · exact hbody hmem
    · exact absurd (hreturns _ hmem) (by decide)
  have hcomment : Skipped rest ('#' :: (body ++ returns) ++ []) := .comment hmem hrest .nil
  rwa [List.append_nil] at hcomment

theorem mem_blanks_of_return {c : Char} (h : c = '\r') : c ∈ [' ', '\t', '\r', '\x0c', '\n'] := by
  subst h
  decide

/-! ### One piece -/

theorem writtenAs_ofWord {c : Char} {cs : List Char} (hc : isNameStart c = true)
    (hcs : ∀ d ∈ cs, isNameChar d = true) : (ofWord (c :: cs)).WrittenAs (c :: cs) := by
  generalize hword : ofWord (c :: cs) = t
  have hword' := hword
  unfold ofWord at hword
  split at hword
  · next k hk =>
    subst hword
    rw [WrittenAs, Keyword.text_of_ofText? hk, String.toList_ofList]
  · subst hword
    exact ⟨name_ofWord hc hcs hword', String.toList_ofList.symm⟩

/-- The text of a token. -/
theorem firstPiece_writtenAs {c : Char} {cs : List Char} {t : Token}
    (h : (firstPiece c cs).1.kind = .token t) : t.WrittenAs (firstPiece c cs).1.text := by
  by_cases hdigit : isDigit c = true
  · rw [firstPiece_of_isDigit hdigit] at h ⊢
    simp only [ofDigits] at h
    split at h
    · cases h
      refine ⟨List.cons_ne_nil _ _, fun d hd => ?_, rfl⟩
      obtain rfl | hd := List.mem_cons.1 hd
      · exact hdigit
      · exact List.all_eq_true.1 List.all_takeWhile d hd
    · cases h
  · by_cases hstart : isNameStart c = true
    · rw [firstPiece_of_isNameStart hstart] at h ⊢
      cases h
      exact writtenAs_ofWord hstart (List.all_eq_true.1 List.all_takeWhile)
    · unfold firstPiece at h ⊢
      rw [if_neg hdigit, if_neg hstart] at h ⊢
      split at h
      · cases h
      · split at h
        · cases h
        · next hblank hhash =>
          rw [if_neg hblank, if_neg hhash]
          split at h
          · cases h
            rfl
          · cases h

/-- A symbol at the start of a text is read as itself or as a longer one. -/
theorem symbol?_longest (s : Symbol) (tail : List Char) : ∃ s' rest,
    symbol? (s.text.toList ++ tail) = some (s', rest) ∧
      s.text.toList.length ≤ s'.text.toList.length := by
  by_cases hstop : ∀ c ∈ tail.head?, StoppedBy (.symbol s) c
  · exact ⟨s, tail, symbol?_text hstop, Nat.le_refl _⟩
  · obtain ⟨c, rest, rfl⟩ : ∃ c rest, tail = c :: rest := by
      cases tail with
      | nil => exact absurd nofun hstop
      | cons c rest => exact ⟨c, rest, rfl⟩
    have hc : ¬ StoppedBy (.symbol s) c := fun hc => hstop fun d hd => by cases hd; exact hc
    unfold StoppedBy at hc
    split at hc
    any_goals contradiction
    all_goals
      next heq =>
      cases heq
      obtain rfl := Decidable.not_not.1 hc
      exact ⟨_, _, rfl, by decide⟩

theorem length_le_takeWhile {p : Char → Bool} {cs : List Char} (h : ∀ c ∈ cs, p c = true)
    (tail : List Char) : cs.length ≤ ((cs ++ tail).takeWhile p).length := by
  rw [List.takeWhile_append_of_pos h, List.length_append]
  exact Nat.le_add_right _ _

/-- A keyword or a name. -/
theorem WrittenAs.isNameStart {t : Token} {word : List Char} (h : t.WrittenAs word)
    (ht : (∃ k, t = .keyword k) ∨ ∃ x, t = .name x) :
    ∃ c cs, word = c :: cs ∧ isNameStart c = true ∧ ∀ d ∈ cs, isNameChar d = true := by
  obtain ⟨k, rfl⟩ | ⟨x, rfl⟩ := ht
  · subst h
    have hstart : k.text.toList.head?.all Token.isNameStart = true := by cases k <;> decide
    have hall : k.text.toList.all isNameChar = true := by cases k <;> decide
    obtain ⟨c, cs, hcs⟩ : ∃ c cs, k.text.toList = c :: cs := by cases k <;> exact ⟨_, _, rfl⟩
    rw [hcs] at hstart hall
    exact ⟨c, cs, hcs, hstart, fun d hd => List.all_eq_true.1 hall d (List.mem_cons_of_mem c hd)⟩
  · obtain ⟨hname, rfl⟩ := h
    obtain ⟨c, cs, hcs, hc⟩ := hname.start
    exact ⟨c, cs, hcs, hc, fun d hd => hname.word d (by rw [hcs]; exact List.mem_cons_of_mem c hd)⟩

/-- No word is longer than the first piece. -/
theorem WrittenAs.length_le {t : Token} {c : Char} {cs word tail : List Char}
    (h : t.WrittenAs word) (hcs : word ++ tail = c :: cs) :
    word.length ≤ (firstPiece c cs).1.text.length := by
  have hword (ht : (∃ k, t = .keyword k) ∨ ∃ x, t = .name x) :
      word.length ≤ (firstPiece c cs).1.text.length := by
    obtain ⟨d, ds, rfl, hstart, hall⟩ := h.isNameStart ht
    obtain ⟨rfl, rfl⟩ := List.cons.inj hcs
    rw [firstPiece_of_isNameStart hstart]
    exact Nat.succ_le_succ (length_le_takeWhile hall tail)
  cases t with
  | keyword k => exact hword (.inl ⟨k, rfl⟩)
  | name x => exact hword (.inr ⟨x, rfl⟩)
  | symbol s =>
    subst h
    obtain ⟨s', rest, hs', hle⟩ := symbol?_longest s tail
    rw [hcs] at hs'
    rwa [firstPiece_of_symbol? hs']
  | int n =>
    obtain ⟨hne, hdigits, -⟩ := h
    obtain ⟨d, ds, rfl⟩ := List.exists_cons_of_ne_nil hne
    obtain ⟨rfl, rfl⟩ := List.cons.inj hcs
    rw [firstPiece_of_isDigit (hdigits d List.mem_cons_self)]
    exact Nat.succ_le_succ
      (length_le_takeWhile (fun e he => hdigits e (List.mem_cons_of_mem d he)) tail)
  | newline => exact h.elim
  | indent => exact h.elim
  | dedent => exact h.elim
  | eof => exact h.elim

/-- The characters of a word. -/
theorem WrittenAs.ink {t : Token} {word : List Char} (h : t.WrittenAs word) :
    word ≠ [] ∧ ∀ c ∈ word, IsInk c := by
  have hword (ht : (∃ k, t = .keyword k) ∨ ∃ x, t = .name x) :
      word ≠ [] ∧ ∀ c ∈ word, IsInk c := by
    obtain ⟨d, ds, rfl, hstart, hall⟩ := h.isNameStart ht
    refine ⟨List.cons_ne_nil d ds, fun c hc => isInk_of_isNameChar ?_⟩
    obtain rfl | hc := List.mem_cons.1 hc
    · rw [isNameChar, hstart, Bool.true_or]
    · exact hall c hc
  cases t with
  | keyword k => exact hword (.inl ⟨k, rfl⟩)
  | name x => exact hword (.inr ⟨x, rfl⟩)
  | symbol s =>
    subst h
    have hspelled : Spelled (.symbol s) :=
      ⟨trivial, fun _ heq => (by cases heq), fun _ heq => (by cases heq)⟩
    exact hspelled.ink
  | int n =>
    refine ⟨h.1, fun c hc => isInk_of_isNameChar ?_⟩
    rw [isNameChar, h.2.1 c hc, Bool.or_true]
  | newline => exact h.elim
  | indent => exact h.elim
  | dedent => exact h.elim
  | eof => exact h.elim

/-! ### Reading a text -/

/-- The text `cs` from the byte `start` on is read as some tokens. -/
inductive ReadAs : Nat → List Char → List Lexeme → Prop
  | done {start : Nat} {cs : List Char} (h : Skipped [] cs) : ReadAs start cs []
  | word {start : Nat} {gap word rest : List Char} {l : Lexeme} {ls : List Lexeme}
    (hgap : Skipped (word ++ rest) gap) (hword : l.token.WrittenAs word)
    (hlongest : ∀ (t : Token) (other tail : List Char), t.WrittenAs other →
      other ++ tail = word ++ rest → other.length ≤ word.length)
    (hstart : l.span.start = start + Source.byteSize gap)
    (hstop : l.span.stop = l.span.start + Source.byteSize word)
    (h : ReadAs l.span.stop rest ls) : ReadAs start (gap ++ (word ++ rest)) (l :: ls)

theorem ReadAs.skip {start : Nat} {gap cs : List Char} {ls : List Lexeme}
    (h : ReadAs (start + Source.byteSize gap) cs ls) (hgap : Skipped cs gap) :
    ReadAs start (gap ++ cs) ls := by
  cases h with
  | done h => exact .done (Skipped.append (by rwa [List.append_nil]) h)
  | word hgap' hword hlongest hstart hstop h =>
    rw [← List.append_assoc]
    refine .word (hgap.append hgap') hword hlongest ?_ hstop h
    rw [hstart, Source.byteSize_append, Nat.add_assoc]

/-- A word with a character behind it that no word has is not longer than the first piece of the text
up to there. -/
theorem WrittenAs.length_le_of_append {t : Token} {c : Char} {cs behind other tail : List Char}
    (h : t.WrittenAs other) (hbehind : ∀ d ∈ behind.head?, ¬ IsInk d)
    (hother : other ++ tail = c :: cs ++ behind) :
    other.length ≤ (firstPiece c cs).1.text.length := by
  obtain ⟨ds, hds, -⟩ | ⟨ds, hds, htail⟩ := List.append_eq_append_iff.1 hother
  · exact h.length_le hds.symm
  · cases ds with
    | nil =>
      have hall : other ++ [] = c :: cs := by rw [hds, List.append_nil, List.append_nil]
      exact h.length_le hall
    | cons d ds =>
      refine absurd (h.ink.2 d ?_) (hbehind d ?_)
      · rw [hds]
        exact List.mem_append_right _ List.mem_cons_self
      · rw [htail]
        rfl

/-- Blanks, or a comment up to the end of the line. -/
theorem firstPiece_blank {c : Char} {cs : List Char} (h : (firstPiece c cs).1.kind = .blank) :
    (∀ d ∈ (firstPiece c cs).1.text, isBlank d = true) ∨
      c = '#' ∧ firstPiece c cs = (⟨c :: cs, .blank⟩, []) := by
  unfold firstPiece at h ⊢
  split at h
  · next hc =>
    rw [if_pos hc]
    refine .inl fun d hd => ?_
    obtain rfl | hd := List.mem_cons.1 hd
    · exact hc
    · exact List.all_eq_true.1 List.all_takeWhile d hd
  · next hblank =>
    split at h
    · next hc => exact .inr ⟨hc, by rw [if_neg hblank, if_pos hc]⟩
    · split at h
      · simp only [ofDigits] at h
        split at h <;> cases h
      · split at h
        · cases h
        · split at h <;> cases h

/-- The pieces of a line. -/
theorem readAs_pieces {line : Line} {returns rest : List Char} {ls : List Lexeme}
    (hreturns : ∀ c ∈ returns, c = '\r') (hrest : ∀ c ∈ rest.head?, c = '\n') {n column : Nat}
    {cs : List Char} (hn : cs.length ≤ n) (hcs : '\n' ∉ cs)
    (herrors : errorsOf (pieceItems line column (pieces cs)) = [])
    (h : ReadAs (line.start + column + Source.byteSize (cs ++ returns)) rest ls) :
    ReadAs (line.start + column) (cs ++ (returns ++ rest))
      (lexemesOf (pieceItems line column (pieces cs)) ++ ls) := by
  induction n generalizing cs column with
  | zero =>
    obtain rfl := List.length_eq_zero_iff.1 (Nat.le_zero.1 hn)
    exact h.skip (.of_blanks fun c hc => mem_blanks_of_return (hreturns c hc))
  | succ n ih =>
    cases cs with
    | nil => exact h.skip (.of_blanks fun c hc => mem_blanks_of_return (hreturns c hc))
    | cons c cs =>
      have hbehind : ∀ d ∈ (returns ++ rest).head?, ¬ IsInk d := by
        intro d hd hink
        cases returns with
        | nil => exact hink.2.1 (hrest d hd)
        | cons r returns =>
          cases hd
          rw [hreturns d List.mem_cons_self] at hink
          exact absurd hink.1 (by decide)
      have happend := firstPiece_append c cs
      have hlength := length_firstPiece_le c cs
      have hlongest : ∀ (t : Token) (other tail : List Char), t.WrittenAs other →
          other ++ tail = (firstPiece c cs).1.text ++ ((firstPiece c cs).2 ++ (returns ++ rest)) →
            other.length ≤ (firstPiece c cs).1.text.length := by
        intro t other tail hother htail
        rw [← List.append_assoc, happend] at htail
        exact hother.length_le_of_append hbehind htail
      have hwritten := fun t => @firstPiece_writtenAs c cs t
      have hblank := @firstPiece_blank c cs
      rw [pieces_cons, pieceItems] at herrors ⊢
      rw [errorsOf_append, List.append_eq_nil_iff] at herrors
      generalize firstPiece c cs = first at *
      obtain ⟨⟨text, kind⟩, behind⟩ := first
      dsimp only at *
      have hmem : '\n' ∉ behind := fun hmem => hcs (happend ▸ List.mem_append_right _ hmem)
      have hnext : ReadAs (line.start + column + Source.byteSize text)
          (behind ++ (returns ++ rest))
          (lexemesOf (pieceItems line (column + Source.byteSize text) (pieces behind)) ++ ls) := by
        rw [Nat.add_assoc]
        refine ih (by rw [List.length_cons] at hn; omega) hmem herrors.2 ?_
        rw [← happend, List.append_assoc, Source.byteSize_append, ← Nat.add_assoc] at h
        rwa [← Nat.add_assoc]
      rw [lexemesOf_append, List.append_assoc, ← happend, List.append_assoc]
      cases kind with
      | blank =>
        obtain hblank | ⟨rfl, hcomment⟩ := hblank rfl
        · exact hnext.skip (.of_blanks fun d hd => mem_blanks_of_isBlank (hblank d hd))
        · cases hcomment
          rw [List.nil_append, ← List.append_assoc]
          exact h.skip (.comment_line (fun hmem => hcs (List.mem_cons_of_mem _ hmem)) hreturns hrest)
      | token t =>
        exact @ReadAs.word _ [] text _ ⟨t, line.spanAt column text⟩ _ .nil (hwritten t rfl) hlongest
          rfl rfl hnext
      | hugeInt => exact absurd herrors.1 (List.cons_ne_nil _ _)
      | unknown d => exact absurd herrors.1 (List.cons_ne_nil _ _)

@[simp] theorem texts_append (ls ms : List Lexeme) : texts (ls ++ ms) = texts ls ++ texts ms :=
  List.filter_append ls ms

theorem texts_eq_self {ls : List Lexeme} (h : ∀ l ∈ ls, l.token.IsText) : texts ls = ls :=
  List.filter_eq_self.2 fun l hl => decide_eq_true (h l hl)

theorem texts_eq_nil {ls : List Lexeme} (h : ∀ l ∈ ls, ¬ l.token.IsText) : texts ls = [] :=
  List.filter_eq_nil_iff.2 fun l hl hdec => h l hl (of_decide_eq_true hdec)

theorem texts_indent (levels : List Nat) (width : Nat) (span : Span) :
    texts (lexemesOf (Layout.indent levels width span).2) = [] := by
  refine texts_eq_nil fun l hl => ?_
  have htoken : l.token ∈ tokensOf (Layout.indent levels width span).2 := List.mem_map_of_mem hl
  obtain hindent | ⟨n, hdedents⟩ := tokensOf_indent levels width span
  · rw [hindent] at htoken
    rw [List.mem_singleton.1 htoken]
    exact id
  · rw [hdedents] at htoken
    rw [List.eq_of_mem_replicate htoken]
    exact id

/-- The text of a line, and what ends the line. -/
theorem readAs_line {s : Layout} {line : Line} {returns rest : List Char} {ls : List Lexeme}
    (hreturns : ∀ c ∈ returns, c = '\r') (hrest : ∀ c ∈ rest.head?, c = '\n')
    (htext : '\n' ∉ line.text) (herrors : errorsOf (s.line line).2 = [])
    (h : ReadAs (line.start + Source.byteSize (line.text ++ returns)) rest ls) :
    ReadAs line.start (line.text ++ (returns ++ rest)) (texts (lexemesOf (s.line line).2) ++ ls) := by
  have hsplit := line.text_eq
  have hcontent : '\n' ∉ line.content := fun hmem => htext (hsplit ▸ List.mem_append_right _ hmem)
  have hblank : ∀ rest, Skipped rest line.indentation := fun rest => .of_blanks fun c hc =>
    mem_blanks_of_isIndent (List.all_eq_true.1 List.all_takeWhile c hc)
  have hreturn : ∀ rest, Skipped rest returns := fun rest => .of_blanks fun c hc =>
    mem_blanks_of_return (hreturns c hc)
  unfold Layout.line at herrors ⊢
  split
  · next hskip =>
    rw [← List.append_assoc]
    refine h.skip ?_
    rw [hsplit, List.append_assoc]
    refine (hblank _).append ?_
    unfold Line.isSkipped at hskip
    split at hskip
    · next hnil => rw [hnil]; exact hreturn rest
    · next c cs hcons =>
      rw [hcons] at hcontent ⊢
      obtain rfl : c = '#' := by simpa using hskip
      exact .comment_line (fun hmem => hcontent (List.mem_cons_of_mem _ hmem)) hreturns hrest
  · next hskip =>
    rw [if_neg hskip] at herrors
    dsimp only at herrors ⊢
    rw [errorsOf_append, errorsOf_append, List.append_eq_nil_iff, List.append_eq_nil_iff] at herrors
    rw [lexemesOf_append, lexemesOf_append, texts_append, texts_append,
      texts_eq_self fun l hl => (lexemesOf_content l hl).1]
    have hchange : texts (lexemesOf (if s.depth = 0 then Layout.indent s.levels line.width
        line.indentSpan else (s.levels, [])).2) = [] := by
      split
      · exact texts_indent _ _ _
      · rfl
    have hclose : ∀ depth, texts (lexemesOf (if depth = 0 then [.ok ⟨.newline, line.endSpan⟩]
        else [])) = [] := by
      intro depth
      split <;> rfl
    have hbehind : ReadAs (line.start + line.indentation.length +
        Source.byteSize (line.content ++ returns)) rest ls := by
      rw [hsplit, List.append_assoc, Source.byteSize_append, line.byteSize_indentation] at h
      rwa [Nat.add_assoc]
    have hbody := readAs_pieces hreturns hrest (Nat.le_refl _) hcontent herrors.1.2 hbehind
    rw [hchange, hclose, List.nil_append, List.append_nil, hsplit, List.append_assoc]
    refine ReadAs.skip ?_ (hblank _)
    rwa [line.byteSize_indentation]

/-- Lines one after the other. -/
theorem readAs_lines {raws : List (List Char)} (hraws : Source.Lined raws) (s : Layout)
    (number start : Nat) (herrors : errorsOf (s.lines (numberLines number start raws)).2 = []) :
    ReadAs start raws.flatten (texts (lexemesOf (s.lines (numberLines number start raws)).2)) := by
  induction raws generalizing s number start with
  | nil => exact .done .nil
  | cons raw raws ih =>
    obtain ⟨hlined, htext, returns, feed, hraw, hreturns, hfeed, hrest⟩ := hraws.ends
    rw [numberLines, Layout.lines] at herrors ⊢
    dsimp only at herrors ⊢
    rw [errorsOf_append, List.append_eq_nil_iff] at herrors
    have hbehind := ih hlined _ _ _ herrors.2
    rw [lexemesOf_append, texts_append, List.flatten_cons,
      show raw ++ raws.flatten = Source.dropLineEnd raw ++ (returns ++ (feed ++ raws.flatten)) by
        rw [← List.append_assoc returns, ← List.append_assoc, ← hraw]]
    refine readAs_line hreturns hrest htext herrors.1 (ReadAs.skip ?_ (.of_blanks fun c hc => ?_))
    · rwa [Nat.add_assoc, ← Source.byteSize_append, List.append_assoc, ← hraw]
    · rw [hfeed c hc]
      decide

theorem texts_close (s : Layout) (span : Span) : texts (lexemesOf (s.close span)) = [] := by
  refine texts_eq_nil fun l hl => ?_
  rw [Layout.close, lexemesOf_append, lexemesOf_append, lexemesOf_replicate, List.mem_append,
    List.mem_append] at hl
  obtain (hl | hl) | hl := hl
  · split at hl <;> exact absurd hl List.not_mem_nil
  · rw [List.eq_of_mem_replicate hl]
    exact id
  · rw [List.mem_singleton.1 hl]
    exact id

/-- A text without faults is read as its tokens. -/
theorem readAs_of_tokenize {source : String} {tokens : List Lexeme}
    (h : tokenize source = .ok tokens) : ReadAs 0 source.toList (texts tokens) := by
  obtain ⟨herrors, rfl⟩ := tokens_of_tokenize h
  rw [items, errorsOf_append, List.append_eq_nil_iff] at herrors
  rw [items, lexemesOf_append, texts_append, texts_close, List.append_nil]
  have hread := readAs_lines (Source.lined_lines source.toList) Layout.start 1 0 herrors.1
  rwa [Source.flatten_lines] at hread

/-! ### Slices -/

theorem ReadAs.covers {source : String} {start : Nat} {cs : List Char} {ls : List Lexeme}
    (h : ReadAs start cs ls) {before : List Char} (hsource : source.toList = before ++ cs)
    (hstart : Source.byteSize before = start) : Covers source start ls := by
  induction h generalizing before with
  | @done start cs hskip =>
    refine ⟨nofun, nofun, .nil, nofun, nofun, nofun, fun g hg => ?_⟩
    obtain rfl := List.mem_singleton.1 hg
    have hcs := Source.sliceFrom_middle before cs []
    have hnil := Source.sliceFrom_middle (before ++ cs) [] []
    simp only [Source.byteSize_append, Source.byteSize_nil, List.append_nil, Nat.add_zero, hstart]
      at hcs hnil
    rw [hsource, Source.byteSize_append, hstart, hcs, hnil]
    exact hskip
  | @word start gap word rest l ls hgap hword hlongest hlstart hlstop h ih =>
    have hsource' : source.toList = (before ++ gap) ++ word ++ rest := by
      rw [hsource]
      simp only [List.append_assoc]
    have hsize : Source.byteSize (before ++ gap) = l.span.start := by
      rw [Source.byteSize_append, hstart, hlstart]
    have hsize' : Source.byteSize (before ++ gap ++ word) = l.span.stop := by
      rw [Source.byteSize_append, hsize, hlstop]
    have hcovers := ih hsource' hsize'
    have hle : start ≤ l.span.start := hlstart ▸ Nat.le_add_right _ _
    have hpos := Source.byteSize_pos hword.ink.1
    have hslice := Source.sliceFrom_middle (before ++ gap) word rest
    rw [hsize, ← hlstop] at hslice
    refine ⟨?_, ?_, ?_, ?_, ?_, ?_, ?_⟩
    · refine List.forall_mem_cons.2 ⟨hle, fun m hm => ?_⟩
      have hm' := hcovers.behind m hm
      omega
    · exact List.forall_mem_cons.2 ⟨by omega, hcovers.nonempty⟩
    · exact List.pairwise_cons.2 ⟨hcovers.behind, hcovers.ordered⟩
    · refine List.forall_mem_cons.2 ⟨?_, hcovers.inside⟩
      rw [hsource', Source.byteSize_append, hsize']
      exact Nat.le_add_right _ _
    · refine List.forall_mem_cons.2 ⟨?_, hcovers.written⟩
      rwa [Source.slice, String.toList_ofList, hsource', hslice]
    · refine List.forall_mem_cons.2 ⟨fun t span hspan hinside hwritten => ?_, hcovers.longest⟩
      rw [Source.slice, String.toList_ofList, hspan, hsource', List.append_assoc (before ++ gap),
        ← Nat.add_zero l.span.start, ← hsize, Source.sliceFrom_append] at hwritten
      obtain ⟨tail, htail, hreach⟩ :=
        Source.sliceFrom_zero (span.stop - Source.byteSize (before ++ gap)) (word ++ rest)
      have hlength := hlongest t _ tail hwritten htail
      have hbytes := Source.byteSize_le_of_append htail hlength
      rw [hsource', List.append_assoc (before ++ gap), Source.byteSize_append, hsize] at hinside
      rw [hsize] at hreach hbytes
      have hstop := hreach (by omega)
      omega
    · rw [List.map_cons, gaps]
      refine List.forall_mem_cons.2 ⟨?_, hcovers.between⟩
      have hgap' := Source.sliceFrom_middle before gap (word ++ rest)
      have hbehind := Source.sliceFrom_middle (before ++ gap) (word ++ rest) []
      rw [← Source.byteSize_append, hsize, hstart, List.append_assoc, ← hsource] at hgap'
      rw [← Source.byteSize_append, hsize, List.append_nil, List.append_assoc, ← hsource] at hbehind
      rwa [hgap', hbehind]

/-- The spans of the tokens of a text without faults cut the text into words and what is passed over. -/
theorem tokenize_covers {source : String} {tokens : List Lexeme}
    (h : tokenize source = .ok tokens) : Covers source 0 (texts tokens) := by
  have hsource : source.toList = [] ++ source.toList := rfl
  exact (readAs_of_tokenize h).covers hsource rfl

/-- A text with two lines joined by brackets, a comment outside the basic alphabet, leading zeros and
two forms of line ends. -/
def joined : String := "a=(007 # \u00e9>\r\n  >=b)\n"

theorem tokenize_covers_joined : ∃ tokens, tokenize joined = .ok tokens ∧
    (texts tokens).map (fun l => (l.span.start, l.span.stop)) =
      [(0, 1), (1, 2), (2, 3), (3, 6), (16, 18), (18, 19), (19, 20)] ∧
    Covers joined 0 (texts tokens) := by
  have hspans : (tokenize joined).toOption.any (fun tokens =>
      (texts tokens).map (fun l => (l.span.start, l.span.stop)) ==
        [(0, 1), (1, 2), (2, 3), (3, 6), (16, 18), (18, 19), (19, 20)]) = true := by
    decide +kernel
  cases htokens : tokenize joined with
  | error e => rw [htokens] at hspans; cases hspans
  | ok tokens =>
    rw [htokens] at hspans
    exact ⟨tokens, rfl, beq_iff_eq.1 hspans, tokenize_covers htokens⟩

end Token

end ObjLang
