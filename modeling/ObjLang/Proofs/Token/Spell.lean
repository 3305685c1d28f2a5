import ObjLang.Proofs.Token.Lexed

/-!
# ObjLang.Proofs.Token.Spell — writing a token stream as a text

A token stream that is laid out in lines and indented blocks can be written as a text: one line for
each `newline`, two spaces for each block around it, and a blank between two tokens except where
brackets, dots and signs bind.  The text of a line is read as the tokens of the line.
-/

namespace ObjLang.Token

/-! ### Writing -/

/-- A token that an operand starts with. -/
def startsOperand : Token → Bool
  | .int _ | .name _ | .keyword _ | .symbol .leftParen | .symbol .minus => true
  | _ => false

/-- A token that an operand ends with. -/
def endsOperand : Token → Bool
  | .int _ | .name _ | .keyword .trueKw | .keyword .falseKw | .keyword .noneKw
  | .symbol .rightParen => true
  | _ => false

/-- Whether a blank stands before a token, behind the tokens `line` of its line, latest first.  A
minus that no operand stands before is a sign. -/
def spaced (line : List Token) (t : Token) : Bool :=
  match line, t with
  | .symbol .leftParen :: _, _ => false
  | .symbol .dot :: _, _ => false
  | _, .symbol .rightParen => false
  | _, .symbol .comma => false
  | _, .symbol .colon => false
  | _, .symbol .dot => false
  | .name _ :: _, .symbol .leftParen => false
  | .symbol .minus :: before, t => before.head?.any endsOperand || !t.startsOperand
  | _, _ => true

/-- What stands before a token. -/
def gap (level : Nat) (line : List Token) (t : Token) : List Char :=
  if line.isEmpty then List.replicate (2 * level) ' '
  else if spaced line t then [' '] else []

/-- The text of the tokens of one line, behind the tokens `line`, latest first. -/
def spellLine (level : Nat) (line : List Token) : List Token → List Char
  | [] => []
  | t :: ts => gap level line t ++ t.text.toList ++ spellLine level (t :: line) ts

/-- The text of a token stream, in a line with the tokens `line`, latest first. -/
def spell (level : Nat) (line : List Token) : List Token → List Char
  | [] => []
  | .newline :: ts => '\n' :: spell level [] ts
  | .indent :: ts => spell (level + 1) line ts
  | .dedent :: ts => spell (level - 1) line ts
  | t :: ts => gap level line t ++ t.text.toList ++ spell level (t :: line) ts

/-- A token that its text gives back. -/
structure Spelled (t : Token) : Prop where
  isText : t.IsText
  names : ∀ x, t = .name x → Name x
  ints : ∀ n, t = .int n → n ≤ maxInt

/-- The tokens of one line. -/
structure IsLine (ts : List Token) : Prop where
  nonempty : ts ≠ []
  spelled : ∀ t ∈ ts, t.Spelled
  balanced : ts.foldl depthAfter 0 = 0

/-- A stream of whole lines, each with the indented block behind it if it has one. -/
inductive Laid : List Token → Prop
  | nil : Laid []
  | line {ts rest : List Token} (hts : IsLine ts) (hrest : Laid rest) :
    Laid (ts ++ .newline :: rest)
  | block {ts body rest : List Token} (hts : IsLine ts) (hbody : Laid body) (hne : body ≠ [])
    (hrest : Laid rest) : Laid (ts ++ .newline :: .indent :: (body ++ .dedent :: rest))

theorem Laid.append {ts us : List Token} (h : Laid ts) (h' : Laid us) : Laid (ts ++ us) := by
  induction h with
  | nil => exact h'
  | line hts _ ih =>
    rw [List.append_assoc, List.cons_append]
    exact .line hts ih
  | block hts hbody hne _ _ ih =>
    rw [List.append_assoc, List.cons_append, List.cons_append, List.append_assoc, List.cons_append]
    exact .block hts hbody hne ih

/-! ### Texts of tokens -/

/-- A character that a token can have. -/
def IsInk (c : Char) : Prop := isBlank c = false ∧ c ≠ '\n' ∧ c ≠ '#'

theorem isInk_of_isNameChar {c : Char} (h : isNameChar c = true) : IsInk c := by
  refine ⟨Bool.eq_false_iff.2 fun hb => ?_, ?_, ?_⟩
  · simp only [isBlank, Bool.or_eq_true, beq_iff_eq] at hb
    obtain ((rfl | rfl) | rfl) | rfl := hb <;> exact absurd h (by decide)
  · rintro rfl
    exact absurd h (by decide)
  · rintro rfl
    exact absurd h (by decide)

theorem toList_text_int (n : Nat) : (Token.int n).text.toList = Nat.toDigits 10 n :=
  Nat.toList_repr

theorem isDigit_of_mem_text {n : Nat} {c : Char} (h : c ∈ (Token.int n).text.toList) :
    isDigit c = true := by
  rw [toList_text_int] at h
  exact Nat.isDigit_of_mem_toDigits (by decide) (by decide) h

/-- The text of a token is ink. -/
theorem Spelled.ink {t : Token} (h : t.Spelled) :
    t.text.toList ≠ [] ∧ ∀ c ∈ t.text.toList, IsInk c := by
  cases t with
  | keyword k =>
    refine ⟨by cases k <;> decide, fun c hc => isInk_of_isNameChar ?_⟩
    have hall : k.text.toList.all isNameChar = true := by cases k <;> decide
    exact List.all_eq_true.1 hall c hc
  | symbol s =>
    have hall : s.text.toList.all (fun c => !isBlank c && c != '\n' && c != '#') = true := by
      cases s <;> decide
    exact ⟨by cases s <;> decide, by simpa [Token.text, IsInk, and_assoc] using hall⟩
  | int n =>
    refine ⟨?_, fun c hc => isInk_of_isNameChar ?_⟩
    · rw [toList_text_int]
      exact Nat.toDigits_ne_nil
    · rw [isNameChar, isDigit_of_mem_text hc, Bool.or_true]
  | name x =>
    have hx := h.names x rfl
    refine ⟨?_, fun c hc => isInk_of_isNameChar (hx.word c hc)⟩
    obtain ⟨c, cs, hcs, -⟩ := hx.start
    exact fun hnil => List.cons_ne_nil c cs (hcs.symm.trans hnil)
  | newline => exact h.isText.elim
  | indent => exact h.isText.elim
  | dedent => exact h.isText.elim
  | eof => exact h.isText.elim

/-! ### Scanning -/

/-- A character before which a token ends. -/
def StoppedBy : Token → Char → Prop
  | .keyword _, c | .name _, c => isNameChar c = false
  | .int _, c => isDigit c = false
  | .symbol .minus, c => c ≠ '>'
  | .symbol .less, c | .symbol .greater, c | .symbol .equal, c => c ≠ '='
  | _, _ => True

theorem takeWhile_stop {p : Char → Bool} {rest : List Char}
    (hrest : ∀ c ∈ rest.head?, p c = false) : rest.takeWhile p = [] ∧ rest.dropWhile p = rest := by
  cases rest with
  | nil => exact ⟨rfl, rfl⟩
  | cons c rest =>
    have hc := hrest c rfl
    simp only [List.takeWhile_cons, List.dropWhile_cons, hc]
    exact ⟨rfl, rfl⟩

theorem takeWhile_append_stop {p : Char → Bool} {cs rest : List Char} (h : ∀ c ∈ cs, p c = true)
    (hrest : ∀ c ∈ rest.head?, p c = false) :
    (cs ++ rest).takeWhile p = cs ∧ (cs ++ rest).dropWhile p = rest := by
  induction cs with
  | nil => exact takeWhile_stop hrest
  | cons c cs ih =>
    obtain ⟨htake, hdrop⟩ := ih fun c hc => h c (List.mem_cons_of_mem _ hc)
    have hc := h c List.mem_cons_self
    simp only [List.cons_append, List.takeWhile_cons, List.dropWhile_cons, hc, if_true, htake, hdrop,
      and_self]

theorem symbol?_text {s : Symbol} {rest : List Char}
    (h : ∀ c ∈ rest.head?, StoppedBy (.symbol s) c) :
    symbol? (s.text.toList ++ rest) = some (s, rest) := by
  cases rest with
  | nil => cases s <;> rfl
  | cons c rest =>
    have hc := h c rfl
    cases s <;> simp_all [StoppedBy, Symbol.text, symbol?]

/-- A digit starts a run of digits. -/
theorem firstPiece_of_isDigit {c : Char} (hc : isDigit c = true) (cs : List Char) :
    firstPiece c cs =
      (⟨c :: cs.takeWhile isDigit, ofDigits (c :: cs.takeWhile isDigit)⟩, cs.dropWhile isDigit) := by
  have hink := isInk_of_isNameChar (c := c) (by rw [isNameChar, hc, Bool.or_true])
  rw [firstPiece, if_neg (by rw [hink.1]; decide), if_neg hink.2.2, if_pos hc]

/-- No digit starts a name. -/
theorem isDigit_of_isNameStart {c : Char} (hc : isNameStart c = true) : isDigit c = false := by
  refine Bool.eq_false_iff.2 fun hd => ?_
  simp only [isDigit, isNameStart, Bool.and_eq_true, Bool.or_eq_true, decide_eq_true_eq,
    beq_iff_eq, Char.le_def, UInt32.le_iff_toNat_le] at hd hc
  obtain (hc | hc) | rfl := hc
  · have h1 := hd.2
    have h2 := hc.1
    simp at h1 h2
    omega
  · have h1 := hd.2
    have h2 := hc.1
    simp at h1 h2
    omega
  · exact absurd hd.2 (by decide)

/-- A letter or an underscore starts a word. -/
theorem firstPiece_of_isNameStart {c : Char} (hc : isNameStart c = true) (cs : List Char) :
    firstPiece c cs =
      (⟨c :: cs.takeWhile isNameChar, .token (ofWord (c :: cs.takeWhile isNameChar))⟩,
        cs.dropWhile isNameChar) := by
  have hink := isInk_of_isNameChar (c := c) (by rw [isNameChar, hc, Bool.true_or])
  rw [firstPiece, if_neg (by rw [hink.1]; decide), if_neg hink.2.2,
    if_neg (by rw [isDigit_of_isNameStart hc]; decide), if_pos hc]

/-- Nothing else starts with a character that a symbol starts with. -/
theorem firstPiece_of_symbol? {c : Char} {cs rest : List Char} {s : Symbol}
    (h : symbol? (c :: cs) = some (s, rest)) :
    firstPiece c cs = (⟨s.text.toList, .token (.symbol s)⟩, rest) := by
  obtain ⟨d, ds, hds⟩ : ∃ d ds, s.text.toList = d :: ds := by cases s <;> exact ⟨_, _, rfl⟩
  have hd : isBlank d = false ∧ d ≠ '#' ∧ isDigit d = false ∧ isNameStart d = false := by
    have hhead : s.text.toList.head?.all (fun d =>
        !isBlank d && d != '#' && !isDigit d && !isNameStart d) = true := by
      cases s <;> decide
    rw [hds] at hhead
    simpa [and_assoc] using hhead
  obtain ⟨rfl, -⟩ : d = c ∧ ds ++ rest = cs := by
    have happend := symbol?_append h
    rw [hds] at happend
    exact List.cons.inj happend
  obtain ⟨hblank, hhash, hdigit, hstart⟩ := hd
  simp only [firstPiece, hblank, hhash, hdigit, hstart, h, Bool.false_eq_true, if_false]

theorem firstPiece_symbol {s : Symbol} {c : Char} {cs rest : List Char}
    (hcs : s.text.toList = c :: cs) (h : ∀ c ∈ rest.head?, StoppedBy (.symbol s) c) :
    firstPiece c (cs ++ rest) = (⟨s.text.toList, .token (.symbol s)⟩, rest) := by
  have hsymbol := symbol?_text h
  rw [hcs, List.cons_append] at hsymbol
  exact firstPiece_of_symbol? hsymbol

theorem firstPiece_int {n : Nat} {c : Char} {cs rest : List Char}
    (hcs : (Token.int n).text.toList = c :: cs) (hn : n ≤ maxInt)
    (h : ∀ c ∈ rest.head?, isDigit c = false) :
    firstPiece c (cs ++ rest) = (⟨(Token.int n).text.toList, .token (.int n)⟩, rest) := by
  have hdigits : ∀ d ∈ c :: cs, isDigit d = true := fun d hd => isDigit_of_mem_text (hcs ▸ hd)
  obtain ⟨htake, hdrop⟩ :=
    takeWhile_append_stop (fun d hd => hdigits d (List.mem_cons_of_mem c hd)) h
  have hvalue : digitsValue (c :: cs) = n := by
    rw [← hcs, toList_text_int]
    exact Nat.ofDigitChars_toDigits (by decide) (by decide)
  rw [firstPiece_of_isDigit (hdigits c List.mem_cons_self), htake, hdrop, ofDigits, hvalue,
    if_pos hn, hcs]

theorem firstPiece_word {t : Token} {x : String} {c : Char} {cs rest : List Char}
    (hcs : x.toList = c :: cs) (hc : isNameStart c = true) (hx : Word x)
    (hof : ofWord x.toList = t) (h : ∀ c ∈ rest.head?, isNameChar c = false) :
    firstPiece c (cs ++ rest) = (⟨x.toList, .token t⟩, rest) := by
  obtain ⟨htake, hdrop⟩ := takeWhile_append_stop
    (fun d hd => hx d (by rw [hcs]; exact List.mem_cons_of_mem c hd)) h
  rw [firstPiece_of_isNameStart hc, htake, hdrop, ← hcs, hof]

/-- The text of a token is read as this token. -/
theorem firstPiece_text {t : Token} {c : Char} {cs rest : List Char} (ht : t.Spelled)
    (hcs : t.text.toList = c :: cs) (h : ∀ c ∈ rest.head?, t.StoppedBy c) :
    firstPiece c (cs ++ rest) = (⟨t.text.toList, .token t⟩, rest) := by
  cases t with
  | keyword k =>
    have hstart : k.text.toList.head?.all isNameStart = true := by cases k <;> decide
    have hword : k.text.toList.all isNameChar = true := by cases k <;> decide
    have hof : ofWord k.text.toList = .keyword k := by
      rw [ofWord, String.ofList_toList, Keyword.ofText?_text]
    rw [show k.text.toList = c :: cs from hcs] at hstart
    exact firstPiece_word hcs hstart (List.all_eq_true.1 hword) hof h
  | symbol s => exact firstPiece_symbol hcs h
  | int n => exact firstPiece_int hcs (ht.ints n rfl) h
  | name x =>
    have hx := ht.names x rfl
    obtain ⟨d, ds, hds, hd⟩ := hx.start
    obtain ⟨rfl, rfl⟩ := List.cons.inj (hds.symm.trans hcs)
    have hof : ofWord x.toList = .name x := by
      rw [ofWord, String.ofList_toList, hx.free]
    exact firstPiece_word hcs hd hx.word hof h
  | newline => exact ht.isText.elim
  | indent => exact ht.isText.elim
  | dedent => exact ht.isText.elim
  | eof => exact ht.isText.elim

theorem piecesUpTo_eq {n : Nat} {cs : List Char} (h : cs.length ≤ n) :
    piecesUpTo n cs = pieces cs := by
  suffices hany : ∀ m n : Nat, ∀ cs : List Char, cs.length ≤ m → cs.length ≤ n →
      piecesUpTo m cs = piecesUpTo n cs from hany n cs.length cs h (Nat.le_refl _)
  intro m
  induction m with
  | zero =>
    intro n cs hm hn
    obtain rfl := List.length_eq_zero_iff.1 (Nat.le_zero.1 hm)
    cases n <;> rfl
  | succ m ih =>
    intro n cs hm hn
    cases cs with
    | nil => cases n <;> rfl
    | cons c cs =>
      obtain _ | n := n
      · exact absurd hn (Nat.not_succ_le_zero _)
      · have hle := length_firstPiece_le c cs
        rw [List.length_cons] at hm hn
        rw [piecesUpTo, piecesUpTo, ih n _ (by omega) (by omega)]

theorem pieces_cons (c : Char) (cs : List Char) :
    pieces (c :: cs) = (firstPiece c cs).1 :: pieces (firstPiece c cs).2 := by
  rw [pieces, List.length_cons, piecesUpTo, piecesUpTo_eq (length_firstPiece_le c cs)]

/-- A text that is read as some tokens, without a fault. -/
structure Scans (cs : List Char) (ts : List Token) : Prop where
  tokens : (pieces cs).filterMap Piece.token? = ts
  faultless : ∀ p ∈ pieces cs, p.kind = .blank ∨ ∃ t, p.kind = .token t

theorem scans_nil : Scans [] [] := ⟨rfl, fun _ hp => absurd hp List.not_mem_nil⟩

theorem Scans.token {t : Token} {rest : List Char} {ts : List Token} (ht : t.Spelled)
    (hstop : ∀ c ∈ rest.head?, t.StoppedBy c) (h : Scans rest ts) :
    Scans (t.text.toList ++ rest) (t :: ts) := by
  obtain ⟨c, cs, hcs⟩ := List.exists_cons_of_ne_nil ht.ink.1
  have hpieces : pieces (t.text.toList ++ rest) = ⟨t.text.toList, .token t⟩ :: pieces rest := by
    rw [hcs, List.cons_append, pieces_cons, firstPiece_text ht hcs hstop, hcs]
  refine ⟨?_, fun p hp => ?_⟩
  · rw [hpieces, List.filterMap_cons_some (f := Piece.token?) rfl, h.tokens]
  · rw [hpieces] at hp
    obtain rfl | hp := List.mem_cons.1 hp
    · exact .inr ⟨t, rfl⟩
    · exact h.faultless p hp

theorem Scans.blank {rest : List Char} {ts : List Token} (hrest : ∀ c ∈ rest.head?, IsInk c)
    (h : Scans rest ts) : Scans (' ' :: rest) ts := by
  obtain ⟨htake, hdrop⟩ := takeWhile_stop fun c hc => (hrest c hc).1
  have hpieces : pieces (' ' :: rest) = ⟨[' '], .blank⟩ :: pieces rest := by
    rw [pieces_cons, firstPiece, if_pos (by decide), htake, hdrop]
  refine ⟨?_, fun p hp => ?_⟩
  · rw [hpieces, List.filterMap_cons_none rfl, h.tokens]
  · rw [hpieces] at hp
    obtain rfl | hp := List.mem_cons.1 hp
    · exact .inl rfl
    · exact h.faultless p hp

/-- Every token ends before a character that is neither of a name nor of a longer symbol. -/
theorem stoppedBy_of_closing {t : Token} {c : Char} (hname : isNameChar c = false)
    (hequal : c ≠ '=') (hgreater : c ≠ '>') : t.StoppedBy c := by
  unfold StoppedBy
  split
  · exact hname
  · exact hname
  · exact (Bool.or_eq_false_iff.1 hname).2
  · exact hgreater
  · exact hequal
  · exact hequal
  · exact hequal
  · trivial

/-- A token that an operand starts with does not make a longer symbol of a sign. -/
theorem Spelled.ne_greater {t : Token} (ht : t.Spelled) (h : t.startsOperand = true) :
    ∀ c ∈ t.text.toList.head?, c ≠ '>' := by
  cases t with
  | keyword k =>
    have hall : k.text.toList.head?.all (· != '>') = true := by cases k <;> decide
    simpa [Token.text, Option.all_eq_true] using hall
  | symbol s =>
    have hall : s.text.toList.head?.all (· != '>') = true := by
      cases s <;> first | decide | cases h
    simpa [Token.text, Option.all_eq_true] using hall
  | int n =>
    rintro _ hc rfl
    exact absurd (isDigit_of_mem_text (List.mem_of_mem_head? hc)) (by decide)
  | name x =>
    rintro _ hc rfl
    exact absurd ((ht.names x rfl).word _ (List.mem_of_mem_head? hc)) (by decide)
  | _ => cases h

/-- Where no blank stands between two tokens, the first ends before the second. -/
theorem stoppedBy_of_not_spaced {line : List Token} {t u : Token} (hu : u.Spelled)
    (h : spaced (t :: line) u = false) : ∀ c ∈ u.text.toList.head?, t.StoppedBy c := by
  generalize hfull : t :: line = full at h
  unfold spaced at h
  split at h
  · cases hfull
    exact fun c _ => trivial
  · cases hfull
    exact fun c _ => trivial
  · rintro c ⟨⟩
    exact stoppedBy_of_closing (by decide) (by decide) (by decide)
  · rintro c ⟨⟩
    exact stoppedBy_of_closing (by decide) (by decide) (by decide)
  · rintro c ⟨⟩
    exact stoppedBy_of_closing (by decide) (by decide) (by decide)
  · rintro c ⟨⟩
    exact stoppedBy_of_closing (by decide) (by decide) (by decide)
  · rintro c ⟨⟩
    exact stoppedBy_of_closing (by decide) (by decide) (by decide)
  · cases hfull
    obtain ⟨-, h⟩ := Bool.or_eq_false_iff.1 h
    exact hu.ne_greater (by simpa using h)
  · cases h

/-- What follows a token in its line does not go on with it. -/
theorem stoppedBy_spellLine {level : Nat} {line ts : List Token} {t : Token}
    (hts : ∀ u ∈ ts, u.Spelled) :
    ∀ c ∈ (spellLine level (t :: line) ts).head?, t.StoppedBy c := by
  cases ts with
  | nil => exact fun c hc => absurd hc nofun
  | cons u us =>
    have hu := hts u List.mem_cons_self
    obtain ⟨d, ds, hds⟩ := List.exists_cons_of_ne_nil hu.ink.1
    rw [spellLine, gap, if_neg (by simp)]
    split
    · rintro c ⟨⟩
      exact stoppedBy_of_closing (by decide) (by decide) (by decide)
    · next hspaced =>
      intro c hc
      refine stoppedBy_of_not_spaced hu (Bool.eq_false_iff.2 hspaced) c ?_
      rw [hds] at hc ⊢
      exact hc

theorem scans_spellLine {level : Nat} {line ts : List Token} {t : Token}
    (hts : ∀ u ∈ ts, u.Spelled) : Scans (spellLine level (t :: line) ts) ts := by
  induction ts generalizing t line with
  | nil => exact scans_nil
  | cons u us ih =>
    have hu := hts u List.mem_cons_self
    have hus := fun v hv => hts v (List.mem_cons_of_mem u hv)
    have hbehind : Scans (u.text.toList ++ spellLine level (u :: t :: line) us) (u :: us) :=
      Scans.token hu (stoppedBy_spellLine hus) (ih hus)
    rw [spellLine, gap, if_neg (by simp), List.append_assoc]
    split
    · refine Scans.blank (fun c hc => ?_) hbehind
      obtain ⟨d, ds, hds⟩ := List.exists_cons_of_ne_nil hu.ink.1
      rw [hds] at hc
      cases hc
      exact hu.ink.2 c (by rw [hds]; exact List.mem_cons_self)
    · exact hbehind

theorem not_isLineEnd_of_isInk {c : Char} (h : IsInk c) : Source.isLineEnd c = false := by
  refine Bool.eq_false_iff.2 fun hend => ?_
  simp only [Source.isLineEnd, Bool.or_eq_true, beq_iff_eq] at hend
  obtain rfl | rfl := hend
  · exact h.2.1 rfl
  · exact absurd h.1 (by decide)

theorem not_isLineEnd_gap {level : Nat} {line : List Token} {t : Token} :
    ∀ c ∈ gap level line t, Source.isLineEnd c = false := by
  intro c hc
  have hblank : c = ' ' := by
    unfold gap at hc
    split at hc
    · exact List.eq_of_mem_replicate hc
    · split at hc
      · exact List.mem_singleton.1 hc
      · exact absurd hc List.not_mem_nil
  subst hblank
  decide

theorem not_isLineEnd_spellLine {level : Nat} {line ts : List Token}
    (hts : ∀ t ∈ ts, t.Spelled) : ∀ c ∈ spellLine level line ts, Source.isLineEnd c = false := by
  induction ts generalizing line with
  | nil => exact fun c hc => absurd hc List.not_mem_nil
  | cons t ts ih =>
    intro c hc
    rw [spellLine, List.mem_append, List.mem_append] at hc
    obtain (hc | hc) | hc := hc
    · exact not_isLineEnd_gap c hc
    · exact not_isLineEnd_of_isInk ((hts t List.mem_cons_self).ink.2 c hc)
    · exact ih (fun u hu => hts u (List.mem_cons_of_mem t hu)) c hc

/-- The text of a line is its indentation and a text that is read as its tokens. -/
theorem IsLine.exists_content {ts : List Token} (h : IsLine ts) (level : Nat) :
    ∃ c cs, spellLine level [] ts = List.replicate (2 * level) ' ' ++ (c :: cs) ∧ IsInk c ∧
      Scans (c :: cs) ts := by
  obtain ⟨t, us, rfl⟩ := List.exists_cons_of_ne_nil h.nonempty
  have ht := h.spelled t List.mem_cons_self
  have hus := fun u hu => h.spelled u (List.mem_cons_of_mem t hu)
  obtain ⟨c, cs, hcs⟩ := List.exists_cons_of_ne_nil ht.ink.1
  refine ⟨c, cs ++ spellLine level [t] us, ?_, ht.ink.2 c (by rw [hcs]; exact List.mem_cons_self), ?_⟩
  · rw [spellLine, gap, if_pos (by rfl), hcs, List.append_assoc, List.cons_append]
  · rw [← List.cons_append, ← hcs]
    exact Scans.token ht (stoppedBy_spellLine hus) (scans_spellLine hus)

end ObjLang.Token
