import ObjLang.Proofs.BlankLines

/-!
# ObjLang.Proofs.Token.Digits — digit strings in a text

Wherever a run of digits stands in a text, behind no name and in no comment, it gives one item: the
integer that it denotes, or a fault if no token can hold this integer.  A minus directly before it is
an item of its own.
-/

namespace ObjLang.Token

/-! ### Where a line can be cut -/

/-- Before the character `r` a piece ends, behind the text `pre` without comments. -/
structure CutBefore (pre : List Char) (r : Char) : Prop where
  comment : '#' ∉ pre
  ink : IsInk r
  symbol : ∀ s : Symbol, r ∉ s.text.toList.tail
  word : isNameChar r = true → ∀ c ∈ pre.getLast?, isNameChar c = false

section

variable {c r : Char} {pre cs rest : List Char}

/-- A run that ends before `r`, or at `r`. -/
theorem dropWhile_cut {p : Char → Bool} (h : p r = false ∨ ∃ x ∈ cs, p x = false) :
    (cs ++ r :: rest).dropWhile p = cs.dropWhile p ++ r :: rest := by
  induction cs with
  | nil =>
    have hr : p r = false := h.resolve_right (by simp)
    rw [List.nil_append, List.dropWhile_cons_of_neg (by simp [hr])]
    rfl
  | cons c cs ih =>
    by_cases hc : p c = true
    · rw [List.cons_append, List.dropWhile_cons_of_pos hc, List.dropWhile_cons_of_pos hc]
      refine ih (h.imp_right ?_)
      rintro ⟨x, hx, hpx⟩
      obtain rfl | hx := List.mem_cons.1 hx
      · rw [hc] at hpx
        cases hpx
      · exact ⟨x, hx, hpx⟩
    · rw [List.cons_append, List.dropWhile_cons_of_neg hc, List.dropWhile_cons_of_neg hc]
      rfl

namespace CutBefore

theorem suffix (h : CutBefore pre r) (hcs : cs <:+ pre) : CutBefore cs r where
  comment hmem := h.comment (hcs.mem hmem)
  ink := h.ink
  symbol := h.symbol
  word hr c hc := by
    obtain ⟨ds, rfl⟩ := hcs
    refine h.word hr c ?_
    rw [List.getLast?_append, Option.mem_def.1 hc]
    rfl

/-- A name or a number that starts in a text ends there. -/
theorem stops (h : CutBefore (c :: cs) r) (hc : isNameChar c = true) :
    isNameChar r = false ∨ ∃ x ∈ cs, isNameChar x = false := by
  cases hr : isNameChar r with
  | false => exact .inl rfl
  | true =>
    have hlast := h.word hr _ (List.getLast?_eq_some_getLast (List.cons_ne_nil c cs))
    obtain hmem | hmem := List.mem_cons.1 (List.getLast_mem (List.cons_ne_nil c cs))
    · rw [hmem, hc] at hlast
      cases hlast
    · exact .inr ⟨_, hmem, hlast⟩

/-- The first piece of a text that is cut. -/
theorem firstPiece (h : CutBefore (c :: cs) r) (rest : List Char) :
    ∃ ds, (firstPiece c (cs ++ r :: rest)).2 = ds ++ r :: rest := by
  have hcomment : c ≠ '#' := fun hc => h.comment (hc ▸ List.mem_cons_self)
  unfold Token.firstPiece
  by_cases hblank : isBlank c = true
  · rw [if_pos hblank]
    exact ⟨_, dropWhile_cut (.inl h.ink.1)⟩
  rw [if_neg hblank, if_neg hcomment]
  by_cases hdigit : isDigit c = true
  · rw [if_pos hdigit]
    have hname (x : Char) (hx : isNameChar x = false) : isDigit x = false := by
      rw [isNameChar, Bool.or_eq_false_iff] at hx
      exact hx.2
    have hstops := h.stops (by rw [isNameChar, hdigit, Bool.or_true])
    exact ⟨_, dropWhile_cut (hstops.imp (hname r) (Exists.imp fun x hx => ⟨hx.1, hname x hx.2⟩))⟩
  rw [if_neg hdigit]
  by_cases hstart : isNameStart c = true
  · rw [if_pos hstart]
    exact ⟨_, dropWhile_cut (h.stops (by rw [isNameChar, hstart, Bool.true_or]))⟩
  rw [if_neg hstart]
  split
  · next s tail hs =>
    have happend := symbol?_append hs
    obtain ⟨d, ds, hds⟩ : ∃ d ds, s.text.toList = d :: ds := by cases s <;> exact ⟨_, _, rfl⟩
    rw [hds, List.cons_append] at happend
    obtain ⟨-, htail⟩ := List.cons.inj happend
    obtain ⟨as, -, hrest⟩ | ⟨as, hcs, hrest⟩ := List.append_eq_append_iff.1 htail
    · exact ⟨as, hrest⟩
    · cases as with
      | nil => exact ⟨[], hrest.symm⟩
      | cons a as =>
        obtain ⟨rfl, -⟩ := List.cons.inj hrest
        refine absurd ?_ (h.symbol s)
        rw [hds, List.tail_cons, hcs]
        exact List.mem_append_right _ List.mem_cons_self
  · exact ⟨cs, rfl⟩

/-- The pieces of a text that is cut are those before the cut and those behind it. -/
theorem pieces (h : CutBefore pre r) (rest : List Char) : ∃ ps,
    pieces (pre ++ r :: rest) = ps ++ pieces (r :: rest) ∧ (ps.map Piece.text).flatten = pre := by
  induction hn : pre.length using Nat.strong_induction_on generalizing pre with
  | h n ih =>
    cases pre with
    | nil => exact ⟨[], rfl, rfl⟩
    | cons c cs =>
      obtain ⟨ds, hds⟩ := h.firstPiece rest
      have happend := firstPiece_append c (cs ++ r :: rest)
      rw [hds, ← List.append_assoc, ← List.cons_append, List.append_cancel_right_eq] at happend
      have hpos := List.length_pos_iff.2 (firstPiece_text_ne_nil c (cs ++ r :: rest))
      have hlength := congrArg List.length happend
      rw [List.length_append] at hlength
      obtain ⟨ps, hps, hflatten⟩ := ih ds.length (by omega) (h.suffix ⟨_, happend⟩) rfl
      refine ⟨(Token.firstPiece c (cs ++ r :: rest)).1 :: ps, ?_, ?_⟩
      · rw [List.cons_append, pieces_cons, hds, hps, List.cons_append]
      · rw [List.map_cons, List.flatten_cons, hflatten, happend]

end CutBefore

end

/-! ### Items of a part of a text -/

theorem pieceItems_append (l : Line) (column : Nat) (ps qs : List Piece) :
    pieceItems l column (ps ++ qs) = pieceItems l column ps ++
      pieceItems l (column + Source.byteSize (ps.map Piece.text).flatten) qs := by
  induction ps generalizing column with
  | nil => rfl
  | cons p ps ih =>
    rw [List.cons_append, pieceItems, pieceItems, ih, List.append_assoc, List.map_cons,
      List.flatten_cons, Source.byteSize_append, Nat.add_assoc]

/-- The pieces `ws` behind a cut of a line give items at their place. -/
theorem items_line (s : Layout) {l : Line} {pre rest : List Char} {r : Char} {ws vs : List Piece}
    (htext : l.text = pre ++ r :: rest) (h : CutBefore pre r) (hws : pieces (r :: rest) = ws ++ vs) :
    ∃ front back, (s.line l).2 = front ++ pieceItems l (Source.byteSize pre) ws ++ back := by
  have hindent : isIndent r = false := by
    have hblank := h.ink.1
    simp only [isBlank, Bool.or_eq_false_iff] at hblank
    rw [isIndent, hblank.1.1.1, hblank.1.1.2, Bool.or_false]
  have hcontent : l.content = pre.dropWhile isIndent ++ r :: rest := by
    rw [Line.content, htext, dropWhile_cut (.inl hindent)]
  have hpre : l.indentation ++ pre.dropWhile isIndent = pre := by
    have heq := l.text_eq
    rwa [htext, hcontent, ← List.append_assoc, List.append_cancel_right_eq, eq_comm] at heq
  have hkept : l.isSkipped = false := by
    have hmem : '#' ∉ pre.dropWhile isIndent :=
      fun hmem => h.comment ((List.dropWhile_suffix _).mem hmem)
    rw [Line.isSkipped, hcontent]
    cases hcs : pre.dropWhile isIndent with
    | nil => simpa using h.ink.2.2
    | cons c cs =>
      rw [hcs, List.mem_cons, not_or] at hmem
      simpa using Ne.symm hmem.1
  obtain ⟨ps, hps, hflatten⟩ := (h.suffix (List.dropWhile_suffix isIndent)).pieces rest
  have hcolumn : l.indentation.length + Source.byteSize (pre.dropWhile isIndent) =
      Source.byteSize pre := by
    rw [← l.byteSize_indentation, ← Source.byteSize_append, hpre]
  unfold Layout.line
  rw [if_neg (by simp [hkept]), hcontent, hps, hws, pieceItems_append, pieceItems_append, hflatten,
    hcolumn]
  simp only [← List.append_assoc]
  exact ⟨_, _, by rw [List.append_assoc, List.append_assoc]⟩

/-- The last line of a text, up to the end of the text. -/
def lastLine (cs : List Char) : List Char := (cs.reverse.takeWhile (· ≠ '\n')).reverse

theorem exists_lastLine (cs : List Char) :
    ∃ bs, cs = bs ++ lastLine cs ∧ Terminated bs ∧ '\n' ∉ lastLine cs := by
  refine ⟨(cs.reverse.dropWhile (· ≠ '\n')).reverse, ?_, fun c hc => ?_, fun hmem => ?_⟩
  · rw [lastLine, ← List.reverse_append, List.takeWhile_append_dropWhile, List.reverse_reverse]
  · rw [List.getLast?_reverse] at hc
    have hstop := List.head?_dropWhile_not (p := (· ≠ '\n')) (l := cs.reverse)
    rw [Option.mem_def.1 hc] at hstop
    simpa using hstop
  · have hne := List.all_eq_true.1 List.all_takeWhile _ (List.mem_reverse.1 hmem)
    simp at hne

/-- Behind a text that does not end like a line, a line ends in what follows. -/
theorem dropLineEnd_append {us : List Char} (h : ∀ c ∈ us.getLast?, Source.isLineEnd c = false)
    (cs : List Char) :
    ∃ post, Source.dropLineEnd (us ++ cs) = us ++ post ∧ post <+: cs := by
  have hstop : us.reverse.dropWhile Source.isLineEnd = us.reverse :=
    (takeWhile_stop (by rwa [List.head?_reverse])).2
  rw [Source.dropLineEnd, List.reverse_append, List.dropWhile_append]
  split
  · exact ⟨[], by rw [hstop, List.reverse_reverse, List.append_nil], List.nil_prefix⟩
  · refine ⟨(cs.reverse.dropWhile Source.isLineEnd).reverse, ?_, ?_⟩
    · rw [List.reverse_append, List.reverse_reverse]
    · rw [← List.reverse_suffix, List.reverse_reverse]
      exact List.dropWhile_suffix _

/-- The first line of a text starts with all of the text before its first line feed. -/
theorem lines_prefix (us : List Char) (hne : us ≠ []) (h : '\n' ∉ us) (cs : List Char) :
    ∃ ds ls, Source.lines (us ++ cs) = (us ++ ds) :: ls ∧ ds <+: cs := by
  by_cases hmem : '\n' ∈ cs
  · obtain ⟨as, bs, rfl, has⟩ := List.eq_append_cons_of_mem hmem
    refine ⟨as ++ ['\n'], Source.lines bs, ?_, ⟨bs, by simp⟩⟩
    rw [← List.append_assoc, Source.lines, Source.linesFrom_line (by simp [h, has])]
    simp [Source.lines]
  · refine ⟨cs, [], ?_, List.prefix_rfl⟩
    rw [Source.lines, Source.linesFrom_last (by simp [h, hmem]) _ (.inl (by simp [hne]))]
    rfl

/-- The pieces `ws` of a part `r :: rs` of a text give items at the place of this part. -/
theorem items_part {before : List Char} {r : Char} (rs after : List Char) (ws : List Piece)
    (h : CutBefore (lastLine before) r) (hline : '\n' ∉ r :: rs)
    (hend : ∀ c ∈ (r :: rs).getLast?, Source.isLineEnd c = false)
    (hws : ∀ post, (∀ c ∈ post.head?, c ∈ after.head?) →
      pieces (r :: rs ++ post) = ws ++ pieces post) :
    ∃ front back l, l.start + Source.byteSize (lastLine before) = Source.byteSize before ∧
      items (before ++ (r :: rs) ++ after) =
        front ++ pieceItems l (Source.byteSize (lastLine before)) ws ++ back := by
  obtain ⟨bs, hbefore, hbs, hlast⟩ := exists_lastLine before
  generalize lastLine before = pre at *
  subst hbefore
  obtain ⟨ds, ls, hlines, hds⟩ := lines_prefix (pre ++ r :: rs) (by simp)
    (by rw [List.mem_append, not_or]; exact ⟨hlast, hline⟩) after
  have hend' : ∀ c ∈ (pre ++ r :: rs).getLast?, Source.isLineEnd c = false := by
    intro c hc
    rw [List.getLast?_append_of_ne_nil _ (List.cons_ne_nil r rs)] at hc
    exact hend c hc
  obtain ⟨post, htext, hpost⟩ := dropLineEnd_append hend' ds
  have hhead : ∀ c ∈ post.head?, c ∈ after.head? := by
    intro c hc
    obtain ⟨as, rfl⟩ := hpost.trans hds
    rw [List.head?_append, Option.mem_def.1 hc]
    rfl
  have hsource : Source.lines (bs ++ pre ++ (r :: rs) ++ after) =
      Source.lines bs ++ (pre ++ r :: rs ++ ds) :: ls := by
    rw [← hlines, ← hbs.lines_append]
    simp only [List.append_assoc]
  generalize hstate : (Layout.start.lines (numberLines 1 0 (Source.lines bs))).1 = state
  obtain ⟨l, hl⟩ : ∃ l : Line, l = ⟨1 + (Source.lines bs).length,
    0 + Source.byteSize (Source.lines bs).flatten, Source.dropLineEnd (pre ++ r :: rs ++ ds)⟩ :=
    ⟨_, rfl⟩
  obtain ⟨front, back, hitems⟩ := items_line state
    (show l.text = pre ++ r :: (rs ++ post) by rw [hl, htext, List.append_assoc]; rfl) h (hws post hhead)
  refine ⟨(Layout.start.lines (numberLines 1 0 (Source.lines bs))).2 ++ front, ?_, l, ?_, ?_⟩
  rotate_left 1
  · rw [hl, Source.flatten_lines, Source.byteSize_append, Nat.zero_add]
  · rw [items, sourceLines, hsource, numberLines_append, numberLines, lines_append, hstate,
      Layout.lines, ← hl]
    dsimp only
    rw [hitems]
    simp only [List.append_assoc]
    rfl

/-! ### Digit strings -/

/-- A minus, or nothing. -/
def sign (negative : Bool) : List Char := if negative then ['-'] else []

/-- The token of a minus at a place, or none. -/
def signTokens (negative : Bool) (span : Span) : List Lexeme :=
  if negative then [⟨.symbol .minus, span⟩] else []

/-- What a run of digits at a place gives. -/
def digitsItem (d : List Char) (span : Span) : Item :=
  if digitsValue d ≤ maxInt then .ok ⟨.int (digitsValue d), span⟩
  else .error ⟨.invalidNumber (String.ofList d), span⟩

/-- Between two parts of a text stands a run of digits, behind a minus if it is negative, in no comment
and not as a part of a name. -/
structure Stands (negative : Bool) (d before after : List Char) : Prop where
  nonempty : d ≠ []
  digits : ∀ c ∈ d, isDigit c = true
  comment : '#' ∉ lastLine before
  word : negative = false → ∀ c ∈ before.getLast?, isNameChar c = false
  longest : ∀ c ∈ after.head?, isDigit c = false

theorem isNameChar_of_isDigit {c : Char} (h : isDigit c = true) : isNameChar c = true := by
  rw [isNameChar, h, Bool.or_true]

theorem utf8Size_of_isDigit {c : Char} (h : isDigit c = true) : c.utf8Size = 1 := by
  simp only [isDigit, Bool.and_eq_true, decide_eq_true_eq] at h
  have hle : c.val ≤ 0x7f := UInt32.le_trans h.2 (by decide)
  exact if_pos hle

theorem getLast?_lastLine {before : List Char} {c : Char} (h : c ∈ (lastLine before).getLast?) :
    c ∈ before.getLast? := by
  obtain ⟨bs, hbefore, -, -⟩ := exists_lastLine before
  rw [hbefore, List.getLast?_append, Option.mem_def.1 h]
  rfl

/-- A line can be cut before a minus that stands outside of comments. -/
theorem cutBefore_minus {pre : List Char} (h : '#' ∉ pre) : CutBefore pre '-' where
  comment := h
  ink := by unfold IsInk; decide
  symbol s := by cases s <;> decide
  word hr := absurd hr (by decide)

/-- A line can be cut before a digit that is no part of a name. -/
theorem cutBefore_digit {pre : List Char} {r : Char} (hr : isDigit r = true) (h : '#' ∉ pre)
    (hword : ∀ c ∈ pre.getLast?, isNameChar c = false) : CutBefore pre r where
  comment := h
  ink := isInk_of_isNameChar (isNameChar_of_isDigit hr)
  symbol s hmem := by
    have hnone : s.text.toList.tail.all (fun c => !isDigit c) = true := by cases s <;> decide
    have hdigit := List.all_eq_true.1 hnone r hmem
    rw [hr] at hdigit
    cases hdigit
  word _ := hword

theorem pieces_minus {cs : List Char} (h : ∀ c ∈ cs.head?, c ≠ '>') :
    pieces ('-' :: cs) = ⟨['-'], .token (.symbol .minus)⟩ :: pieces cs := by
  have hfirst : firstPiece '-' ([] ++ cs) = (⟨Symbol.minus.text.toList, .token (.symbol .minus)⟩, cs) :=
    firstPiece_symbol rfl h
  rw [pieces_cons, show firstPiece '-' cs = _ from hfirst]
  rfl

theorem pieces_digits {d cs : List Char} (hne : d ≠ []) (hd : ∀ c ∈ d, isDigit c = true)
    (h : ∀ c ∈ cs.head?, isDigit c = false) : pieces (d ++ cs) = ⟨d, ofDigits d⟩ :: pieces cs := by
  obtain ⟨c, ds, rfl⟩ := List.exists_cons_of_ne_nil hne
  obtain ⟨htake, hdrop⟩ :=
    takeWhile_append_stop (fun e he => hd e (List.mem_cons_of_mem c he)) h
  rw [List.cons_append, pieces_cons, firstPiece_of_isDigit (hd c List.mem_cons_self), htake, hdrop]

/-- The items of a run of digits. -/
theorem pieceItems_digits (l : Line) (column : Nat) (d : List Char) :
    pieceItems l column [⟨d, ofDigits d⟩] = [digitsItem d (l.spanAt column d)] := by
  rw [pieceItems, pieceItems, Piece.item?, ofDigits, digitsItem]
  by_cases hle : digitsValue d ≤ maxInt
  · rw [if_pos hle, if_pos hle]
    rfl
  · rw [if_neg hle, if_neg hle]
    rfl

/-- A run of digits gives one item at its place, behind the minus if there is one. -/
theorem Stands.items {negative : Bool} {d before after : List Char}
    (h : Stands negative d before after) : ∃ front back s₀ s,
      items (before ++ (sign negative ++ d) ++ after) =
        front ++ (signTokens negative s₀).map .ok ++ digitsItem d s :: back ∧
      s₀.start = Source.byteSize before ∧
      s.start = Source.byteSize before + (sign negative).length ∧ s.stop = s.start + d.length := by
  have hsize : Source.byteSize d = d.length :=
    Source.byteSize_eq_length fun c hc => utf8Size_of_isDigit (h.digits c hc)
  obtain ⟨r, rs, hrs⟩ := List.exists_cons_of_ne_nil h.nonempty
  have hr : isDigit r = true := h.digits r (hrs ▸ List.mem_cons_self)
  have hline : '\n' ∉ d := fun hmem => absurd (h.digits _ hmem) (by decide)
  have hend : ∀ c ∈ d.getLast?, Source.isLineEnd c = false := fun c hc =>
    not_isLineEnd_of_isInk (isInk_of_isNameChar (isNameChar_of_isDigit
      (h.digits c (List.mem_of_getLast? hc))))
  have hpieces (post : List Char) (hpost : ∀ c ∈ post.head?, c ∈ after.head?) :
      pieces (d ++ post) = ⟨d, ofDigits d⟩ :: pieces post :=
    pieces_digits h.nonempty h.digits fun c hc => h.longest c (hpost c hc)
  cases negative with
  | false =>
    have hcut := cutBefore_digit hr h.comment fun c hc => h.word rfl c (getLast?_lastLine hc)
    rw [hrs] at hline hend hpieces
    obtain ⟨front, back, l, hl, hitems⟩ := items_part rs after [⟨d, ofDigits d⟩]
      hcut hline hend (by rw [hrs]; exact hpieces)
    refine ⟨front, back, l.spanAt (Source.byteSize (lastLine before)) d,
      l.spanAt (Source.byteSize (lastLine before)) d, ?_, hl, hl, by rw [← hsize]; rfl⟩
    rw [sign, if_neg (by decide), List.nil_append, hrs, hitems, ← hrs, pieceItems_digits,
      signTokens, if_neg (by decide)]
    simp
  | true =>
    have hcut := cutBefore_minus h.comment
    obtain ⟨front, back, l, hl, hitems⟩ := items_part d after
      [⟨['-'], .token (.symbol .minus)⟩, ⟨d, ofDigits d⟩] hcut
      (by rw [List.mem_cons, not_or]; exact ⟨by decide, hline⟩)
      (by rw [List.getLast?_cons_of_ne_nil h.nonempty]; exact hend) fun post hpost => by
        rw [List.cons_append, pieces_minus, hpieces post hpost]
        · rfl
        · rw [hrs]
          rintro _ ⟨⟩ rfl
          exact absurd hr (by decide)
    refine ⟨front, back, l.spanAt (Source.byteSize (lastLine before)) ['-'],
      l.spanAt (Source.byteSize (lastLine before) + Source.byteSize ['-']) d, ?_, hl, ?_,
      by rw [← hsize]; rfl⟩
    · rw [sign, if_pos rfl, List.singleton_append, hitems, pieceItems, pieceItems_digits,
        signTokens, if_pos rfl]
      simp [Piece.item?]
    · rw [← hl, Nat.add_assoc]
      rfl

end ObjLang.Token
