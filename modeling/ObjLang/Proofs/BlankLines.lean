import Mathlib.Data.List.DropRight
import ObjLang.Proofs.Token.Layout

/-!
# ObjLang.Proofs.BlankLines — a line without tokens among the lines of a source text

A line of blanks and a comment gives no token of its own.  If only spaces and tabs stand before its end
or comment the reader passes it over, and inside brackets lines do not count; there the line changes
nothing but places.  Elsewhere a carriage return or a form feed makes the reader take it for a line with
text: it takes part in the layout and gets a `newline`.
-/

namespace ObjLang

namespace Token

/-! ### Texts with one more line -/

/-- A text that a line can follow. -/
def Terminated (cs : List Char) : Prop := ∀ c ∈ cs.getLast?, c = '\n'

/-- The text `new` is the text `old` with one more line behind the part `before`. -/
inductive Inserted (line : List Char) : List Char → List Char → List Char → Prop where
  | between {before : List Char} (after : List Char) (h : Terminated before) :
      Inserted line before (before ++ after) (before ++ line ++ '\n' :: after)
  | last {before : List Char} (h : Terminated before) (hline : line ≠ []) :
      Inserted line before before (before ++ line)
  -- the last line gets its line end first
  | behind {before new : List Char} (h : ¬ Terminated before)
      (hnew : Inserted line (before ++ ['\n']) (before ++ ['\n']) new) :
      Inserted line before before new

/-- Blanks, or blanks and a comment. -/
def NoText (line : List Char) : Prop := ∀ c ∈ (line.dropWhile isBlank).head?, c = '#'

/-- A line that the reader passes over: only spaces and tabs stand before its end or comment. -/
def PassedOver (line : List Char) : Prop :=
  ∀ c ∈ ((Source.dropLineEnd line).dropWhile isIndent).head?, c = '#'

instance (cs : List Char) : Decidable (Terminated cs) := Option.decidableForallMem cs.getLast?

instance (line : List Char) : Decidable (NoText line) :=
  Option.decidableForallMem (line.dropWhile isBlank).head?

instance (line : List Char) : Decidable (PassedOver line) :=
  Option.decidableForallMem ((Source.dropLineEnd line).dropWhile isIndent).head?

/-- The texts of the lines of a text. -/
def lineTexts (cs : List Char) : List (List Char) := (Source.lines cs).map Source.dropLineEnd

/-- Tokens or faults without their places. -/
def bareOutcome : Except (List LexError) (List Lexeme) → Except (List LexError.Cause) (List Token)
  | .ok tokens => .ok (tokens.map Lexeme.token)
  | .error errors => .error (errors.map LexError.cause)

/-! ### Lines of texts -/

theorem linesFrom_append (line cs ds : List Char) :
    Source.linesFrom line (cs ++ '\n' :: ds) =
      Source.linesFrom line (cs ++ ['\n']) ++ Source.lines ds := by
  induction cs generalizing line with
  | nil => rfl
  | cons c cs ih =>
    simp only [List.cons_append, Source.linesFrom]
    split
    · rw [ih, List.cons_append]
    · exact ih _

theorem Terminated.eq_nil_or {cs : List Char} (h : Terminated cs) :
    cs = [] ∨ ∃ bs, cs = bs ++ ['\n'] := by
  obtain rfl | ⟨bs, c, rfl⟩ := List.eq_nil_or_concat' cs
  · exact .inl rfl
  · rw [h c List.getLast?_concat]
    exact .inr ⟨bs, rfl⟩

theorem Terminated.lines_append {cs : List Char} (h : Terminated cs) (ds : List Char) :
    Source.lines (cs ++ ds) = Source.lines cs ++ Source.lines ds := by
  obtain rfl | ⟨bs, rfl⟩ := h.eq_nil_or
  · rfl
  · rw [List.append_assoc]
    exact linesFrom_append [] bs ds

/-- A line end behind the last line does not change its text. -/
theorem texts_linesFrom_terminated {c : Char} (hc : c ≠ '\n') (line bs : List Char) :
    (Source.linesFrom line (bs ++ [c] ++ ['\n'])).map Source.dropLineEnd =
      (Source.linesFrom line (bs ++ [c])).map Source.dropLineEnd := by
  induction bs generalizing line with
  | nil =>
    have hmem : '\n' ∉ [c] := by simpa using Ne.symm hc
    rw [List.nil_append, Source.linesFrom_line hmem,
      Source.linesFrom_last hmem _ (.inl (List.cons_ne_nil _ _)), List.map_cons,
      Source.dropLineEnd_terminated]
    rfl
  | cons b bs ih =>
    simp only [List.cons_append, Source.linesFrom]
    split
    · rw [List.map_cons, List.map_cons, ih]
    · exact ih _

theorem lineTexts_terminated {cs : List Char} (h : ¬ Terminated cs) :
    lineTexts (cs ++ ['\n']) = lineTexts cs := by
  obtain rfl | ⟨bs, c, rfl⟩ := List.eq_nil_or_concat' cs
  · exact absurd (by simp [Terminated]) h
  · refine texts_linesFrom_terminated (fun hc => h ?_) [] bs
    rw [Terminated, List.getLast?_concat]
    rintro _ ⟨⟩
    exact hc

/-- The inserted line stands behind the lines before it. -/
theorem Inserted.texts {line before old new : List Char} (h : Inserted line before old new)
    (hline : '\n' ∉ line) : ∃ after, lineTexts old = lineTexts before ++ after ∧
      lineTexts new = lineTexts before ++ Source.dropLineEnd line :: after := by
  induction h with
  | @between before after h =>
    refine ⟨lineTexts after, ?_, ?_⟩
    · rw [lineTexts, h.lines_append, List.map_append]
      rfl
    · rw [lineTexts, List.append_assoc, h.lines_append, List.map_append, Source.lines,
        Source.lines, Source.linesFrom_line hline, List.map_cons, List.reverse_nil, List.nil_append,
        Source.dropLineEnd_terminated]
      rfl
  | @last before h hne =>
    refine ⟨[], (List.append_nil _).symm, ?_⟩
    rw [lineTexts, h.lines_append, List.map_append, Source.lines, Source.lines,
      Source.linesFrom_last hline [] (.inl hne)]
    rfl
  | @behind before new h _ ih =>
    rwa [lineTexts_terminated h] at ih

/-! ### Reading up to places -/

/-- A token or a cause. -/
def kindOf : Item → Except LexError.Cause Token
  | .ok l => .ok l.token
  | .error e => .error e.cause

/-- What the kinds of all items say of a text. -/
def outcomeOf (kinds : List (Except LexError.Cause Token)) : Except (List LexError.Cause) (List Token) :=
  match kinds.filterMap fun k => match k with | .ok _ => none | .error c => some c with
  | [] => .ok (kinds.filterMap Except.toOption)
  | causes => .error causes

theorem tokensOf_eq (is : List Item) :
    tokensOf is = (is.map kindOf).filterMap Except.toOption := by
  rw [tokensOf, lexemesOf, List.map_filterMap, List.filterMap_map]
  congr 1
  funext i
  cases i <;> rfl

theorem tokensOf_congr {is js : List Item} (h : is.map kindOf = js.map kindOf) :
    tokensOf is = tokensOf js := by
  rw [tokensOf_eq, tokensOf_eq, h]

theorem causes_eq (is : List Item) : (errorsOf is).map LexError.cause =
    (is.map kindOf).filterMap fun k => match k with | .ok _ => none | .error c => some c := by
  rw [errorsOf, List.map_filterMap, List.filterMap_map]
  congr 1
  funext i
  cases i <;> rfl

theorem bareOutcome_tokenize (source : String) :
    bareOutcome (tokenize source) = outcomeOf ((items source.toList).map kindOf) := by
  unfold tokenize outcomeOf
  dsimp only
  rw [← causes_eq, ← tokensOf_eq]
  cases errorsOf (items source.toList) <;> rfl

theorem kinds_pieceItems (l l' : Line) (column column' : Nat) (ps : List Piece) :
    (pieceItems l column ps).map kindOf = (pieceItems l' column' ps).map kindOf := by
  induction ps generalizing column column' with
  | nil => rfl
  | cons p ps ih =>
    rw [pieceItems, pieceItems, List.map_append, List.map_append, ih]
    unfold Piece.item?
    cases p.kind <;> rfl

theorem indent_congr (levels : List Nat) (w : Nat) (span span' : Span) :
    (Layout.indent levels w span).1 = (Layout.indent levels w span').1 ∧
      (Layout.indent levels w span).2.map kindOf = (Layout.indent levels w span').2.map kindOf := by
  unfold Layout.indent
  split
  · exact ⟨rfl, rfl⟩
  · refine ⟨rfl, ?_⟩
    dsimp only
    split
    · rw [List.map_replicate, List.map_replicate]
      rfl
    · rw [List.map_append, List.map_append, List.map_replicate, List.map_replicate]
      rfl

/-- The text of a line decides how it is read. -/
theorem line_congr (s : Layout) {l l' : Line} (h : l.text = l'.text) :
    (s.line l).1 = (s.line l').1 ∧ (s.line l).2.map kindOf = (s.line l').2.map kindOf := by
  have hcontent : l.content = l'.content := by rw [Line.content, h, Line.content]
  have hskip : l.isSkipped = l'.isSkipped := by rw [Line.isSkipped, hcontent, Line.isSkipped]
  have hwidth : l.width = l'.width := by
    rw [Line.width, Line.indentation, h, Line.width, Line.indentation]
  have hbody := kinds_pieceItems l l' l.indentation.length l'.indentation.length (pieces l'.content)
  unfold Layout.line
  rw [hskip, hcontent, hwidth]
  split
  · exact ⟨rfl, rfl⟩
  · have hchange : (if s.depth = 0 then Layout.indent s.levels l'.width l.indentSpan
          else (s.levels, [])).1 =
        (if s.depth = 0 then Layout.indent s.levels l'.width l'.indentSpan else (s.levels, [])).1 ∧
        (if s.depth = 0 then Layout.indent s.levels l'.width l.indentSpan
          else (s.levels, [])).2.map kindOf =
        (if s.depth = 0 then Layout.indent s.levels l'.width l'.indentSpan
          else (s.levels, [])).2.map kindOf := by
      split
      · exact indent_congr _ _ _ _
      · exact ⟨rfl, rfl⟩
    dsimp only
    rw [itemsDepth_eq, itemsDepth_eq, tokensOf_eq, tokensOf_eq, hbody, hchange.1]
    refine ⟨rfl, ?_⟩
    simp only [List.map_append, hchange.2, hbody]
    congr 1
    split <;> rfl

theorem lines_congr (s : Layout) {ls ls' : List Line} (h : ls.map Line.text = ls'.map Line.text) :
    (s.lines ls).1 = (s.lines ls').1 ∧
      (s.lines ls).2.map kindOf = (s.lines ls').2.map kindOf := by
  induction ls generalizing s ls' with
  | nil =>
    rw [List.map_nil, eq_comm, List.map_eq_nil_iff] at h
    rw [h]
    exact ⟨rfl, rfl⟩
  | cons l ls ih =>
    obtain ⟨l', ls', rfl⟩ : ∃ l' ms, ls' = l' :: ms := by
      cases ls' with
      | nil => cases h
      | cons l' ms => exact ⟨l', ms, rfl⟩
    obtain ⟨htext, hrest⟩ := List.cons.inj h
    obtain ⟨hstate, hkinds⟩ := line_congr s htext
    obtain ⟨hstate', hkinds'⟩ := ih (s.line l').1 hrest
    simp only [Layout.lines, List.map_append, hstate, hkinds, hstate', hkinds', and_self]

theorem texts_numberLines (number start : Nat) (ls : List (List Char)) :
    (numberLines number start ls).map Line.text = ls.map Source.dropLineEnd := by
  induction ls generalizing number start with
  | nil => rfl
  | cons l ls ih => rw [numberLines, List.map_cons, List.map_cons, ih]

theorem texts_sourceLines (cs : List Char) : (sourceLines cs).map Line.text = lineTexts cs :=
  texts_numberLines 1 0 _

theorem kinds_close (s : Layout) (span span' : Span) :
    (s.close span).map kindOf = (s.close span').map kindOf := by
  rw [Layout.close, Layout.close]
  simp only [List.map_append, List.map_replicate]
  split <;> rfl

/-- The items of a text whose lines have given texts. -/
theorem kinds_items {cs : List Char} {ls : List Line} (h : lineTexts cs = ls.map Line.text) :
    (items cs).map kindOf = ((Layout.start.lines ls).2 ++
      (Layout.start.lines ls).1.close (eofSpan cs)).map kindOf := by
  obtain ⟨hstate, hkinds⟩ := lines_congr Layout.start ((texts_sourceLines cs).trans h)
  rw [items, List.map_append, hkinds, hstate, List.map_append]

/-! ### Lines without text -/

theorem dropWhile_isIndent (cs : List Char) :
    (cs.dropWhile isIndent).dropWhile isBlank = cs.dropWhile isBlank := by
  induction cs with
  | nil => rfl
  | cons c cs ih =>
    by_cases hc : isIndent c = true
    · have hblank : isBlank c = true := by
        rw [isBlank, show (c == ' ' || c == '\t') = isIndent c from rfl, hc]
        rfl
      rw [List.dropWhile_cons_of_pos hc, ih, List.dropWhile_cons_of_pos hblank]
    · rw [List.dropWhile_cons_of_neg hc]

theorem NoText.firstPiece {c : Char} {cs : List Char} (h : NoText (c :: cs)) :
    (firstPiece c cs).1.kind = .blank ∧ NoText (firstPiece c cs).2 := by
  unfold NoText at h
  unfold Token.firstPiece
  by_cases hc : isBlank c = true
  · rw [List.dropWhile_cons_of_pos hc] at h
    rw [if_pos hc, NoText, List.dropWhile_idempotent]
    exact ⟨rfl, h⟩
  · rw [List.dropWhile_cons_of_neg hc] at h
    rw [if_neg hc, if_pos (h c rfl)]
    exact ⟨rfl, nofun⟩

/-- All pieces of blanks and a comment are blank. -/
theorem NoText.pieces {cs : List Char} (h : NoText cs) : ∀ p ∈ pieces cs, p.kind = .blank := by
  suffices hany : ∀ n cs, NoText cs → ∀ p ∈ piecesUpTo n cs, p.kind = .blank from hany _ cs h
  intro n
  induction n with
  | zero => exact fun cs _ p hp => absurd hp List.not_mem_nil
  | succ n ih =>
    intro cs hcs p hp
    cases cs with
    | nil => exact absurd hp List.not_mem_nil
    | cons c cs =>
      obtain ⟨hblank, hrest⟩ := hcs.firstPiece
      obtain rfl | hp := List.mem_cons.1 hp
      · exact hblank
      · exact ih _ hrest p hp

theorem pieceItems_eq_nil {l : Line} {column : Nat} {ps : List Piece}
    (h : ∀ p ∈ ps, p.kind = .blank) : pieceItems l column ps = [] := by
  induction ps generalizing column with
  | nil => rfl
  | cons p ps ih =>
    rw [pieceItems, ih fun q hq => h q (List.mem_cons_of_mem p hq), Piece.item?,
      h p List.mem_cons_self]
    rfl

theorem NoText.of_append {cs ds : List Char} (h : NoText (cs ++ ds)) : NoText cs := by
  induction cs with
  | nil => exact nofun
  | cons c cs ih =>
    unfold NoText at h ⊢
    by_cases hc : isBlank c = true
    · rw [List.cons_append, List.dropWhile_cons_of_pos hc] at h
      rw [List.dropWhile_cons_of_pos hc]
      exact ih h
    · rw [List.cons_append, List.dropWhile_cons_of_neg hc] at h
      rw [List.dropWhile_cons_of_neg hc]
      exact h

/-- Blanks and a comment stay such when their ends are cut off. -/
theorem NoText.content {line : List Char} (h : NoText line) {l : Line}
    (hl : l.text = Source.dropLineEnd line) : NoText l.content := by
  obtain ⟨ends, hends⟩ : Source.dropLineEnd line <+: line := List.rdropWhile_prefix _ line
  rw [← hends] at h
  rw [Line.content, hl, NoText, dropWhile_isIndent]
  exact h.of_append

theorem isSkipped_iff {l : Line} :
    l.isSkipped = true ↔ ∀ c ∈ (l.text.dropWhile isIndent).head?, c = '#' := by
  rw [Line.isSkipped, Line.content]
  cases l.text.dropWhile isIndent with
  | nil => exact iff_of_true rfl fun _ hc => absurd hc (Option.not_mem_none _)
  | cons c cs => simp

/-- Inside brackets a line without text changes nothing. -/
theorem line_noText {s : Layout} {l : Line} (h : NoText l.content) (hdepth : s.depth ≠ 0) :
    s.line l = (s, []) := by
  unfold Layout.line
  split
  · rfl
  · simp only [if_neg hdepth, pieceItems_eq_nil h.pieces, itemsDepth, List.foldl_nil,
      List.append_nil]

/-! ### Counting lines -/

/-- Open brackets behind a line. -/
theorem depth_line (s : Layout) (l : Line) : (s.line l).1.depth =
    if l.isSkipped then s.depth
    else ((pieces l.content).filterMap Piece.token?).foldl depthAfter s.depth := by
  unfold Layout.line
  split
  · rfl
  · exact (itemsDepth_eq _ _).trans (by rw [tokensOf_pieceItems])

theorem count_newline_texts (cs : List Char) :
    ((pieces cs).filterMap Piece.token?).count .newline = 0 :=
  List.count_eq_zero.2 fun hmem => (piecesUpTo_token _ hmem).1

theorem count_newline_indent (levels : List Nat) (w : Nat) (span : Span) :
    (tokensOf (Layout.indent levels w span).2).count .newline = 0 := by
  obtain h | ⟨n, h⟩ := tokensOf_indent levels w span
  · rw [h]
    rfl
  · rw [h]
    exact List.count_eq_zero.2 fun hmem => nomatch List.eq_of_mem_replicate hmem

/-- A line that is not passed over gets a `newline` if no bracket is open behind it. -/
theorem count_newline_line (s : Layout) (l : Line) : (tokensOf (s.line l).2).count .newline =
    if l.isSkipped = false ∧ (s.line l).1.depth = 0 then 1 else 0 := by
  unfold Layout.line
  cases hskip : l.isSkipped with
  | true => rfl
  | false =>
    have hchange : (tokensOf (if s.depth = 0 then Layout.indent s.levels l.width l.indentSpan
        else (s.levels, [])).2).count .newline = 0 := by
      split
      · exact count_newline_indent _ _ _
      · rfl
    rw [if_neg Bool.false_ne_true]
    dsimp only
    rw [tokensOf_append, tokensOf_append, List.count_append, List.count_append, hchange,
      tokensOf_pieceItems, count_newline_texts]
    split
    · next hdepth => rw [if_pos ⟨rfl, hdepth⟩]; rfl
    · next hdepth => rw [if_neg fun h => hdepth h.2]; rfl

/-- The number of `newline` tokens of some lines depends on the brackets that are open before them,
not on the levels. -/
theorem count_newline_lines {s s' : Layout} (h : s.depth = s'.depth) (ls : List Line) :
    (s.lines ls).1.depth = (s'.lines ls).1.depth ∧
      (tokensOf (s.lines ls).2).count .newline = (tokensOf (s'.lines ls).2).count .newline := by
  induction ls generalizing s s' with
  | nil => exact ⟨h, rfl⟩
  | cons l ls ih =>
    have hdepth : (s.line l).1.depth = (s'.line l).1.depth := by
      rw [depth_line, depth_line, h]
    obtain ⟨hrest, hcount⟩ := ih hdepth
    refine ⟨hrest, ?_⟩
    rw [Layout.lines, Layout.lines]
    dsimp only
    rw [tokensOf_append, tokensOf_append, List.count_append, List.count_append, hcount,
      count_newline_line, count_newline_line, hdepth]

theorem count_newline_close (s : Layout) (span : Span) :
    (tokensOf (s.close span)).count .newline = 0 := by
  have hdedents : (List.replicate s.levels.length Token.dedent).count .newline = 0 :=
    List.count_eq_zero.2 fun hmem => nomatch List.eq_of_mem_replicate hmem
  rw [Layout.close, tokensOf_append, tokensOf_append, tokensOf_replicate, List.count_append,
    List.count_append, hdedents]
  split <;> rfl

/-! ### One more line -/

/-- The lines of the two texts: `l` is the inserted one. -/
theorem Inserted.lines {line before old new : List Char} (h : Inserted line before old new)
    (hline : '\n' ∉ line) : ∃ (l : Line) (after : List Line), l.text = Source.dropLineEnd line ∧
      lineTexts old = (sourceLines before ++ after).map Line.text ∧
      lineTexts new = (sourceLines before ++ l :: after).map Line.text := by
  obtain ⟨texts, hold, hnew⟩ := h.texts hline
  refine ⟨⟨0, 0, Source.dropLineEnd line⟩, texts.map (⟨0, 0, ·⟩), rfl, ?_, ?_⟩
  · rw [hold, List.map_append, texts_sourceLines, List.map_map]
    exact congrArg _ (List.map_id _).symm
  · rw [hnew, List.map_append, texts_sourceLines, List.map_cons, List.map_map]
    exact congrArg _ (congrArg _ (List.map_id _).symm)

/-- A line of blanks and a comment that is passed over, or that stands inside brackets, changes
nothing but places.  Any other such line gives one more `newline`. -/
theorem tokenize_insert {line before : List Char} {old new : String}
    (h : Inserted line before old.toList new.toList) (hline : '\n' ∉ line) (htext : NoText line) :
    (PassedOver line ∨ (Layout.start.lines (sourceLines before)).1.depth ≠ 0 →
        bareOutcome (tokenize new) = bareOutcome (tokenize old)) ∧
      (¬ (PassedOver line ∨ (Layout.start.lines (sourceLines before)).1.depth ≠ 0) →
        ∀ tokens tokens', tokenize old = .ok tokens → tokenize new = .ok tokens' →
          (tokens'.map Lexeme.token).count .newline =
            (tokens.map Lexeme.token).count .newline + 1) := by
  obtain ⟨l, after, hl, hold, hnew⟩ := h.lines hline
  have hkold := kinds_items hold
  have hknew := kinds_items hnew
  generalize hs : (Layout.start.lines (sourceLines before)).1 = s
  rw [lines_append, hs] at hkold hknew
  constructor
  · intro hhidden
    have hstep : s.line l = (s, []) := by
      obtain hpassed | hdepth := hhidden
      · rw [Layout.line, if_pos (isSkipped_iff.2 (hl ▸ hpassed))]
      · exact line_noText (htext.content hl) hdepth
    rw [Layout.lines, hstep] at hknew
    dsimp only at hkold hknew
    rw [List.map_append, kinds_close _ _ (eofSpan old.toList), ← List.map_append] at hknew
    rw [bareOutcome_tokenize, bareOutcome_tokenize, hkold, hknew]
    rfl
  · intro hseen tokens tokens' htokens htokens'
    rw [not_or, not_not] at hseen
    obtain ⟨hpassed, hdepth⟩ := hseen
    have hskip : l.isSkipped = false := by
      rw [← Bool.not_eq_true, isSkipped_iff, hl]
      exact hpassed
    have hline : (s.line l).1.depth = s.depth := by
      have htexts : (pieces l.content).filterMap Piece.token? = [] := by
        rw [← tokensOf_pieceItems l 0, pieceItems_eq_nil (htext.content hl).pieces]
        rfl
      rw [depth_line, hskip, htexts]
      rfl
    rw [(tokens_of_tokenize htokens).2, (tokens_of_tokenize htokens').2]
    show (tokensOf _).count _ = (tokensOf _).count _ + 1
    rw [tokensOf_congr hkold, tokensOf_congr hknew, Layout.lines]
    dsimp only
    simp only [tokensOf_append, List.count_append, count_newline_close, count_newline_line,
      (count_newline_lines hline after).2, hline, hskip, hdepth, and_self, if_true]
    omega

/-- Two calls, with a comment between them, and with a form feed between them. -/
def twoCalls : String := "print(1)\nprint(2)\n"
def commentBetween : String := "print(1)\n \t# next\nprint(2)\n"
def formFeedBetween : String := "print(1)\n\x0c\nprint(2)\n"

theorem inserted_comment :
    Inserted " \t# next".toList "print(1)\n".toList twoCalls.toList commentBetween.toList :=
  .between "print(2)\n".toList (by decide +kernel)

theorem inserted_formFeed :
    Inserted ['\x0c'] "print(1)\n".toList twoCalls.toList formFeedBetween.toList :=
  .between "print(2)\n".toList (by decide +kernel)

theorem tokenize_insert_twoCalls :
    bareOutcome (tokenize commentBetween) = bareOutcome (tokenize twoCalls) ∧
      ∃ tokens tokens', tokenize twoCalls = .ok tokens ∧ tokenize formFeedBetween = .ok tokens' ∧
        (tokens'.map Lexeme.token).count .newline =
          (tokens.map Lexeme.token).count .newline + 1 := by
  constructor
  · exact (tokenize_insert inserted_comment (by decide +kernel) (by decide +kernel)).1
      (.inl (by decide +kernel))
  · have hok : (tokenize twoCalls).toOption.isSome = true := by decide +kernel
    have hok' : (tokenize formFeedBetween).toOption.isSome = true := by decide +kernel
    cases htokens : tokenize twoCalls with
    | error e => rw [htokens] at hok; cases hok
    | ok tokens =>
      cases htokens' : tokenize formFeedBetween with
      | error e => rw [htokens'] at hok'; cases hok'
      | ok tokens' =>
        exact ⟨tokens, tokens', rfl, rfl,
          (tokenize_insert inserted_formFeed (by decide) (by decide)).2 (by decide +kernel) _ _
            htokens htokens'⟩

/-- Not every line of blanks is passed over. -/
theorem not_tokenize_insert : ¬ ∀ line before (old new : String),
    Inserted line before old.toList new.toList → '\n' ∉ line → NoText line →
      bareOutcome (tokenize new) = bareOutcome (tokenize old) := by
  intro h
  have heq := h _ _ _ _ inserted_formFeed (by decide) (by decide)
  exact absurd heq (by decide +kernel)

end Token

end ObjLang
