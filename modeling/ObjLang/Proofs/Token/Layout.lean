import ObjLang.Proofs.Token.Lines
import ObjLang.Proofs.Token.Spell

/-!
# ObjLang.Proofs.Token.Layout — reading back a text that was laid out

A line at depth `k` is `2 * k` wide, so the widths of the open levels tell the depth.  What is left
open at the end of some lines is closed by the next line or by the end of the text; with these closing
tokens added, the lines of a stream are read as the stream.
-/

namespace ObjLang.Token

/-! ### Lines -/

/-- The widths of the open levels where blocks are `k` deep. -/
def widths : Nat → List Nat
  | 0 => []
  | k + 1 => 2 * (k + 1) :: widths k

@[simp] theorem length_widths (k : Nat) : (widths k).length = k := by
  induction k with
  | zero => rfl
  | succ k ih => rw [widths, List.length_cons, ih]

theorem headD_widths (k : Nat) : (widths k).headD 0 = 2 * k := by
  cases k <;> rfl

theorem dropWhile_widths {j k : Nat} (h : k ≤ j) :
    (widths j).dropWhile (2 * k < ·) = widths k := by
  induction j with
  | zero =>
    obtain rfl := Nat.le_zero.1 h
    rfl
  | succ j ih =>
    obtain rfl | hlt := Nat.eq_or_lt_of_le h
    · rw [widths, List.dropWhile_cons_of_neg (by simp)]
    · rw [widths, List.dropWhile_cons_of_pos (by simp only [decide_eq_true_eq]; omega),
        ih (Nat.le_of_lt_succ hlt)]

/-- The layout tokens before a line at depth `k` when blocks are `j` deep. -/
def enter (j k : Nat) : List Token :=
  if k = j + 1 then [.indent] else List.replicate (j - k) .dedent

@[simp] theorem errorsOf_append (is js : List Item) :
    errorsOf (is ++ js) = errorsOf is ++ errorsOf js :=
  List.filterMap_append

theorem errorsOf_replicate (n : Nat) (l : Lexeme) :
    errorsOf (List.replicate n (.ok l)) = [] := by
  rw [errorsOf, List.filterMap_eq_nil_iff]
  intro i hi
  obtain rfl := List.eq_of_mem_replicate hi
  rfl

theorem errorsOf_pieceItems {line : Line} {column : Nat} {ps : List Piece}
    (h : ∀ p ∈ ps, p.kind = .blank ∨ ∃ t, p.kind = .token t) :
    errorsOf (pieceItems line column ps) = [] := by
  induction ps generalizing column with
  | nil => rfl
  | cons p ps ih =>
    rw [pieceItems, errorsOf_append, ih fun q hq => h q (List.mem_cons_of_mem p hq),
      List.append_nil]
    unfold Piece.item?
    obtain hp | ⟨t, hp⟩ := h p List.mem_cons_self <;> rw [hp] <;> rfl

theorem indent_widths {j k : Nat} (h : k ≤ j + 1) (span : Span) :
    ∃ change, Layout.indent (widths j) (2 * k) span = (widths k, change) ∧
      errorsOf change = [] ∧ tokensOf change = enter j k := by
  unfold Layout.indent enter
  rw [headD_widths]
  by_cases hk : k = j + 1
  · subst hk
    rw [if_pos (by omega)]
    exact ⟨_, rfl, rfl, by rw [if_pos rfl]; rfl⟩
  · have hle : k ≤ j := by omega
    rw [if_neg (by omega), dropWhile_widths hle, length_widths]
    dsimp only
    rw [length_widths, headD_widths, if_pos rfl, if_neg hk]
    exact ⟨_, rfl, errorsOf_replicate _ _, tokensOf_replicate _ _⟩

theorem indentWidth_replicate (n : Nat) : indentWidth (List.replicate n ' ') = n := by
  suffices hany : ∀ w, (List.replicate n ' ').foldl (fun width c =>
      if c = '\t' then (width / tabWidth + 1) * tabWidth else width + 1) w = w + n by
    rw [indentWidth, hany, Nat.zero_add]
  induction n with
  | zero => exact fun w => rfl
  | succ n ih =>
    intro w
    rw [List.replicate_succ, List.foldl_cons, if_neg (by decide), ih]
    omega

/-- A line at depth `k` is read as its tokens and a `newline`, behind the change of depth. -/
theorem line_spellLine {ts : List Token} (hts : IsLine ts) {j k : Nat} (h : k ≤ j + 1)
    (number start : Nat) :
    ∃ is, Layout.line ⟨widths j, 0⟩ ⟨number, start, spellLine k [] ts⟩ = (⟨widths k, 0⟩, is) ∧
      errorsOf is = [] ∧ tokensOf is = enter j k ++ ts ++ [.newline] := by
  obtain ⟨c, cs, htext, hc, hscans⟩ := hts.exists_content k
  generalize hl : (⟨number, start, spellLine k [] ts⟩ : Line) = l
  have hspaces : ∀ d ∈ List.replicate (2 * k) ' ', isIndent d = true :=
    fun d hd => List.eq_of_mem_replicate hd ▸ rfl
  have hstop : ∀ d ∈ (c :: cs).head?, isIndent d = false := by
    rintro d ⟨⟩
    exact (Bool.or_eq_false_iff.1 (Bool.or_eq_false_iff.1 hc.1).1).1
  obtain ⟨htake, hdrop⟩ := takeWhile_append_stop hspaces hstop
  have hcontent : l.content = c :: cs := by
    rw [Line.content, ← hl]
    dsimp only
    rw [htext, hdrop]
  have hwidth : l.width = 2 * k := by
    rw [Line.width, Line.indentation, ← hl]
    dsimp only
    rw [htext, htake, indentWidth_replicate]
  have hskip : l.isSkipped = false := by
    rw [Line.isSkipped, hcontent]
    exact beq_eq_false_iff_ne.2 hc.2.2
  obtain ⟨change, hchange, herrors, htokens⟩ := indent_widths h l.indentSpan
  unfold Layout.line
  rw [if_neg (by rw [hskip]; decide)]
  dsimp only
  rw [if_pos rfl, hwidth, hchange, hcontent]
  dsimp only
  have hbody := tokensOf_pieceItems l l.indentation.length (pieces (c :: cs))
  rw [hscans.tokens] at hbody
  rw [itemsDepth_eq, hbody, hts.balanced, if_pos rfl]
  refine ⟨_, rfl, ?_, ?_⟩
  · rw [errorsOf_append, errorsOf_append, herrors, errorsOf_pieceItems hscans.faultless]
    rfl
  · rw [tokensOf_append, tokensOf_append, htokens, hbody]
    rfl

/-- Lines at depth `k` and deeper that are read as a stream, from any depth that a line at depth `k`
can follow.  The blocks that are still open at the end are closed by what comes behind. -/
def Lays (k : Nat) (ls : List (List Char)) (ts : List Token) : Prop :=
  ∀ j number start, k ≤ j ∨ (k = j + 1 ∧ ls ≠ []) → ∃ j' is, k ≤ j' ∧
    Layout.lines ⟨widths j, 0⟩ (numberLines number start ls) = (⟨widths j', 0⟩, is) ∧
    errorsOf is = [] ∧ tokensOf is ++ List.replicate (j' - k) .dedent = enter j k ++ ts

theorem lines_append (s : Layout) (ls ms : List Line) :
    s.lines (ls ++ ms) = (((s.lines ls).1.lines ms).1,
      (s.lines ls).2 ++ ((s.lines ls).1.lines ms).2) := by
  induction ls generalizing s with
  | nil => rfl
  | cons l ls ih => simp only [List.cons_append, Layout.lines, ih, List.append_assoc]

theorem numberLines_append (number start : Nat) (ls ms : List (List Char)) :
    numberLines number start (ls ++ ms) = numberLines number start ls ++
      numberLines (number + ls.length) (start + Source.byteSize ls.flatten) ms := by
  induction ls generalizing number start with
  | nil => rfl
  | cons l ls ih =>
    have hnumber : number + 1 + ls.length = number + (l :: ls).length := by
      rw [List.length_cons, Nat.add_assoc, Nat.add_comm 1]
    rw [List.cons_append, numberLines, ih, hnumber, List.flatten_cons, Source.byteSize_append,
      Nat.add_assoc, numberLines, List.cons_append]

namespace Lays

variable {k : Nat} {ls ms : List (List Char)} {ts us : List Token}

theorem nil (k : Nat) : Lays k [] [] := by
  rintro j number start (hk | ⟨-, hne⟩)
  · refine ⟨j, [], hk, rfl, rfl, ?_⟩
    rw [enter, if_neg (by omega), tokensOf_nil, List.nil_append, List.append_nil]
  · exact absurd rfl hne

theorem append (h : Lays k ls ts) (hne : ls ≠ []) (h' : Lays k ms us) :
    Lays k (ls ++ ms) (ts ++ us) := by
  intro j number start hk
  obtain ⟨j₁, is, hj₁, hlines, herrors, htokens⟩ := h j number start (hk.imp_right (⟨·.1, hne⟩))
  obtain ⟨j₂, is', hj₂, hlines', herrors', htokens'⟩ :=
    h' j₁ (number + ls.length) (start + Source.byteSize ls.flatten) (.inl hj₁)
  refine ⟨j₂, is ++ is', hj₂, ?_, ?_, ?_⟩
  · rw [numberLines_append, lines_append, hlines, hlines']
  · rw [errorsOf_append, herrors, herrors', List.append_nil]
  · rw [tokensOf_append, List.append_assoc, htokens', enter, if_neg (by omega), ← List.append_assoc,
      htokens, List.append_assoc]

/-- The lines of a block, behind a line that it belongs to. -/
theorem indented (h : Lays (k + 1) ls ts) (hne : ls ≠ []) (number start : Nat) :
    ∃ j' is, k ≤ j' ∧ Layout.lines ⟨widths k, 0⟩ (numberLines number start ls) = (⟨widths j', 0⟩, is)
      ∧ errorsOf is = [] ∧
      tokensOf is ++ List.replicate (j' - k) .dedent = .indent :: (ts ++ [.dedent]) := by
  obtain ⟨j', is, hj', hlines, herrors, htokens⟩ := h k number start (.inr ⟨rfl, hne⟩)
  refine ⟨j', is, Nat.le_of_succ_le hj', hlines, herrors, ?_⟩
  have hsucc : j' - k = (j' - (k + 1)) + 1 := by omega
  rw [hsucc, List.replicate_succ', ← List.append_assoc, htokens, enter, if_pos rfl]
  rfl

end Lays

/-- The text of a line with its line end. -/
def lineText (k : Nat) (ts : List Token) : List Char := spellLine k [] ts ++ ['\n']

theorem dropLineEnd_lineText {k : Nat} {ts : List Token} (hts : IsLine ts) :
    Source.dropLineEnd (lineText k ts) = spellLine k [] ts := by
  have hhead : ∀ c ∈ (spellLine k [] ts).reverse.head?, Source.isLineEnd c = false := fun c hc =>
    not_isLineEnd_spellLine hts.spelled c (List.mem_reverse.1 (List.mem_of_mem_head? hc))
  rw [Source.dropLineEnd, lineText, List.reverse_append, List.reverse_singleton,
    List.singleton_append, List.dropWhile_cons_of_pos (by decide), (takeWhile_stop hhead).2,
    List.reverse_reverse]

theorem IsLine.lays {k : Nat} {ts : List Token} (hts : IsLine ts) :
    Lays k [lineText k ts] (ts ++ [.newline]) := by
  intro j number start hk
  obtain ⟨is, hline, herrors, htokens⟩ := line_spellLine hts (j := j) (k := k) (by omega) number start
  refine ⟨k, is, Nat.le_refl k, ?_, herrors, ?_⟩
  · rw [numberLines, dropLineEnd_lineText hts]
    simp only [numberLines, Layout.lines, hline, List.append_nil]
  · rw [htokens, Nat.sub_self, List.replicate_zero, List.append_nil, List.append_assoc]

theorem IsLine.lays_block {k : Nat} {ts body : List Token} {ls : List (List Char)} (hts : IsLine ts)
    (hbody : Lays (k + 1) ls body) (hne : ls ≠ []) :
    Lays k (lineText k ts :: ls) (ts ++ .newline :: .indent :: (body ++ [.dedent])) := by
  intro j number start hk
  obtain ⟨is, hline, herrors, htokens⟩ := line_spellLine hts (j := j) (k := k) (by omega) number start
  obtain ⟨j', is', hj', hlines, herrors', htokens'⟩ :=
    hbody.indented hne (number + 1) (start + Source.byteSize (lineText k ts))
  refine ⟨j', is ++ is', hj', ?_, ?_, ?_⟩
  · rw [numberLines, dropLineEnd_lineText hts]
    simp only [Layout.lines, hline, hlines]
  · rw [errorsOf_append, herrors, herrors', List.append_nil]
  · rw [tokensOf_append, List.append_assoc, htokens', htokens]
    simp only [List.append_assoc, List.cons_append, List.nil_append]

/-! ### Texts of streams -/

theorem spell_line {k : Nat} {line ts : List Token} (hts : ∀ t ∈ ts, t.Spelled)
    (rest : List Token) :
    spell k line (ts ++ .newline :: rest) = spellLine k line ts ++ '\n' :: spell k [] rest := by
  induction ts generalizing line with
  | nil => rfl
  | cons t ts ih =>
    have ht := hts t List.mem_cons_self
    have hspell : spell k line (t :: (ts ++ .newline :: rest)) =
        gap k line t ++ t.text.toList ++ spell k (t :: line) (ts ++ .newline :: rest) := by
      cases t with
      | newline => exact ht.isText.elim
      | indent => exact ht.isText.elim
      | dedent => exact ht.isText.elim
      | _ => rfl
    rw [List.cons_append, hspell, ih fun u hu => hts u (List.mem_cons_of_mem t hu), spellLine,
      List.append_assoc, List.append_assoc, List.append_assoc]

/-- Behind whole lines a text goes on at the same depth. -/
theorem Laid.spell_append {ts : List Token} (h : Laid ts) (k : Nat) (us : List Token) :
    spell k [] (ts ++ us) = spell k [] ts ++ spell k [] us := by
  induction h generalizing k us with
  | nil => rfl
  | line hts _ ih =>
    rw [List.append_assoc, List.cons_append, spell_line hts.spelled, spell_line hts.spelled, ih,
      List.append_assoc, List.cons_append]
  | block hts _ _ _ ihbody ih =>
    rw [List.append_assoc, List.cons_append, List.cons_append, List.append_assoc, List.cons_append,
      spell_line hts.spelled, spell_line hts.spelled, spell, spell, ihbody, ihbody, spell, spell,
      Nat.add_sub_cancel, ih]
    simp only [List.append_assoc, List.cons_append]

theorem lines_lineText {k : Nat} {ts : List Token} (hts : ∀ t ∈ ts, t.Spelled) (rest : List Char) :
    Source.lines (spellLine k [] ts ++ '\n' :: rest) = lineText k ts :: Source.lines rest :=
  Source.linesFrom_line (fun hmem => nomatch not_isLineEnd_spellLine hts '\n' hmem) [] rest

/-- The text of a laid out stream, line by line. -/
theorem Laid.lays {ts : List Token} (h : Laid ts) (k : Nat) :
    ∃ ls, (∀ rest, Source.lines (spell k [] ts ++ rest) = ls ++ Source.lines rest) ∧
      (ts ≠ [] → ls ≠ []) ∧ Lays k ls ts := by
  induction h generalizing k with
  | nil => exact ⟨[], fun _ => rfl, fun hne => absurd rfl hne, .nil k⟩
  | @line ts rest hts hrest ih =>
    obtain ⟨ls, hls, hne, hlays⟩ := ih k
    refine ⟨lineText k ts :: ls, fun more => ?_, fun _ => List.cons_ne_nil _ _, ?_⟩
    · rw [spell_line hts.spelled, List.append_assoc, List.cons_append, lines_lineText hts.spelled, hls]
      rfl
    · have hall := hts.lays.append (List.cons_ne_nil _ _) hlays
      rwa [List.append_assoc] at hall
  | @block ts body rest hts hbody hne hrest ihbody ih =>
    obtain ⟨ls, hls, hlsne, hlays⟩ := ihbody (k + 1)
    obtain ⟨ms, hms, -, hlays'⟩ := ih k
    refine ⟨(lineText k ts :: ls) ++ ms, fun more => ?_, fun _ => List.cons_ne_nil _ _, ?_⟩
    · rw [spell_line hts.spelled, List.append_assoc, List.cons_append, lines_lineText hts.spelled,
        spell, hbody.spell_append, List.append_assoc, hls, spell, Nat.add_sub_cancel, hms,
        ← List.append_assoc]
      rfl
    · have hall := (hts.lays_block hlays (hlsne hne)).append (List.cons_ne_nil _ _) hlays'
      simpa only [List.append_assoc, List.cons_append, List.nil_append] using hall

theorem close_widths (j : Nat) (span : Span) :
    errorsOf (Layout.close ⟨widths j, 0⟩ span) = [] ∧
      tokensOf (Layout.close ⟨widths j, 0⟩ span) = List.replicate j .dedent ++ [.eof] := by
  rw [Layout.close, if_neg (Nat.lt_irrefl 0), List.nil_append, errorsOf_append, tokensOf_append,
    errorsOf_replicate, tokensOf_replicate, length_widths]
  exact ⟨rfl, rfl⟩

/-- Reading the text of a laid out stream gives the stream back. -/
theorem Laid.tokenize_spell {ts : List Token} (h : Laid ts) :
    ∃ tokens, tokenize (String.ofList (spell 0 [] ts)) = .ok tokens ∧
      tokens.map Lexeme.token = ts ++ [.eof] := by
  obtain ⟨ls, hls, -, hlays⟩ := h.lays 0
  have hlines : Source.lines (spell 0 [] ts) = ls := by
    have hrest := hls []
    rwa [List.append_nil, show Source.lines [] = [] from rfl, List.append_nil] at hrest
  obtain ⟨j, is, -, hrun, herrors, htokens⟩ := hlays 0 1 0 (.inl (Nat.le_refl 0))
  have hitems : items (spell 0 [] ts) = is ++ Layout.close ⟨widths j, 0⟩ (eofSpan (spell 0 [] ts)) := by
    rw [items, sourceLines, hlines, show Layout.start = ⟨widths 0, 0⟩ from rfl, hrun]
  obtain ⟨hclose, hend⟩ := close_widths j (eofSpan (spell 0 [] ts))
  refine ⟨lexemesOf (items (spell 0 [] ts)), ?_, ?_⟩
  · unfold tokenize
    rw [String.toList_ofList, hitems]
    dsimp only
    rw [errorsOf_append, herrors, hclose]
    rfl
  · show tokensOf (items (spell 0 [] ts)) = ts ++ [.eof]
    rw [Nat.sub_zero, show enter 0 0 = [] from rfl, List.nil_append] at htokens
    rw [hitems, tokensOf_append, hend, ← List.append_assoc, htokens]

end ObjLang.Token
