import ObjLang.Proofs.Token.Layout
import ObjLang.Proofs.Token.Stream

/-!
# ObjLang.Proofs.Indentation — the layout tokens of a source text

The layout tokens of a text without faults are laid out: the state of the reader is always the levels
and the brackets that the tokens found so far leave open.  A line is faulted for its indentation
exactly if it has text, closes levels and is as wide as none of those that were open.
-/

namespace ObjLang.Token

/-- The width of the line with the given number. -/
def lineWidth (source : String) (number : Nat) : Nat :=
  ((sourceLines source.toList)[number - 1]?).elim 0 Line.width

/-- A line that is narrower than the innermost level and as wide as no open one. -/
def Misaligned (s : Layout) (l : Line) : Prop :=
  s.depth = 0 ∧ l.width < s.levels.headD 0 ∧ l.width ∉ 0 :: s.levels

/-! ### The state of the reader -/

section

variable (width : Nat → Nat)

/-- The state tells what the tokens found so far leave open. -/
structure Tracks (s : Layout) (found : List Lexeme) : Prop where
  lawful : Lawful width found
  levels : openLevels width found = s.levels
  depth : openBrackets found = s.depth
  unended : ∀ u ∈ found, u.token ≠ .eof

/-- Behind a `dedent` goes a line as wide as the innermost level left. -/
def Settled (number : Nat) (found : List Lexeme) : Prop :=
  last? found = some .dedent → width number = (openLevels width found).headD 0

/-- Between lines, a line outside brackets has its `newline`. -/
structure Between (s : Layout) (found : List Lexeme) : Prop extends Tracks width s found where
  ended : s.depth = 0 → last? found = none ∨ last? found = some .newline

end

section

variable {width : Nat → Nat} {s : Layout} {found : List Lexeme} {l : Lexeme}

/-- One more token. -/
theorem Tracks.concat (h : Tracks width s found) (hl : Allowed width found l)
    (hne : l.token ≠ .eof) :
    Tracks width ⟨levelsAfter width s.levels l, l.token.depthAfter s.depth⟩ (found ++ [l]) := by
  refine ⟨h.lawful.concat hl, ?_, ?_, ?_⟩
  · rw [openLevels_concat, h.levels]
  · rw [openBrackets_concat, h.depth]
  · intro u hu
    obtain hu | hu := List.mem_append.1 hu
    · exact h.unended u hu
    · rwa [List.mem_singleton.1 hu]

theorem IsText.not_isLayout {t : Token} (h : t.IsText) : ¬ t.IsLayout := by
  rintro (rfl | rfl | rfl) <;> exact h

theorem levelsAfter_text {levels : List Nat} (h : l.token.IsText) :
    levelsAfter width levels l = levels := by
  unfold levelsAfter
  split
  · next hl => rw [hl] at h; exact h.elim
  · next hl => rw [hl] at h; exact h.elim
  · rfl

/-- The text of a line. -/
theorem Tracks.texts (h : Tracks width s found) {number : Nat} (hset : Settled width number found)
    {ls : List Lexeme} (hls : ∀ l ∈ ls, l.token.IsText ∧ l.span.line = number) :
    Tracks width ⟨s.levels, (ls.map Lexeme.token).foldl depthAfter s.depth⟩ (found ++ ls) ∧
      Settled width number (found ++ ls) := by
  induction ls generalizing s found with
  | nil => rw [List.append_nil]; exact ⟨h, hset⟩
  | cons l ls ih =>
    obtain ⟨htext, rfl⟩ := hls l List.mem_cons_self
    have hne : l.token ≠ .eof := by
      intro hl
      rw [hl] at htext
      exact htext
    have hallowed : Allowed width found l :=
      allowed_of_not_isLayout htext.not_isLayout fun hlast _ => hset hlast
    have hone := h.concat hallowed hne
    rw [levelsAfter_text htext] at hone
    have hset' : Settled width l.span.line (found ++ [l]) := by
      intro hlast
      rw [last?_concat] at hlast
      exact absurd (.inr (.inr (Option.some.inj hlast))) htext.not_isLayout
    have hrest := ih hone hset' fun m hm => hls m (List.mem_cons_of_mem l hm)
    rwa [List.append_assoc, List.singleton_append] at hrest

/-- A run of `dedent`. -/
theorem Tracks.dedents (h : Tracks width s found) (hdepth : s.depth = 0)
    (hlast : last? found = none ∨ ∃ t, last? found = some t ∧ t.IsLayout) (span : Span) {n : Nat}
    (hn : n ≤ s.levels.length) :
    Tracks width ⟨s.levels.drop n, 0⟩ (found ++ List.replicate n ⟨.dedent, span⟩) := by
  induction n with
  | zero =>
    rw [List.drop_zero, List.replicate_zero, List.append_nil, ← hdepth]
    exact h
  | succ n ih =>
    have hrun := ih (Nat.le_of_succ_le hn)
    have hallowed : Allowed width (found ++ List.replicate n ⟨.dedent, span⟩) ⟨.dedent, span⟩ := by
      refine ⟨fun _ => hrun.depth, nofun, fun _ => ?_, fun _ => ?_, fun _ hne => absurd rfl hne⟩
      · cases n with
        | zero => rwa [List.replicate_zero, List.append_nil]
        | succ n =>
          rw [List.replicate_succ', ← List.append_assoc, last?_concat]
          exact .inr ⟨_, rfl, .inr (.inr rfl)⟩
      · rw [hrun.levels]
        exact fun hnil => absurd (List.drop_eq_nil_iff.1 hnil) (by omega)
    have hone := hrun.concat hallowed nofun
    rwa [List.append_assoc, ← List.replicate_succ', levelsAfter, List.tail_drop] at hone

/-- The change of levels before the text of a line. -/
theorem Between.indent (h : Between width s found) (hdepth : s.depth = 0) {l : Line}
    (hwidth : width l.number = l.width)
    (herrors : errorsOf (Layout.indent s.levels l.width l.indentSpan).2 = []) :
    Tracks width ⟨(Layout.indent s.levels l.width l.indentSpan).1, 0⟩
        (found ++ lexemesOf (Layout.indent s.levels l.width l.indentSpan).2) ∧
      Settled width l.number
        (found ++ lexemesOf (Layout.indent s.levels l.width l.indentSpan).2) := by
  have hended := h.ended hdepth
  unfold Layout.indent at herrors ⊢
  split
  · have hallowed : Allowed width found ⟨.indent, l.indentSpan⟩ :=
      ⟨fun _ => h.depth.trans hdepth, fun _ => hended, nofun, nofun,
        fun hlast => by rw [hlast] at hended; exact absurd hended (by simp)⟩
    have hone := h.toTracks.concat hallowed nofun
    rw [hdepth] at hone
    refine ⟨?_, ?_⟩
    · rw [← hwidth]
      exact hone
    · intro hlast
      exact absurd (last?_concat.symm.trans hlast) (by simp)
  · next hle =>
    rw [if_neg hle] at herrors
    dsimp only at herrors ⊢
    generalize hkept : s.levels.dropWhile (l.width < ·) = kept at herrors ⊢
    by_cases hhead : l.width = kept.headD 0
    · rw [if_pos hhead, lexemesOf_replicate]
      have hdrop : kept = s.levels.drop (s.levels.length - kept.length) :=
        List.suffix_iff_eq_drop.1 (hkept ▸ List.dropWhile_suffix _)
      have hrun := h.toTracks.dedents hdepth
        (hended.imp_right fun hlast => ⟨_, hlast, .inl rfl⟩) l.indentSpan (Nat.sub_le _ kept.length)
      rw [← hdrop] at hrun
      refine ⟨hrun, fun _ => ?_⟩
      rw [hwidth, hrun.levels, hhead]
    · rw [if_neg hhead, errorsOf_append] at herrors
      exact absurd (List.append_eq_nil_iff.1 herrors).2 (List.cons_ne_nil _ _)

theorem mem_lexemesOf_pieceItems {line : Line} {column : Nat} {ps : List Piece}
    (h : l ∈ lexemesOf (pieceItems line column ps)) : l.span.line = line.number := by
  induction ps generalizing column with
  | nil => exact absurd h List.not_mem_nil
  | cons p ps ih =>
    rw [pieceItems, lexemesOf_append, List.mem_append] at h
    obtain h | h := h
    · unfold Piece.item? at h
      split at h
      · exact absurd h List.not_mem_nil
      · rw [List.mem_singleton.1 h]
        rfl
      · exact absurd h List.not_mem_nil
      · exact absurd h List.not_mem_nil
    · exact ih h

/-- The text of a line gives tokens that stand for text. -/
theorem lexemesOf_content {line : Line} {column : Nat} :
    ∀ l ∈ lexemesOf (pieceItems line column (pieces line.content)),
      l.token.IsText ∧ l.span.line = line.number := by
  intro l hl
  refine ⟨?_, mem_lexemesOf_pieceItems hl⟩
  have htoken : l.token ∈ tokensOf (pieceItems line column (pieces line.content)) :=
    List.mem_map_of_mem hl
  rw [tokensOf_pieceItems] at htoken
  exact (piecesUpTo_token _ htoken).1

/-- One line. -/
theorem Between.line (h : Between width s found) {l : Line} (hwidth : width l.number = l.width)
    (herrors : errorsOf (s.line l).2 = []) :
    Between width (s.line l).1 (found ++ lexemesOf (s.line l).2) := by
  unfold Layout.line at herrors ⊢
  split
  · rwa [show lexemesOf [] = [] from rfl, List.append_nil]
  · next hskip =>
    rw [if_neg hskip] at herrors
    generalize hchange : (if s.depth = 0 then Layout.indent s.levels l.width l.indentSpan
      else (s.levels, [])) = change at herrors ⊢
    dsimp only at herrors ⊢
    rw [errorsOf_append, errorsOf_append, List.append_eq_nil_iff, List.append_eq_nil_iff] at herrors
    have hindent : Tracks width ⟨change.1, s.depth⟩ (found ++ lexemesOf change.2) ∧
        Settled width l.number (found ++ lexemesOf change.2) := by
      subst hchange
      by_cases hdepth : s.depth = 0
      · rw [if_pos hdepth] at herrors ⊢
        rw [hdepth]
        exact h.indent hdepth hwidth herrors.1.1
      · rw [if_neg hdepth, show lexemesOf [] = [] from rfl, List.append_nil]
        refine ⟨h.toTracks, fun hlast => ?_⟩
        have hzero := h.lawful.openBrackets_of_last? hlast (.inr (.inr rfl))
        exact absurd (h.depth.symm.trans hzero) hdepth
    obtain ⟨htracks, hsettled⟩ := hindent.1.texts hindent.2 lexemesOf_content
    rw [lexemesOf_append, lexemesOf_append, itemsDepth_eq, ← List.append_assoc, ← List.append_assoc]
    split
    · next hzero =>
      have hallowed : Allowed width _ ⟨.newline, l.endSpan⟩ :=
        ⟨fun _ => htracks.depth.trans hzero, nofun, nofun, nofun, fun hlast _ _ => hsettled hlast⟩
      have hone := htracks.concat hallowed nofun
      exact ⟨hone, fun _ => .inr last?_concat⟩
    · next hdepth =>
      rw [show lexemesOf [] = [] from rfl, List.append_nil]
      exact ⟨htracks, fun hzero => absurd hzero hdepth⟩

/-- Lines one after the other. -/
theorem Between.lines (h : Between width s found) {ls : List Line}
    (hwidths : ∀ l ∈ ls, width l.number = l.width) (herrors : errorsOf (s.lines ls).2 = []) :
    Between width (s.lines ls).1 (found ++ lexemesOf (s.lines ls).2) := by
  induction ls generalizing s found with
  | nil => rwa [Layout.lines, show lexemesOf [] = [] from rfl, List.append_nil]
  | cons l ls ih =>
    rw [Layout.lines] at herrors ⊢
    dsimp only at herrors ⊢
    rw [errorsOf_append, List.append_eq_nil_iff] at herrors
    have hline := h.line (hwidths l List.mem_cons_self) herrors.1
    rw [lexemesOf_append, ← List.append_assoc]
    exact ih hline (fun m hm => hwidths m (List.mem_cons_of_mem l hm)) herrors.2

theorem between_start : Between width Layout.start [] where
  lawful := lawful_nil
  levels := rfl
  depth := rfl
  unended := nofun
  ended _ := .inl rfl

/-- The end of the text. -/
theorem Between.close (h : Between width s found) {span : Span}
    (herrors : errorsOf (s.close span) = []) :
    LaidOut width (found ++ lexemesOf (s.close span)) := by
  have hdepth : s.depth = 0 := by
    by_contra hdepth
    rw [Layout.close, if_pos (Nat.pos_of_ne_zero hdepth)] at herrors
    exact absurd herrors (List.cons_ne_nil _ _)
  have hrun := h.toTracks.dedents hdepth
    ((h.ended hdepth).imp_right fun hlast => ⟨_, hlast, .inl rfl⟩) span (Nat.le_refl _)
  have hlaid := hrun.lawful.laidOut (l := ⟨.eof, span⟩)
    (by rw [hrun.levels, List.drop_length]) hrun.unended rfl
  rwa [Layout.close, if_neg (by omega), List.nil_append, lexemesOf_append, lexemesOf_replicate,
    ← List.append_assoc]

end

/-! ### Numbers of lines -/

theorem getElem?_numberLines {number start : Nat} {ls : List (List Char)} {l : Line}
    (hl : l ∈ numberLines number start ls) :
    number ≤ l.number ∧ (numberLines number start ls)[l.number - number]? = some l := by
  induction ls generalizing number start with
  | nil => exact absurd hl List.not_mem_nil
  | cons text ls ih =>
    rw [numberLines] at hl ⊢
    obtain rfl | hl := List.mem_cons.1 hl
    · exact ⟨Nat.le_refl _, by rw [Nat.sub_self, List.getElem?_cons_zero]⟩
    · obtain ⟨hle, hget⟩ := ih hl
      refine ⟨Nat.le_of_succ_le hle, ?_⟩
      rw [show l.number - number = l.number - (number + 1) + 1 by omega, List.getElem?_cons_succ,
        hget]

theorem lineWidth_number {source : String} {l : Line} (hl : l ∈ sourceLines source.toList) :
    lineWidth source l.number = l.width := by
  rw [lineWidth, sourceLines, (getElem?_numberLines hl).2]
  rfl

/-- The tokens of a text without faults are laid out. -/
theorem laidOut_of_tokenize {source : String} {tokens : List Lexeme}
    (h : tokenize source = .ok tokens) : LaidOut (lineWidth source) tokens := by
  obtain ⟨herrors, rfl⟩ := tokens_of_tokenize h
  rw [items, errorsOf_append, List.append_eq_nil_iff] at herrors
  rw [items, lexemesOf_append]
  have hstart : Between (lineWidth source) Layout.start [] := between_start
  have hlines := hstart.lines (fun l hl => lineWidth_number hl) herrors.1
  exact hlines.close herrors.2

/-! ### Faults of indentation -/

/-- Open levels get wider inwards and are wider than the outermost. -/
def Nested (levels : List Nat) : Prop := (levels ++ [0]).Pairwise (· > ·)

theorem Nested.head_lt {w : Nat} {levels : List Nat} (h : Nested (w :: levels)) :
    ∀ v ∈ 0 :: levels, v < w := by
  intro v hv
  refine List.rel_of_pairwise_cons h ?_
  simpa [or_comm] using hv

/-- The innermost level left is as wide as the line exactly if some open level is. -/
theorem Nested.headD_dropWhile {levels : List Nat} (h : Nested levels) (w : Nat) :
    w = (levels.dropWhile (w < ·)).headD 0 ↔ w ∈ 0 :: levels := by
  induction levels with
  | nil => exact List.mem_singleton.symm
  | cons v levels ih =>
    by_cases hlt : w < v
    · rw [List.dropWhile_cons_of_pos (by simpa using hlt), ih (List.Pairwise.of_cons h)]
      have hne : w ≠ v := Nat.ne_of_lt hlt
      simp [hne]
    · rw [List.dropWhile_cons_of_neg (by simpa using hlt), List.headD_cons]
      refine ⟨fun heq => heq ▸ List.mem_cons_of_mem 0 List.mem_cons_self, fun hmem => ?_⟩
      by_contra hne
      have hmem' : w ∈ 0 :: levels := by simpa [hne] using hmem
      exact hlt (h.head_lt w hmem')

/-- A line leaves the levels nested. -/
theorem Nested.line {s : Layout} (h : Nested s.levels) (l : Line) : Nested (s.line l).1.levels := by
  unfold Layout.line
  split
  · exact h
  · dsimp only
    split
    · unfold Layout.indent
      split
      · next hlt =>
        refine List.pairwise_cons.2 ⟨fun v hv => ?_, h⟩
        cases hlevels : s.levels with
        | nil =>
          rw [hlevels] at hlt hv
          rwa [List.mem_singleton.1 hv]
        | cons w levels =>
          rw [hlevels] at h hlt hv
          obtain rfl | hv := List.mem_cons.1 hv
          · exact hlt
          · exact Nat.lt_trans (h.head_lt v (by simpa [or_comm] using hv)) hlt
      · exact List.Pairwise.sublist ((List.dropWhile_sublist _).append_right [0]) h
    · exact h

theorem Nested.lines {s : Layout} (h : Nested s.levels) (ls : List Line) :
    Nested (s.lines ls).1.levels := by
  induction ls generalizing s with
  | nil => exact h
  | cons l ls ih => exact ih (h.line l)

/-- The fault of a change of levels. -/
theorem Nested.errorsOf_indent {levels : List Nat} (h : Nested levels) (w : Nat) (span : Span) :
    errorsOf (Layout.indent levels w span).2 =
      if w < levels.headD 0 ∧ w ∉ 0 :: levels then [⟨.inconsistentDedent, span⟩] else [] := by
  unfold Layout.indent
  split
  · next hlt => rw [if_neg (by omega)]; rfl
  · next hle =>
    have hhead : levels.headD 0 ∈ 0 :: levels := by cases levels <;> simp
    dsimp only
    by_cases hmem : w ∈ 0 :: levels
    · rw [if_pos ((h.headD_dropWhile w).2 hmem), if_neg fun hno => hno.2 hmem,
        errorsOf_replicate]
    · have hne : w ≠ levels.headD 0 := fun heq => hmem (heq ▸ hhead)
      rw [if_neg (mt (h.headD_dropWhile w).1 hmem), if_pos ⟨by omega, hmem⟩, errorsOf_append,
        errorsOf_replicate]
      rfl

theorem cause_ne_of_mem_pieceItems {line : Line} {column : Nat} {ps : List Piece} {e : LexError}
    (h : e ∈ errorsOf (pieceItems line column ps)) : e.cause ≠ .inconsistentDedent := by
  induction ps generalizing column with
  | nil => exact absurd h List.not_mem_nil
  | cons p ps ih =>
    rw [pieceItems, errorsOf_append, List.mem_append] at h
    obtain h | h := h
    · unfold Piece.item? at h
      split at h
      · exact absurd h List.not_mem_nil
      · exact absurd h List.not_mem_nil
      · rw [List.mem_singleton.1 h]
        rintro ⟨⟩
      · rw [List.mem_singleton.1 h]
        rintro ⟨⟩
    · exact ih h

/-- The fault of a line for its indentation. -/
theorem mem_errorsOf_line {s : Layout} (h : Nested s.levels) {l : Line} {e : LexError}
    (he : e.cause = .inconsistentDedent) :
    e ∈ errorsOf (s.line l).2 ↔
      l.isSkipped = false ∧ Misaligned s l ∧ e = ⟨.inconsistentDedent, l.indentSpan⟩ := by
  unfold Layout.line Misaligned
  cases hskip : l.isSkipped with
  | true => simp [errorsOf]
  | false =>
    have hbody : ∀ column ps, e ∉ errorsOf (pieceItems l column ps) :=
      fun column ps hmem => cause_ne_of_mem_pieceItems hmem he
    have hclose : ∀ n, errorsOf (if n = 0 then [.ok ⟨.newline, l.endSpan⟩] else []) = [] := by
      intro n
      split <;> rfl
    rw [if_neg Bool.false_ne_true]
    dsimp only
    rw [errorsOf_append, errorsOf_append, hclose, List.append_nil, List.mem_append,
      or_iff_left (hbody _ _)]
    by_cases hdepth : s.depth = 0
    · rw [if_pos hdepth, h.errorsOf_indent]
      split
      · next hno =>
        rw [List.mem_singleton]
        exact ⟨fun heq => ⟨rfl, ⟨hdepth, hno⟩, heq⟩, fun h => h.2.2⟩
      · next hyes =>
        refine iff_of_false List.not_mem_nil ?_
        rintro ⟨-, ⟨-, hno⟩, -⟩
        exact hyes hno
    · rw [if_neg hdepth]
      refine iff_of_false List.not_mem_nil ?_
      rintro ⟨-, ⟨hzero, -⟩, -⟩
      exact hdepth hzero

theorem cause_ne_of_mem_close {s : Layout} {span : Span} {e : LexError}
    (h : e ∈ errorsOf (s.close span)) : e.cause ≠ .inconsistentDedent := by
  rw [Layout.close, errorsOf_append, errorsOf_append, errorsOf_replicate, List.append_nil,
    show errorsOf [.ok ⟨.eof, span⟩] = [] from rfl, List.append_nil] at h
  split at h
  · rw [List.mem_singleton.1 h]
    rintro ⟨⟩
  · exact absurd h List.not_mem_nil

theorem mem_errorsOf_lines {s : Layout} {ls : List Line} {e : LexError} :
    e ∈ errorsOf (s.lines ls).2 ↔ ∃ before l after, ls = before ++ l :: after ∧
      e ∈ errorsOf ((s.lines before).1.line l).2 := by
  induction ls generalizing s with
  | nil =>
    refine ⟨fun he => absurd he List.not_mem_nil, ?_⟩
    rintro ⟨before, l, after, h, -⟩
    exact absurd h.symm (by simp)
  | cons m ls ih =>
    rw [Layout.lines]
    dsimp only
    rw [errorsOf_append, List.mem_append, ih]
    constructor
    · rintro (he | ⟨before, l, after, rfl, he⟩)
      · exact ⟨[], m, ls, rfl, he⟩
      · exact ⟨m :: before, l, after, rfl, he⟩
    · rintro ⟨_ | ⟨k, before⟩, l, after, heq, he⟩
      · cases heq
        exact .inl he
      · cases heq
        exact .inr ⟨before, l, after, rfl, he⟩

/-- The layout tokens of a text without faults are laid out, and a line is faulted for its
indentation exactly if it has text, closes levels and is as wide as none of those that were open. -/
theorem tokenize_layout (source : String) :
    (∀ tokens, tokenize source = .ok tokens → LaidOut (lineWidth source) tokens) ∧
      ∀ number, (∃ errors, tokenize source = .error errors ∧
          ∃ e ∈ errors, e.cause = .inconsistentDedent ∧ e.span.line = number) ↔
        ∃ before l after, sourceLines source.toList = before ++ l :: after ∧ l.number = number ∧
          l.isSkipped = false ∧ Misaligned (Layout.start.lines before).1 l := by
  refine ⟨fun tokens => laidOut_of_tokenize, fun number => ?_⟩
  have hnested : ∀ before, Nested (Layout.start.lines before).1.levels :=
    fun before => Nested.lines (s := Layout.start) (List.pairwise_singleton _ 0) before
  constructor
  · rintro ⟨errors, htokenize, e, hmem, hcause, rfl⟩
    rw [errors_of_tokenize htokenize, items, errorsOf_append, List.mem_append] at hmem
    obtain hmem | hmem := hmem
    · obtain ⟨before, l, after, hlines, hmem⟩ := mem_errorsOf_lines.1 hmem
      obtain ⟨hskip, hmis, rfl⟩ := (mem_errorsOf_line (hnested before) hcause).1 hmem
      exact ⟨before, l, after, hlines, rfl, hskip, hmis⟩
    · exact absurd hcause (cause_ne_of_mem_close hmem)
  · rintro ⟨before, l, after, hlines, rfl, hskip, hmis⟩
    have hmem : ⟨.inconsistentDedent, l.indentSpan⟩ ∈ errorsOf (items source.toList) := by
      rw [items, errorsOf_append]
      exact List.mem_append_left _ (mem_errorsOf_lines.2 ⟨before, l, after, hlines,
        (mem_errorsOf_line (hnested before) rfl).2 ⟨hskip, hmis, rfl⟩⟩)
    exact ⟨_, tokenize_of_ne_nil (List.ne_nil_of_mem hmem), _, hmem, rfl, rfl⟩

/-- A text with a line that closes two levels, and one with a line between two levels. -/
def closesTwo : String := "if a:\n  if b:\n    c\nd\n"
def betweenLevels : String := "if a:\n    b\n  c\n"

theorem tokenize_layout_closesTwo :
    (∃ tokens, tokenize closesTwo = .ok tokens ∧ LaidOut (lineWidth closesTwo) tokens) ∧
      ∃ errors, tokenize betweenLevels = .error errors ∧
        ∃ e ∈ errors, e.cause = .inconsistentDedent ∧ e.span.line = 3 := by
  constructor
  · have hok : (tokenize closesTwo).toOption.isSome = true := by decide +kernel
    cases htokens : tokenize closesTwo with
    | error e => rw [htokens] at hok; cases hok
    | ok tokens => exact ⟨tokens, rfl, (tokenize_layout closesTwo).1 tokens htokens⟩
  · refine ((tokenize_layout betweenLevels).2 3).2
      ⟨[⟨1, 0, "if a:".toList⟩, ⟨2, 6, "    b".toList⟩], ⟨3, 12, "  c".toList⟩, [], by rfl, rfl, ?_⟩
    exact ⟨by decide +kernel, by decide +kernel, by decide +kernel, by decide +kernel⟩

/-- A text with a blank line that is between two levels. -/
def blankBetween : String := "if a:\n    b\n  \n"

/-- A line without text may be as wide as it likes. -/
theorem not_faulted_iff_misaligned : ¬ ∀ source before l after,
    sourceLines source.toList = before ++ l :: after →
      ((∃ errors, tokenize source = .error errors ∧
          ∃ e ∈ errors, e.cause = .inconsistentDedent ∧ e.span.line = l.number) ↔
        Misaligned (Layout.start.lines before).1 l) := by
  intro h
  have hlines : sourceLines blankBetween.toList =
      [⟨1, 0, "if a:".toList⟩, ⟨2, 6, "    b".toList⟩] ++ ⟨3, 12, "  ".toList⟩ :: [] := by rfl
  obtain ⟨errors, htokenize, -⟩ := (h _ _ _ _ hlines).2
    ⟨by decide +kernel, by decide +kernel, by decide +kernel⟩
  have hok : (tokenize blankBetween).toOption.isSome = true := by decide +kernel
  rw [htokenize] at hok
  cases hok

end ObjLang.Token
