import Mathlib.Data.List.Induction
import ObjLang.Proofs.Token.Lexed
import ObjLang.Proofs.Token.Lines

/-!
# ObjLang.Proofs.Token.Places — lines and columns of the tokens of a text

In a text of one-byte characters, the place of each token and of each fault that a line gives has the
line and the column of its offset.  The tokens that close the text all have the place `eofSpan`.
-/

namespace ObjLang

/-- A text in which each character is one byte. -/
def Source.Narrow (cs : List Char) : Prop := ∀ c ∈ cs, c.toNat < 128

instance (cs : List Char) : Decidable (Source.Narrow cs) :=
  List.decidableBAll (fun c : Char => c.toNat < 128) cs

/-- A place whose line and column are those of its offset, in a text of one-byte characters. -/
structure Span.Located (cs : List Char) (s : Span) : Prop where
  inside : s.start ≤ cs.length
  line : s.line = 1 + (cs.take s.start).count '\n'
  column : s.column = 1 + ((cs.take s.start).reverse.takeWhile (· ≠ '\n')).length

namespace Span.Located

variable {cs : List Char} {s t : Span}

/-- The smallest place over two of them. -/
theorem merge (hs : s.Located cs) (ht : t.Located cs) : (s.merge t).Located cs := by
  unfold Span.merge
  by_cases hle : s.start ≤ t.start
  · rw [if_pos hle, if_pos hle, Nat.min_eq_left hle]
    exact ⟨hs.inside, hs.line, hs.column⟩
  · rw [if_neg hle, if_neg hle, Nat.min_eq_right (by omega)]
    exact ⟨ht.inside, ht.line, ht.column⟩

/-- The smallest place over one of them and a later one. -/
theorem merge_of_le (hs : s.Located cs) (hle : s.start ≤ t.start) : (s.merge t).Located cs := by
  unfold Span.merge
  rw [if_pos hle, if_pos hle, Nat.min_eq_left hle]
  exact ⟨hs.inside, hs.line, hs.column⟩

end Span.Located

namespace Source

theorem utf8Size_eq_one {c : Char} (h : c.toNat < 128) : c.utf8Size = 1 := by
  have hle : c.val ≤ 0x7f := UInt32.le_iff_toNat_le.2 (Nat.le_of_lt_succ h)
  exact if_pos hle

theorem Narrow.byteSize {cs : List Char} (h : Narrow cs) : byteSize cs = cs.length :=
  byteSize_eq_length fun c hc => utf8Size_eq_one (h c hc)

/-! ### The place of an offset -/

/-- The line and the column behind one more character. -/
def nextPlace (place : Nat × Nat) (c : Char) : Nat × Nat :=
  if c = '\n' then (place.1 + 1, 1) else (place.1, place.2 + 1)

/-- The line and the column behind some characters at the start of a text. -/
theorem foldl_nextPlace (cs : List Char) : cs.foldl nextPlace (1, 1) =
    (1 + cs.count '\n', 1 + (cs.reverse.takeWhile (· ≠ '\n')).length) := by
  induction cs using List.reverseRecOn with
  | nil => rfl
  | append_singleton cs c ih =>
    rw [List.foldl_append, ih, List.foldl_cons, List.foldl_nil, nextPlace, List.count_append,
      List.reverse_append, List.reverse_singleton, List.singleton_append]
    by_cases hc : c = '\n'
    · subst hc
      rfl
    · rw [if_neg hc, List.takeWhile_cons_of_pos (by simpa using hc), List.length_cons,
        List.count_singleton, if_neg (by simpa using hc)]
      rfl

/-- The walk to an offset passes the characters before it. -/
theorem locate_append {before after : List Char} (h : Narrow (before ++ after)) (line column : Nat) :
    locate before.length line column (before ++ after) =
      before.foldl nextPlace (line, column) := by
  induction before generalizing line column with
  | nil =>
    cases after with
    | nil => rfl
    | cons c after =>
      rw [List.nil_append, List.length_nil, locate, if_pos c.utf8Size_pos]
      rfl
  | cons c before ih =>
    have hc := utf8Size_eq_one (h c List.mem_cons_self)
    have hrest : Narrow (before ++ after) := fun d hd => h d (List.mem_cons_of_mem c hd)
    rw [List.cons_append, List.length_cons, locate, hc, if_neg (by omega), Nat.add_sub_cancel,
      List.foldl_cons, nextPlace]
    by_cases hnl : c = '\n'
    · rw [if_pos hnl, if_pos hnl, ih hrest]
    · rw [if_neg hnl, if_neg hnl, ih hrest]

end Source

/-- The place that is computed from the offset is the line and the column. -/
theorem Span.Located.location {cs : List Char} {s : Span} (h : s.Located cs) (hcs : Source.Narrow cs) :
    Source.location cs s.start = (s.line, s.column) := by
  have hnarrow : Source.Narrow (cs.take s.start ++ cs.drop s.start) := by
    rwa [List.take_append_drop]
  have hwalk := Source.locate_append hnarrow 1 1
  rw [List.take_append_drop, List.length_take, Nat.min_eq_left h.inside, Source.foldl_nextPlace] at hwalk
  rw [Source.location, hwalk, h.line, h.column]

namespace Token

/-! ### The places of items -/

/-- The place of a token or of a fault. -/
def placeOf : Item → Span
  | .ok l => l.span
  | .error e => e.span

theorem placeOf_pieceItems {l : Line} {column : Nat} {ps : List Piece} :
    ∀ i ∈ pieceItems l column ps, ∃ done text rest, (ps.map Piece.text).flatten = done ++ text ++ rest ∧
      placeOf i = l.spanAt (column + Source.byteSize done) text := by
  induction ps generalizing column with
  | nil => exact fun i hi => absurd hi List.not_mem_nil
  | cons p ps ih =>
    intro i hi
    rw [pieceItems, List.mem_append] at hi
    obtain hi | hi := hi
    · refine ⟨[], p.text, (ps.map Piece.text).flatten, rfl, ?_⟩
      unfold Piece.item? at hi
      split at hi
      · exact absurd hi List.not_mem_nil
      all_goals
        rw [List.mem_singleton.1 hi]
        rfl
    · obtain ⟨done, text, rest, hflatten, hplace⟩ := ih i hi
      refine ⟨p.text ++ done, text, rest, ?_, ?_⟩
      · rw [List.map_cons, List.flatten_cons, hflatten]
        simp only [List.append_assoc]
      · rw [hplace, Source.byteSize_append, Nat.add_assoc]

theorem placeOf_indent {levels : List Nat} {width : Nat} {span : Span} :
    ∀ i ∈ (Layout.indent levels width span).2, placeOf i = span := by
  intro i hi
  unfold Layout.indent at hi
  split at hi
  · rw [List.mem_singleton.1 hi]
    rfl
  · dsimp only at hi
    split at hi
    · rw [List.eq_of_mem_replicate hi]
      rfl
    · obtain hi | hi := List.mem_append.1 hi
      · rw [List.eq_of_mem_replicate hi]
        rfl
      · rw [List.mem_singleton.1 hi]
        rfl

theorem placeOf_close {s : Layout} {span : Span} : ∀ i ∈ s.close span, placeOf i = span := by
  intro i hi
  rw [Layout.close, List.mem_append, List.mem_append] at hi
  obtain (hi | hi) | hi := hi
  · split at hi
    · rw [List.mem_singleton.1 hi]
      rfl
    · exact absurd hi List.not_mem_nil
  · rw [List.eq_of_mem_replicate hi]
    rfl
  · rw [List.mem_singleton.1 hi]
    rfl

/-- What a line gives stands behind a part of its text. -/
theorem placeOf_line {s : Layout} {l : Line} : ∀ i ∈ (s.line l).2, ∃ done rest stop,
    l.text = done ++ rest ∧
      placeOf i = ⟨l.start + Source.byteSize done, stop, l.number, Source.byteSize done + 1⟩ := by
  intro i hi
  unfold Layout.line at hi
  split at hi
  · exact absurd hi List.not_mem_nil
  · dsimp only at hi
    rw [List.mem_append, List.mem_append] at hi
    obtain (hi | hi) | hi := hi
    · refine ⟨[], l.text, l.indentSpan.stop, rfl, ?_⟩
      split at hi
      · exact placeOf_indent i hi
      · exact absurd hi List.not_mem_nil
    · obtain ⟨done, text, rest, hflatten, hplace⟩ := placeOf_pieceItems i hi
      rw [flatten_pieces] at hflatten
      refine ⟨l.indentation ++ done, text ++ rest,
        (l.spanAt (l.indentation.length + Source.byteSize done) text).stop, ?_, ?_⟩
      · rw [l.text_eq, hflatten]
        simp only [List.append_assoc]
      · rw [hplace, Source.byteSize_append, l.byteSize_indentation]
        rfl
    · refine ⟨l.text, [], l.endSpan.stop, (List.append_nil _).symm, ?_⟩
      split at hi
      · rw [List.mem_singleton.1 hi]
        rfl
      · exact absurd hi List.not_mem_nil

/-! ### Lines of narrow texts -/

/-- A place in the line behind some other lines. -/
theorem located_behind {before done rest : List Char} (hbefore : ∀ c ∈ before.getLast?, c = '\n')
    (hdone : '\n' ∉ done) (stop : Nat) : Span.Located (before ++ (done ++ rest))
      ⟨before.length + done.length, stop, 1 + before.count '\n', done.length + 1⟩ := by
  have htake : (before ++ (done ++ rest)).take (before.length + done.length) = before ++ done := by
    rw [← List.append_assoc, ← List.length_append, List.take_left]
  have hrun : (before ++ done).reverse.takeWhile (· ≠ '\n') = done.reverse := by
    rw [List.reverse_append, List.takeWhile_append_of_pos]
    · cases hrev : before.reverse with
      | nil => rw [List.takeWhile_nil, List.append_nil]
      | cons c cs =>
        have hc : c = '\n' := hbefore c (by rw [← List.head?_reverse, hrev]; rfl)
        rw [List.takeWhile_cons_of_neg (by simp [hc]), List.append_nil]
    · intro c hc
      have hne : c ≠ '\n' := by
        rintro rfl
        exact hdone (List.mem_reverse.1 hc)
      simpa using hne
  refine ⟨?_, ?_, ?_⟩
  · simp only [List.length_append]
    omega
  · rw [htake, List.count_append, List.count_eq_zero_of_not_mem hdone]
    rfl
  · rw [htake, hrun, List.length_reverse]
    exact Nat.add_comm _ _

/-- What the first of some lines gives. -/
theorem located_line {raw : List Char} {raws : List (List Char)} (hraws : Source.Lined (raw :: raws))
    (s : Layout) {before : List Char} (hbefore : ∀ c ∈ before.getLast?, c = '\n')
    (hnarrow : Source.Narrow (before ++ (raw :: raws).flatten)) :
    ∀ i ∈ (s.line ⟨1 + before.count '\n', before.length, Source.dropLineEnd raw⟩).2,
      (placeOf i).Located (before ++ (raw :: raws).flatten) := by
  intro i hi
  obtain ⟨-, hmem, returns, feed, hraw, -⟩ := hraws.ends
  obtain ⟨done, rest, stop, htext, hplace⟩ := placeOf_line i hi
  dsimp only at htext hplace
  have hsplit : (raw :: raws).flatten = done ++ (rest ++ (returns ++ feed ++ raws.flatten)) := by
    rw [List.flatten_cons]
    conv_lhs => rw [hraw, htext]
    simp only [List.append_assoc]
  have hdone : '\n' ∉ done := fun h => hmem (htext ▸ List.mem_append_left _ h)
  rw [hsplit] at hnarrow ⊢
  have hsize : Source.byteSize done = done.length :=
    Source.Narrow.byteSize fun c hc =>
      hnarrow c (List.mem_append_right _ (List.mem_append_left _ hc))
  rw [hplace, hsize]
  exact located_behind hbefore hdone stop

/-- What the lines of a text give. -/
theorem located_lines {raws : List (List Char)} (hraws : Source.Lined raws) (s : Layout)
    {before : List Char} (hbefore : ∀ c ∈ before.getLast?, c = '\n')
    (hnarrow : Source.Narrow (before ++ raws.flatten)) :
    ∀ i ∈ (s.lines (numberLines (1 + before.count '\n') before.length raws)).2,
      (placeOf i).Located (before ++ raws.flatten) := by
  induction hraws generalizing s before with
  | nil => exact fun i hi => absurd hi List.not_mem_nil
  | @last line hline hne =>
    intro i hi
    rw [numberLines, Layout.lines, numberLines] at hi
    obtain hi | hi := List.mem_append.1 hi
    · exact located_line (.last hline hne) s hbefore hnarrow i hi
    · exact absurd hi List.not_mem_nil
  | @cons line ls hline hls ih =>
    intro i hi
    rw [numberLines, Layout.lines] at hi
    obtain hi | hi := List.mem_append.1 hi
    · exact located_line (.cons hline hls) s hbefore hnarrow i hi
    · have hsplit : before ++ ((line ++ ['\n']) :: ls).flatten =
          before ++ (line ++ ['\n']) ++ ls.flatten := by
        rw [List.flatten_cons, ← List.append_assoc]
      rw [hsplit] at hnarrow ⊢
      have hsize : Source.byteSize (line ++ ['\n']) = (line ++ ['\n']).length :=
        Source.Narrow.byteSize fun c hc =>
          hnarrow c (List.mem_append_left _ (List.mem_append_right _ hc))
      have hcount : 1 + before.count '\n' + 1 = 1 + (before ++ (line ++ ['\n'])).count '\n' := by
        rw [List.count_append, List.count_append, List.count_eq_zero_of_not_mem hline]
        rfl
      rw [hsize, ← List.length_append, hcount] at hi
      refine ih _ (fun c hc => ?_) hnarrow i hi
      rw [← List.append_assoc, List.getLast?_concat] at hc
      exact (Option.some.inj hc).symm

/-- The items of a text. -/
theorem located_items {cs : List Char} (h : Source.Narrow cs) :
    ∀ i ∈ (Layout.start.lines (sourceLines cs)).2, (placeOf i).Located cs := by
  have hnarrow : Source.Narrow ([] ++ (Source.lines cs).flatten) := by rwa [Source.flatten_lines]
  have hlines := located_lines (Source.lined_lines cs) Layout.start (by rintro c ⟨⟩) hnarrow
  rwa [Source.flatten_lines] at hlines

/-! ### The end of a text -/

/-- Lines that all end with a line feed are as many as there are line feeds. -/
theorem length_of_lined {raws : List (List Char)} (h : Source.Lined raws)
    (hlast : ∀ c ∈ raws.flatten.getLast?, c = '\n') : raws.length = raws.flatten.count '\n' := by
  induction h with
  | nil => rfl
  | @last line hline hne =>
    rw [List.flatten_singleton] at hlast
    have hc := hlast _ (List.getLast_mem_getLast? hne)
    exact absurd (hc ▸ List.getLast_mem hne) hline
  | @cons line ls hline hls ih =>
    rw [List.flatten_cons] at hlast ⊢
    have hih := ih fun c hc => hlast c (by rw [List.getLast?_append, Option.mem_def.1 hc]; rfl)
    rw [List.length_cons, hih, List.count_append, List.count_append,
      List.count_eq_zero_of_not_mem hline]
    exact Nat.add_comm _ _

/-- The place that closes a text is where the text ends only if the text is empty. -/
theorem located_eofSpan_iff {cs : List Char} (h : Source.Narrow cs) :
    (eofSpan cs).Located cs ↔ cs = [] := by
  constructor
  · rintro ⟨-, hline, hcolumn⟩
    have htake : cs.take (eofSpan cs).start = cs := by
      rw [show (eofSpan cs).start = cs.length from h.byteSize, List.take_length]
    rw [htake] at hline hcolumn
    have hrun : cs.reverse.takeWhile (· ≠ '\n') = [] := by
      refine List.length_eq_zero_iff.1 ?_
      rw [show (eofSpan cs).column = 1 from rfl] at hcolumn
      omega
    have hlast : ∀ c ∈ (Source.lines cs).flatten.getLast?, c = '\n' := by
      intro c hc
      rw [Source.flatten_lines, ← List.head?_reverse] at hc
      obtain ⟨ds, hds⟩ : ∃ ds, cs.reverse = c :: ds := by
        cases hrev : cs.reverse with
        | nil => rw [hrev] at hc; cases hc
        | cons d ds => rw [hrev] at hc; cases hc; exact ⟨ds, rfl⟩
      rw [hds] at hrun
      by_contra hne
      rw [List.takeWhile_cons_of_pos (by simpa using hne)] at hrun
      cases hrun
    have hcount := length_of_lined (Source.lined_lines cs) hlast
    rw [Source.flatten_lines] at hcount
    have hmax : max (Source.lines cs).length 1 = 1 + cs.count '\n' := hline
    have hnil : (Source.lines cs).length = 0 := by omega
    rw [← Source.flatten_lines cs, List.length_eq_zero_iff.1 hnil, List.flatten_nil]
  · rintro rfl
    exact ⟨Nat.le_refl _, rfl, rfl⟩

/-! ### Tokens and faults -/

theorem mem_lexemesOf {l : Lexeme} {is : List Item} : l ∈ lexemesOf is ↔ .ok l ∈ is := by
  rw [lexemesOf, List.mem_filterMap]
  constructor
  · rintro ⟨i, hi, hl⟩
    cases i with
    | error e => cases hl
    | ok m =>
      cases hl
      exact hi
  · exact fun hi => ⟨_, hi, rfl⟩

theorem mem_errorsOf {e : LexError} {is : List Item} : e ∈ errorsOf is ↔ .error e ∈ is := by
  rw [errorsOf, List.mem_filterMap]
  constructor
  · rintro ⟨i, hi, he⟩
    cases i with
    | ok l => cases he
    | error f =>
      cases he
      exact hi
  · exact fun hi => ⟨_, hi, rfl⟩

variable {source : String}

/-- The tokens of a text: located ones, and the ones that close it. -/
theorem located_of_tokenize (h : Source.Narrow source.toList) {tokens : List Lexeme}
    (htokens : tokenize source = .ok tokens) : ∃ body n,
      tokens = body ++ (List.replicate n ⟨.dedent, eofSpan source.toList⟩ ++
        [⟨.eof, eofSpan source.toList⟩]) ∧
      ∀ l ∈ body, l.span.Located source.toList := by
  obtain ⟨-, rfl⟩ := tokens_of_tokenize htokens
  rw [items, lexemesOf_append]
  refine ⟨_, (Layout.start.lines (sourceLines source.toList)).1.levels.length,
    congrArg _ ?_, fun l hl => located_items h _ (mem_lexemesOf.1 hl)⟩
  rw [Layout.close, lexemesOf_append, lexemesOf_append, lexemesOf_replicate]
  split <;> rfl

theorem tokenize_ne_error_nil : tokenize source ≠ .error [] := by
  intro h
  have hnil := errors_of_tokenize h
  unfold tokenize at h
  dsimp only at h
  rw [← hnil] at h
  cases h

/-- The faults of a text: located ones, and brackets that are open at its end. -/
theorem located_of_faults (h : Source.Narrow source.toList) {errors : List LexError}
    (herrors : tokenize source = .error errors) : ∀ e ∈ errors, e.span.Located source.toList ∨
      e.cause = .unclosedParen ∧ e.span = eofSpan source.toList := by
  obtain rfl := errors_of_tokenize herrors
  intro e he
  rw [items, mem_errorsOf, List.mem_append] at he
  obtain he | he := he
  · exact .inl (located_items h _ he)
  · refine .inr ⟨?_, placeOf_close _ he⟩
    rw [Layout.close, List.mem_append, List.mem_append] at he
    obtain (he | he) | he := he
    · split at he
      · cases List.mem_singleton.1 he
        rfl
      · exact absurd he List.not_mem_nil
    · cases List.eq_of_mem_replicate he
    · cases List.mem_singleton.1 he

end Token

end ObjLang
