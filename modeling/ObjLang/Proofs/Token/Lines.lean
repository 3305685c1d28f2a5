import ObjLang.Token.Layout

/-!
# ObjLang.Proofs.Token.Lines — the lines of a text

Each line but the last ends with its only line feed.  Behind the text of a line stand carriage returns
and then the line feed, or nothing at the end of the last line.
-/

namespace ObjLang.Source

theorem byteSize_eq_length {cs : List Char} (h : ∀ c ∈ cs, c.utf8Size = 1) :
    byteSize cs = cs.length := by
  induction cs with
  | nil => rfl
  | cons c cs ih =>
    rw [byteSize_cons, h c List.mem_cons_self, ih fun d hd => h d (List.mem_cons_of_mem c hd),
      List.length_cons, Nat.add_comm]

/-- The text up to a line feed is one line. -/
theorem linesFrom_line {cs : List Char} (h : '\n' ∉ cs) (line rest : List Char) :
    linesFrom line (cs ++ '\n' :: rest) = (line.reverse ++ cs ++ ['\n']) :: linesFrom [] rest := by
  induction cs generalizing line with
  | nil =>
    rw [List.nil_append, linesFrom, if_pos rfl, List.reverse_cons, List.append_nil]
  | cons c cs ih =>
    rw [List.mem_cons, not_or] at h
    rw [List.cons_append, linesFrom, if_neg (Ne.symm h.1), ih h.2, List.reverse_cons]
    simp only [List.append_assoc, List.cons_append, List.nil_append]

/-- A text without a line feed is one line. -/
theorem linesFrom_last {cs : List Char} (h : '\n' ∉ cs) (line : List Char)
    (hne : cs ≠ [] ∨ line ≠ []) : linesFrom line cs = [line.reverse ++ cs] := by
  induction cs generalizing line with
  | nil =>
    have hline : line ≠ [] := hne.resolve_left fun hnil => hnil rfl
    rw [linesFrom, if_neg (by simpa using hline), List.append_nil]
  | cons c cs ih =>
    rw [List.mem_cons, not_or] at h
    rw [linesFrom, if_neg (Ne.symm h.1), ih h.2 _ (.inr (List.cons_ne_nil _ _)),
      List.reverse_cons, List.append_assoc, List.singleton_append]

theorem dropLineEnd_terminated (line : List Char) :
    dropLineEnd (line ++ ['\n']) = dropLineEnd line := by
  rw [dropLineEnd, List.reverse_append, List.reverse_singleton, List.singleton_append,
    List.dropWhile_cons_of_pos (by decide), ← dropLineEnd]

/-- Lines of a text: each ends with its only line feed, and only the last may be without one. -/
inductive Lined : List (List Char) → Prop
  | nil : Lined []
  | last {line : List Char} (h : '\n' ∉ line) (hne : line ≠ []) : Lined [line]
  | cons {line : List Char} {ls : List (List Char)} (h : '\n' ∉ line) (hls : Lined ls) :
    Lined ((line ++ ['\n']) :: ls)

theorem lined_lines (cs : List Char) : Lined (lines cs) := by
  suffices hany : ∀ line, '\n' ∉ line → Lined (linesFrom line cs) from hany [] List.not_mem_nil
  induction cs with
  | nil =>
    intro line hline
    rw [linesFrom]
    split
    · exact .nil
    · next hne => exact .last (by simpa using hline) (by simpa using hne)
  | cons c cs ih =>
    intro line hline
    rw [linesFrom]
    split
    · next hc =>
      subst hc
      rw [List.reverse_cons]
      exact .cons (by simpa using hline) (ih [] List.not_mem_nil)
    · next hc => exact ih (c :: line) (by simpa using ⟨Ne.symm hc, hline⟩)

/-- Without a line feed in it, a line is its text and carriage returns. -/
theorem exists_returns {line : List Char} (h : '\n' ∉ line) :
    ∃ returns, line = dropLineEnd line ++ returns ∧ ∀ c ∈ returns, c = '\r' := by
  refine ⟨(line.reverse.takeWhile isLineEnd).reverse, ?_, fun c hc => ?_⟩
  · rw [dropLineEnd, ← List.reverse_append, List.takeWhile_append_dropWhile, List.reverse_reverse]
  · rw [List.mem_reverse] at hc
    have hend : isLineEnd c = true := List.all_eq_true.1 List.all_takeWhile c hc
    have hne : c ≠ '\n' := by
      rintro rfl
      exact h (List.mem_reverse.1 ((List.takeWhile_prefix _).mem hc))
    simpa [isLineEnd, hne] using hend

/-- The first line is its text, carriage returns, and a line feed unless the text of all lines ends
there. -/
theorem Lined.ends {line : List Char} {ls : List (List Char)} (h : Lined (line :: ls)) :
    Lined ls ∧ '\n' ∉ dropLineEnd line ∧ ∃ returns feed, line = dropLineEnd line ++ (returns ++ feed) ∧
      (∀ c ∈ returns, c = '\r') ∧ (∀ c ∈ feed, c = '\n') ∧
        ∀ c ∈ (feed ++ ls.flatten).head?, c = '\n' := by
  cases h with
  | last h hne =>
    obtain ⟨returns, hline, hreturns⟩ := exists_returns h
    refine ⟨.nil, fun hmem => h ?_, returns, [], ?_, hreturns, nofun, nofun⟩
    · rw [hline]
      exact List.mem_append_left _ hmem
    · rwa [List.append_nil]
  | @cons line _ h hls =>
    obtain ⟨returns, hline, hreturns⟩ := exists_returns h
    rw [dropLineEnd_terminated]
    refine ⟨hls, fun hmem => h ?_, returns, ['\n'], ?_, hreturns, fun c => List.mem_singleton.1, ?_⟩
    · rw [hline]
      exact List.mem_append_left _ hmem
    · rw [← List.append_assoc, ← hline]
    · rintro _ ⟨⟩
      rfl

end ObjLang.Source

namespace ObjLang.Token.Line

theorem text_eq (line : Line) : line.text = line.indentation ++ line.content := by
  rw [indentation, content, List.takeWhile_append_dropWhile]

theorem byteSize_indentation (line : Line) :
    Source.byteSize line.indentation = line.indentation.length := by
  refine Source.byteSize_eq_length fun c hc => ?_
  have hindent : isIndent c = true := List.all_eq_true.1 List.all_takeWhile c hc
  simp only [isIndent, Bool.or_eq_true, beq_iff_eq] at hindent
  obtain rfl | rfl := hindent <;> decide

end ObjLang.Token.Line
