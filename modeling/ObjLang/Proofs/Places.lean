import ObjLang.Diagnostic
import ObjLang.Proofs.Check.Placed
import ObjLang.Proofs.Token.Places

/-!
# ObjLang.Proofs.Places — lines and columns of tokens and faults

In a text of one-byte characters, lines and columns are those of the offsets, from the tokens over the
trees to the faults that are found in them.  The only exception is the place of the tokens that close
the text, which has the number of its lines as line and one as column.
-/

namespace ObjLang

open Token (tokenize eofSpan)

/-- The located places of a text, with the one that closes it. -/
def Places.ofText {cs : List Char} (h : Source.Narrow cs) : Places where
  Holds := Span.Located cs
  last := eofSpan cs
  merge := Span.Located.merge
  merge_last hs := hs.merge_of_le (Nat.le_trans hs.inside (Nat.le_of_eq h.byteSize.symm))

/-- What a text without token stream, a text that is no program and a program that is refused report,
and the tokens: where their places agree with the offsets. -/
structure PlacesAgree (source : String) : Prop where
  tokens : ∀ tokens, tokenize source = .ok tokens → ∃ body n,
    tokens = body ++ (List.replicate n ⟨.dedent, eofSpan source.toList⟩ ++
      [⟨.eof, eofSpan source.toList⟩]) ∧
    ∀ l ∈ body, l.span.Located source.toList
  faults : ∀ errors, tokenize source = .error errors → ∀ e ∈ errors,
    e.span.Located source.toList ∨ e.cause = .unclosedParen ∧ e.span = eofSpan source.toList
  parse : ∀ e, Program.parse source = .error e →
    e.span.Located source.toList ∨ e.span = eofSpan source.toList
  check : ∀ p e, Program.parse source = .ok p → p.check = .error e → e.span.Located source.toList
  closing : (eofSpan source.toList).Located source.toList ↔ source = ""
  -- the message and the label of a fault at a located place tell the same line and column
  messages : ∀ e : ParseError, e.span.Located source.toList → ∀ name, ∃ l text,
    (Diagnostic.ofParseError 0 e).located [⟨name, source⟩] = [l] ∧ e.message =
      "Parse error at " ++ toString l.startLine ++ ":" ++ toString l.startColumn ++ ": " ++ text

/-- The parser reads tokens at their places. -/
theorem token_placed {source : String} (h : Source.Narrow source.toList) {tokens : List Lexeme}
    (htokens : tokenize source = .ok tokens) :
    tokens ≠ [] ∧ ∀ l ∈ tokens, (Places.ofText h).Token l := by
  obtain ⟨body, n, rfl, hbody⟩ := Token.located_of_tokenize h htokens
  refine ⟨by simp, fun l hl => ?_⟩
  rw [List.mem_append, List.mem_append] at hl
  obtain hl | hl | hl := hl
  · exact ⟨.inl (hbody l hl), fun _ _ => hbody l hl⟩
  · obtain rfl := List.eq_of_mem_replicate hl
    exact ⟨.inr rfl, fun hne => absurd rfl hne⟩
  · obtain rfl := List.mem_singleton.1 hl
    exact ⟨.inr rfl, fun _ hne => absurd rfl hne⟩

/-- What is read from a text. -/
theorem parse_placed {source : String} (h : Source.Narrow source.toList) :
    (∀ e, Program.parse source = .error e →
      e.span.Located source.toList ∨ e.span = eofSpan source.toList) ∧
    ∀ p, Program.parse source = .ok p → p.Placed (Span.Located source.toList) := by
  unfold Program.parse
  split
  · next tokens htokens =>
    obtain ⟨hne, hplaced⟩ := token_placed h htokens
    exact Parser.stays_program.run hne hplaced
  · next hnil => exact absurd hnil Token.tokenize_ne_error_nil
  · next e errors herrors =>
    refine ⟨fun e' he' => ?_, nofun⟩
    cases he'
    exact (Token.located_of_faults h herrors e List.mem_cons_self).imp_right And.right

/-- The message starts with line and column. -/
theorem ParseError.message_eq (e : ParseError) : ∃ text, e.message =
    "Parse error at " ++ toString e.span.line ++ ":" ++ toString e.span.column ++ ": " ++ text := by
  unfold ParseError.message
  cases e.suggestion? with
  | none => exact ⟨e.text, rfl⟩
  | some advice =>
    exact ⟨e.text ++ ("\n  Suggestion: " ++ advice), by simp only [String.append_assoc]⟩

/-- The label of a fault is at the offset of its place. -/
theorem ParseError.message_located {source : String} (h : Source.Narrow source.toList)
    {e : ParseError} (he : e.span.Located source.toList) (name : String) : ∃ l text,
    (Diagnostic.ofParseError 0 e).located [⟨name, source⟩] = [l] ∧ e.message =
      "Parse error at " ++ toString l.startLine ++ ":" ++ toString l.startColumn ++ ": " ++ text := by
  have hplace := he.location h
  have hlabel : (Diagnostic.ofParseError 0 e).located [⟨name, source⟩] = [⟨name, e.span.line,
      e.span.column, (Source.location source.toList e.span.stop).1,
      (Source.location source.toList e.span.stop).2, e.label⟩] := by
    simp only [Diagnostic.located, Diagnostic.ofParseError, Diagnostic.labelAt, Diagnostic.locate?,
      List.filterMap_cons, List.filterMap_nil, List.getElem?_cons_zero, Option.map_some, hplace]
  obtain ⟨text, htext⟩ := e.message_eq
  exact ⟨_, text, hlabel, htext⟩

/-- Lines and columns agree with offsets, except at the place of the tokens that close the text. -/
theorem places_agree {source : String} (h : Source.Narrow source.toList) : PlacesAgree source where
  tokens _ htokens := Token.located_of_tokenize h htokens
  faults _ herrors := Token.located_of_faults h herrors
  parse := (parse_placed h).1
  check p e hp he := ((parse_placed h).2 p hp).check e he
  closing := by
    rw [Token.located_eofSpan_iff h, String.toList_eq_nil_iff]
  messages _ he name := ParseError.message_located h he name

/-- A text that ends behind the head of a statement. -/
def truncated : String := "if a:\n"

/-- A block is missing at the end of the text. -/
theorem parse_truncated :
    Program.parse truncated = .error ⟨.expected "indented block" .eof, eofSpan truncated.toList⟩ := by
  rfl

theorem places_agree_truncated : Source.Narrow truncated.toList ∧ PlacesAgree truncated :=
  ⟨by decide +kernel, places_agree (by decide +kernel)⟩

/-- The fault that the closing tokens of a text have is not at the line of its offset. -/
theorem not_places_located : ¬ ∀ source : String, Source.Narrow source.toList →
    (∀ tokens, tokenize source = .ok tokens → ∀ l ∈ tokens, l.span.Located source.toList) ∧
    (∀ errors, tokenize source = .error errors → ∀ e ∈ errors, e.span.Located source.toList) ∧
    (∀ e, Program.parse source = .error e → e.span.Located source.toList) ∧
    ∀ p e, Program.parse source = .ok p → p.check = .error e → e.span.Located source.toList := by
  intro h
  have hline := ((h truncated (by decide +kernel)).2.2.1 _ parse_truncated).line
  exact absurd hline (by decide +kernel)

end ObjLang
