import Mathlib.Data.List.Induction
import ObjLang.Proofs.Token.Lexed

/-!
# ObjLang.Proofs.Token.Stream — the layout tokens of a stream

What may stand at a place of a stream depends on the tokens before it: on the brackets and the levels
that are open there, and on the last token.  The levels are told from the stream alone, as an `indent`
has the place of its line.  Reading a line adds only tokens that may stand there.
-/

namespace ObjLang.Token

/-! ### Tokens before a place -/

/-- Open brackets behind some tokens. -/
def openBrackets (tokens : List Lexeme) : Nat := (tokens.map Lexeme.token).foldl depthAfter 0

/-- The last of some tokens. -/
def last? (tokens : List Lexeme) : Option Token := tokens.getLast?.map Lexeme.token

/-- A token that stands for layout. -/
def IsLayout (t : Token) : Prop := t = .newline ∨ t = .indent ∨ t = .dedent

section

variable (width : Nat → Nat)

/-- The widths of the open levels, innermost first, behind one more token.  An `indent` opens a level
that is as wide as its line. -/
def levelsAfter (levels : List Nat) (l : Lexeme) : List Nat :=
  match l.token with
  | .indent => width l.span.line :: levels
  | .dedent => levels.tail
  | _ => levels

/-- The widths of the levels that some tokens leave open, without the outermost width zero. -/
def openLevels (tokens : List Lexeme) : List Nat := tokens.foldl (levelsAfter width) []

/-- A token stream with well-formed layout.  The function gives the width of each line. -/
structure LaidOut (tokens : List Lexeme) : Prop where
  ends : ∃ body l, tokens = body ++ [l] ∧ l.token = .eof ∧ ∀ u ∈ body, u.token ≠ .eof
  nested : ∀ before after, tokens = before ++ after →
    (before.map Lexeme.token).count .dedent ≤ (before.map Lexeme.token).count .indent
  balanced : (tokens.map Lexeme.token).count .dedent = (tokens.map Lexeme.token).count .indent
  outside : ∀ before l after, tokens = before ++ l :: after → l.token.IsLayout →
    openBrackets before = 0
  indents : ∀ before l after, tokens = before ++ l :: after → l.token = .indent →
    before = [] ∨ last? before = some .newline
  dedents : ∀ before l after, tokens = before ++ l :: after → l.token = .dedent →
    before = [] ∨ ∃ t, last? before = some t ∧ t.IsLayout
  -- the line behind a run of `dedent` is as wide as the innermost level left
  widths : ∀ before d l after, tokens = before ++ d :: l :: after → d.token = .dedent →
    l.token ≠ .dedent → l.token ≠ .eof →
      width l.span.line = (openLevels width (before ++ [d])).headD 0

/-- A token that may stand behind some others. -/
structure Allowed (before : List Lexeme) (l : Lexeme) : Prop where
  outside : l.token.IsLayout → openBrackets before = 0
  indent : l.token = .indent → last? before = none ∨ last? before = some .newline
  dedent : l.token = .dedent → last? before = none ∨ ∃ t, last? before = some t ∧ t.IsLayout
  opened : l.token = .dedent → openLevels width before ≠ []
  settled : last? before = some .dedent → l.token ≠ .dedent → l.token ≠ .eof →
    width l.span.line = (openLevels width before).headD 0

/-- Tokens each of which may stand behind those before it. -/
def Lawful (tokens : List Lexeme) : Prop :=
  ∀ before l after, tokens = before ++ l :: after → Allowed width before l

end

section

variable {width : Nat → Nat} {tokens : List Lexeme} {l : Lexeme}

@[simp] theorem last?_concat : last? (tokens ++ [l]) = some l.token := by
  rw [last?, List.getLast?_concat, Option.map_some]

theorem eq_nil_of_last? (h : last? tokens = none) : tokens = [] :=
  List.getLast?_eq_none_iff.1 (Option.map_eq_none_iff.1 h)

theorem exists_of_last? {t : Token} (h : last? tokens = some t) :
    ∃ before l, tokens = before ++ [l] ∧ l.token = t := by
  obtain ⟨l, hl, rfl⟩ := Option.map_eq_some_iff.1 h
  obtain ⟨before, rfl⟩ := List.getLast?_eq_some_iff.1 hl
  exact ⟨before, l, rfl, rfl⟩

@[simp] theorem openBrackets_concat :
    openBrackets (tokens ++ [l]) = l.token.depthAfter (openBrackets tokens) := by
  simp [openBrackets]

@[simp] theorem openLevels_concat :
    openLevels width (tokens ++ [l]) = levelsAfter width (openLevels width tokens) l := by
  simp [openLevels]

theorem lawful_nil : Lawful width [] := by
  intro before l after h
  exact absurd h.symm (by simp)

theorem Lawful.concat (h : Lawful width tokens) (hl : Allowed width tokens l) :
    Lawful width (tokens ++ [l]) := by
  intro before m after heq
  obtain rfl | ⟨rest, r, rfl⟩ := List.eq_nil_or_concat' after
  · obtain ⟨rfl, hm⟩ := List.append_inj' heq rfl
    cases hm
    exact hl
  · rw [← List.cons_append, ← List.append_assoc] at heq
    obtain ⟨heq, -⟩ := List.append_inj' heq rfl
    exact h before m rest heq

theorem Lawful.of_append {after : List Lexeme} (h : Lawful width (tokens ++ after)) :
    Lawful width tokens := by
  intro before m rest heq
  exact h before m (rest ++ after) (by rw [heq, List.append_assoc, List.cons_append])

/-- Layout tokens stand only where no bracket is open, and open none. -/
theorem Lawful.openBrackets_of_last? (h : Lawful width tokens) {t : Token}
    (ht : last? tokens = some t) (hlayout : t.IsLayout) : openBrackets tokens = 0 := by
  obtain ⟨before, l, rfl, rfl⟩ := exists_of_last? ht
  rw [openBrackets_concat, (h before l [] rfl).outside hlayout]
  obtain hl | hl | hl := hlayout <;> rw [hl] <;> rfl

/-- Each `indent` without its `dedent` is an open level. -/
theorem Lawful.count (h : Lawful width tokens) :
    (tokens.map Lexeme.token).count .dedent + (openLevels width tokens).length =
      (tokens.map Lexeme.token).count .indent := by
  induction tokens using List.reverseRecOn with
  | nil => rfl
  | append_singleton tokens l ih =>
    have hcount := ih h.of_append
    have hone : ∀ t, ((tokens ++ [l]).map Lexeme.token).count t =
        (tokens.map Lexeme.token).count t + if l.token = t then 1 else 0 := by
      intro t
      simp [List.count_singleton]
    rw [openLevels_concat, levelsAfter, hone, hone]
    cases hl : l.token with
    | indent =>
      rw [if_neg (by decide), if_pos rfl, List.length_cons]
      omega
    | dedent =>
      have hopen := List.length_pos_iff.2 ((h tokens l [] rfl).opened hl)
      rw [if_pos rfl, if_neg (by decide), List.length_tail]
      omega
    | _ => exact hcount

/-- A token that stands for no layout may stand anywhere, but behind a `dedent` only in a line as wide
as the innermost level left. -/
theorem allowed_of_not_isLayout (h : ¬ l.token.IsLayout)
    (hset : last? tokens = some .dedent → l.token ≠ .eof →
      width l.span.line = (openLevels width tokens).headD 0) : Allowed width tokens l where
  outside hl := absurd hl h
  indent hl := absurd (.inr (.inl hl)) h
  dedent hl := absurd (.inr (.inr hl)) h
  opened hl := absurd (.inr (.inr hl)) h
  settled hlast _ hne := hset hlast hne

/-- Lawful tokens that leave no level open, with `eof` behind them, are laid out. -/
theorem Lawful.laidOut (h : Lawful width tokens) (hopen : openLevels width tokens = [])
    (heof : ∀ u ∈ tokens, u.token ≠ .eof) (hl : l.token = .eof) : LaidOut width (tokens ++ [l]) := by
  have hlayout : ¬ l.token.IsLayout := by
    rw [hl]
    rintro (h | h | h) <;> cases h
  have hlast : Allowed width tokens l :=
    allowed_of_not_isLayout hlayout fun _ hne => absurd hl hne
  have hall := h.concat hlast
  refine ⟨⟨tokens, l, rfl, hl, heof⟩, ?_, ?_, ?_, ?_, ?_, ?_⟩
  · intro before after heq
    have hbefore : Lawful width before := (heq ▸ hall : Lawful width (before ++ after)).of_append
    have hcount := hbefore.count
    omega
  · have hcount := hall.count
    rw [openLevels_concat, hopen, levelsAfter, hl] at hcount
    simpa using hcount
  · exact fun before m after heq => (hall before m after heq).outside
  · exact fun before m after heq hm => ((hall before m after heq).indent hm).imp_left eq_nil_of_last?
  · exact fun before m after heq hm => ((hall before m after heq).dedent hm).imp_left eq_nil_of_last?
  · intro before d m after heq hd
    have hm := hall (before ++ [d]) m after (by rw [heq, List.append_assoc]; rfl)
    exact hm.settled (by rw [last?_concat, hd])

end

end ObjLang.Token
