import ObjLang.Proofs.Runs
import ObjLang.Token.Layout

/-!
# ObjLang.Proofs.Token.Lexed — the token streams of source texts

A name in a source text starts with a letter or an underscore, goes on with letters, digits and
underscores, and is no keyword.  An `indent` in a stream is followed by a token of the line that it
stands before, so no indented block is empty.
-/

namespace ObjLang

/-- A name that can stand in a source text. -/
def Word (x : String) : Prop := ∀ ch ∈ x.toList, Token.isNameChar ch = true

/-- The code generator makes up no such name. -/
theorem Word.not_made {x : String} (h : Word x) : ∀ rest, x.toList ≠ '#' :: rest := by
  intro rest hx
  have hname := h '#' (by rw [hx]; exact List.mem_cons_self)
  exact absurd hname (by decide)

/-- The parts of a path are kept apart by a character that they do not have. -/
theorem Word.dollar_not_mem {x : String} (h : Word x) : '$' ∉ x.toList :=
  fun hx => absurd (h '$' hx) (by decide)

/-- A text that is read as a name. -/
structure Name (x : String) : Prop where
  word : Word x
  start : ∃ c cs, x.toList = c :: cs ∧ Token.isNameStart c = true
  free : Keyword.ofText? x = none

namespace Token

/-! ### Tokens of items -/

@[simp] theorem lexemesOf_append (is js : List Item) :
    lexemesOf (is ++ js) = lexemesOf is ++ lexemesOf js :=
  List.filterMap_append

@[simp] theorem lexemesOf_replicate (n : Nat) (l : Lexeme) :
    lexemesOf (List.replicate n (.ok l)) = List.replicate n l :=
  List.filterMap_replicate_of_some rfl

theorem tokenize_of_ne_nil {source : String} (h : errorsOf (items source.toList) ≠ []) :
    tokenize source = .error (errorsOf (items source.toList)) := by
  unfold tokenize
  dsimp only
  split
  · next hnil => exact absurd hnil h
  · rfl

theorem tokens_of_tokenize {source : String} {tokens : List Lexeme}
    (h : tokenize source = .ok tokens) :
    errorsOf (items source.toList) = [] ∧ tokens = lexemesOf (items source.toList) := by
  unfold tokenize at h
  dsimp only at h
  split at h
  · next herrors =>
    cases h
    exact ⟨herrors, rfl⟩
  · cases h

theorem errors_of_tokenize {source : String} {errors : List LexError}
    (h : tokenize source = .error errors) : errors = errorsOf (items source.toList) := by
  unfold tokenize at h
  dsimp only at h
  split at h
  · cases h
  · cases h
    rfl

/-- The tokens among some items. -/
def tokensOf (items : List Item) : List Token := (lexemesOf items).map Lexeme.token

@[simp] theorem tokensOf_nil : tokensOf [] = [] := rfl

@[simp] theorem tokensOf_ok (l : Lexeme) (items : List Item) :
    tokensOf (.ok l :: items) = l.token :: tokensOf items := rfl

@[simp] theorem tokensOf_error (e : LexError) (items : List Item) :
    tokensOf (.error e :: items) = tokensOf items := rfl

@[simp] theorem tokensOf_append (is js : List Item) :
    tokensOf (is ++ js) = tokensOf is ++ tokensOf js := by
  simp only [tokensOf, lexemesOf_append, List.map_append]

@[simp] theorem tokensOf_replicate (n : Nat) (l : Lexeme) :
    tokensOf (List.replicate n (.ok l)) = List.replicate n l.token := by
  rw [tokensOf, lexemesOf_replicate, List.map_replicate]

theorem itemsDepth_eq (depth : Nat) (items : List Item) :
    itemsDepth depth items = (tokensOf items).foldl Token.depthAfter depth := by
  unfold itemsDepth
  induction items generalizing depth with
  | nil => rfl
  | cons i items ih =>
    cases i with
    | error e => exact ih depth
    | ok l => exact ih (l.token.depthAfter depth)

/-- The token of a piece of text, if it is one. -/
def Piece.token? (p : Piece) : Option Token :=
  match p.kind with
  | .token t => some t
  | _ => none

theorem tokensOf_pieceItems (line : Line) (column : Nat) (ps : List Piece) :
    tokensOf (pieceItems line column ps) = ps.filterMap Piece.token? := by
  induction ps generalizing column with
  | nil => rfl
  | cons p ps ih =>
    rw [pieceItems, tokensOf_append, ih, List.filterMap_cons]
    unfold Piece.item? Piece.token?
    cases p.kind <;> rfl

/-! ### Sound streams -/

/-- A token that stands for a piece of text, not for layout. -/
def IsText : Token → Prop
  | .keyword _ | .symbol _ | .int _ | .name _ => True
  | .newline | .indent | .dedent | .eof => False

/-- Behind every `indent` a token stands that does not end a block. -/
def Opens : List Token → Prop
  | [] => True
  | t :: ts => (t = .indent → ∃ u us, ts = u :: us ∧ u ≠ .dedent ∧ u ≠ .eof) ∧ Opens ts

/-- A stream without `indent`. -/
theorem opens_of_not_mem {ts : List Token} (h : .indent ∉ ts) : Opens ts := by
  induction ts with
  | nil => trivial
  | cons t ts ih =>
    refine ⟨?_, ih fun hts => h (List.mem_cons_of_mem t hts)⟩
    rintro rfl
    exact absurd List.mem_cons_self h

theorem Opens.append {ts us : List Token} (h : Opens ts) (h' : Opens us) : Opens (ts ++ us) := by
  induction ts with
  | nil => exact h'
  | cons t ts ih =>
    refine ⟨fun ht => ?_, ih h.2⟩
    obtain ⟨u, vs, rfl, hu⟩ := h.1 ht
    exact ⟨u, vs ++ us, rfl, hu⟩

/-- What holds of the token streams of source texts. -/
structure Sound (ts : List Token) : Prop where
  names : ∀ x, .name x ∈ ts → Name x
  opens : Opens ts

namespace Sound

variable {ts us : List Token}

theorem append (h : Sound ts) (h' : Sound us) : Sound (ts ++ us) := by
  refine ⟨fun x hx => ?_, h.opens.append h'.opens⟩
  obtain hx | hx := List.mem_append.1 hx
  · exact h.names x hx
  · exact h'.names x hx

theorem tail {t : Token} (h : Sound (t :: ts)) : Sound ts :=
  ⟨fun x hx => h.names x (List.mem_cons_of_mem t hx), h.opens.2⟩

/-- A stream without names and `indent`. -/
theorem of_not_mem (h : ∀ t ∈ ts, t = .newline ∨ t = .dedent ∨ t = .eof) : Sound ts := by
  refine ⟨fun x hx => ?_, opens_of_not_mem fun hts => ?_⟩
  · obtain hn | hn | hn := h _ hx <;> cases hn
  · obtain hn | hn | hn := h _ hts <;> cases hn

end Sound

/-! ### Words -/

theorem name_ofWord {c : Char} {cs : List Char} {x : String} (hc : isNameStart c = true)
    (hcs : ∀ ch ∈ cs, isNameChar ch = true) (h : ofWord (c :: cs) = .name x) : Name x := by
  unfold ofWord at h
  split at h
  · cases h
  · next hfree =>
    cases h
    refine ⟨fun ch hch => ?_, ⟨c, cs, String.toList_ofList, hc⟩, hfree⟩
    rw [String.toList_ofList] at hch
    obtain rfl | hch := List.mem_cons.1 hch
    · rw [isNameChar, hc, Bool.true_or]
    · exact hcs ch hch

theorem isText_ofWord (cs : List Char) : (ofWord cs).IsText := by
  unfold ofWord
  split <;> trivial

theorem firstPiece_token {c : Char} {cs : List Char} {t : Token}
    (h : (firstPiece c cs).1.token? = some t) : t.IsText ∧ ∀ x, t = .name x → Name x := by
  unfold firstPiece at h
  split at h
  · cases h
  · split at h
    · cases h
    · split at h
      · simp only [Piece.token?, ofDigits] at h
        split at h
        · next hkind =>
          split at hkind
          · cases hkind
            cases h
            exact ⟨trivial, nofun⟩
          · cases hkind
        · cases h
      · split at h
        · next hc =>
          simp only [Piece.token?, Option.some.injEq] at h
          subst h
          refine ⟨isText_ofWord _, fun x hx => name_ofWord hc (fun ch hch => ?_) hx⟩
          exact List.all_eq_true.1 List.all_takeWhile ch hch
        · split at h
          · cases h
            exact ⟨trivial, nofun⟩
          · cases h

theorem piecesUpTo_token {n : Nat} {cs : List Char} :
    ∀ t ∈ (piecesUpTo n cs).filterMap Piece.token?, t.IsText ∧ ∀ x, t = .name x → Name x := by
  induction n generalizing cs with
  | zero => exact fun t ht => absurd ht List.not_mem_nil
  | succ n ih =>
    cases cs with
    | nil => exact fun t ht => absurd ht List.not_mem_nil
    | cons c cs =>
      intro t ht
      rw [piecesUpTo] at ht
      cases hp : (firstPiece c cs).1.token? with
      | none => exact ih t (by rwa [List.filterMap_cons_none hp] at ht)
      | some u =>
        rw [List.filterMap_cons_some hp] at ht
        obtain rfl | ht := List.mem_cons.1 ht
        · exact firstPiece_token hp
        · exact ih t ht

/-- The tokens of one line, without layout. -/
theorem sound_pieces (cs : List Char) : Sound ((pieces cs).filterMap Piece.token?) := by
  refine ⟨fun x hx => (piecesUpTo_token _ hx).2 x rfl, opens_of_not_mem fun h => ?_⟩
  exact (piecesUpTo_token _ h).1

/-! ### Lines -/

/-- A change of indentation opens one level or closes some. -/
theorem tokensOf_indent (levels : List Nat) (width : Nat) (span : Span) :
    tokensOf (Layout.indent levels width span).2 = [.indent] ∨
      ∃ n, tokensOf (Layout.indent levels width span).2 = List.replicate n .dedent := by
  unfold Layout.indent
  split
  · exact .inl rfl
  · right
    refine ⟨levels.length - (levels.dropWhile (width < ·)).length, ?_⟩
    dsimp only
    split
    · exact tokensOf_replicate _ _
    · rw [tokensOf_append, tokensOf_replicate, tokensOf_error, tokensOf_nil, List.append_nil]

theorem sound_line (s : Layout) (l : Line) : Sound (tokensOf (s.line l).2) := by
  unfold Layout.line
  split
  · exact ⟨fun x hx => absurd hx List.not_mem_nil, trivial⟩
  · generalize hchange : (if s.depth = 0 then Layout.indent s.levels l.width l.indentSpan
      else (s.levels, [])) = change
    obtain ⟨levels, change⟩ := change
    dsimp only
    rw [tokensOf_append, tokensOf_append, tokensOf_pieceItems, itemsDepth_eq, tokensOf_pieceItems]
    generalize hbody : (pieces l.content).filterMap Piece.token? = body
    have hsound : Sound body := hbody ▸ sound_pieces l.content
    generalize hclose : tokensOf (if body.foldl depthAfter s.depth = 0
      then [.ok ⟨.newline, l.endSpan⟩] else []) = close
    have hnewline : ∀ t ∈ close, t = .newline := by
      subst hclose
      split
      · exact fun t ht => List.mem_singleton.1 ht
      · exact fun t ht => absurd ht List.not_mem_nil
    have hrest : Sound (body ++ close) :=
      hsound.append (.of_not_mem fun t ht => .inl (hnewline t ht))
    rw [List.append_assoc]
    split at hchange
    · next hdepth =>
      have hindent := tokensOf_indent s.levels l.width l.indentSpan
      rw [hchange] at hindent
      obtain hindent | ⟨n, hindent⟩ := hindent
      · rw [hindent]
        refine ⟨fun x hx => hrest.names x ?_, fun _ => ?_, hrest.opens⟩
        · obtain hx | hx := List.mem_cons.1 hx
          · cases hx
          · exact hx
        -- without text the brackets stay closed, so a line end follows
        · cases body with
          | nil =>
            rw [List.foldl_nil, if_pos hdepth] at hclose
            subst hclose
            exact ⟨.newline, [], rfl, nofun, nofun⟩
          | cons u us =>
            refine ⟨u, us ++ close, rfl, ?_⟩
            have hu : u.IsText := (piecesUpTo_token u (hbody ▸ List.mem_cons_self)).1
            constructor <;> (rintro rfl; exact hu)
      · rw [hindent]
        exact (Sound.of_not_mem fun t ht => .inr (.inl (List.eq_of_mem_replicate ht))).append hrest
    · cases hchange
      exact hrest

theorem sound_lines (s : Layout) (ls : List Line) : Sound (tokensOf (s.lines ls).2) := by
  induction ls generalizing s with
  | nil => exact ⟨fun x hx => absurd hx List.not_mem_nil, trivial⟩
  | cons l ls ih =>
    rw [Layout.lines]
    dsimp only
    rw [tokensOf_append]
    exact (sound_line s l).append (ih _)

theorem sound_close (s : Layout) (span : Span) : Sound (tokensOf (s.close span)) := by
  refine .of_not_mem fun t ht => ?_
  rw [Layout.close, tokensOf_append, tokensOf_append, tokensOf_replicate, List.mem_append,
    List.mem_append] at ht
  obtain (ht | ht) | ht := ht
  · split at ht
    · exact absurd ht List.not_mem_nil
    · exact absurd ht List.not_mem_nil
  · exact .inr (.inl (List.eq_of_mem_replicate ht))
  · exact .inr (.inr (List.mem_singleton.1 ht))

/-- The token stream of a source text. -/
theorem sound_tokenize {source : String} {tokens : List Lexeme}
    (h : tokenize source = .ok tokens) : Sound (tokens.map Lexeme.token) := by
  have hitems : Sound (tokensOf (items source.toList)) := by
    rw [items, tokensOf_append]
    exact (sound_lines _ _).append (sound_close _ _)
  rw [(tokens_of_tokenize h).2]
  exact hitems

end Token

end ObjLang
