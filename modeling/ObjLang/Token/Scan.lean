import ObjLang.Source
import ObjLang.Token

/-!
# ObjLang.Token.Scan — splitting the text of one line into pieces

The first character of the remaining text decides the kind of the next piece, and each run is as
long as possible.  A piece is blank (spaces, tabs, carriage returns, form feeds, or a comment up to
the end of the line), a token, or a fault.  The texts of the pieces concatenate to the line.
-/

namespace ObjLang.Token

/-- Characters skipped inside a line. -/
def isBlank (c : Char) : Bool := c == ' ' || c == '\t' || c == '\r' || c == '\x0c'

/-- Decimal digits. -/
def isDigit (c : Char) : Bool := '0' ≤ c && c ≤ '9'

/-- Characters that a name can start with. -/
def isNameStart (c : Char) : Bool := ('A' ≤ c && c ≤ 'Z') || ('a' ≤ c && c ≤ 'z') || c == '_'

/-- Characters that continue a name. -/
def isNameChar (c : Char) : Bool := isNameStart c || isDigit c

/-- The value of a digit string. -/
def digitsValue (digits : List Char) : Nat :=
  digits.foldl (fun n c => 10 * n + (c.toNat - '0'.toNat)) 0

/-- The largest integer that a token can hold. -/
def maxInt : Nat := 0x7fffffffffffffff

/-- The symbol at the start of a text, the longer one where two fit, and what follows it. -/
def symbol? : List Char → Option (Symbol × List Char)
  | '/' :: '/' :: rest => some (.slashSlash, rest)
  | '=' :: '=' :: rest => some (.equalEqual, rest)
  | '!' :: '=' :: rest => some (.bangEqual, rest)
  | '<' :: '=' :: rest => some (.lessEqual, rest)
  | '>' :: '=' :: rest => some (.greaterEqual, rest)
  | '-' :: '>' :: rest => some (.arrow, rest)
  | '+' :: rest => some (.plus, rest)
  | '-' :: rest => some (.minus, rest)
  | '*' :: rest => some (.star, rest)
  | '%' :: rest => some (.percent, rest)
  | '<' :: rest => some (.less, rest)
  | '>' :: rest => some (.greater, rest)
  | '=' :: rest => some (.equal, rest)
  | '(' :: rest => some (.leftParen, rest)
  | ')' :: rest => some (.rightParen, rest)
  | ':' :: rest => some (.colon, rest)
  | ',' :: rest => some (.comma, rest)
  | '.' :: rest => some (.dot, rest)
  | _ => none

/-- What a piece of text is. -/
inductive PieceKind where
  | blank
  | token (t : Token)
  | hugeInt
  | unknown (c : Char)
deriving DecidableEq

/-- A run of characters with its kind. -/
structure Piece where
  text : List Char
  kind : PieceKind
deriving DecidableEq

/-- The token for a digit string, unless its value is too large. -/
def ofDigits (digits : List Char) : PieceKind :=
  if digitsValue digits ≤ maxInt then .token (.int (digitsValue digits)) else .hugeInt

/-- The token for a word: a keyword or a name. -/
def ofWord (word : List Char) : Token :=
  match Keyword.ofText? (String.ofList word) with
  | some k => .keyword k
  | none => .name (String.ofList word)

/-- The first piece of a nonempty text, and what follows it. -/
def firstPiece (c : Char) (cs : List Char) : Piece × List Char :=
  if isBlank c then (⟨c :: cs.takeWhile isBlank, .blank⟩, cs.dropWhile isBlank)
  else if c = '#' then (⟨c :: cs, .blank⟩, [])
  else if isDigit c then
    (⟨c :: cs.takeWhile isDigit, ofDigits (c :: cs.takeWhile isDigit)⟩, cs.dropWhile isDigit)
  else if isNameStart c then
    (⟨c :: cs.takeWhile isNameChar, .token (ofWord (c :: cs.takeWhile isNameChar))⟩,
      cs.dropWhile isNameChar)
  else
    match symbol? (c :: cs) with
    | some (s, rest) => (⟨s.text.toList, .token (.symbol s)⟩, rest)
    | none => (⟨[c], .unknown c⟩, cs)

/-- At most `n` pieces from the start of a text. -/
def piecesUpTo : Nat → List Char → List Piece
  | 0, _ => []
  | _ + 1, [] => []
  | n + 1, c :: cs => (firstPiece c cs).1 :: piecesUpTo n (firstPiece c cs).2

/-- The pieces of a line.  Each takes at least one character, so there are no more of them than
characters. -/
def pieces (line : List Char) : List Piece := piecesUpTo line.length line

/-! ### Nothing of a line is lost -/

theorem symbol?_append {cs rest : List Char} {s : Symbol} (h : symbol? cs = some (s, rest)) :
    s.text.toList ++ rest = cs := by
  unfold symbol? at h
  split at h <;> simp_all <;> (obtain ⟨rfl, rfl⟩ := h; rfl)

theorem firstPiece_append (c : Char) (cs : List Char) :
    (firstPiece c cs).1.text ++ (firstPiece c cs).2 = c :: cs := by
  unfold firstPiece
  split
  · simp
  · split
    · simp
    · split
      · simp
      · split
        · simp
        · split
          next h => exact symbol?_append h
          next => rfl

theorem firstPiece_text_ne_nil (c : Char) (cs : List Char) : (firstPiece c cs).1.text ≠ [] := by
  unfold firstPiece
  split
  · simp
  · split
    · simp
    · split
      · simp
      · split
        · simp
        · split
          next s _ _ => cases s <;> simp [Symbol.text]
          next => simp

theorem length_firstPiece_le (c : Char) (cs : List Char) :
    (firstPiece c cs).2.length ≤ cs.length := by
  have h := congrArg List.length (firstPiece_append c cs)
  have hpos := List.length_pos_iff.2 (firstPiece_text_ne_nil c cs)
  simp only [List.length_append, List.length_cons] at h
  omega

theorem flatten_piecesUpTo (n : Nat) (cs : List Char) (h : cs.length ≤ n) :
    ((piecesUpTo n cs).map Piece.text).flatten = cs := by
  induction n generalizing cs with
  | zero =>
    have : cs = [] := List.length_eq_zero_iff.1 (Nat.le_zero.1 h)
    simp [this, piecesUpTo]
  | succ n ih =>
    cases cs with
    | nil => rfl
    | cons c cs =>
      have hle := length_firstPiece_le c cs
      simp only [List.length_cons] at h
      simp only [piecesUpTo, List.map_cons, List.flatten_cons]
      rw [ih _ (by omega), firstPiece_append]

theorem flatten_pieces (line : List Char) : ((pieces line).map Piece.text).flatten = line :=
  flatten_piecesUpTo _ _ (Nat.le_refl _)

end ObjLang.Token
