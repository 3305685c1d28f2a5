import ObjLang.Toml.Table

/-!
# ObjLang.Toml.Value — reading keys and values

Readers take text from the front of what is left, or fail.  Arrays and tables in braces may be
nested to a limited depth, which also limits the length of a dotted key.
-/

namespace ObjLang.Toml

/-- A reader of text. -/
abbrev Reader (α : Type) := StateT (List Char) Option α

namespace Reader

/-! ### Characters -/

/-- The next character. -/
def next : Reader Char := do
  match ← get with
  | [] => failure
  | c :: rest => set rest; return c

/-- The next character, which must be in a class. -/
def satisfy (p : Char → Bool) : Reader Char := do
  let c ← next
  if p c then return c else failure

/-- A given character. -/
def char (c : Char) : Reader Unit := do
  let _ ← satisfy (· == c)

/-- A given text. -/
def text (s : String) : Reader Unit := s.toList.forM char

/-- Whether a reader succeeds here; if it does not, nothing is taken. -/
def accepts {α : Type} (r : Reader α) : Reader Bool := do return (← optional r).isSome

/-- The longest run of characters in a class. -/
def takeWhile (p : Char → Bool) : Reader (List Char) := do
  let s ← get
  set (s.dropWhile p)
  return s.takeWhile p

/-- Fails unless a condition holds. -/
def check (b : Bool) : Reader Unit := if b then pure () else failure

/-- Repeats a reader until it fails; each time it has to take something. -/
def many {α : Type} (r : Reader α) : Reader (List α) := do
  let rec go : Nat → Reader (List α)
    | 0 => pure []
    | n + 1 => do
      match ← optional r with
      | none => pure []
      | some a => return a :: (← go n)
  go (← get).length

/-! ### Space -/

/-- Space inside a line. -/
def isSpace (c : Char) : Bool := c == ' ' || c == '\t'

/-- Characters of comments and texts: all but control characters other than the tab. -/
def isPlain (c : Char) : Bool := c == '\t' || (' ' ≤ c && c != '\x7f')

/-- Space inside a line. -/
def space : Reader Unit := discard (takeWhile isSpace)

/-- The end of a line. -/
def newline : Reader Unit := char '\n' <|> (do char '\r'; char '\n')

/-- A comment. -/
def comment : Reader Unit := do char '#'; let _ ← takeWhile isPlain

/-- Space, comments and ends of lines. -/
def gap : Reader Unit :=
  discard (many (discard (satisfy isSpace) <|> newline <|> comment))

/-! ### Texts -/

/-- The value of a digit in a base up to sixteen. -/
def digitValue (c : Char) : Nat :=
  if c.isDigit then c.toNat - '0'.toNat
  else if c.isLower then c.toNat - 'a'.toNat + 10
  else c.toNat - 'A'.toNat + 10

/-- The value of digits in a base. -/
def valueIn (base : Nat) (digits : List Char) : Nat :=
  digits.foldl (fun n c => base * n + digitValue c) 0

/-- Digits of base sixteen. -/
def isHexDigit (c : Char) : Bool :=
  c.isDigit || ('a' ≤ c && c ≤ 'f') || ('A' ≤ c && c ≤ 'F')

/-- A given number of digits, as a number. -/
def fixed (base : Nat) (isDigit : Char → Bool) : Nat → Reader Nat
  | 0 => pure 0
  | n + 1 => do
    let high ← satisfy isDigit
    return digitValue high * Nat.pow base n + (← fixed base isDigit n)

/-- The character of a code, unless it is no character. -/
def ofCode (n : Nat) : Reader Char :=
  if n.isValidChar then pure (Char.ofNat n) else failure

/-- What follows a backslash inside a text. -/
def escape : Reader Char := do
  match ← next with
  | 'b' => pure '\x08'
  | 't' => pure '\t'
  | 'n' => pure '\n'
  | 'f' => pure '\x0c'
  | 'r' => pure '\r'
  | '"' => pure '"'
  | '\\' => pure '\\'
  | 'u' => ofCode (← fixed 16 isHexDigit 4)
  | 'U' => ofCode (← fixed 16 isHexDigit 8)
  | _ => failure

/-- A text between double quotes, with escapes. -/
def basicString : Reader String := do
  char '"'
  let cs ← many ((do char '\\'; escape) <|> satisfy fun c => isPlain c && c != '"' && c != '\\')
  char '"'
  return String.ofList cs

/-- A text between single quotes, without escapes. -/
def literalString : Reader String := do
  char '\''
  let cs ← takeWhile fun c => isPlain c && c != '\''
  char '\''
  return String.ofList cs

/-- The end of a long text: the delimiter, with up to two quotes before it that belong to the
text. -/
def closing (quote : Char) : Reader (List Char) := do
  let quotes := fun (n : Nat) => (List.replicate n quote).forM char
  (do quotes 5; return [quote, quote])
    <|> (do quotes 4; return [quote])
    <|> (do quotes 3; return [])

/-- A long text whose parts are read by `part`.  An end of line right after the delimiter is left
out. -/
def longString (quote : Char) (part : Reader (List Char)) : Reader String := do
  (List.replicate 3 quote).forM char
  let _ ← accepts newline
  let parts ← many (do
    if (← optional (closing quote)).isSome then failure
    part)
  return String.ofList (parts.flatten ++ (← closing quote))

/-- A long text between double quotes: a backslash at the end of a line takes away all space up to
the next character. -/
def longBasicString : Reader String :=
  longString '"'
    ((do char '\\'; space; newline; let _ ← many (discard (satisfy isSpace) <|> newline); return [])
      <|> (do char '\\'; return [← escape])
      <|> (do newline; return ['\n'])
      <|> (do return [← satisfy fun c => isPlain c && c != '\\']))

/-- A long text between single quotes. -/
def longLiteralString : Reader String :=
  longString '\'' ((do newline; return ['\n']) <|> (do return [← satisfy isPlain]))

/-- A text of any kind. -/
def string : Reader String :=
  longBasicString <|> basicString <|> longLiteralString <|> literalString

/-! ### Numbers -/

/-- The digits of a run in which underscores stand only between digits. -/
def ungrouped (isDigit : Char → Bool) : List Char → Option (List Char)
  | [] => none
  | [c] => if isDigit c then some [c] else none
  | c :: '_' :: rest => if isDigit c then (c :: ·) <$> ungrouped isDigit rest else none
  | c :: d :: rest => if isDigit c then (c :: ·) <$> ungrouped isDigit (d :: rest) else none

/-- Digits with underscores between them. -/
def digits (isDigit : Char → Bool) : Reader (List Char) := do
  ungrouped isDigit (← takeWhile fun c => isDigit c || c == '_')

/-- Whether a sign is there that is a minus. -/
def sign : Reader Bool := do
  if ← accepts (char '-') then return true
  let _ ← accepts (char '+')
  return false

/-- Decimal digits that start with zero only if they are a single zero. -/
def decimal : Reader (List Char) := do
  let ds ← digits Char.isDigit
  check (ds.head? != some '0' || ds.length == 1)
  return ds

/-- A number in a base other than ten: a zero, a letter, and digits. -/
def inBase (letter : Char) (base : Nat) (isDigit : Char → Bool) : Reader Nat := do
  char '0'
  char letter
  return valueIn base (← digits isDigit)

/-- An integer, which must have a signed 64-bit value. -/
def integer : Reader Int := do
  let based := inBase 'x' 16 isHexDigit <|> inBase 'o' 8 (fun c => '0' ≤ c && c ≤ '7')
    <|> inBase 'b' 2 (fun c => c == '0' || c == '1')
  let n : Int ← (do return Int.ofNat (← based)) <|> (do
    let minus ← sign
    let n := valueIn 10 (← decimal)
    return if minus then -(n : Int) else (n : Int))
  check (-0x8000000000000000 ≤ n && n < 0x8000000000000000)
  return n

/-- Halfway between the largest double and the next power of two: from here on numbers are rounded
to infinity. -/
def doubleLimit : Nat := Nat.pow 2 1024 - Nat.pow 2 970

/-- Whether `m * 10 ^ e` is too large for a double.  Only numbers of 309 digits need a close
look. -/
def overflows (m : Nat) (e : Int) : Bool :=
  let size : Int := (Nat.toDigits 10 m).length + e
  m != 0 && (309 < size || (size == 309 &&
    doubleLimit * Nat.pow 10 (-e).toNat ≤ m * Nat.pow 10 e.toNat))

/-- A number with a fraction or an exponent; one that is not negative must not be too large. -/
def float : Reader Unit := do
  let minus ← sign
  (do
    let whole ← decimal
    let fraction ← (do char '.'; digits Char.isDigit) <|> pure []
    let exponent : Option Int ← optional (do
      let _ ← satisfy fun c => c == 'e' || c == 'E'
      let negative ← sign
      let n := valueIn 10 (← digits Char.isDigit)
      return if negative then -(n : Int) else (n : Int))
    check (!fraction.isEmpty || exponent.isSome)
    check (minus || !overflows (valueIn 10 (whole ++ fraction))
      (exponent.getD 0 - fraction.length))) <|> text "inf" <|> text "nan"

/-! ### Dates and times -/

/-- A two-digit number between two bounds. -/
def twoDigits (low high : Nat) : Reader Nat := do
  let n ← fixed 10 Char.isDigit 2
  check (low ≤ n && n ≤ high)
  return n

/-- Number of days of a month. -/
def daysIn (year month : Nat) : Nat :=
  if month = 2 then
    if year % 4 = 0 ∧ (year % 100 ≠ 0 ∨ year % 400 = 0) then 29 else 28
  else if month ∈ [4, 6, 9, 11] then 30
  else 31

/-- A date. -/
def date : Reader Unit := do
  let year ← fixed 10 Char.isDigit 4
  char '-'
  let month ← twoDigits 1 12
  char '-'
  let _ ← twoDigits 1 (daysIn year month)

/-- A time of day, with or without a fraction of a second. -/
def time : Reader Unit := do
  let _ ← twoDigits 0 23
  char ':'
  let _ ← twoDigits 0 59
  char ':'
  let _ ← twoDigits 0 60
  let _ ← accepts (do char '.'; check !(← takeWhile Char.isDigit).isEmpty)

/-- A distance from universal time. -/
def zone : Reader Unit :=
  discard (satisfy fun c => c == 'Z' || c == 'z') <|> (do
    let _ ← satisfy fun c => c == '+' || c == '-'
    let _ ← twoDigits 0 23
    char ':'
    let _ ← twoDigits 0 59)

/-- A date, a time, or both. -/
def moment : Reader Unit :=
  (do
    date
    let _ ← accepts (do
      let _ ← satisfy fun c => c == 'T' || c == 't' || c == ' '
      time
      let _ ← accepts zone)) <|> time

/-! ### Keys -/

/-- Arrays, tables in braces and dotted keys have fewer levels than this. -/
def maxLevels : Nat := 80

/-- Characters of a key without quotes. -/
def isBareKeyChar (c : Char) : Bool := c.isAlphanum || c == '_' || c == '-'

/-- A key without dots. -/
def simpleKey : Reader String :=
  basicString <|> literalString <|> (do
    let cs ← takeWhile isBareKeyChar
    check !cs.isEmpty
    return String.ofList cs)

/-- A key: the path that leads to the last part, and that part. -/
def key : Reader (List String × String) := do
  let part := do space; let k ← simpleKey; space; return k
  let first ← part
  let others ← many (do char '.'; part)
  check (others.length + 1 < maxLevels)
  let all := first :: others
  return (all.dropLast, all.getLastD first)

/-! ### Values -/

/-- A value that holds no other values. -/
def scalar : Reader Value :=
  (.string <$> string)
    <|> (do moment; return .moment)
    <|> (do float; return .float)
    <|> (.integer <$> integer)
    <|> (do text "true"; return .boolean true)
    <|> (do text "false"; return .boolean false)

/-- The items of an array up to the closing bracket, of which there are at most `n`. -/
def arrayItems (item : Reader Value) : Nat → Reader Unit
  | 0 => failure
  | n + 1 => do
    gap
    if ← accepts (char ']') then return
    let _ ← item
    gap
    if ← accepts (char ',') then arrayItems item n
    else char ']'

/-- A key with its value. -/
def pair (value : Reader Value) : Reader (List String × String × Value) := do
  let (path, k) ← key
  char '='
  space
  let v ← value
  space
  return (path, k, v)

/-- The pairs of a table in braces up to the closing one, of which there are at most `n`. -/
def bracedPairs (value : Reader Value) : Nat → Table → Reader Unit
  | 0, _ => failure
  | n + 1, t => do
    let (path, k, v) ← pair value
    match t.insert path k v with
    | none => failure
    | some t => if ← accepts (char ',') then bracedPairs value n t else char '\x7d'

/-- A value with at most `n` levels of arrays and tables in it. -/
def value : Nat → Reader Value
  | 0 => scalar
  | n + 1 => scalar
    <|> (do
      char '['
      arrayItems (value n) ((← get).length + 1)
      return .array)
    <|> (do
      char '\x7b'
      space
      if !(← accepts (char '\x7d')) then
        bracedPairs (value n) ((← get).length + 1) ⟨.header, []⟩
      return .inlineTable)

end Reader

end ObjLang.Toml
