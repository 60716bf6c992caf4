import ConceptScript.Json.Value

/-!
# `ConceptScript.Json.Read`: reading JSON

Reading is strict: one value, nothing after it but blanks, no comments,
no leading zeros, no control characters inside strings. Blanks are space,
tab, line feed and carriage return.
-/

set_option autoImplicit false

namespace ConceptScript.Json

/-- Whether a character may stand between the parts of a value. -/
def isSpace (c : Char) : Bool := c == ' ' || c == '\t' || c == '\n' || c == '\r'

/-- A text without the blanks it starts with. -/
def skipSpace (s : List Char) : List Char := s.dropWhile isSpace

/-- The value of a hexadecimal digit. -/
def hexDigit? (c : Char) : Option Nat :=
  if '0' ≤ c ∧ c ≤ '9' then some (c.toNat - '0'.toNat)
  else if 'a' ≤ c ∧ c ≤ 'f' then some (c.toNat - 'a'.toNat + 10)
  else if 'A' ≤ c ∧ c ≤ 'F' then some (c.toNat - 'A'.toNat + 10)
  else none

/-- The number written by four hexadecimal digits. -/
def hexUnit? (a b c d : Char) : Option Nat := do
  let a ← hexDigit? a
  let b ← hexDigit? b
  let c ← hexDigit? c
  let d ← hexDigit? d
  pure (((a * 16 + b) * 16 + c) * 16 + d)

/-- A part of a string: a character written as itself or by a short
escape, or a UTF-16 unit written by its number. -/
inductive Piece where
  | char (c : Char)
  | unit (n : Nat)
  deriving DecidableEq, Repr

/-- The character that a short escape stands for. -/
def shortEscape? (c : Char) : Option Char :=
  if c = '"' then some '"'
  else if c = '\\' then some '\\'
  else if c = '/' then some '/'
  else if c = 'b' then some '\x08'
  else if c = 'f' then some '\x0c'
  else if c = 'n' then some '\n'
  else if c = 'r' then some '\r'
  else if c = 't' then some '\t'
  else none

/-- The parts of a string after its opening quote, and what follows the
string. -/
def readPieces : List Char → Option (List Piece × List Char)
  | [] => none
  | '"' :: rest => some ([], rest)
  | '\\' :: 'u' :: a :: b :: c :: d :: rest => do
    let n ← hexUnit? a b c d
    let (pieces, left) ← readPieces rest
    pure (.unit n :: pieces, left)
  | '\\' :: e :: rest => do
    let c ← shortEscape? e
    let (pieces, left) ← readPieces rest
    pure (.char c :: pieces, left)
  | c :: rest =>
    if c.toNat < 0x20 ∨ c = '\\' then none
    else do
      let (pieces, left) ← readPieces rest
      pure (.char c :: pieces, left)

/-- Whether a unit is the first half of a surrogate pair. -/
def isHighHalf (n : Nat) : Bool := 0xD800 ≤ n && n < 0xDC00

/-- Whether a unit is the second half of a surrogate pair. -/
def isLowHalf (n : Nat) : Bool := 0xDC00 ≤ n && n < 0xE000

/-- The text that the parts of a string denote, if they denote one. -/
def pieceText : List Piece → Option (List Char)
  | [] => some []
  | .char c :: rest => (pieceText rest).map (c :: ·)
  | .unit n :: rest =>
    if isHighHalf n then
      match rest with
      | .unit low :: rest' =>
        if isLowHalf low then
          (pieceText rest').map (Char.ofNat (0x10000 + (n - 0xD800) * 0x400 + (low - 0xDC00)) :: ·)
        else none
      | _ => none
    else if isLowHalf n then none
    else (pieceText rest).map (Char.ofNat n :: ·)

/-- A string after its opening quote, and what follows it. -/
def readString (s : List Char) : Option (Option String × List Char) := do
  let (pieces, left) ← readPieces s
  pure ((pieceText pieces).map String.ofList, left)

/-- Whether a character is a decimal digit. -/
def isDigit (c : Char) : Bool := '0' ≤ c && c ≤ '9'

/-- At least one digit, and what follows the digits. -/
def readDigits (s : List Char) : Option (List Char × List Char) :=
  match s.takeWhile isDigit with
  | [] => none
  | digits => some (digits, s.dropWhile isDigit)

/-- The digits before the point. Only zero starts with a zero. -/
def readWhole : List Char → Option (List Char × List Char)
  | '0' :: rest => if rest.head?.any isDigit then none else some (['0'], rest)
  | s => readDigits s

/-- The point and the digits after it, if there is a point. -/
def readFraction : List Char → Option (Option (List Char) × List Char)
  | '.' :: rest => do
    let (digits, left) ← readDigits rest
    pure (some digits, left)
  | s => some (none, s)

/-- The exponent, if there is one. -/
def readExponent : List Char → Option (Option Int × List Char)
  | [] => some (none, [])
  | e :: rest =>
    if e = 'e' ∨ e = 'E' then
      match rest with
      | '-' :: more => do
        let (digits, left) ← readDigits more
        pure (some (-(digitsValue digits : Int)), left)
      | '+' :: more => do
        let (digits, left) ← readDigits more
        pure (some (digitsValue digits : Int), left)
      | more => do
        let (digits, left) ← readDigits more
        pure (some (digitsValue digits : Int), left)
    else some (none, e :: rest)

/-- A number, and what follows it. -/
def readNumber (s : List Char) : Option (Number × List Char) := do
  let (negative, s) := match s with
    | '-' :: rest => (true, rest)
    | s => (false, s)
  let (whole, s) ← readWhole s
  let (fraction, s) ← readFraction s
  let (exponent, s) ← readExponent s
  pure (⟨negative, whole, fraction, exponent⟩, s)

mutual

/-- A value, and what follows it. The bound limits the steps; a text takes
at most two for each of its characters. -/
def readValue : Nat → List Char → Option (Value × List Char)
  | 0, _ => none
  | bound + 1, s =>
    match skipSpace s with
    | [] => none
    | 'n' :: 'u' :: 'l' :: 'l' :: rest => some (.null, rest)
    | 't' :: 'r' :: 'u' :: 'e' :: rest => some (.bool true, rest)
    | 'f' :: 'a' :: 'l' :: 's' :: 'e' :: rest => some (.bool false, rest)
    | '"' :: rest => do
      let (text, left) ← readString rest
      pure (.string text, left)
    | '[' :: rest =>
      match skipSpace rest with
      | ']' :: left => some (.array [], left)
      | _ => do
        let (items, left) ← readItems bound rest
        pure (.array items, left)
    | '\x7b' :: rest =>
      match skipSpace rest with
      | '\x7d' :: left => some (.object [], left)
      | _ => do
        let (members, left) ← readMembers bound rest
        pure (.object members, left)
    | other => do
      let (n, left) ← readNumber other
      pure (.number n, left)

/-- The items of an array up to its end, and what follows it. -/
def readItems : Nat → List Char → Option (List Value × List Char)
  | 0, _ => none
  | bound + 1, s => do
    let (item, left) ← readValue bound s
    match skipSpace left with
    | ']' :: rest => pure ([item], rest)
    | ',' :: rest => do
      let (items, left) ← readItems bound rest
      pure (item :: items, left)
    | _ => none

/-- The members of an object up to its end, and what follows it. -/
def readMembers : Nat → List Char → Option (List (Option String × Value) × List Char)
  | 0, _ => none
  | bound + 1, s =>
    match skipSpace s with
    | '"' :: rest => do
      let (name, left) ← readString rest
      match skipSpace left with
      | ':' :: rest => do
        let (value, left) ← readValue bound rest
        match skipSpace left with
        | '\x7d' :: rest => pure ([(name, value)], rest)
        | ',' :: rest => do
          let (members, left) ← readMembers bound rest
          pure ((name, value) :: members, left)
        | _ => none
      | _ => none
    | _ => none

end

/-- The value that a text consists of. -/
def read (s : List Char) : Option Value := do
  let (value, left) ← readValue (2 * s.length + 2) s
  if (skipSpace left).isEmpty then some value else none

end ConceptScript.Json
