import ConceptScript.Json.Magnitude

/-!
# `ConceptScript.Json.Value`: JSON values as they are written

Values keep what later decoding needs to know about the text: object
members stay in order and may repeat, numbers stay as they are written,
and a string may denote no text. The latter happens when it names half of
a surrogate pair: the notation is right but there is no such character.
-/

set_option autoImplicit false

namespace ConceptScript.Json

/-- A number as it is written: its sign, the digits before and after the
point, and the exponent. Without point or exponent it is an integer
literal. -/
structure Number where
  negative : Bool
  whole : List Char
  fraction : Option (List Char)
  exponent : Option Int
  deriving DecidableEq, Repr

/-- A JSON value. A string, or the name of a member, is `none` when it
denotes no text. -/
inductive Value where
  | null
  | bool (b : Bool)
  | number (n : Number)
  | string (text : Option String)
  | array (items : List Value)
  | object (members : List (Option String × Value))
  deriving Repr

/-- The value of a list of decimal digits. -/
def digitsValue (digits : List Char) : Nat :=
  digits.foldl (fun n c => 10 * n + (c.toNat - '0'.toNat)) 0

namespace Number

/-- The natural number that an integer literal without sign stands for,
if it is below 2^64. -/
def natural? (n : Number) : Option Nat :=
  let value := digitsValue n.whole
  if n.negative || n.fraction.isSome || n.exponent.isSome || value ≥ Nat.pow 2 64 then none
  else some value

/-- Whether a number is too large for double precision. Digits before the
point that do not fit into the word still count as places; those after
the point do not. -/
def isHuge (n : Number) : Bool :=
  let fraction := n.fraction.getD []
  let (word, moreWhole) := gather 0 n.whole
  let (word, moreFraction) := gather word fraction
  let used := fraction.length - moreFraction.length
  overflows word ((moreWhole.length : Int) - used + n.exponent.getD 0)

end Number

end ConceptScript.Json
