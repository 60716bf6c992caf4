/-!
# `ConceptScript.Json.Magnitude`: numbers in double precision

How large a number may be is decided in double precision, with one
rounding after another rather than one at the end:

* the digits are gathered into a word of 64 bits, as far as they fit,
* the word is rounded to double precision,
* so is the power of ten that it stands for,
* and so is their product.

Near the limit this differs from rounding the number as written: a
number just below it can be refused and one just above it accepted.
-/

set_option autoImplicit false

namespace ConceptScript.Json

/-- How many binary digits double precision keeps. -/
def precision : Nat := 53

/-- The nearest natural number that double precision holds. Of two that
are equally near it is the one that ends in a binary zero. -/
def toDouble (n : Nat) : Nat :=
  let unit := Nat.pow 2 (n.log2 + 1 - precision)
  let below := n / unit
  let left := n % unit
  if 2 * left < unit ∨ (2 * left = unit ∧ below % 2 = 0) then below * unit
  else (below + 1) * unit

/-- From here on numbers are rounded up past the largest that double
precision holds, which is 2^1024 - 2^971. -/
def overflow : Nat := Nat.pow 2 1024 - Nat.pow 2 970

/-- The largest power of ten that double precision holds. -/
def maxScale : Nat := 308

/-- Gathers decimal digits after those of a number, as long as they fit
into 64 bits: the number, and the digits from the first that did not
fit. -/
def gather : Nat → List Char → Nat × List Char
  | word, [] => (word, [])
  | word, d :: rest =>
    let longer := 10 * word + (d.toNat - '0'.toNat)
    if longer < Nat.pow 2 64 then gather longer rest else (word, d :: rest)

/-- Whether a word times a power of ten is too large. With a negative
power it never is. -/
def overflows (word : Nat) : Int → Bool
  | .negSucc _ => false
  | .ofNat scale =>
    if word = 0 then false
    else if scale > maxScale then true
    else toDouble word * toDouble (Nat.pow 10 scale) ≥ overflow

end ConceptScript.Json
