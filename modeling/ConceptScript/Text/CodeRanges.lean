/-!
# `ConceptScript.Text.CodeRanges`: sets of characters

Classes of characters are given as ascending lists of closed ranges of
code points. A look-up walks the list and stops at the first range that
lies above the character, so the common low characters are found fast.
-/

set_option autoImplicit false

namespace ConceptScript.Text

/-- A set of code points: closed ranges, ascending. -/
abbrev CodeRanges := List (Nat × Nat)

/-- Whether a code point lies in one of the ranges. The ranges ascend, so
the first one that starts above the code point ends the search. -/
def inRanges : CodeRanges → Nat → Bool
  | [], _ => false
  | (lo, hi) :: rest, n =>
    if n < lo then false else if n ≤ hi then true else inRanges rest n

end ConceptScript.Text
