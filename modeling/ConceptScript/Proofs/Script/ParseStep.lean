import ConceptScript.Script.Parse
import ConceptScript.Proofs.Script.Reads

/-!
# `ConceptScript.Proofs.Script.ParseStep`: one statement of a parse

The parser reads a statement and goes on with the next one. What follows
is stated for the parts of a statement here, so that proofs about parses
need not take the recursion apart: `parseFrom_of_ok` for a statement that
was read, and `parseFrom_events` for the events, whatever came of it.
-/

set_option autoImplicit false

namespace ConceptScript.Script

variable {m : Model} {context context' : List Node} {r afterHead next : Reader} {n : Node}
  {events closing : List Event}

/-- A statement that was read stands before what follows it. -/
theorem parseFrom_of_ok (hend : r.atEnd = false)
    (hread : readStatement m context r = (events, .ok (n, afterHead)))
    (hending : endStatement m n context afterHead = (closing, .ok (context', next))) :
    parseFrom m context r = ⟨events ++ closing ++ (parseFrom m context' next).events,
      (parseFrom m context' next).result.map (n :: ·)⟩ := by
  rw [parseFrom.eq_def, if_neg (Bool.eq_false_iff.mp hend)]
  split
  · next hs => cases hread.symm.trans hs
  · next hs =>
    cases hread.symm.trans hs
    split
    · next he => cases hending.symm.trans he
    · next he =>
      cases hending.symm.trans he
      rfl

/-- A statement whose head cannot be read is the last one. -/
theorem parseFrom_of_head_error {failure : Failure} (hend : r.atEnd = false)
    (hread : readStatement m context r = (events, .error failure)) :
    parseFrom m context r = ⟨events, .error failure⟩ := by
  rw [parseFrom.eq_def, if_neg (Bool.eq_false_iff.mp hend)]
  split
  · next hs =>
    cases hread.symm.trans hs
    rfl
  · next hs => cases hread.symm.trans hs

/-- A statement that does not end as it should is the last one. -/
theorem parseFrom_of_ending_error {failure : Failure} (hend : r.atEnd = false)
    (hread : readStatement m context r = (events, .ok (n, afterHead)))
    (hending : endStatement m n context afterHead = (closing, .error failure)) :
    parseFrom m context r = ⟨events ++ closing, .error failure⟩ := by
  rw [parseFrom.eq_def, if_neg (Bool.eq_false_iff.mp hend)]
  split
  · next hs => cases hread.symm.trans hs
  · next hs =>
    cases hread.symm.trans hs
    split
    · next he =>
      cases hending.symm.trans he
      rfl
    · next he => cases hending.symm.trans he

/-- Outside of all blocks a parse ends well at the end of the script. -/
theorem parseFrom_of_atEnd (hend : r.atEnd = true) : parseFrom m [] r = ⟨[], .ok []⟩ := by
  rw [parseFrom, if_pos hend]

/-- The events after the end of a statement. -/
def afterEnding (m : Model) : Except Failure (List Node × Reader) → List Event
  | .error _ => []
  | .ok (context, r) => (parseFrom m context r).events

/-- The events after the head of a statement. -/
def afterReading (m : Model) (context : List Node) : Except Failure (Node × Reader) → List Event
  | .error _ => []
  | .ok (n, r) => (endStatement m n context r).1 ++ afterEnding m (endStatement m n context r).2

/-- Before the end of the script a parse shows the next statement and then
what comes after it. -/
theorem parseFrom_events (hend : r.atEnd = false) :
    (parseFrom m context r).events =
      (readStatement m context r).1 ++ afterReading m context (readStatement m context r).2 := by
  rw [parseFrom.eq_def, if_neg (Bool.eq_false_iff.mp hend)]
  split
  · next hs =>
    rw [hs]
    exact (List.append_nil _).symm
  · next hs =>
    rw [hs]
    split
    · next he =>
      rw [afterReading, he]
      exact congrArg (_ ++ ·) (List.append_nil _).symm
    · next he =>
      rw [afterReading, he]
      exact List.append_assoc _ _ _

/-- At the end of the script a parse shows nothing, also where a block is
open. -/
theorem parseFrom_events_of_atEnd (hend : r.atEnd = true) :
    (parseFrom m context r).events = [] := by
  rw [parseFrom.eq_def, if_pos hend]
  cases context <;> rfl

/-- Where no `}` stands no block is closed. -/
theorem closeBlocks_of_not_closing (h : r.current.is "\x7d" = false) (context : List Node) :
    closeBlocks context r = ([], .ok (context, r)) := by
  cases context <;> rw [closeBlocks, Reader.tryRead_eq_none_iff.mpr h]

/-- A `{` opens the block of the statement, and blocks that are closed at
once are closed. -/
theorem endStatement_of_open (context : List Node) (n : Node) (h : r.current.is "\x7b" = true) :
    endStatement m n context r =
      (.block r.advance (n :: context) true :: (closeBlocks (n :: context) r.advance).1,
        (closeBlocks (n :: context) r.advance).2) := by
  rw [endStatement, Reader.tryRead_of_is h]

/-- A semicolon ends the statement, and blocks that are closed then are
closed. -/
theorem endStatement_of_semicolon (context : List Node) (n : Node)
    (hopen : r.current.is "\x7b" = false) (h : r.current.is ";" = true) :
    endStatement m n context r = closeBlocks context r.advance := by
  rw [endStatement, Reader.tryRead_eq_none_iff.mpr hopen, Reader.tryRead_of_is h]

/-- Nothing follows a head that is not followed by the end of its
statement. -/
theorem afterReading_of_no_end (hopen : r.current.is "\x7b" = false)
    (hend : r.current.is ";" = false) : afterReading m context (.ok (n, r)) = [] := by
  have hending : ∃ f, endStatement m n context r = ([], .error f) := by
    rw [endStatement, Reader.tryRead_eq_none_iff.mpr hopen, Reader.tryRead_eq_none_iff.mpr hend]
    exact ⟨_, rfl⟩
  obtain ⟨f, hf⟩ := hending
  rw [afterReading, hf]
  rfl

end ConceptScript.Script
