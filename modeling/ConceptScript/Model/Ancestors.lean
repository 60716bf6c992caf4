import ConceptScript.Model.Basic

/-!
# `ConceptScript.Model.Ancestors`: what types are derived from

A type is derived from its base types, from their base types, and so on.
Where one of these is asked for, a concept of the type can stand.

They are found by a search. It keeps a stack of types to look at and the
types found so far. Base types may lead in circles and to one type on
several ways, so a type found before is passed over, and so is the type
that the search started from. Each round takes a type from the stack, and
the base types of a type are put there once. So the search ends, wherever
base types lead.
-/

set_option autoImplicit false

namespace ConceptScript.Model

/-- How far a search for base types has come. -/
structure BaseSearch where
  /-- The types to look at, the next one first. -/
  stack : List TypeId
  /-- The types found, the latest first. -/
  found : List TypeId
  deriving DecidableEq, Repr

/-- How many base types the types with the first ids have, those of some
types left out. -/
def basesBeyond (m : Model) (found : List TypeId) : Nat → Nat
  | 0 => 0
  | id + 1 =>
    (if id ∈ found then 0 else (m.typeAt id).baseTypes.length) + basesBeyond m found id

namespace BaseSearch

/-- The search from a type before its first round. -/
def start (m : Model) (id : TypeId) : BaseSearch := ⟨(m.typeAt id).baseTypes.reverse, []⟩

/-- One round of the search from a type. There is none with an empty
stack. -/
def step (m : Model) (id : TypeId) (s : BaseSearch) : Option BaseSearch :=
  match s.stack with
  | [] => none
  | next :: rest =>
    if next = id ∨ next ∈ s.found then some ⟨rest, s.found⟩
    else some ⟨(m.typeAt next).baseTypes.reverse ++ rest, next :: s.found⟩

/-- How many rounds there can be: one for each type on the stack, and one
for each base type of a type that was not found yet. -/
def roundsLeft (m : Model) (s : BaseSearch) : Nat :=
  s.stack.length + basesBeyond m s.found m.types.length

/-- Past the last type of a model there is the blank type. -/
theorem typeAt_of_le {m : Model} {id : TypeId} (h : m.types.length ≤ id) :
    m.typeAt id = .blank := by
  simp [typeAt, List.getD_eq_getElem?_getD, List.getElem?_eq_none h]

/-- Finding a type takes its base types from those of the others. -/
theorem basesBeyond_cons (m : Model) {found : List TypeId} {next : Nat} (h : next ∉ found)
    (count : Nat) :
    basesBeyond m found count = basesBeyond m (next :: found) count
      + if next < count then (m.typeAt next).baseTypes.length else 0 := by
  induction count with
  | zero => simp [basesBeyond]
  | succ id ih =>
    by_cases hnext : id = next
    · subst hnext
      simp [basesBeyond, h, ih]
      omega
    · have hlt : next < id + 1 ↔ next < id := by omega
      simp only [basesBeyond, List.mem_cons, hnext, false_or, ih, hlt]
      omega

/-- Each round uses up one of those that there can be. -/
theorem roundsLeft_of_step {m : Model} {id : TypeId} {s s' : BaseSearch}
    (h : s.step m id = some s') : s.roundsLeft m = s'.roundsLeft m + 1 := by
  obtain ⟨stack, found⟩ := s
  cases stack with
  | nil => simp [step] at h
  | cons next rest =>
    simp only [step] at h
    split at h
    · cases h
      simp [roundsLeft]
      omega
    · next hnew =>
      cases h
      have hfound : next ∉ found := fun hmem => hnew (.inr hmem)
      have hbases := basesBeyond_cons m hfound m.types.length
      by_cases hlt : next < m.types.length
      · simp [roundsLeft, hbases, hlt]
        omega
      · -- A type that is not there has no base types.
        have hnone : (m.typeAt next).baseTypes = [] := by
          rw [typeAt_of_le (Nat.le_of_not_lt hlt)]
          rfl
        simp [roundsLeft, hbases, hlt, hnone]
        omega

/-- All that a search finds from where it stands. -/
@[semireducible]
def run (m : Model) (id : TypeId) (s : BaseSearch) : List TypeId :=
  match _hs : s.step m id with
  | none => s.found
  | some s' => run m id s'
termination_by s.roundsLeft m
decreasing_by
  have := roundsLeft_of_step _hs
  omega

end BaseSearch

/-- The types that a type is derived from, without the type itself. -/
def ancestors (m : Model) (id : TypeId) : List TypeId := (BaseSearch.start m id).run m id

/-- The types that a concept of a type can stand for: the type itself and
those that it is derived from. -/
def assignableTo (m : Model) (id : TypeId) : List TypeId := id :: m.ancestors id

/-- Whether a concept of one type can stand where another is asked
for. -/
def isAssignable (m : Model) (actual declared : TypeId) : Bool :=
  (m.assignableTo actual).contains declared

end ConceptScript.Model
