import Mathlib.Logic.Relation
import ConceptScript.Model.Ancestors
import ConceptScript.Proofs.Model.Resolved

/-!
# `ConceptScript.Proofs.Model.Ancestors`: types found along base types

`Model.ancestors` searches for the types that a type is derived from, with
a stack. `mem_assignableTo_iff` says what it finds: the types that can be
reached by going from types to base types (`HasBase`), any number of times.

`BaseSearch.Sound` is what each round keeps. All that was come across can
be reached, and the base types of what was found are found too, or on the
stack. With an empty stack nothing is left to find.

How long the search goes on is counted in rounds (`BaseSearch.Ends`). No
round looks at a base type of the start for a second time, so there are no
more rounds than base types in the whole model (`ends_ancestors`). Nothing
here asks that base types lead in no circle.
-/

set_option autoImplicit false

namespace ConceptScript.Model

open Relation (ReflTransGen)

variable {m : Model}

/-- The second type is a base type of the first one. -/
def HasBase (m : Model) (a b : TypeId) : Prop := b ∈ (m.typeAt a).baseTypes

/-- A type with a number of the model is a type of the model. -/
theorem typeAt_mem {id : TypeId} (h : id < m.types.length) : m.typeAt id ∈ m.types := by
  rw [typeAt, List.getD_eq_getElem _ _ h]
  exact List.getElem_mem h

/-- The base types of a type of an accepted model are types of the model. -/
theorem Accepted.hasBase_lt (hm : m.Accepted) {a b : TypeId} (ha : a < m.types.length)
    (h : m.HasBase a b) : b < m.types.length :=
  hm.base_lt (typeAt_mem ha) h

namespace BaseSearch

variable {id : TypeId} {s s' : BaseSearch}

/-- A round takes a type from the stack. If it is the start or was found
before, that is all. Otherwise it is found, and its base types are put on
the stack. -/
theorem step_cases (h : s.step m id = some s') :
    ∃ next rest, s.stack = next :: rest ∧
      ((next = id ∨ next ∈ s.found) ∧ s' = ⟨rest, s.found⟩ ∨
        (next ≠ id ∧ next ∉ s.found)
          ∧ s' = ⟨(m.typeAt next).baseTypes.reverse ++ rest, next :: s.found⟩) := by
  obtain ⟨stack, found⟩ := s
  cases stack with
  | nil => simp [step] at h
  | cons next rest =>
    refine ⟨next, rest, rfl, ?_⟩
    simp only [step] at h
    split at h
    · next hseen => exact .inl ⟨hseen, by simpa using h.symm⟩
    · next hnew => exact .inr ⟨not_or.mp hnew, by simpa using h.symm⟩

/-! ### What is found -/

/-- What a search knows at any time: it came across types that can be
reached from the start, and has found or will look at the base types of
those found. -/
structure Sound (m : Model) (id : TypeId) (s : BaseSearch) : Prop where
  reached : ∀ t, t ∈ s.stack ∨ t ∈ s.found → ReflTransGen m.HasBase id t
  closed : ∀ t, t = id ∨ t ∈ s.found → ∀ b, m.HasBase t b →
    b = id ∨ b ∈ s.found ∨ b ∈ s.stack
  notStart : id ∉ s.found

/-- Before its first round the search knows only the type it starts from. -/
theorem sound_start (m : Model) (id : TypeId) : (start m id).Sound m id where
  reached t ht := by
    have hbase : m.HasBase id t := by simpa [start, HasBase] using ht
    exact .single hbase
  closed t ht b hbase := by
    have ht : t = id := by simpa [start] using ht
    subst ht
    exact .inr (.inr (List.mem_reverse.mpr hbase))
  notStart := List.not_mem_nil

/-- A round keeps what the search knows sound. What it comes across is a base
type of the type on top, which can be reached. -/
theorem Sound.step (h : s.Sound m id) (hs : s.step m id = some s') : s'.Sound m id := by
  obtain ⟨next, rest, hstack, ⟨hseen, rfl⟩ | ⟨⟨hother, hnew⟩, rfl⟩⟩ := step_cases hs
  · constructor
    · intro t ht
      exact h.reached t (by rw [hstack]; exact ht.imp_left (List.mem_cons_of_mem next))
    · intro t ht b hbase
      -- The type taken from the stack needs no place there.
      rcases h.closed t ht b hbase with hb | hb | hb
      · exact .inl hb
      · exact .inr (.inl hb)
      · rw [hstack] at hb
        rcases List.mem_cons.mp hb with rfl | hb
        · exact hseen.imp_right .inl
        · exact .inr (.inr hb)
    · exact h.notStart
  · have hnext : ReflTransGen m.HasBase id next :=
      h.reached next (.inl (hstack ▸ List.mem_cons_self))
    constructor
    · intro t ht
      simp only [List.mem_append, List.mem_reverse, List.mem_cons] at ht
      rcases ht with (hbase | ht) | rfl | ht
      · exact hnext.tail hbase
      · exact h.reached t (.inl (hstack ▸ List.mem_cons_of_mem next ht))
      · exact hnext
      · exact h.reached t (.inr ht)
    · intro t ht b hbase
      simp only [List.mem_append, List.mem_reverse, List.mem_cons] at ht ⊢
      by_cases hsame : t = next
      · subst hsame
        exact .inr (.inr (.inl hbase))
      · have ht : t = id ∨ t ∈ s.found := by simpa [hsame] using ht
        have hb := h.closed t ht b hbase
        rw [hstack, List.mem_cons] at hb
        tauto
    · simp [hother.symm, h.notStart]

/-- A search without anything to look at has found all that its start is
derived from. -/
theorem Sound.mem_iff (h : s.Sound m id) (hstack : s.stack = []) {d : TypeId} :
    d = id ∨ d ∈ s.found ↔ ReflTransGen m.HasBase id d := by
  constructor
  · rintro (rfl | hd)
    · exact .refl
    · exact h.reached d (.inr hd)
  · intro hreach
    induction hreach with
    | refl => exact .inl rfl
    | tail _ hbase ih => simpa [hstack] using h.closed _ ih _ hbase

/-! ### How long it takes -/

/-- A search ends after a number of rounds, with what it then has found. -/
inductive Ends (m : Model) (id : TypeId) : BaseSearch → Nat → List TypeId → Prop
  | last {found : List TypeId} : Ends m id ⟨[], found⟩ 0 found
  | round {s s' : BaseSearch} {rounds : Nat} {found : List TypeId} (h : s.step m id = some s')
      (rest : Ends m id s' rounds found) : Ends m id s (rounds + 1) found

/-- The search ends only when there is no type left to look at. -/
theorem step_eq_none (h : s.step m id = none) : s.stack = [] := by
  obtain ⟨stack, found⟩ := s
  cases stack with
  | nil => rfl
  | cons next rest =>
    simp only [step] at h
    split at h <;> cases h

/-- Each search ends. -/
theorem exists_ends_run (m : Model) (id : TypeId) (s : BaseSearch) :
    ∃ rounds, Ends m id s rounds (s.run m id) := by
  fun_induction run m id s with
  | case1 s hnone =>
    obtain ⟨stack, found⟩ := s
    obtain rfl : stack = [] := step_eq_none hnone
    exact ⟨0, .last⟩
  | case2 s s' hstep ih =>
    obtain ⟨rounds, hends⟩ := ih
    exact ⟨rounds + 1, .round hstep hends⟩

variable {rounds : Nat} {found : List TypeId}

/-- What each round keeps holds in the end. -/
theorem Ends.sound (hends : Ends m id s rounds found) (h : s.Sound m id) :
    Sound m id ⟨[], found⟩ := by
  induction hends with
  | last => exact h
  | round hstep _ ih => exact ih (h.step hstep)

/-- The rounds were there before, and those left over are for base types of
types that were not found. -/
theorem Ends.rounds_add (hends : Ends m id s rounds found) :
    rounds + basesBeyond m found m.types.length = s.roundsLeft m := by
  induction hends with
  | last => simp [roundsLeft]
  | round hstep _ ih =>
    rw [roundsLeft_of_step hstep, ← ih]
    omega

/-- Before anything is found, what the search may still come across is the
base types of all types. -/
theorem basesBeyond_nil {count : Nat} (h : count ≤ m.types.length) :
    basesBeyond m [] count = ((m.types.take count).flatMap (·.baseTypes)).length := by
  induction count with
  | zero => simp [basesBeyond]
  | succ id ih =>
    have htype : m.typeAt id = m.types[id] := List.getD_eq_getElem _ _ h
    rw [basesBeyond, ih (Nat.le_of_succ_le h), htype, List.take_succ_eq_append_getElem h,
      List.flatMap_append, List.flatMap_singleton, List.length_append,
      if_neg List.not_mem_nil, Nat.add_comm]

/-- The base types of a type that was not found are left. -/
theorem length_le_basesBeyond (h : id ∉ found) :
    (m.typeAt id).baseTypes.length ≤ basesBeyond m found m.types.length := by
  rw [basesBeyond_cons m h]
  split
  · exact Nat.le_add_left _ _
  · next hlt => simp [typeAt_of_le (Nat.le_of_not_lt hlt), ConceptType.blank]

/-- The search from a type ends after at most as many rounds as there are
base types in the model. -/
theorem ends_ancestors (m : Model) (id : TypeId) :
    ∃ rounds ≤ (m.types.flatMap (·.baseTypes)).length,
      Ends m id (start m id) rounds (m.ancestors id) := by
  obtain ⟨rounds, hends⟩ := exists_ends_run m id (start m id)
  refine ⟨rounds, ?_, hends⟩
  have hall : basesBeyond m [] m.types.length = (m.types.flatMap (·.baseTypes)).length := by
    rw [basesBeyond_nil (Nat.le_refl _), List.take_length]
  -- The start is never found, so its base types are on the stack only once.
  have hleft : (m.typeAt id).baseTypes.length
      ≤ basesBeyond m ((start m id).run m id) m.types.length :=
    length_le_basesBeyond (hends.sound (sound_start m id)).notStart
  have hrounds := hends.rounds_add
  simp only [roundsLeft, start, List.length_reverse, hall] at hrounds hleft
  omega

end BaseSearch

/-- What is found from a type are the types that base types lead to. -/
theorem mem_assignableTo_iff (m : Model) {a d : TypeId} :
    d ∈ m.assignableTo a ↔ ReflTransGen m.HasBase a d := by
  obtain ⟨_, _, hends⟩ := BaseSearch.ends_ancestors m a
  rw [← (hends.sound (BaseSearch.sound_start m a)).mem_iff rfl]
  simp [assignableTo]

/-- A type can stand for another one just if base types lead from the one to
the other in any number of steps, none included. -/
theorem isAssignable_iff (m : Model) {a d : TypeId} :
    m.isAssignable a d = true ↔ ReflTransGen m.HasBase a d := by
  rw [isAssignable, List.contains_iff_mem, mem_assignableTo_iff]

/-- Where a type is asked for, a concept of that type can stand. -/
theorem isAssignable_self (m : Model) (id : TypeId) : m.isAssignable id id = true :=
  (isAssignable_iff m).mpr .refl

end ConceptScript.Model
