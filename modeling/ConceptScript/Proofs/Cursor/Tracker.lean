import Mathlib.Data.List.Induction
import ConceptScript.Cursor.Tracker

/-!
# `ConceptScript.Proofs.Cursor.Tracker`: what one event can change

Each event changes only some of what a tracker keeps. `onStatement_eq` and
`onBlock_eq` list the outcomes with the conditions under which they come,
and `onMember_eq` says that trying a member changes nothing but what is
kept about types. The cursor itself never changes (`follow_target`,
`follow_lastBefore`).
-/

set_option autoImplicit false

namespace ConceptScript.Cursor

open ConceptScript.Script
open ConceptScript.Model (TypeId)

/-- There is no last member with a property that no member has. -/
theorem lastIndex?_eq_none {α : Type} {p : α → Bool} {l : List α} (h : ∀ a ∈ l, p a = false) :
    lastIndex? p l = none := by
  induction l with
  | nil => rfl
  | cons a l ih =>
    rw [lastIndex?, ih fun b hb => h b (List.mem_cons_of_mem a hb), h a List.mem_cons_self]
    rfl

/-- Members without a property do not change which one is the last with it. -/
theorem lastIndex?_append {α : Type} {p : α → Bool} (l : List α) {l' : List α}
    (h : ∀ a ∈ l', p a = false) : lastIndex? p (l ++ l') = lastIndex? p l := by
  induction l with
  | nil => exact lastIndex?_eq_none h
  | cons a l ih => rw [List.cons_append, lastIndex?, ih, lastIndex?]

/-- The last member with a property is in the list. -/
theorem lastIndex?_lt {α : Type} {p : α → Bool} {l : List α} {i : Nat}
    (h : lastIndex? p l = some i) : i < l.length := by
  induction l generalizing i with
  | nil => cases h
  | cons a l ih =>
    rw [lastIndex?] at h
    rw [List.length_cons]
    split at h
    · next j hj =>
      cases h
      exact Nat.succ_lt_succ (ih hj)
    · split at h
      · cases h
        exact Nat.succ_pos _
      · cases h

namespace Tracker

variable (k : Tracker)

/-- The start of a statement. -/
theorem onStatement_eq (r : Reader) :
    k.onStatement r =
      if k.target < r.current.start then
        { k with nextKeyword := k.nextKeyword.or (some r.current) }
      else if r.current.kind = .word then
        { k with keyword := some r.current, lastRead := [], valid := [] }
      else if r.current.stop < k.target then { k with keyword := none }
      else k := by
  unfold onStatement
  dsimp only
  by_cases hlate : k.target < r.current.start
  · rw [if_pos hlate, if_neg (Nat.not_le.mpr hlate)]
    obtain ⟨_, _, _, next, _, _, _⟩ := k
    cases next <;> rfl
  · rw [if_neg hlate, if_pos (Nat.not_lt.mp hlate)]

/-- The brace of a block. -/
theorem onBlock_eq (r : Reader) (context : List Node) {brace : Token} (h : r.last? = some brace) :
    k.onBlock r context =
      if brace.stop ≤ k.target then { k with context := context, keyword := none } else k := by
  rw [onBlock, h]

/-- Trying a member changes only what is kept about types. -/
theorem onMember_eq (e : MemberEvent) :
    ∃ lastRead valid, k.onMember e = { k with lastRead := lastRead, valid := valid } := by
  unfold onMember
  split
  · dsimp only
    (repeat' split) <;> exact ⟨_, _, rfl⟩
  · exact ⟨_, _, rfl⟩

/-- No event moves the cursor. -/
theorem watch_fixed (e : Event) :
    (k.watch e).target = k.target ∧ (k.watch e).lastBefore = k.lastBefore := by
  cases e with
  | statement r =>
    show (k.onStatement r).target = _ ∧ (k.onStatement r).lastBefore = _
    rw [onStatement_eq]
    (repeat' split) <;> exact ⟨rfl, rfl⟩
  | member e =>
    obtain ⟨_, _, h⟩ := k.onMember_eq e
    show (k.onMember e).target = _ ∧ (k.onMember e).lastBefore = _
    rw [h]
    exact ⟨rfl, rfl⟩
  | block r context opening =>
    show (k.onBlock r context).target = _ ∧ (k.onBlock r context).lastBefore = _
    unfold onBlock
    (repeat' split) <;> exact ⟨rfl, rfl⟩

/-- Following one more event is to watch it after the others. -/
theorem follow_concat (events : List Event) (e : Event) :
    k.follow (events ++ [e]) = (k.follow events).watch e := List.foldl_append

/-- Following events and then others is to follow them in a row. -/
theorem follow_append (events events' : List Event) :
    k.follow (events ++ events') = (k.follow events).follow events' := List.foldl_append

/-- A tracker never changes its cursor, nor which token is before it. -/
theorem follow_fixed (events : List Event) :
    (k.follow events).target = k.target ∧ (k.follow events).lastBefore = k.lastBefore := by
  induction events using List.reverseRecOn with
  | nil => exact ⟨rfl, rfl⟩
  | append_singleton events e ih =>
    obtain ⟨htarget, hlast⟩ := (k.follow events).watch_fixed e
    rw [follow_concat]
    exact ⟨htarget.trans ih.1, hlast.trans ih.2⟩

/-- Following events leaves the cursor where it is. -/
theorem follow_target (events : List Event) : (k.follow events).target = k.target :=
  (k.follow_fixed events).1

/-- Following events does not change which token is before the cursor. -/
theorem follow_lastBefore (events : List Event) : (k.follow events).lastBefore = k.lastBefore :=
  (k.follow_fixed events).2

end Tracker

end ConceptScript.Cursor
