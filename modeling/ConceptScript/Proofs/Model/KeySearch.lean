import ConceptScript.Proofs.Model.KeyDepth

/-!
# `ConceptScript.Proofs.Model.KeySearch`: the search for circles as a loop

`keyCircle?` follows keys by calling itself. The same search can be done by
a loop with a stack of its own: each type has a mark, and each entry of the
stack counts how many of its keys were looked at. `KeySearch.step` is one
round of this loop.

The loop ends, and its answer is that of `keyCircle?` (`ends_start`). The
marks tell what the recursion has in its arguments: `opened` is what is on
the path, and `done` is what is known to be safe (`marksFor`). A call of
the recursion is a run of the loop from the push of a type to its pop.
-/

set_option autoImplicit false

namespace ConceptScript.Model

/-- How far the search has come with a type. -/
inductive Mark where
  | fresh
  /-- On the stack. -/
  | opened
  /-- Known to lead into no circle. -/
  | done
  deriving DecidableEq

/-- A type on the stack: what its keys lead to, and how many of these were
looked at. -/
structure Frame where
  id : TypeId
  targets : List TypeId
  next : Nat

/-- Where the loop stands: the types that are still to be tried, a mark for
each type, and the stack. -/
structure KeySearch where
  roots : List TypeId
  marks : List Mark
  stack : List Frame

/-- What comes of a round: the loop goes on, or it ends with a type on a
circle or without one. -/
inductive Round where
  | goesOn (s : KeySearch)
  | ended (circle : Option TypeId)

namespace KeySearch

/-- The frame of a type of which no key was looked at. -/
def frameOf (types : List ConceptType) (id : TypeId) : Frame := ⟨id, keyReferences types id, 0⟩

/-- One round. It looks at the next key of the type on top of the stack, or
takes the type from the stack when it has no more keys, or tries the next
type when the stack is empty. -/
def step (types : List ConceptType) (s : KeySearch) : Round :=
  match s.stack with
  | [] =>
    match s.roots with
    | [] => .ended none
    | root :: roots =>
      if s.marks.getD root .done = .fresh then
        .goesOn ⟨roots, s.marks.set root .opened, [frameOf types root]⟩
      else .goesOn { s with roots := roots }
  | frame :: below =>
    match frame.targets[frame.next]? with
    | none => .goesOn { s with marks := s.marks.set frame.id .done, stack := below }
    | some target =>
      let stack := { frame with next := frame.next + 1 } :: below
      match s.marks.getD target .done with
      | .opened => .ended (some target)
      | .done => .goesOn { s with stack := stack }
      | .fresh =>
        .goesOn ⟨s.roots, s.marks.set target .opened, frameOf types target :: stack⟩

/-- The loop before its first round. -/
def start (types : List ConceptType) : KeySearch :=
  ⟨types.map (·.id), types.map fun _ => .fresh, []⟩

/-- The loop ends after some rounds, with an answer. -/
inductive Ends (types : List ConceptType) : KeySearch → Option TypeId → Prop
  | last {s : KeySearch} {circle : Option TypeId} (h : s.step types = .ended circle) :
    Ends types s circle
  | round {s s' : KeySearch} {circle : Option TypeId} (h : s.step types = .goesOn s')
    (rest : Ends types s' circle) : Ends types s circle

variable {types : List ConceptType}

section

variable (roots : List TypeId) (marks : List Mark) (id : TypeId) {targets : List TypeId}
  {next : Nat} (below : List Frame)

/-- A round that looks at a key: the circle is found if its type is on the
stack, the key is passed over if its type is done, and else the type is put
onto the stack. -/
theorem step_target {target : TypeId} (h : targets[next]? = some target) :
    step types ⟨roots, marks, ⟨id, targets, next⟩ :: below⟩ =
      match marks.getD target .done with
      | .opened => .ended (some target)
      | .done => .goesOn ⟨roots, marks, ⟨id, targets, next + 1⟩ :: below⟩
      | .fresh => .goesOn ⟨roots, marks.set target .opened,
          frameOf types target :: ⟨id, targets, next + 1⟩ :: below⟩ := by
  unfold step
  dsimp only
  rw [h]

/-- A round with no key left takes the type from the stack and marks it as
done. -/
theorem step_no_target (h : targets[next]? = none) :
    step types ⟨roots, marks, ⟨id, targets, next⟩ :: below⟩
      = .goesOn ⟨roots, marks.set id .done, below⟩ := by
  unfold step
  dsimp only
  rw [h]

end

/-- A loop has one answer. -/
theorem Ends.unique {s : KeySearch} {circle circle' : Option TypeId} (h : Ends types s circle)
    (h' : Ends types s circle') : circle = circle' := by
  induction h with
  | last hstep =>
    cases h' with
    | last hstep' => exact Round.ended.inj (hstep.symm.trans hstep')
    | round hstep' _ => cases hstep.symm.trans hstep'
  | round hstep _ ih =>
    cases h' with
    | last hstep' => cases hstep.symm.trans hstep'
    | round hstep' hrest =>
      obtain rfl := Round.goesOn.inj (hstep.symm.trans hstep')
      exact ih hrest

/-! ### Marks -/

/-- The mark of a type on a path, or done, or neither. -/
def markFor (path done : List TypeId) (id : TypeId) : Mark :=
  if id ∈ path then .opened else if id ∈ done then .done else .fresh

/-- The marks of some types. -/
def marksFor (count : Nat) (path done : List TypeId) : List Mark :=
  (List.range count).map (markFor path done)

variable {count : Nat} {path done : List TypeId} {id : TypeId}

/-- The mark that is noted for a type is the one that its place on the path
or among the types that are done calls for. -/
theorem getD_marksFor (h : id < count) :
    (marksFor count path done).getD id .done = markFor path done id := by
  rw [List.getD_eq_getElem?_getD, marksFor, List.getElem?_map, List.getElem?_range h]
  rfl

/-- A mark is set at one place. -/
theorem set_marksFor {path' done' : List TypeId} {mark : Mark}
    (hset : markFor path' done' id = mark)
    (hother : ∀ i, i ≠ id → markFor path' done' i = markFor path done i) :
    (marksFor count path done).set id mark = marksFor count path' done' := by
  refine List.ext_getElem (by simp [marksFor]) fun i hi hi' => ?_
  rw [List.getElem_set]
  simp only [marksFor, List.getElem_map, List.getElem_range]
  split
  · next h => rw [← h, hset]
  · next h => exact (hother i (Ne.symm h)).symm

/-- To mark a type as opened is to put it onto the path. -/
theorem set_opened : (marksFor count path done).set id .opened = marksFor count (id :: path) done :=
  set_marksFor (by simp [markFor]) fun i hi => by simp [markFor, hi]

/-- To mark a type as done is to take it from the path and put it among those
that are done. -/
theorem set_done (h : id ∉ path) :
    (marksFor count (id :: path) done).set id .done = marksFor count path (id :: done) :=
  set_marksFor (by simp [markFor, h]) fun i hi => by simp [markFor, hi]

/-! ### The loop and the recursion -/

/-- A part of the search as a run of the loop. If it finds a circle, the
loop ends with it. If it comes to know that some types are safe, the loop
comes to where these are marked, with a given stack. -/
def Follows (types : List ConceptType) (roots : List TypeId) (path : List TypeId)
    (stack : List Frame) (s : KeySearch) : Except TypeId (List TypeId) → Prop
  | .error circle => Ends types s (some circle)
  | .ok done => ∀ circle, Ends types ⟨roots, marksFor types.length path done, stack⟩ circle →
    Ends types s circle

variable {roots : List TypeId} {stack below : List Frame} {s s' : KeySearch}

/-- A part of the search that starts one round later is a run of the loop
from here. -/
theorem Follows.round {x : Except TypeId (List TypeId)} (h : s.step types = .goesOn s')
    (hs' : Follows types roots path stack s' x) : Follows types roots path stack s x := by
  cases x with
  | error circle => exact Ends.round h hs'
  | ok done => exact fun circle hends => Ends.round h (hs' circle hends)

/-- One part of the search and then another. -/
theorem Follows.bind {path' : List TypeId} {x : Except TypeId (List TypeId)}
    {f : List TypeId → Except TypeId (List TypeId)} (hx : Follows types roots path stack s x)
    (hf : ∀ done, x = .ok done → Follows types roots path' below
      ⟨roots, marksFor types.length path done, stack⟩ (f done)) :
    Follows types roots path' below s (x >>= f) := by
  cases x with
  | error circle => exact hx
  | ok done =>
    have hrest := hf done rfl
    show Follows types roots path' below s (f done)
    cases hfd : f done with
    | error circle =>
      rw [hfd] at hrest
      exact hx _ hrest
    | ok done' =>
      rw [hfd] at hrest
      exact fun circle hends => hx _ (hrest circle hends)

/-- The keys of a type are followed as the loop looks at them, if each type
that they lead to is. -/
theorem follows_targets {visit : List TypeId → TypeId → Except TypeId (List TypeId)}
    {targets looked ahead : List TypeId} (htargets : targets = looked ++ ahead)
    (hlt : ∀ target ∈ ahead, target < types.length)
    (hvisit : ∀ done, ∀ target ∈ ahead, target ∉ path → ∀ stack,
      Follows types roots path stack
        ⟨roots, marksFor types.length (target :: path) done, frameOf types target :: stack⟩
        (visit done target))
    (done : List TypeId) :
    Follows types roots path (⟨id, targets, targets.length⟩ :: below)
      ⟨roots, marksFor types.length path done, ⟨id, targets, looked.length⟩ :: below⟩
      (ahead.foldlM (fun done target =>
        if target ∈ path then .error target
        else if target ∈ done then .ok done
        else visit done target) done) := by
  induction ahead generalizing looked done with
  | nil =>
    rw [List.append_nil] at htargets
    rw [htargets]
    exact fun circle hends => hends
  | cons target rest ih =>
    obtain ⟨hfirst, hlt⟩ := List.forall_mem_cons.mp hlt
    have hnext : targets[looked.length]? = some target := by
      rw [htargets, List.getElem?_append_right (Nat.le_refl _), Nat.sub_self]
      rfl
    -- The loop looks at the mark of the type.
    have hstep : step types ⟨roots, marksFor types.length path done, _⟩ = _ :=
      step_target roots (marksFor types.length path done) id below hnext
    rw [getD_marksFor hfirst, markFor] at hstep
    have hsplit : targets = (looked ++ [target]) ++ rest := by
      rw [htargets, List.append_assoc]
      rfl
    have hrest := ih hsplit hlt fun done t ht => hvisit done t (List.mem_cons_of_mem _ ht)
    rw [List.length_append, List.length_singleton] at hrest
    rw [List.foldlM_cons]
    by_cases hpath : target ∈ path
    · -- The key leads back to a type on the stack.
      rw [if_pos hpath] at hstep ⊢
      exact Ends.last hstep
    rw [if_neg hpath] at hstep ⊢
    by_cases hdone : target ∈ done
    · rw [if_pos hdone] at hstep ⊢
      exact Follows.round hstep (hrest done)
    · -- The type that the key leads to is pushed, and popped in the end.
      rw [if_neg hdone] at hstep ⊢
      dsimp only at hstep
      rw [set_opened] at hstep
      exact Follows.round hstep ((hvisit done target List.mem_cons_self hpath _).bind
        fun done' _ => hrest done')

section

variable (hkeys : ∀ id, ∀ target ∈ keyReferences types id, target < types.length)
include hkeys

/-- A type is followed as the loop does it from its push to its pop. -/
theorem follows_followKeys {depth : Nat} (hdepth : types.length ≤ path.length + depth)
    (hpath : path.Nodup) (hlt : ∀ i ∈ path, i < types.length) (hid : id < types.length)
    (hnew : id ∉ path) (done : List TypeId) (stack : List Frame) :
    Follows types roots path stack
      ⟨roots, marksFor types.length (id :: path) done, frameOf types id :: stack⟩
      (followKeys types depth path done id) := by
  induction depth generalizing path done id stack with
  | zero =>
    -- The depth never runs out before the types do.
    have := path_length_lt hpath hlt hid hnew
    omega
  | succ depth ih =>
    have hpath' : (id :: path).Nodup := List.nodup_cons.mpr ⟨hnew, hpath⟩
    have hlt' : ∀ i ∈ id :: path, i < types.length := List.forall_mem_cons.mpr ⟨hid, hlt⟩
    have hdepth' : types.length ≤ (id :: path).length + depth := by
      rw [List.length_cons]
      omega
    unfold followKeys
    have hnone : keyReferences types id = [] ++ keyReferences types id :=
      (List.nil_append _).symm
    refine (follows_targets hnone (hkeys id) (fun done target htarget hoff stack =>
      ih hdepth' hpath' hlt' (hkeys id target htarget) hoff done stack) done).bind
      fun done' _ circle hends => ?_
    -- No key is left, so the type is taken from the stack.
    refine Ends.round ?_ hends
    rw [step_no_target _ _ _ _ (List.getElem?_eq_none (Nat.le_refl _)), set_done hnew]

/-- The loop goes through the types as the recursion does. -/
theorem ends_roots (hroots : ∀ id ∈ roots, id < types.length) (done : List TypeId) :
    Ends types ⟨roots, marksFor types.length [] done, []⟩
      (match roots.foldlM (fun done id =>
          if id ∈ done then .ok done else followKeys types types.length [] done id) done with
        | .error id => some id
        | .ok _ => none) := by
  induction roots generalizing done with
  | nil => exact Ends.last rfl
  | cons root rest ih =>
    obtain ⟨hroot, hrest⟩ := List.forall_mem_cons.mp hroots
    have hmark : (marksFor types.length [] done).getD root .done = markFor [] done root :=
      getD_marksFor hroot
    rw [markFor, if_neg List.not_mem_nil] at hmark
    rw [List.foldlM_cons]
    by_cases hdone : root ∈ done
    · -- A type that is done takes one round, in which nothing changes.
      rw [if_pos hdone]
      rw [if_pos hdone] at hmark
      refine Ends.round (if_neg ?_) (ih hrest done)
      rw [hmark]
      decide
    · -- Any other type is put onto the empty stack and followed from there.
      rw [if_neg hdone]
      have hround : step types ⟨root :: rest, marksFor types.length [] done, []⟩
          = .goesOn ⟨rest, marksFor types.length [root] done, [frameOf types root]⟩ := by
        rw [if_neg hdone] at hmark
        rw [← set_opened]
        exact if_pos hmark
      have hfollows : Follows types rest [] [] _ (followKeys types types.length [] done root) :=
        follows_followKeys hkeys (Nat.le_add_left _ _) List.nodup_nil
          (fun _ hi => absurd hi List.not_mem_nil) hroot List.not_mem_nil done []
      cases hfollow : followKeys types types.length [] done root with
      | error circle =>
        rw [hfollow] at hfollows
        exact Ends.round hround hfollows
      | ok done' =>
        rw [hfollow] at hfollows
        exact Ends.round hround (hfollows _ (ih hrest done'))

end

/-- The loop ends, with the answer of the recursion. -/
theorem ends_start (h : Linked types) : Ends types (start types) (keyCircle? types) := by
  have hmarks : types.map (fun _ => Mark.fresh) = marksFor types.length [] [] := by
    refine List.ext_getElem (by simp [marksFor]) fun i hi hi' => ?_
    simp [marksFor, markFor]
  rw [start, hmarks, h.ids]
  exact ends_roots h.keyReferences_lt (fun id hid => List.mem_range.mp hid) []

end KeySearch

end ConceptScript.Model
