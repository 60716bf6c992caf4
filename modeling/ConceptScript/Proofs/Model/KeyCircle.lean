import Mathlib.Logic.Relation
import ConceptScript.Proofs.Model.KeyDepth

/-!
# `ConceptScript.Proofs.Model.KeyCircle`: the search finds circles of keys

The keys of types make up a graph: `KeyLeads` goes from a type to the types
of its keys. A type is `Circular` when its keys lead back to it, over any
number of types. The search for circles is right about this graph:

* `circular_of_keyCircle?`: the type it answers is circular.
* `not_circular_of_keyCircle?`: if it answers none, no type is.

For the first one, all types on the path of the search lead to the type
that is being followed. For the second one, a search without an answer has
sorted the types (`KeysSorted`), and keys never lead back in such a list.

In an accepted model no type is circular, and what holds of a type if it
holds of those that its keys lead to holds of all
(`Accepted.induction_on_keys`).
-/

set_option autoImplicit false

namespace ConceptScript.Model

open Relation (TransGen)

variable {types : List ConceptType}

/-- A key of the first type is a concept of the second one. -/
def KeyLeads (types : List ConceptType) (a b : TypeId) : Prop :=
  ∃ c, types[a]? = some c ∧ ∃ member ∈ c.members, member.isKey = true
    ∧ member.value = .concept b

/-- A type whose keys lead back to it. -/
def Circular (types : List ConceptType) (id : TypeId) : Prop := TransGen (KeyLeads types) id id

/-- The types that the search looks at next from a type are those that the
keys of the type lead to. -/
theorem mem_keyReferences_iff {a b : TypeId} :
    b ∈ keyReferences types a ↔ KeyLeads types a b := by
  rw [mem_keyReferences, List.getD_eq_getElem?_getD, KeyLeads]
  cases types[a]? with
  | none =>
    -- Where there is no type there are no keys.
    constructor
    · rintro ⟨member, hmem, _⟩
      exact absurd hmem List.not_mem_nil
    · rintro ⟨c, hc, _⟩
      cases hc
  | some c => simp only [Option.getD_some, Option.some.injEq, exists_eq_left']

/-! ### What is found is a circle -/

/-- A fold that fails does so at one of its items. -/
theorem exists_of_foldlM_error {α β ε : Type} {f : β → α → Except ε β} {as : List α} {b : β}
    {e : ε} (h : as.foldlM f b = .error e) : ∃ b', ∃ a ∈ as, f b' a = .error e := by
  induction as generalizing b with
  | nil => cases h
  | cons a rest ih =>
    rw [List.foldlM_cons] at h
    cases hfirst : f b a with
    | error e' =>
      rw [hfirst] at h
      cases h
      exact ⟨b, a, List.mem_cons_self, hfirst⟩
    | ok b' =>
      rw [hfirst] at h
      obtain ⟨b'', a', hmem, herror⟩ := ih h
      exact ⟨b'', a', List.mem_cons_of_mem a hmem, herror⟩

/-- Where the types of a path lead to the type that is followed, a type
that is answered lies on a circle. -/
theorem circular_of_followKeys {depth : Nat} {path done : List TypeId} {id circle : TypeId}
    (hpath : ∀ i ∈ path, TransGen (KeyLeads types) i id)
    (h : followKeys types depth path done id = .error circle) : Circular types circle := by
  induction depth generalizing path done id with
  | zero => cases h
  | succ depth ih =>
    have hfold : ∃ done', ∃ target ∈ keyReferences types id,
        (if target ∈ id :: path then .error target
          else if target ∈ done' then .ok done'
          else followKeys types depth (id :: path) done' target) = Except.error circle := by
      unfold followKeys at h
      cases hfold : (keyReferences types id).foldlM (fun done target =>
          if target ∈ id :: path then .error target
          else if target ∈ done then .ok done
          else followKeys types depth (id :: path) done target) done with
      | error e =>
        rw [hfold] at h
        cases h
        exact exists_of_foldlM_error hfold
      | ok done' =>
        rw [hfold] at h
        cases h
    obtain ⟨done', target, htarget, hvisit⟩ := hfold
    have hedge := mem_keyReferences_iff.mp htarget
    split at hvisit
    · next hmem =>
      -- The key leads back to the path, which leads to the key.
      cases hvisit
      rcases List.mem_cons.mp hmem with rfl | hmem
      · exact .single hedge
      · exact .tail (hpath _ hmem) hedge
    · split at hvisit
      · cases hvisit
      · refine ih (fun i hi => ?_) hvisit
        rcases List.mem_cons.mp hi with rfl | hi
        · exact .single hedge
        · exact .tail (hpath i hi) hedge

/-- A type that the search answers is circular. -/
theorem circular_of_keyCircle? {id : TypeId} (h : keyCircle? types = some id) :
    Circular types id := by
  unfold keyCircle? at h
  dsimp only at h
  split at h
  · next circle hsearch =>
    cases h
    obtain ⟨done, root, _, hvisit⟩ := exists_of_foldlM_error hsearch
    split at hvisit
    · cases hvisit
    · exact circular_of_followKeys (fun i hi => absurd hi List.not_mem_nil) hvisit
  · cases h

/-! ### All circles are found -/

/-- Keys lead from the types of a sorted list nowhere else. -/
theorem KeysSorted.mem_of_keyLeads {order : List TypeId} {a b : TypeId}
    (h : KeysSorted types order) (ha : a ∈ order) (hab : KeyLeads types a b) : b ∈ order := by
  induction h with
  | nil => exact absurd ha List.not_mem_nil
  | cons hkeys _ ih =>
    rcases List.mem_cons.mp ha with rfl | ha
    · exact List.mem_cons_of_mem _ (hkeys b (mem_keyReferences_iff.mpr hab))
    · exact List.mem_cons_of_mem _ (ih ha)

/-- Keys never lead back in a sorted list. -/
theorem KeysSorted.not_circular {order : List TypeId} {id : TypeId}
    (h : KeysSorted types order) (hid : id ∈ order) : ¬Circular types id := by
  induction h with
  | nil => exact absurd hid List.not_mem_nil
  | cons hkeys hsorted ih =>
    rename_i first rest
    by_cases hrest : id ∈ rest
    · exact ih hrest
    · obtain rfl := (List.mem_cons.mp hid).resolve_right hrest
      intro hcircle
      -- The way back starts at a type further on, and stays there.
      have hstays : ∀ a b, a ∈ rest → TransGen (KeyLeads types) a b → b ∈ rest := by
        intro a b ha hab
        induction hab with
        | single hab => exact hsorted.mem_of_keyLeads ha hab
        | tail _ hbc hb => exact hsorted.mem_of_keyLeads hb hbc
      obtain ⟨target, hfirst, hback⟩ := TransGen.head'_iff.mp hcircle
      have htarget := hkeys target (mem_keyReferences_iff.mpr hfirst)
      rcases Relation.reflTransGen_iff_eq_or_transGen.mp hback with rfl | hback
      · exact hrest htarget
      · exact hrest (hstays target id htarget hback)

/-- A type on a circle is a type of the list, since a key leads from it. -/
theorem Circular.lt {id : TypeId} (h : Circular types id) : id < types.length := by
  obtain ⟨_, ⟨c, hc, _⟩, _⟩ := TransGen.head'_iff.mp h
  exact (List.getElem?_eq_some_iff.mp hc).1

/-- If the search answers nothing, there is no circular type. -/
theorem not_circular_of_keyCircle? (hlinked : Linked types) (h : keyCircle? types = none)
    (id : TypeId) : ¬Circular types id := by
  intro hcircle
  obtain ⟨order, hsorted, _, hall⟩ := exists_keysSorted hlinked.keyReferences_lt h
  exact hsorted.not_circular (hall id hcircle.lt) hcircle

/-- The search answers a type if and only if there is a circular one. -/
theorem exists_keyCircle?_iff (hlinked : Linked types) :
    (∃ id, keyCircle? types = some id) ↔ ∃ id, Circular types id := by
  constructor
  · rintro ⟨id, h⟩
    exact ⟨id, circular_of_keyCircle? h⟩
  · rintro ⟨id, hcircle⟩
    cases h : keyCircle? types with
    | none => exact absurd hcircle (not_circular_of_keyCircle? hlinked h id)
    | some found => exact ⟨found, rfl⟩

/-! ### Going along keys -/

/-- A key leads from one type of a model to another one just if a member of
the first is a key whose value is a concept of the second. -/
theorem keyLeads_iff {m : Model} {type target : TypeId} :
    KeyLeads m.types type target ↔ ∃ member ∈ (m.typeAt type).members, member.isKey = true
      ∧ member.value = .concept target :=
  mem_keyReferences_iff.symm.trans mem_keyReferences

/-- What is computed along keys with a bounded depth does not depend on the
bound, if that is large enough. -/
theorem KeysSorted.eq_of_length_le {α : Type} {f : Nat → TypeId → α}
    (hstep : ∀ depth depth' type, (∀ target, KeyLeads types type target →
      f depth target = f depth' target) → f (depth + 1) type = f (depth' + 1) type)
    {order : List TypeId} (horder : KeysSorted types order) {type : TypeId} (hmem : type ∈ order)
    {depth : Nat} (hdepth : order.length ≤ depth) : f depth type = f order.length type := by
  induction horder generalizing depth type with
  | nil => exact absurd hmem List.not_mem_nil
  | @cons id rest hkeys _ ih =>
    obtain ⟨inner, rfl⟩ : ∃ inner, depth = inner + 1 := ⟨depth - 1, by
      rw [List.length_cons] at hdepth
      omega⟩
    have hinner : rest.length ≤ inner := Nat.le_of_succ_le_succ hdepth
    rw [List.length_cons]
    rcases List.mem_cons.mp hmem with rfl | hmem
    · exact hstep _ _ _ fun target hlead =>
        ih (hkeys target (mem_keyReferences_iff.mpr hlead)) hinner
    · rw [ih hmem (Nat.le_succ_of_le hinner), ih hmem (Nat.le_succ _)]

/-- A depth of as many types as there are is enough to go along keys. -/
theorem Accepted.eq_of_length_le {m : Model} (hm : m.Accepted) {α : Type} {f : Nat → TypeId → α}
    (hstep : ∀ depth depth' type, (∀ target, KeyLeads m.types type target →
      f depth target = f depth' target) → f (depth + 1) type = f (depth' + 1) type)
    {type : TypeId} (htype : type < m.types.length) {depth : Nat}
    (hdepth : m.types.length ≤ depth) : f depth type = f m.types.length type := by
  obtain ⟨order, hsorted, hlength, hall⟩ := hm.exists_keysSorted
  rw [hsorted.eq_of_length_le hstep (hall type htype) (Nat.le_trans hlength hdepth),
    hsorted.eq_of_length_le hstep (hall type htype) hlength]

/-- Keys lead to types of the model. -/
theorem KeyLeads.lt (htypes : Linked types) {a b : TypeId} (h : KeyLeads types a b) :
    b < types.length := htypes.keyReferences_lt a b (mem_keyReferences_iff.mpr h)

/-- In a model that loads, what holds of a type as soon as it holds of the
types of its keys holds of all types. -/
theorem Accepted.induction_on_keys {m : Model} (hm : m.Accepted)
    {motive : (type : TypeId) → type < m.types.length → Prop}
    (step : ∀ type htype, (∀ target (hlead : KeyLeads m.types type target),
      motive target (hlead.lt hm.linked)) → motive type htype)
    (type : TypeId) (htype : type < m.types.length) : motive type htype := by
  obtain ⟨order, hsorted, -, hall⟩ := hm.exists_keysSorted
  have hmem := hall type htype
  clear hall
  induction hsorted generalizing type with
  | nil => exact absurd hmem List.not_mem_nil
  | cons hkeys _ ih =>
    rcases List.mem_cons.mp hmem with rfl | hmem
    · exact step _ htype fun target hlead =>
        ih target (hlead.lt hm.linked) (hkeys target (mem_keyReferences_iff.mpr hlead))
    · exact ih _ htype hmem

end ConceptScript.Model
