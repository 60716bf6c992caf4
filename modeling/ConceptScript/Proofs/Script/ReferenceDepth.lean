import ConceptScript.Proofs.Model.KeyCircle
import ConceptScript.Proofs.Model.KeySearch
import ConceptScript.Proofs.Script.Derivation

/-!
# `ConceptScript.Proofs.Script.ReferenceDepth`: reading a reference ends

A reference is read by reading the keys of its type, and those that are
concepts are read as references in turn. The model bounds how deep this
goes by the number of types (`readReference`). In a model that loads the
bound never shows: no reading fails because of it, and a greater bound
changes nothing.

`circles_found_and_references_end` puts this together with the search that
keeps circles of keys out of models: it finds them exactly, and the graph
that it looks at is the one that references are read along.
-/

set_option autoImplicit false

namespace ConceptScript.Script

open ConceptScript.Model (TypeId Member KeysSorted KeyLeads Circular Linked KeySearch keyCircle?)

variable {m : Model}

namespace Reading

/-- A reading that never comes to the end of the depth. -/
abbrev NeverTooDeep {α : Type} (p : Reading α) : Prop :=
  FailsFor (fun why => ∀ typeName, why ≠ .endlessReference typeName) p

/-- Reading a text does not come to the end of the depth. -/
theorem neverTooDeep_textToken : NeverTooDeep textToken :=
  failsFor_textToken fun _ _ heq => (by cases heq)

/-- Reading a dot does not, if it is not given this as the reason of its
failure. -/
theorem neverTooDeep_dotIf (needed : Bool) {why : Mismatch}
    (h : ∀ typeName, why ≠ .endlessReference typeName) : NeverTooDeep (dotIf needed why) := by
  unfold dotIf
  split
  · exact failsFor_dot h
  · exact failsFor_pure _

end Reading

open Reading

/-- What keys of some members read depends only on how the concepts among
these keys are read. -/
theorem readKeys_congr {reference reference' : TypeId → Reading Node} {members : List Member}
    (h : ∀ member ∈ members, member.isKey = true → ∀ target, member.value = .concept target →
      reference target = reference' target) (typeName : String) (later : Bool) :
    readKeys reference typeName later members = readKeys reference' typeName later members := by
  induction members generalizing later with
  | nil => rfl
  | cons member rest ih =>
    obtain ⟨hfirst, hrest⟩ := List.forall_mem_cons.mp h
    rw [readKeys, readKeys, ih hrest, ih hrest]
    by_cases hkey : member.isKey = true
    · have hsame : readKey reference typeName member = readKey reference' typeName member := by
        unfold readKey
        split
        · rfl
        · rfl
        · next inner hvalue => rw [hfirst hkey inner hvalue]
        · rfl
      rw [hsame]
    · rw [if_neg hkey, if_neg hkey]

/-- Reading keys does not, if reading the references among them does not.
Induction on the members. -/
theorem neverTooDeep_readKeys {reference : TypeId → Reading Node} {members : List Member}
    (h : ∀ member ∈ members, member.isKey = true → ∀ target, member.value = .concept target →
      NeverTooDeep (reference target)) (typeName : String) (later : Bool) :
    NeverTooDeep (readKeys reference typeName later members) := by
  induction members generalizing later with
  | nil => exact failsFor_pure _
  | cons member rest ih =>
    obtain ⟨hfirst, hrest⟩ := List.forall_mem_cons.mp h
    unfold readKeys
    split
    · next hkey =>
      have hdot : NeverTooDeep (dotIf later (.expectedDotBetweenKeys typeName)) :=
        neverTooDeep_dotIf later fun _ heq => (by cases heq)
      have hown : NeverTooDeep (readKey reference typeName member) := by
        unfold readKey
        split
        · exact neverTooDeep_textToken.bind fun _ => failsFor_pure _
        · exact neverTooDeep_textToken.bind fun _ => failsFor_pure _
        · next inner hvalue => exact (hfirst hkey inner hvalue).bind fun _ => failsFor_pure _
        · exact failsFor_fail fun _ heq => (by cases heq)
      exact hdot.bind fun _ => hown.bind fun _ => (ih hrest true).bind fun _ => failsFor_pure _
    · exact (ih hrest later).bind fun _ => failsFor_pure _

/-- A depth of as many types as are listed from a type on is enough for
reading a reference. -/
theorem neverTooDeep_readReferenceWithin {order : List TypeId} (horder : KeysSorted m.types order)
    {type : TypeId} (hmem : type ∈ order) {depth : Nat} (hdepth : order.length ≤ depth) :
    NeverTooDeep (readReferenceWithin m depth type) := by
  induction horder generalizing depth type with
  | nil => exact absurd hmem List.not_mem_nil
  | @cons id rest hkeys hsorted ih =>
    rcases List.mem_cons.mp hmem with rfl | hmem
    · obtain ⟨inner, rfl⟩ : ∃ inner, depth = inner + 1 := ⟨depth - 1, by
        rw [List.length_cons] at hdepth
        omega⟩
      -- What the keys lead to is listed after the type, so one step less is enough for it.
      refine (neverTooDeep_readKeys (fun member hmember hkey target hvalue => ?_) _ _).bind
        fun _ => failsFor_pure _
      have hlisted : target ∈ rest :=
        hkeys target (Model.mem_keyReferences.mpr ⟨member, hmember, hkey, hvalue⟩)
      exact ih hlisted (Nat.le_of_succ_le_succ hdepth)
    · exact ih hmem (Nat.le_of_succ_le hdepth)

/-- Reading a reference in an accepted model never comes to the end of the
depth. Types are sorted so that keys lead forward, and there are no more of
them than the depth allows. -/
theorem neverTooDeep_readReference (hm : m.Accepted) {type : TypeId}
    (htype : type < m.types.length) : NeverTooDeep (readReference m type) := by
  obtain ⟨_, hsorted, hlength, hall⟩ := hm.exists_keysSorted
  exact neverTooDeep_readReferenceWithin hsorted (hall type htype) hlength

/-- More depth than is enough changes nothing. -/
theorem readReferenceWithin_eq (hm : m.Accepted) {type : TypeId} (htype : type < m.types.length)
    {depth : Nat} (hdepth : m.types.length ≤ depth) :
    readReferenceWithin m depth type = readReference m type := by
  refine hm.eq_of_length_le (f := readReferenceWithin m) (fun depth depth' type hsame => ?_)
    htype hdepth
  rw [readReferenceWithin, readReferenceWithin]
  rw [readKeys_congr fun member hmember hkey target hvalue =>
    hsame target (Model.keyLeads_iff.mpr ⟨member, hmember, hkey, hvalue⟩)]

/-- A reference is read by the keys of its type, and those that are
concepts are references. -/
theorem readReference_eq (hm : m.Accepted) {type : TypeId} (htype : type < m.types.length) :
    readReference m type = (do
      let c := m.typeAt type
      let slots ← readKeys (readReference m) c.typeName false c.members
      pure (.mk type slots)) :=
  (readReferenceWithin_eq hm htype (Nat.le_succ _)).symm

/-- Types that keys lead through, one after another, come one after another
in a sorted list. -/
theorem length_le_of_chain {order chain : List TypeId} {type : TypeId}
    (horder : KeysSorted m.types order) (hmem : type ∈ order)
    (hchain : List.IsChain (KeyLeads m.types) (type :: chain)) :
    (type :: chain).length ≤ order.length := by
  induction horder generalizing type chain with
  | nil => exact absurd hmem List.not_mem_nil
  | cons hkeys hsorted ih =>
    rename_i id rest
    rcases List.mem_cons.mp hmem with rfl | hmem
    · cases chain with
      | nil => exact Nat.succ_le_succ (Nat.zero_le _)
      | cons target chain =>
        obtain ⟨hlead, htail⟩ := List.isChain_cons_cons.mp hchain
        exact Nat.succ_le_succ (ih (hkeys target (Model.mem_keyReferences_iff.mpr hlead)) htail)
    · exact Nat.le_succ_of_le (ih hmem hchain)

/-- The search for circles of keys ends, also when it is done by a loop
with a stack. It answers a type if and only if keys lead in a circle, and
then one on a circle. So in a model that loads a reference is read along
at most as many types as there are, whatever the tokens are: with the
depth that it is given it never comes to the end of that, and more depth
changes nothing. -/
theorem circles_found_and_references_end {types : List ConceptType} (htypes : Linked types)
    (hm : m.Accepted) {type : TypeId} (htype : type < m.types.length) :
    (∀ circle, KeySearch.Ends types (.start types) circle ↔ circle = keyCircle? types)
      ∧ ((∃ id, keyCircle? types = some id) ↔ ∃ id, Circular types id)
      ∧ (∀ id, keyCircle? types = some id → Circular types id)
      ∧ (∀ chain, List.IsChain (KeyLeads m.types) (type :: chain) →
        (type :: chain).length ≤ m.types.length)
      ∧ (∀ r typeName, (readReference m type r).1 ≠ .error (.endlessReference typeName))
      ∧ ∀ depth, m.types.length ≤ depth →
        readReferenceWithin m depth type = readReference m type := by
  have hends := KeySearch.ends_start htypes
  obtain ⟨order, hsorted, hlength, hall⟩ := hm.exists_keysSorted
  refine ⟨fun circle => ⟨fun h => h.unique hends, fun h => h ▸ hends⟩,
    Model.exists_keyCircle?_iff htypes, fun id => Model.circular_of_keyCircle?, ?_, ?_,
    fun _ hdepth => readReferenceWithin_eq hm htype hdepth⟩
  · exact fun chain hchain =>
      Nat.le_trans (length_le_of_chain hsorted (hall type htype) hchain) hlength
  · exact fun r typeName hfail => neverTooDeep_readReference hm htype r _ hfail typeName rfl

/-- Three types. The keys of the first lead to the second, and those of the
second and the third to each other. -/
def tangledTypes : List ConceptType :=
  [⟨0, "OuterInfo", none, [], [⟨"Left", .concept 1, true, true, false⟩], none⟩,
    ⟨1, "LeftInfo", none, [], [⟨"Right", .concept 2, true, true, false⟩], none⟩,
    ⟨2, "RightInfo", none, [], [⟨"Left", .concept 1, true, true, false⟩], none⟩]

/-- The second of these types is found, which is on the circle. Entities of
modules need a depth of two, and get no deeper with five. -/
theorem circle_found_behind_type :
    Linked tangledTypes ∧ (∃ id, Circular tangledTypes id)
      ∧ KeySearch.Ends tangledTypes (.start tangledTypes) (some 1) ∧ Circular tangledTypes 1
      ∧ readReferenceWithin moduleModel 5 1 = readReference moduleModel 1 := by
  have hlinked : Linked tangledTypes := by
    refine ⟨rfl, fun c hc member hmem target hvalue => ?_⟩
    simp only [tangledTypes, List.mem_cons, List.not_mem_nil, or_false] at hc
    rcases hc with rfl | rfl | rfl <;> (cases List.mem_singleton.mp hmem; cases hvalue; decide)
  have hfound : keyCircle? tangledTypes = some 1 := rfl
  obtain ⟨hends, hiff, hcircular, _, _, hdepth⟩ :=
    circles_found_and_references_end hlinked accepted_moduleModel (by decide : 1 < 2)
  exact ⟨hlinked, hiff.mp ⟨1, hfound⟩, (hends _).mpr hfound.symm, hcircular 1 hfound,
    hdepth 5 (by decide)⟩

end ConceptScript.Script
