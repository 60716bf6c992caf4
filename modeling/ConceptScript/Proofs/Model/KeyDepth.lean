import ConceptScript.Proofs.Model.Resolved

/-!
# `ConceptScript.Proofs.Model.KeyDepth`: keys lead through each type once

The search for circles of keys lists types so that keys lead from each
type only to types listed after it (`KeysSorted`). In a model that loads
the search ends without a circle and has then listed every type
(`Accepted.exists_keysSorted`). The list has no type twice, so keys lead
through at most as many types as there are.

The search is bounded by a depth. Types on the path are different, so the
bound is never what ends it: `path_length_lt`.
-/

set_option autoImplicit false

namespace ConceptScript.Model

variable {types : List ConceptType}

/-- A key of a type that is a concept. -/
theorem mem_keyReferences {id target : TypeId} :
    target ∈ keyReferences types id ↔
      ∃ member ∈ (types.getD id .blank).members, member.isKey = true
        ∧ member.value = .concept target := by
  unfold keyReferences ConceptType.keyMembers ConceptType.numbered
  rw [List.mem_filterMap]
  constructor
  · rintro ⟨⟨member, index⟩, hmem, hvalue⟩
    obtain ⟨hzip, hkey⟩ := List.mem_filter.mp hmem
    refine ⟨member, List.fst_mem_of_mem_zipIdx hzip, hkey, ?_⟩
    dsimp only at hvalue
    split at hvalue
    · next found hfound =>
      cases hvalue
      exact hfound
    · cases hvalue
  · rintro ⟨member, hmem, hkey, hvalue⟩
    obtain ⟨index, hindex, rfl⟩ := List.mem_iff_getElem.mp hmem
    refine ⟨(_, index), List.mem_filter.mpr ⟨?_, hkey⟩, ?_⟩
    · exact List.mk_mem_zipIdx_iff_getElem?.mpr (List.getElem?_eq_getElem hindex)
    · dsimp only
      rw [hvalue]

/-- Keys lead to types of the list only. -/
theorem Linked.keyReferences_lt (h : Linked types) (id : TypeId) :
    ∀ target ∈ keyReferences types id, target < types.length := by
  intro target htarget
  obtain ⟨member, hmem, _, hvalue⟩ := mem_keyReferences.mp htarget
  rw [List.getD_eq_getElem?_getD] at hmem
  cases hc : types[id]? with
  | none =>
    -- There is no such type, and a blank one has no keys.
    rw [hc] at hmem
    exact absurd hmem List.not_mem_nil
  | some c =>
    rw [hc] at hmem
    exact h.reference_lt c (List.mem_of_getElem? hc) member hmem target hvalue

/-- Types listed so that the keys of each lead only to types after it. -/
inductive KeysSorted (types : List ConceptType) : List TypeId → Prop
  | nil : KeysSorted types []
  | cons {id : TypeId} {rest : List TypeId}
      (keys : ∀ target ∈ keyReferences types id, target ∈ rest)
      (sorted : KeysSorted types rest) : KeysSorted types (id :: rest)

/-- What the search knows of the types it is done with, while it follows
those on a path. -/
structure Settled (types : List ConceptType) (path done : List TypeId) : Prop where
  sorted : KeysSorted types done
  nodup : done.Nodup
  lt : ∀ id ∈ done, id < types.length
  offPath : ∀ id ∈ done, id ∉ path

/-- What visiting one more type is to achieve. -/
structure Visited (types : List ConceptType) (path done : List TypeId) (id : TypeId)
    (done' : List TypeId) : Prop where
  settled : Settled types path done'
  subset : done ⊆ done'
  mem : id ∈ done'

/-- Different types on a path are no more than there are types, so there
is depth left at a type that is not on it. -/
theorem path_length_lt {path : List TypeId} {id : TypeId} (hpath : path.Nodup)
    (hlt : ∀ i ∈ path, i < types.length) (hid : id < types.length) (hnew : id ∉ path) :
    path.length < types.length := by
  have hsub : id :: path ⊆ List.range types.length := by
    intro i hi
    rcases List.mem_cons.mp hi with rfl | hi
    · exact List.mem_range.mpr hid
    · exact List.mem_range.mpr (hlt i hi)
  have hle := (List.nodup_cons.mpr ⟨hnew, hpath⟩).length_le_of_subset hsub
  rw [List.length_cons, List.length_range] at hle
  exact hle

/-- Visiting types one by one visits them all. -/
theorem visited_foldlM {visit : List TypeId → TypeId → Except TypeId (List TypeId)}
    {path targets done done' : List TypeId}
    (hvisit : ∀ done id done', Settled types path done → id ∈ targets →
      visit done id = .ok done' → Visited types path done id done')
    (hdone : Settled types path done) (h : targets.foldlM visit done = .ok done') :
    Settled types path done' ∧ done ⊆ done' ∧ targets ⊆ done' := by
  induction targets generalizing done with
  | nil =>
    cases h
    exact ⟨hdone, List.Subset.refl _, List.nil_subset _⟩
  | cons id rest ih =>
    rw [List.foldlM_cons] at h
    obtain ⟨middle, hid, h⟩ := bind_eq_ok.mp h
    have hmiddle := hvisit done id middle hdone List.mem_cons_self hid
    have hrest : ∀ done id' done', Settled types path done → id' ∈ rest →
        visit done id' = .ok done' → Visited types path done id' done' :=
      fun done id' done' hs hmem => hvisit done id' done' hs (List.mem_cons_of_mem _ hmem)
    obtain ⟨hsettled, hsub, hall⟩ := ih hrest hmiddle.settled h
    exact ⟨hsettled, List.Subset.trans hmiddle.subset hsub,
      List.cons_subset.mpr ⟨hsub hmiddle.mem, hall⟩⟩

variable (hkeys : ∀ id, ∀ target ∈ keyReferences types id, target < types.length)
include hkeys

/-- Following the keys of a type visits it, if that closes no circle. -/
theorem visited_followKeys {depth : Nat} {path done done' : List TypeId} {id : TypeId}
    (hdepth : types.length ≤ path.length + depth) (hpath : path.Nodup)
    (hlt : ∀ i ∈ path, i < types.length) (hid : id < types.length) (hnew : id ∉ path)
    (hdone : Settled types path done) (hfresh : id ∉ done)
    (h : followKeys types depth path done id = .ok done') :
    Visited types path done id done' := by
  induction depth generalizing path done done' id with
  | zero =>
    -- The depth never runs out before the types do.
    have := path_length_lt hpath hlt hid hnew
    omega
  | succ depth ih =>
    have hpath' : (id :: path).Nodup := List.nodup_cons.mpr ⟨hnew, hpath⟩
    have hlt' : ∀ i ∈ id :: path, i < types.length := List.forall_mem_cons.mpr ⟨hid, hlt⟩
    have hdepth' : types.length ≤ (id :: path).length + depth := by
      rw [List.length_cons]
      omega
    have hsettled : Settled types (id :: path) done := by
      refine ⟨hdone.sorted, hdone.nodup, hdone.lt, ?_⟩
      intro i hi hmem
      rcases List.mem_cons.mp hmem with rfl | hmem
      · exact hfresh hi
      · exact hdone.offPath i hi hmem
    unfold followKeys at h
    obtain ⟨keysDone, hfold, h⟩ := bind_eq_ok.mp h
    cases h
    have hfollow := visited_foldlM ?visit hsettled hfold
    case visit =>
      intro done target done' hdone htarget hvisit
      -- A key that leads back to the path closes a circle.
      split at hvisit
      · cases hvisit
      · next hoff =>
        split at hvisit
        · next hmem =>
          cases hvisit
          exact ⟨hdone, List.Subset.refl _, hmem⟩
        · next hfresh' =>
          exact ih hdepth' hpath' hlt' (hkeys id target htarget) hoff hdone hfresh' hvisit
    obtain ⟨hafter, hsub, hall⟩ := hfollow
    -- The type goes in front of all that its keys lead to.
    have hself : id ∉ keysDone := fun hmem => hafter.offPath id hmem List.mem_cons_self
    have hoff : ∀ i ∈ keysDone, i ∉ path :=
      fun i hi hmem => hafter.offPath i hi (List.mem_cons_of_mem id hmem)
    exact ⟨⟨.cons (fun target ht => hall ht) hafter.sorted,
      List.nodup_cons.mpr ⟨hself, hafter.nodup⟩,
      List.forall_mem_cons.mpr ⟨hid, hafter.lt⟩, List.forall_mem_cons.mpr ⟨hnew, hoff⟩⟩,
      List.subset_cons_of_subset id hsub, List.mem_cons_self⟩

/-- A search without a circle lists every type. -/
theorem exists_keysSorted (h : keyCircle? types = none) :
    ∃ order, KeysSorted types order ∧ order.length ≤ types.length
      ∧ ∀ id, id < types.length → id ∈ order := by
  unfold keyCircle? at h
  dsimp only at h
  split at h
  · cases h
  · next order hsearch =>
    have hnone : Settled types [] [] :=
      ⟨.nil, List.nodup_nil, fun _ hi => absurd hi List.not_mem_nil,
        fun _ hi => absurd hi List.not_mem_nil⟩
    -- The search starts with nothing settled and visits the types one after the other.
    have hfollow := visited_foldlM ?visit hnone hsearch
    case visit =>
      intro done id done' hdone hid hvisit
      split at hvisit
      · next hmem =>
        cases hvisit
        exact ⟨hdone, List.Subset.refl _, hmem⟩
      · next hfresh =>
        exact visited_followKeys hkeys (by simp) List.nodup_nil
          (fun _ hi => absurd hi List.not_mem_nil) (List.mem_range.mp hid) List.not_mem_nil
          hdone hfresh hvisit
    obtain ⟨hafter, _, hall⟩ := hfollow
    refine ⟨order, hafter.sorted, ?_, fun id hid => hall (List.mem_range.mpr hid)⟩
    -- No type is listed twice, so there are no more of them than types.
    have hsub : order ⊆ List.range types.length :=
      fun i hi => List.mem_range.mpr (hafter.lt i hi)
    have hle := hafter.nodup.length_le_of_subset hsub
    rwa [List.length_range] at hle

omit hkeys

/-- In a model that loads, all types can be listed so that keys lead from
each only to types after it. -/
theorem Accepted.exists_keysSorted {m : Model} (hm : m.Accepted) :
    ∃ order, KeysSorted m.types order ∧ order.length ≤ m.types.length
      ∧ ∀ id, id < m.types.length → id ∈ order :=
  Model.exists_keysSorted hm.linked.keyReferences_lt hm.keyCircle?_eq_none

end ConceptScript.Model
