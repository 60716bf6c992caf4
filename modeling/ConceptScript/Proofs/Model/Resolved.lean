import Mathlib.Data.List.GetD
import Mathlib.Data.List.Nodup
import ConceptScript.Model.Declaration

/-!
# `ConceptScript.Proofs.Model.Resolved`: models that load

A model that is `Accepted` is what some declaration resolves to. The
theorems say what then holds of its types, whatever was declared:

* `ids_eq_range`: types are numbered by their places, so `typeAt` finds a
  type under its id (`typeAt_id`) and no type occurs twice
  (`Accepted.nodup`).
* `Accepted.reference_lt`: what a member refers to is a type of the model.
  With the numbers this is `Linked`, which is said of lists of types that
  need not load. Base types are types of the model, too
  (`Accepted.base_lt`).
* `Accepted.keysFirst`: the keys of a type come before its other members.
* `Accepted.keyCircle?_eq_none`: the search for circles of keys found none.
-/

set_option autoImplicit false

namespace ConceptScript.Model

/-- A step that may fail and then another one succeed when both do. -/
theorem bind_eq_ok {ε α β : Type} {x : Except ε α} {f : α → Except ε β} {b : β} :
    (x >>= f) = .ok b ↔ ∃ a, x = .ok a ∧ f a = .ok b := by
  cases x with
  | error e => exact ⟨fun h => (by cases h), fun ⟨a, ha, _⟩ => (by cases ha)⟩
  | ok a =>
    constructor
    · intro h
      exact ⟨a, rfl, h⟩
    · rintro ⟨a', ha, h⟩
      cases ha
      exact h

/-- A model that some declaration describes. -/
def Accepted (m : Model) : Prop := ∃ d, resolve d = .ok m

/-! ### Names and members -/

/-- The place of a name is one of the list. -/
theorem placeOf_lt {name : String} {names : List String} {id : Nat}
    (h : placeOf name names = some id) : id < names.length := by
  induction names generalizing id with
  | nil => cases h
  | cons n rest ih =>
    unfold placeOf at h
    split at h
    · cases h
      exact Nat.zero_lt_succ _
    · obtain ⟨i, hi, rfl⟩ := Option.map_eq_some_iff.mp h
      exact Nat.succ_lt_succ (ih hi)

/-- A reference that is found is to a type of the list. The lemmas down to
the types carry this bound along. -/
theorem lookUp_lt {names : List String} {name referencedBy : String} {id : TypeId}
    (h : lookUp names name referencedBy = .ok id) : id < names.length := by
  unfold lookUp at h
  split at h
  · next found hfound =>
    cases h
    exact placeOf_lt hfound
  · cases h

/-- Resolved base types are types of the list. -/
theorem resolveBases_lt {names bases : List String} {typeName : String} {ids : List TypeId}
    (h : resolveBases names typeName bases = .ok ids) {id : TypeId} (hid : id ∈ ids) :
    id < names.length := by
  induction bases generalizing ids with
  | nil =>
    cases h
    exact absurd hid List.not_mem_nil
  | cons base rest ih =>
    obtain ⟨first, hfirst, h⟩ := bind_eq_ok.mp h
    obtain ⟨others, hothers, h⟩ := bind_eq_ok.mp h
    cases h
    rcases List.mem_cons.mp hid with rfl | hid
    · exact lookUp_lt hfirst
    · exact ih hothers hid

/-- A resolved value that refers to a type refers to one of the list. -/
theorem resolveValue_lt {names : List String} {typeName member : String} {v : ValueDecl}
    {type : TypeId} (h : resolveValue names typeName member v = .ok (.concept type)) :
    type < names.length := by
  cases v with
  | text => cases h
  | anyConcept => cases h
  | concept target =>
    obtain ⟨id, hid, hpure⟩ := bind_eq_ok.mp h
    cases hpure
    exact lookUp_lt hid
  | choice values =>
    rw [resolveValue] at h
    split at h <;> cases h

/-- A member that was resolved and the members after it. -/
theorem resolveMembers_cons {names : List String} {typeName : String} {keysEnded : Bool}
    {decl : MemberDecl} {rest : List MemberDecl} {members : List Member}
    (h : resolveMembers names typeName keysEnded (decl :: rest) = .ok members) :
    ∃ value others, resolveValue names typeName decl.name decl.value = .ok value
      ∧ (decl.isKey && keysEnded) = false
      ∧ resolveMembers names typeName (keysEnded || !decl.isKey) rest = .ok others
      ∧ members =
        ⟨decl.name, value, decl.isKey, decl.isParsable, decl.isParentNested⟩ :: others := by
  unfold resolveMembers at h
  obtain ⟨value, hvalue, h⟩ := bind_eq_ok.mp h
  dsimp only at h
  split at h
  · cases h
  · next hkey =>
    obtain ⟨others, hothers, h⟩ := bind_eq_ok.mp h
    cases h
    exact ⟨value, others, hvalue, Bool.eq_false_iff.mpr hkey, hothers, rfl⟩

/-- Resolved members refer to types of the list only. Induction on the
declared members. -/
theorem resolveMembers_lt {names : List String} {typeName : String} {keysEnded : Bool}
    {decls : List MemberDecl} {members : List Member}
    (h : resolveMembers names typeName keysEnded decls = .ok members) {member : Member}
    (hmem : member ∈ members) {type : TypeId} (hvalue : member.value = .concept type) :
    type < names.length := by
  induction decls generalizing keysEnded members with
  | nil =>
    cases h
    exact absurd hmem List.not_mem_nil
  | cons decl rest ih =>
    obtain ⟨value, others, hdecl, _, hothers, rfl⟩ := resolveMembers_cons h
    rcases List.mem_cons.mp hmem with rfl | hmem
    · have hconcept : value = .concept type := hvalue
      exact resolveValue_lt (hconcept ▸ hdecl)
    · exact ih hothers hmem

/-- Members of which none is a key after one that is no key. -/
def KeysFirst (members : List Member) : Prop :=
  members.Pairwise fun a b => b.isKey = true → a.isKey = true

/-- Among resolved members the keys come first. Once a member is no key, the
flag lets no key pass. -/
theorem resolveMembers_keysFirst {names : List String} {typeName : String} {keysEnded : Bool}
    {decls : List MemberDecl} {members : List Member}
    (h : resolveMembers names typeName keysEnded decls = .ok members) :
    (keysEnded = true → ∀ member ∈ members, member.isKey = false) ∧ KeysFirst members := by
  induction decls generalizing keysEnded members with
  | nil =>
    cases h
    exact ⟨fun _ _ hmem => absurd hmem List.not_mem_nil, .nil⟩
  | cons decl rest ih =>
    obtain ⟨value, others, _, hkey, hothers, rfl⟩ := resolveMembers_cons h
    obtain ⟨hended, hfirst⟩ := ih hothers
    constructor
    · rintro rfl
      rw [Bool.and_true] at hkey
      exact List.forall_mem_cons.mpr ⟨hkey, hended (Bool.true_or _)⟩
    · refine List.pairwise_cons.mpr ⟨fun b hb hisKey => ?_, hfirst⟩
      -- A key after one that is no key would come when the keys have ended.
      show decl.isKey = true
      cases hdecl : decl.isKey with
      | true => rfl
      | false =>
        have hnone := hended (by rw [hdecl, Bool.not_false, Bool.or_true]) b hb
        rw [hisKey] at hnone
        cases hnone

/-! ### Types -/

/-- A type that was resolved and the types after it. -/
theorem resolveTypes_cons {names : List String} {id : TypeId} {decl : TypeDecl}
    {rest : List TypeDecl} {types : List ConceptType}
    (h : resolveTypes names id (decl :: rest) = .ok types) :
    ∃ bases members others, resolveBases names decl.typeName decl.baseTypes = .ok bases
      ∧ resolveMembers names decl.typeName false decl.members = .ok members
      ∧ resolveTypes names (id + 1) rest = .ok others
      ∧ types = ⟨id, decl.typeName, decl.keyword.filter (· != ""), bases, members,
          decl.documentation⟩ :: others := by
  unfold resolveTypes at h
  obtain ⟨bases, hbases, h⟩ := bind_eq_ok.mp h
  obtain ⟨members, hmembers, h⟩ := bind_eq_ok.mp h
  obtain ⟨others, hothers, h⟩ := bind_eq_ok.mp h
  cases h
  exact ⟨bases, members, others, hbases, hmembers, hothers, rfl⟩

/-- Resolved types are numbered in the order of their declarations. -/
theorem resolveTypes_ids {names : List String} {id : TypeId} {decls : List TypeDecl}
    {types : List ConceptType} (h : resolveTypes names id decls = .ok types) :
    types.map (·.id) = List.range' id decls.length := by
  induction decls generalizing id types with
  | nil =>
    cases h
    rfl
  | cons decl rest ih =>
    obtain ⟨bases, members, others, _, _, hothers, rfl⟩ := resolveTypes_cons h
    rw [List.map_cons, ih hothers, List.length_cons, List.range'_succ]

/-- The members of resolved types refer to types of the list only. -/
theorem resolveTypes_lt {names : List String} {id : TypeId} {decls : List TypeDecl}
    {types : List ConceptType} (h : resolveTypes names id decls = .ok types) {c : ConceptType}
    (hc : c ∈ types) {member : Member} (hmem : member ∈ c.members) {type : TypeId}
    (hvalue : member.value = .concept type) : type < names.length := by
  induction decls generalizing id types with
  | nil =>
    cases h
    exact absurd hc List.not_mem_nil
  | cons decl rest ih =>
    obtain ⟨bases, members, others, _, hmembers, hothers, rfl⟩ := resolveTypes_cons h
    rcases List.mem_cons.mp hc with rfl | hc
    · exact resolveMembers_lt hmembers hmem hvalue
    · exact ih hothers hc

/-- The base types of resolved types are types of the list. -/
theorem resolveTypes_base_lt {names : List String} {id : TypeId} {decls : List TypeDecl}
    {types : List ConceptType} (h : resolveTypes names id decls = .ok types) {c : ConceptType}
    (hc : c ∈ types) {base : TypeId} (hbase : base ∈ c.baseTypes) : base < names.length := by
  induction decls generalizing id types with
  | nil =>
    cases h
    exact absurd hc List.not_mem_nil
  | cons decl rest ih =>
    obtain ⟨bases, members, others, hbases, _, hothers, rfl⟩ := resolveTypes_cons h
    rcases List.mem_cons.mp hc with rfl | hc
    · exact resolveBases_lt hbases hbase
    · exact ih hothers hc

/-- The keys of a resolved type come before its other members. -/
theorem resolveTypes_keysFirst {names : List String} {id : TypeId} {decls : List TypeDecl}
    {types : List ConceptType} (h : resolveTypes names id decls = .ok types) {c : ConceptType}
    (hc : c ∈ types) : KeysFirst c.members := by
  induction decls generalizing id types with
  | nil =>
    cases h
    exact absurd hc List.not_mem_nil
  | cons decl rest ih =>
    obtain ⟨bases, members, others, _, hmembers, hothers, rfl⟩ := resolveTypes_cons h
    rcases List.mem_cons.mp hc with rfl | hc
    · exact (resolveMembers_keysFirst hmembers).2
    · exact ih hothers hc

/-- Types that refer to each other: numbered by their places, and with
references to types of the list only. -/
structure Linked (types : List ConceptType) : Prop where
  ids : types.map (·.id) = List.range types.length
  reference_lt : ∀ c ∈ types, ∀ member ∈ c.members, ∀ target, member.value = .concept target →
    target < types.length

/-- What a declaration resolves to. -/
theorem resolve_eq_ok {d : Declaration} {m : Model} (h : resolve d = .ok m) :
    resolveTypes (d.types.map (·.typeName)) 0 d.types = .ok m.types
      ∧ keyCircle? m.types = none
      ∧ firstRepeated [] (d.types.map (·.typeName)) = none
      ∧ m.version = d.version := by
  unfold resolve at h
  dsimp only at h
  split at h
  · cases h
  · next hrepeated =>
    obtain ⟨types, htypes, h⟩ := bind_eq_ok.mp h
    split at h
    · cases h
    · next hcircle =>
      cases h
      exact ⟨htypes, Option.eq_none_iff_forall_ne_some.mpr hcircle,
        Option.eq_none_iff_forall_ne_some.mpr hrepeated, rfl⟩

namespace Accepted

variable {m : Model}

/-- The keys of an accepted model lead in no circle: the loader looks for one
last. -/
theorem keyCircle?_eq_none (hm : m.Accepted) : keyCircle? m.types = none := by
  obtain ⟨d, hd⟩ := hm
  exact (resolve_eq_ok hd).2.1

/-- The types are numbered by their places. -/
theorem ids_eq_range (hm : m.Accepted) : m.types.map (·.id) = List.range m.types.length := by
  obtain ⟨d, hd⟩ := hm
  have hids := resolveTypes_ids (resolve_eq_ok hd).1
  have hlen := congrArg List.length hids
  rw [List.length_map, List.length_range'] at hlen
  rw [hids, hlen, List.range_eq_range']

/-- What a member refers to is a type of the model. -/
theorem reference_lt (hm : m.Accepted) {c : ConceptType} (hc : c ∈ m.types) {member : Member}
    (hmem : member ∈ c.members) {type : TypeId} (hvalue : member.value = .concept type) :
    type < m.types.length := by
  obtain ⟨d, hd⟩ := hm
  have hlen := congrArg List.length (resolveTypes_ids (resolve_eq_ok hd).1)
  have hlt := resolveTypes_lt (resolve_eq_ok hd).1 hc hmem hvalue
  rw [List.length_map, List.length_range'] at hlen
  rwa [List.length_map, ← hlen] at hlt

/-- The base types of a type are types of the model. -/
theorem base_lt (hm : m.Accepted) {c : ConceptType} (hc : c ∈ m.types) {base : TypeId}
    (hbase : base ∈ c.baseTypes) : base < m.types.length := by
  obtain ⟨d, hd⟩ := hm
  have hlen := congrArg List.length (resolveTypes_ids (resolve_eq_ok hd).1)
  have hlt := resolveTypes_base_lt (resolve_eq_ok hd).1 hc hbase
  rw [List.length_map, List.length_range'] at hlen
  rwa [List.length_map, ← hlen] at hlt

/-- The keys of a type come before its other members. -/
theorem keysFirst (hm : m.Accepted) {c : ConceptType} (hc : c ∈ m.types) :
    KeysFirst c.members := by
  obtain ⟨d, hd⟩ := hm
  exact resolveTypes_keysFirst (resolve_eq_ok hd).1 hc

/-- No type comes twice in an accepted model, since each has its own number. -/
theorem nodup (hm : m.Accepted) : m.types.Nodup := by
  have hids := hm.ids_eq_range ▸ List.nodup_range
  exact List.Nodup.of_map _ hids

/-- The types of a model that loads are linked. -/
theorem linked (hm : m.Accepted) : Linked m.types :=
  ⟨hm.ids_eq_range, fun _ hc _ hmem _ hvalue => hm.reference_lt hc hmem hvalue⟩

/-- A type is found under its id. -/
theorem typeAt_id (hm : m.Accepted) {c : ConceptType} (hc : c ∈ m.types) :
    m.typeAt c.id = c := by
  obtain ⟨i, hi, rfl⟩ := List.mem_iff_getElem.mp hc
  have hid : (m.types.map (·.id))[i]? = some i := by
    rw [hm.ids_eq_range, List.getElem?_range hi]
  rw [List.getElem?_map, List.getElem?_eq_getElem hi, Option.map_some] at hid
  rw [typeAt, Option.some.inj hid, List.getD_eq_getElem _ _ hi]

/-- The number of a type of an accepted model is a place in it. -/
theorem id_lt (hm : m.Accepted) {c : ConceptType} (hc : c ∈ m.types) : c.id < m.types.length := by
  have hmem : c.id ∈ m.types.map (·.id) := List.mem_map_of_mem hc
  rw [hm.ids_eq_range] at hmem
  exact List.mem_range.mp hmem

end Accepted

/-- The type under an id is a type of the model, or it has no members. -/
theorem typeAt_mem_or (m : Model) (id : TypeId) :
    m.typeAt id ∈ m.types ∨ m.typeAt id = .blank := by
  rw [typeAt]
  cases Nat.lt_or_ge id m.types.length with
  | inl hlt =>
    rw [List.getD_eq_getElem _ _ hlt]
    exact .inl (List.getElem_mem hlt)
  | inr hge => exact .inr (List.getD_eq_default _ _ hge)

end ConceptScript.Model
