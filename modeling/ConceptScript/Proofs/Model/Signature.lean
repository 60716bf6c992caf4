import ConceptScript.Model.Signature
import ConceptScript.Proofs.Model.Resolved

/-!
# `ConceptScript.Proofs.Model.Signature`: signatures and parameters

A signature prints the parsable keys of a type before its other parsable
members, and the parameters list both in the order of the members. Editors
mark the active parameter by its place in this list, so the two have to be in
one order. They are since in a model that loads the keys of a type come first
(`Accepted.keysFirst`), wherever members stand that are not parsable.

* `keyLabels_append_otherLabels`: the keys and the others are the parameters.
* `signature_eq_printed`: the signature prints the parameters, each once and in
  order, with dots between the keys and spaces elsewhere.
* `parsablePlace_of_mem`: the place of a parsable member is its place among the
  parameters; no other index has one (`parsablePlace_eq_none_iff`).
-/

set_option autoImplicit false

namespace ConceptScript

open ConceptScript.Text
open ConceptScript.Model (Member)

/-! ### Places of members -/

/-- A search among values one of which is as wanted finds such a one. -/
theorem exists_findIdx? {α : Type} {p : α → Bool} {l : List α} {x : α} (hx : x ∈ l)
    (hp : p x = true) : ∃ i y, l.findIdx? p = some i ∧ l[i]? = some y ∧ p y = true := by
  have hsome : (l.findIdx? p).isSome = true := by
    rw [List.findIdx?_isSome, List.any_eq_true]
    exact ⟨x, hx, hp⟩
  obtain ⟨i, hi⟩ := Option.isSome_iff_exists.mp hsome
  obtain ⟨hlt, hfound, _⟩ := List.findIdx?_eq_some_iff_getElem.mp hi
  exact ⟨i, l[i], hi, List.getElem?_eq_getElem hlt, hfound⟩

namespace ConceptType

variable {c : ConceptType} {member : Member} {i : Nat}

/-- The parsable members are listed with the places they have among all
members. -/
theorem mem_parsableMembers_iff :
    (member, i) ∈ c.parsableMembers ↔ c.members[i]? = some member ∧ member.isParsable = true := by
  rw [parsableMembers, List.mem_filter, numbered, List.mem_zipIdx_iff_getElem?]

/-- The place of a parsable member is where it stands among them. -/
theorem parsablePlace_of_mem (h : (member, i) ∈ c.parsableMembers) :
    ∃ place, c.parsablePlace i = some place ∧ c.parsableMembers[place]? = some (member, i) := by
  obtain ⟨place, ⟨other, j⟩, hplace, hat, hindex⟩ :=
    exists_findIdx? (p := fun found => found.2 == i) h (beq_self_eq_true i)
  obtain rfl : j = i := eq_of_beq hindex
  -- A member is told by its index, so the one that was found is the given one.
  have hother : c.members[j]? = some other :=
    (mem_parsableMembers_iff.mp (List.mem_of_getElem? hat)).1
  rw [(mem_parsableMembers_iff.mp h).1] at hother
  obtain rfl : member = other := Option.some.inj hother
  exact ⟨place, hplace, hat⟩

/-- There is no place among the parameters just for a member that is not
parsable, or for no member. -/
theorem parsablePlace_eq_none_iff :
    c.parsablePlace i = none
      ↔ ∀ member, c.members[i]? = some member → member.isParsable = false := by
  rw [parsablePlace, List.findIdx?_eq_none_iff]
  constructor
  · intro h member hmember
    rw [← Bool.not_eq_true]
    intro hparsable
    have hother := h _ (mem_parsableMembers_iff.mpr ⟨hmember, hparsable⟩)
    exact absurd (beq_self_eq_true i) (Bool.eq_false_iff.mp hother)
  · rintro h ⟨member, j⟩ hmem
    obtain ⟨hmember, hparsable⟩ := mem_parsableMembers_iff.mp hmem
    rw [beq_eq_false_iff_ne]
    rintro rfl
    rw [h member hmember] at hparsable
    cases hparsable

end ConceptType

namespace Model

variable {m : Model} {c : ConceptType}

/-! ### The order of the parameters -/

/-- If keys come first, a list is its keys and then the others. -/
theorem keys_append_others {α : Type} {isKey : α → Bool} {l : List α}
    (h : l.Pairwise fun a b => isKey b = true → isKey a = true) :
    l.filter isKey ++ l.filter (fun a => !isKey a) = l := by
  induction l with
  | nil => rfl
  | cons a l ih =>
    obtain ⟨hfirst, hrest⟩ := List.pairwise_cons.mp h
    cases hkey : isKey a with
    | true =>
      rw [List.filter_cons_of_pos hkey, List.filter_cons_of_neg (by simp [hkey]), List.cons_append,
        ih hrest]
    | false =>
      -- Behind one that is no key there is none.
      have hnone : l.filter isKey = [] := by
        rw [List.filter_eq_nil_iff]
        intro b hb hisKey
        rw [hfirst b hb hisKey] at hkey
        cases hkey
      have hall : l.filter (fun a => !isKey a) = l := by
        have hparts := ih hrest
        rwa [hnone, List.nil_append] at hparts
      rw [List.filter_cons_of_neg (by simp [hkey]), List.filter_cons_of_pos (by simp [hkey]), hnone,
        hall, List.nil_append]

/-- The labels of keys and then of other members are those of the parameters, in
their order. This needs the keys to come first, as in an accepted model. -/
theorem keyLabels_append_otherLabels (hm : m.Accepted) (hc : c ∈ m.types) :
    m.keyLabels c ++ m.otherLabels c = m.parameters c := by
  have hfirst : c.numbered.Pairwise fun a b => b.1.isKey = true → a.1.isKey = true := by
    have hmembers := hm.keysFirst hc
    rwa [KeysFirst, ← List.zipIdx_map_fst 0 c.members, List.pairwise_map] at hmembers
  have hparts : c.parsableMembers.filter (·.1.isKey) ++ c.parsableMembers.filter (!·.1.isKey)
      = c.parsableMembers := keys_append_others (hfirst.filter _)
  rw [keyLabels, otherLabels, parameters, ← List.map_append, hparts]

/-- There are as many labels of keys as parsable keys. -/
theorem length_keyLabels (m : Model) (c : ConceptType) :
    (m.keyLabels c).length = c.members.countP fun a => a.isKey && a.isParsable := by
  have hcount := List.countP_map (p := fun a : Member => a.isKey && a.isParsable) (f := Prod.fst)
    (l := c.members.zipIdx)
  rw [List.zipIdx_map_fst] at hcount
  rw [keyLabels, List.length_map, ConceptType.parsableMembers, List.filter_filter,
    ← List.countP_eq_length_filter, hcount]
  rfl

/-! ### What a signature prints -/

/-- Texts with a separator between them are the first one and then the others,
each behind the separator. -/
theorem joinWith_cons (separator a : String) (rest : List String) :
    joinWith separator (a :: rest) = a ++ String.join (rest.map (separator ++ ·)) := by
  induction rest generalizing a with
  | nil => rw [joinWith, List.map_nil, String.join_nil, String.append_empty]
  | cons b rest ih =>
    rw [joinWith, ih, List.map_cons, String.join_cons]
    simp only [String.append_assoc]

/-- Labels as a signature prints them, if so many of them are keys: a dot
between two keys, and a space in front of all others. -/
def printed (keys : Nat) (labels : List String) : String :=
  String.join (labels.mapIdx fun i label => (if 0 < i ∧ i < keys then "." else " ") ++ label)

/-- A map that looks at places is an ordinary one if it does the same at each
place of the list. -/
theorem mapIdx_eq_map {α β : Type} {f : Nat → α → β} {g : α → β} {l : List α}
    (h : ∀ i < l.length, ∀ a, f i a = g a) : l.mapIdx f = l.map g := by
  refine List.ext_getElem (by rw [List.length_mapIdx, List.length_map]) fun i hi _ => ?_
  rw [List.getElem_mapIdx, List.getElem_map, h i (by rwa [List.length_mapIdx] at hi)]

/-- The others follow the keys. -/
theorem printed_append (keys others : List String) :
    printed keys.length (keys ++ others)
      = printed keys.length keys ++ String.join (others.map (" " ++ ·)) := by
  have hspaces : others.mapIdx (fun i label =>
      (if 0 < i + keys.length ∧ i + keys.length < keys.length then "." else " ") ++ label)
        = others.map (" " ++ ·) :=
    mapIdx_eq_map fun i _ label => by rw [if_neg (by omega)]
  rw [printed, List.mapIdx_append, String.join_append, hspaces]
  rfl

/-- If all labels are those of keys, a signature prints a space and the
labels with dots between them. -/
theorem printed_keys (key : String) (keys : List String) :
    printed (key :: keys).length (key :: keys) = " " ++ joinWith "." (key :: keys) := by
  have hdots : keys.mapIdx (fun i label =>
      (if 0 < i + 1 ∧ i + 1 < (key :: keys).length then "." else " ") ++ label)
        = keys.map ("." ++ ·) :=
    mapIdx_eq_map fun i hi label => by
      rw [if_pos ⟨Nat.succ_pos i, Nat.succ_lt_succ hi⟩]
  rw [printed, List.mapIdx_cons, String.join_cons, if_neg (by omega), joinWith_cons, hdots,
    String.append_assoc]

/-- The signature of a type is its name and the labels of the parameters,
printed with as many keys as there are parsable ones. -/
theorem signature_eq_printed (hm : m.Accepted) (hc : c ∈ m.types) :
    m.signature c = c.shownName
      ++ printed (c.members.countP fun a => a.isKey && a.isParsable) (m.parameters c) := by
  rw [← length_keyLabels m c, ← keyLabels_append_otherLabels hm hc, printed_append, signature,
    joinWith_cons, List.map_append, String.join_append]
  cases m.keyLabels c with
  | nil => rfl
  | cons key keys =>
    rw [printed_keys]
    simp

/-- A signature prints the labels of the keys and then those of the others, and
these are the parameters in order. The place of a parsable member is where its
label stands among the parameters, and nothing else has a place. -/
theorem signature_and_parameters_agree (hm : m.Accepted) (hc : c ∈ m.types) :
    m.keyLabels c ++ m.otherLabels c = m.parameters c
      ∧ m.signature c = c.shownName
        ++ printed (c.members.countP fun a => a.isKey && a.isParsable) (m.parameters c)
      ∧ (∀ i member, c.members[i]? = some member → member.isParsable = true →
        ∃ place, c.parsablePlace i = some place
          ∧ (m.parameters c)[place]? = some (m.parameterLabel member))
      ∧ ∀ i, c.parsablePlace i = none
        ↔ ∀ member, c.members[i]? = some member → member.isParsable = false := by
  refine ⟨keyLabels_append_otherLabels hm hc, signature_eq_printed hm hc,
    fun i member hmember hparsable => ?_, fun i => ConceptType.parsablePlace_eq_none_iff⟩
  obtain ⟨place, hplace, hat⟩ := ConceptType.parsablePlace_of_mem
    (ConceptType.mem_parsableMembers_iff.mpr ⟨hmember, hparsable⟩)
  exact ⟨place, hplace, by rw [parameters, List.getElem?_map, hat]; rfl⟩

/-- An index of a table. Of its keys and of its other members one each is not
parsable. -/
def indexType : ConceptType :=
  ⟨1, "IndexInfo", some "Index", [],
    [⟨"Table", .concept 0, true, true, false⟩, ⟨"Id", .text, true, false, false⟩,
      ⟨"Name", .text, true, true, false⟩, ⟨"Hidden", .text, false, false, false⟩,
      ⟨"Order", .choice ["Asc", "Desc"], false, true, false⟩], none⟩

/-- Tables and their indices. -/
def indexModel : Model :=
  ⟨"1", [⟨0, "TableInfo", some "Table", [], [⟨"Name", .text, true, true, false⟩], none⟩, indexType]⟩

/-- The model of tables and indices is accepted: it is what its declaration
is resolved to. -/
theorem accepted_indexModel : indexModel.Accepted :=
  ⟨⟨"1", [⟨"TableInfo", some "Table", [], none, [⟨"Name", .text, true, true, false⟩]⟩,
    ⟨"IndexInfo", some "Index", [], none,
      [⟨"Table", .concept "TableInfo", true, true, false⟩, ⟨"Id", .text, true, false, false⟩,
        ⟨"Name", .text, true, true, false⟩, ⟨"Hidden", .text, false, false, false⟩,
        ⟨"Order", .choice ["Asc", "Desc"], false, true, false⟩]⟩]⟩, rfl⟩

/-- The member `Order` is the third parameter, though it is the fifth member,
and `Hidden` is none. -/
theorem index_signature_and_parameters :
    indexModel.signature indexType = "Index <Table: TableInfo>.<Name: String> <Order: Asc|Desc>"
      ∧ (∃ place, indexType.parsablePlace 4 = some place
        ∧ (indexModel.parameters indexType)[place]? = some "<Order: Asc|Desc>")
      ∧ indexType.parsablePlace 3 = none := by
  obtain ⟨-, hsignature, hplaces, hnone⟩ :=
    signature_and_parameters_agree accepted_indexModel (c := indexType) (by decide)
  refine ⟨?_, hplaces 4 _ rfl rfl, (hnone 3).mpr ?_⟩
  · rw [hsignature]
    decide
  · rintro member hmember
    cases hmember
    rfl

end Model

end ConceptScript
