import ConceptScript.Model.Nesting
import ConceptScript.Proofs.Model.Ancestors

/-!
# `ConceptScript.Proofs.Model.Nesting`: nesting along base types

A type is a valid child of another when its parent member takes it
(`mem_validChildren_iff`). A member that takes a type takes every type
that is derived from it, however many base types lie between
(`Member.Takes.of_isAssignable`). So what can stand in a block of a type
can stand in a block of each type derived from it. The one exception is
the type of the block itself.
-/

set_option autoImplicit false

namespace ConceptScript.Model

/-- Whether a member can be filled with a concept of a type. -/
def Member.Takes (m : Model) (member : Member) (actual : TypeId) : Prop :=
  member.value = .anyConcept ∨
    ∃ declared, member.value = .concept declared ∧ m.isAssignable actual declared = true

/-- A valid child has a parent member that takes the parent. -/
theorem mem_validChildren_iff {m : Model} {c : ConceptType} {parent : TypeId} :
    c ∈ m.validChildren parent ↔ c ∈ m.types ∧ c.id ≠ parent
      ∧ ∃ member index, c.parentMember? = some (member, index) ∧ member.Takes m parent := by
  have haccepts : acceptsParent c (m.assignableTo parent) = true ↔
      ∃ member index, c.parentMember? = some (member, index) ∧ member.Takes m parent := by
    unfold acceptsParent
    cases c.parentMember? with
    | none => simp
    | some found =>
      obtain ⟨⟨name, value, isKey, isParsable, isParentNested⟩, index⟩ := found
      cases value <;> simp [Member.Takes, isAssignable]
  simp [validChildren, haccepts]

/-- The parent member stands at its index. -/
theorem getElem?_of_parentMember? {c : ConceptType} {member : Member} {index : Nat}
    (h : c.parentMember? = some (member, index)) : c.members[index]? = some member := by
  unfold ConceptType.parentMember? at h
  split at h
  · next found hfound =>
    cases h
    exact List.mk_mem_zipIdx_iff_getElem?.mp (List.mem_of_find?_eq_some hfound)
  · split at h
    · next first rest hmembers =>
      split at h
      · cases h
        rw [hmembers]
        rfl
      · cases h
    · cases h

/-- A type can stand for all that its base types can stand for. -/
theorem isAssignable_trans {m : Model} {a b c : TypeId} (hab : m.isAssignable a b = true)
    (hbc : m.isAssignable b c = true) : m.isAssignable a c = true := by
  rw [isAssignable_iff] at hab hbc ⊢
  exact hab.trans hbc

/-- What a member takes, it takes from each type derived from that. -/
theorem Member.Takes.of_isAssignable {m : Model} {member : Member} {actual base : TypeId}
    (h : member.Takes m base) (hderived : m.isAssignable actual base = true) :
    member.Takes m actual := by
  rcases h with hany | ⟨declared, hconcept, hfits⟩
  · exact .inl hany
  · exact .inr ⟨declared, hconcept, isAssignable_trans hderived hfits⟩

/-- The search along base types ends in every model, after at most as many
rounds as there are base types, circles or not. One type is assignable to
another if and only if base types lead there, in any number of steps. And
nesting is inherited: a valid child of a type is one of every other type
that is assignable to it. -/
theorem isAssignable_iff_and_validChildren_inherited (m : Model) :
    (∀ id, ∃ rounds ≤ (m.types.flatMap (·.baseTypes)).length,
      BaseSearch.Ends m id (BaseSearch.start m id) rounds (m.ancestors id))
    ∧ (∀ a d, m.isAssignable a d = true ↔ Relation.ReflTransGen m.HasBase a d)
    ∧ ∀ c p q, c ∈ m.validChildren p → m.isAssignable q p = true → q ≠ c.id →
      c ∈ m.validChildren q := by
  refine ⟨BaseSearch.ends_ancestors m, fun a d => isAssignable_iff m, ?_⟩
  intro c p q hchild hderived hother
  obtain ⟨htype, -, member, index, hparent, htakes⟩ := mem_validChildren_iff.mp hchild
  have htakes' : member.Takes m q := htakes.of_isAssignable hderived
  exact mem_validChildren_iff.mpr ⟨htype, hother.symm, member, index, hparent, htakes'⟩

/-- Two types with each other as base types, a third one derived from both,
and a fourth whose parent member is of the first type. -/
def paperModel : Model :=
  let inner : Member := ⟨"Of", .concept 0, true, true, false⟩
  ⟨"1", [⟨0, "Text", none, [1], [], none⟩, ⟨1, "Print", none, [0], [], none⟩,
    ⟨2, "Book", none, [0, 1], [], none⟩, ⟨3, "Paper", some "Paper", [], [inner], none⟩]⟩

/-- A paper can be nested in a text, and so in a book, which is a kind of
text. Texts and prints are base types of each other, so the search for base
types meets some of them again. -/
theorem paper_in_book :
    (∃ c ∈ paperModel.validChildren 0, c.id = 3) ∧ paperModel.isAssignable 2 0 = true
      ∧ paperModel.isAssignable 0 2 = false ∧ ∃ c ∈ paperModel.validChildren 2, c.id = 3 := by
  have hall := isAssignable_iff_and_validChildren_inherited paperModel
  have hchild : (paperModel.typeAt 3) ∈ paperModel.validChildren 0 := by decide
  have hderived : paperModel.isAssignable 2 0 = true :=
    (hall.2.1 2 0).mpr (.single (show (0 : TypeId) ∈ [0, 1] from by decide))
  have hinherited := hall.2.2 _ 0 2 hchild hderived (by decide)
  exact ⟨⟨_, hchild, rfl⟩, hderived, by decide, ⟨_, hinherited, rfl⟩⟩

end ConceptScript.Model
