import ConceptScript.Proofs.Model.Ancestors
import ConceptScript.Proofs.Script.Blocks
import ConceptScript.Proofs.Script.Derivation
import ConceptScript.Proofs.Script.ParseStep

/-!
# `ConceptScript.Proofs.Script.Typing`: concepts fit their types

A concept that was read has a slot for each member of its type, and what a
slot holds fits its member: `Node.WellTyped`. A concept stands in a slot
for one of two reasons. It is the one whose block the statement stands in,
or it was named by its keys, which then fit their members by the same rule:
`IsReference`.

* `Reference.isReference`: a reference of the grammar is one of these, by
  recursion over its derivation.
* `Head.wellTyped`: a head fits its type.
* `parse_wellTyped`: so do all concepts of a script, each in the blocks that
  are open where its statement starts.
-/

set_option autoImplicit false

namespace ConceptScript

open ConceptScript.Model (TypeId Member)

namespace Script

variable {m : Model}

/-! ### Slots and the members they belong to -/

mutual

/-- A concept that refers to one of a type by its keys: of its slots those
of the keys are filled. -/
inductive IsReference (m : Model) : TypeId → Node → Prop
  | keys {d : TypeId} {slots : List Slot} (isType : d < m.types.length)
      (each : List.Forall₂ (fun member slot => SlotFits m none member member.isKey slot)
        (m.typeAt d).members slots) :
      IsReference m d (.mk d slots)

/-- What is in the slot of a member, told which concept may come from the
block around. The flag tells whether the slot is filled. -/
inductive SlotFits (m : Model) : Option Node → Member → Bool → Slot → Prop
  | empty {inBlock : Option Node} {member : Member} : SlotFits m inBlock member false .empty
  | text {inBlock : Option Node} {member : Member} {value : String}
      (plain : member.value.isConcept = false) : SlotFits m inBlock member true (.text value)
  | anyConcept {inBlock : Option Node} {member : Member} {n : Node}
      (isAny : member.value = .anyConcept) (fromBlock : inBlock = some n) :
      SlotFits m inBlock member true (.node n)
  | nested {inBlock : Option Node} {member : Member} {d : TypeId} {n : Node}
      (isConcept : member.value = .concept d) (fromBlock : inBlock = some n)
      (fits : m.isAssignable n.type d = true) : SlotFits m inBlock member true (.node n)
  | reference {inBlock : Option Node} {member : Member} {d : TypeId} {n : Node}
      (isConcept : member.value = .concept d) (isReference : IsReference m d n)
      (fits : m.isAssignable n.type d = true) : SlotFits m inBlock member true (.node n)

end

/-- A concept whose slots fit the members of its type, one by one. Those of
the parsable members are filled. The parent member may be filled from the
innermost of some blocks. -/
structure Node.WellTyped (m : Model) (context : List Node) (n : Node) : Prop where
  isType : n.type < m.types.length
  each : List.Forall₂ (fun (member, index) slot =>
      SlotFits m (nestedFor (m.typeAt n.type) context index) member member.isParsable slot)
    (m.typeAt n.type).numbered n.slots

/-! ### References -/

/-- Members that refer to types of the model. -/
def ReferTo (m : Model) (members : List Member) : Prop :=
  ∀ member ∈ members, ∀ d, member.value = .concept d → d < m.types.length

/-- The members of a type of an accepted model refer to types of the model. -/
theorem referTo_typeAt (hm : m.Accepted) (d : TypeId) : ReferTo m (m.typeAt d).members := by
  rcases m.typeAt_mem_or d with hmem | hblank
  · exact fun _ hmember _ hvalue => hm.reference_lt hmem hmember hvalue
  · rw [hblank]
    exact fun _ hmember => absurd hmember List.not_mem_nil

/-- A reference to a type is of this type. -/
theorem IsReference.type_eq {d : TypeId} {n : Node} (h : IsReference m d n) : n.type = d := by
  cases h
  rfl

mutual

/-- Tokens that the grammar has for a reference give a reference to the type.
Mutual induction with keys and their values. -/
theorem Reference.isReference (hm : m.Accepted) {d : TypeId} {words : List Token} {n : Node}
    (hd : d < m.types.length) : Reference m d words n → IsReference m d n
  | .keys keys => .keys hd (keys.fits hm (referTo_typeAt hm d))

/-- The values of the keys of a reference fit these keys, and other members
are left empty. -/
theorem Keys.fits (hm : m.Accepted) {later : Bool} {members : List Member} {words : List Token}
    {slots : List Slot} (hmembers : ReferTo m members) : Keys m later members words slots →
      List.Forall₂ (fun member slot => SlotFits m none member member.isKey slot) members slots
  | .nil => .nil
  | .other notKey tail =>
    .cons (notKey ▸ .empty) (tail.fits hm (List.forall_mem_cons.mp hmembers).2)
  | .key isKey _ value tail =>
    .cons (isKey ▸ value.fits hm (List.forall_mem_cons.mp hmembers).1)
      (tail.fits hm (List.forall_mem_cons.mp hmembers).2)

/-- The value of a key fits the key. -/
theorem KeyValue.fits (hm : m.Accepted) {member : Member} {own : List Token} {slot : Slot}
    (hmember : ∀ d, member.value = .concept d → d < m.types.length) :
    KeyValue m member own slot → SlotFits m none member true slot
  | .text plain _ => .text plain
  | .reference isConcept reference =>
    have isReference := reference.isReference hm (hmember _ isConcept)
    .reference isConcept isReference (isReference.type_eq ▸ m.isAssignable_self _)

end

/-! ### Heads -/

/-- The value of a member fits the member. A concept from the block around
fits if it can stand for the type asked for. -/
theorem MemberValue.fits (hm : m.Accepted) {member : Member} {parent : Option Node}
    {own : List Token} {slot : Slot} {isReference : Bool}
    (hmember : ∀ d, member.value = .concept d → d < m.types.length)
    (h : MemberValue m member parent own slot isReference) : SlotFits m parent member true slot := by
  cases h with
  | text isText _ => exact .text (by rw [isText]; rfl)
  | choice isChoice _ _ => exact .text (by rw [isChoice]; rfl)
  | anyConcept isAny nested => exact .anyConcept isAny nested
  | nested isConcept nested fits => exact .nested isConcept nested fits
  | reference isConcept _ reference =>
    have href := reference.isReference hm (hmember _ isConcept)
    exact .reference isConcept href (href.type_eq ▸ m.isAssignable_self _)

/-- The slots of the members from an index on. -/
theorem Members.fits (hm : m.Accepted) {c : ConceptType} {context : List Node}
    {afterReference : Bool} {index : Nat} {members : List Member} {words : List Token}
    {slots : List Slot} (hmembers : ReferTo m members)
    (h : Members m c context afterReference index members words slots) :
    List.Forall₂ (fun (member, index) slot =>
        SlotFits m (nestedFor c context index) member member.isParsable slot)
      (members.zipIdx index) slots := by
  induction h with
  | nil => exact .nil
  | @unparsable _ index member _ _ _ unparsable _ ih =>
    have hslot : SlotFits m (nestedFor c context index) member member.isParsable .empty :=
      unparsable ▸ .empty
    exact .cons hslot (ih (List.forall_mem_cons.mp hmembers).2)
  | @parsable _ _ index member _ _ _ _ slot _ parsable _ value _ ih =>
    obtain ⟨hmember, hrest⟩ := List.forall_mem_cons.mp hmembers
    have hslot : SlotFits m (nestedFor c context index) member member.isParsable slot :=
      parsable ▸ value.fits hm hmember
    exact .cons hslot (ih hrest)

/-- A head gives a well-typed concept. -/
theorem Head.wellTyped (hm : m.Accepted) {context : List Node} {tokens rest : List Token}
    {n : Node} (h : Head m context tokens n rest) : n.WellTyped m context := by
  cases h with
  | @longest c _ _ _ _ _ _ mem head _ =>
    cases head with
    | mk _ _ members =>
      have hc : c ∈ m.types := List.mem_of_mem_filter mem
      have htype : m.typeAt c.id = c := hm.typeAt_id hc
      have hslots := members.fits hm fun _ hmember _ hvalue => hm.reference_lt hc hmember hvalue
      refine ⟨hm.id_lt hc, ?_⟩
      show List.Forall₂ _ (m.typeAt c.id).numbered _
      rw [Node.type, htype]
      exact hslots

/-! ### Scripts -/

/-- Each concept of a script fits its type, in the blocks that are open
where its statement starts. These are blocks of concepts before it. -/
theorem parse_wellTyped (hm : m.Accepted) {tokens : List Token} {nodes : List Node}
    (h : (parse m tokens).result = .ok nodes) {i : Nat} {n : Node} (hi : nodes[i]? = some n) :
    ∃ before s after, (parse m tokens).events = before ++ .statement s :: after
      ∧ (starts before).length = i
      ∧ (∀ outer ∈ openConcepts (readBraces before), outer ∈ nodes.take i)
      ∧ n.WellTyped m (openConcepts (readBraces before)) := by
  obtain ⟨before, s, after, next, hevents, _, hstarts, hmem, hread⟩ :=
    exists_statement_of_getElem? h hi
  rw [stackAfter_nil] at hmem hread
  obtain ⟨_, head⟩ := (readStatement_eq_ok_iff hm).mp hread
  exact ⟨before, s, after, hevents, hstarts,
    fun outer houter => (hmem outer houter).resolve_left List.not_mem_nil, head.wellTyped hm⟩

/-- The entity in the block of its module: its parent member is filled with
the module. -/
theorem parse_wellTyped_in_block :
    ∃ before s after, (parse moduleModel (moduleTokens ++ [.endAt 34])).events
        = before ++ .statement s :: after
      ∧ (starts before).length = 1
      ∧ (∀ outer ∈ openConcepts (readBraces before), outer = .mk 0 [.text "A"])
      ∧ (Node.mk 1 [.node (.mk 0 [.text "A"]), .text "B"]).WellTyped moduleModel
        (openConcepts (readBraces before)) := by
  have hparse : (parse moduleModel (moduleTokens ++ [.endAt 34])).result
      = .ok [.mk 0 [.text "A"], .mk 1 [.node (.mk 0 [.text "A"]), .text "B"],
        .mk 1 [.node (.mk 0 [.text "A"]), .text "C"]] := by
    rw [parse, parseFrom_of_ok rfl rfl rfl, parseFrom_of_ok rfl rfl rfl,
      parseFrom_of_ok rfl rfl rfl, parseFrom_of_atEnd rfl]
    rfl
  obtain ⟨before, s, after, hevents, hstarts, hmem, hfits⟩ :=
    parse_wellTyped accepted_moduleModel hparse (i := 1) rfl
  exact ⟨before, s, after, hevents, hstarts,
    fun outer houter => List.mem_singleton.mp (hmem outer houter), hfits⟩

end Script

end ConceptScript
