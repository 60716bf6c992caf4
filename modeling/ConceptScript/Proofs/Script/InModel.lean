import ConceptScript.Proofs.Script.ReferenceDepth
import ConceptScript.Proofs.Script.Typing
import ConceptScript.Proofs.Script.Upheld

/-!
# `ConceptScript.Proofs.Script.InModel`: no reading leaves the model

A model stands in with an empty type where it has none under an id, and it
bounds how deep references are read. Neither shows while a script is read
with a model that loads, whatever the script is:

* `Node.InModel`: the types of a concept, and of all concepts in it, are
  types of the model.
* `upheld_of_accepted`: of all concepts that a parse builds this holds, no
  attempt fails at the bound, and all readers stand on the tokens of the
  script.

This is of every parse, also of one that fails, where a concept that was
read need not be one of a script.
-/

set_option autoImplicit false

namespace ConceptScript

open ConceptScript.Model (TypeId Member)

namespace Script

variable {m : Model}

/-- A concept of types of the model, as are those in it. -/
inductive Node.InModel (m : Model) : Node → Prop
  | mk {type : TypeId} {slots : List Slot} (isType : type < m.types.length)
      (inner : ∀ n, .node n ∈ slots → Node.InModel m n) : Node.InModel m (.mk type slots)

/-- Slots with concepts of the model alone. -/
def SlotsInModel (m : Model) (slots : List Slot) : Prop :=
  ∀ n, .node n ∈ slots → n.InModel m

/-- An empty list of slots is of the model. -/
theorem SlotsInModel.nil : SlotsInModel m [] := fun _ hn => absurd hn List.not_mem_nil

/-- A slot in front of slots of the model: if it holds a concept, this one
has to be of the model. -/
theorem SlotsInModel.cons {slot : Slot} {slots : List Slot}
    (hslot : ∀ n, slot = .node n → n.InModel m) (h : SlotsInModel m slots) :
    SlotsInModel m (slot :: slots) := by
  intro n hn
  rcases List.mem_cons.mp hn with heq | hn
  · exact hslot n heq.symm
  · exact h n hn

mutual

/-- A reference to a type of the model is a concept of the model, as its keys
are. -/
theorem Reference.inModel (hm : m.Accepted) {d : TypeId} {words : List Token} {n : Node}
    (hd : d < m.types.length) : Reference m d words n → n.InModel m
  | .keys keys => .mk hd (keys.inModel hm (referTo_typeAt hm d))

/-- The keys of a reference are concepts of the model, since they refer to
types of it. -/
theorem Keys.inModel (hm : m.Accepted) {later : Bool} {members : List Member}
    {words : List Token} {slots : List Slot} (hmembers : ReferTo m members) :
    Keys m later members words slots → SlotsInModel m slots
  | .nil => .nil
  | .other _ tail =>
    .cons (fun _ heq => (by cases heq)) (tail.inModel hm (List.forall_mem_cons.mp hmembers).2)
  | .key _ _ value tail =>
    .cons (value.inModel hm (List.forall_mem_cons.mp hmembers).1)
      (tail.inModel hm (List.forall_mem_cons.mp hmembers).2)

/-- The value of a key is a concept of the model, if it is a concept. -/
theorem KeyValue.inModel (hm : m.Accepted) {member : Member} {own : List Token} {slot : Slot}
    (hmember : ∀ d, member.value = .concept d → d < m.types.length) :
    KeyValue m member own slot → ∀ n, slot = .node n → n.InModel m
  | .text _ _, _, heq => by cases heq
  | .reference isConcept reference, _, heq => by
    cases heq
    exact reference.inModel hm (hmember _ isConcept)

end

/-- The value of a member is a concept of the model, if it is one. It may
come from the block around. -/
theorem MemberValue.inModel (hm : m.Accepted) {member : Member} {parent : Option Node}
    {own : List Token} {slot : Slot} {isReference : Bool}
    (hmember : ∀ d, member.value = .concept d → d < m.types.length)
    (hparent : ∀ n, parent = some n → n.InModel m)
    (h : MemberValue m member parent own slot isReference) :
    ∀ n, slot = .node n → n.InModel m := by
  intro n hslot
  cases h with
  | text _ _ => cases hslot
  | choice _ _ _ => cases hslot
  | anyConcept _ nested =>
    cases hslot
    exact hparent n nested
  | nested _ nested _ =>
    cases hslot
    exact hparent n nested
  | reference isConcept _ reference =>
    cases hslot
    exact reference.inModel hm (hmember _ isConcept)

/-- The values of the members of a head are concepts of the model, if those
of the blocks are. -/
theorem Members.inModel (hm : m.Accepted) {c : ConceptType} {context : List Node}
    {afterReference : Bool} {index : Nat} {members : List Member} {words : List Token}
    {slots : List Slot} (hmembers : ReferTo m members)
    (hcontext : ∀ outer ∈ context, outer.InModel m)
    (h : Members m c context afterReference index members words slots) :
    SlotsInModel m slots := by
  induction h with
  | nil => exact .nil
  | unparsable _ _ ih =>
    exact .cons (fun _ heq => (by cases heq)) (ih (List.forall_mem_cons.mp hmembers).2)
  | @parsable _ _ index _ _ _ _ _ _ _ _ _ value _ ih =>
    obtain ⟨hmember, hrest⟩ := List.forall_mem_cons.mp hmembers
    have hparent : ∀ n, nestedFor c context index = some n → n.InModel m := by
      intro n hn
      unfold nestedFor at hn
      split at hn
      · exact hcontext n (List.mem_of_mem_head? hn)
      · cases hn
    exact .cons (value.inModel hm hmember hparent) (ih hrest)

open Reading in
/-- No member is read so deep that the bound on references shows. -/
theorem neverTooDeep_readMember (hm : m.Accepted) {c : ConceptType} (hc : c ∈ m.types)
    {member : Member} (hmember : member ∈ c.members) (parent : Option Node)
    (afterReference : Bool) : NeverTooDeep (readMember m c member parent afterReference) := by
  refine (neverTooDeep_dotIf _ fun _ heq => (by cases heq)).bind fun _ => ?_
  unfold readValue
  split
  · exact neverTooDeep_textToken.bind fun _ => failsFor_pure _
  · refine neverTooDeep_textToken.bind fun _ => ?_
    split
    · exact failsFor_pure _
    · exact failsFor_fail fun _ heq => (by cases heq)
  · split
    · exact failsFor_pure _
    · exact failsFor_fail fun _ heq => (by cases heq)
  · next declared hvalue =>
    split
    · exact failsFor_pure _
    · have hdeclared := hm.reference_lt hc hmember hvalue
      exact (neverTooDeep_readReference hm hdeclared).bind fun _ => failsFor_pure _

/-- A parse with a model that loads stays on its tokens and in the model,
and the bound on references never shows. -/
theorem upheld_of_accepted (hm : m.Accepted) (tokens : List Token) :
    Upheld m (Reader.On tokens) (fun why => ∀ typeName, why ≠ .endlessReference typeName)
      (Node.InModel m) where
  advance _ := Reader.On.advance
  keyword _ _ heq := by cases heq
  member _ hc _ hmember parent afterReference :=
    neverTooDeep_readMember hm hc hmember parent afterReference
  node c hc context r n hcontext hresult := by
    obtain ⟨_, hhead, _⟩ := (interpret_eq_ok_iff hm hc).mp ⟨hresult, rfl⟩
    cases hhead with
    | mk _ _ members =>
      exact .mk (hm.id_lt hc)
        (members.inModel hm (fun _ hmember _ hvalue => hm.reference_lt hc hmember hvalue) hcontext)

end Script

end ConceptScript
