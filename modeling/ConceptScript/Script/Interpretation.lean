import ConceptScript.Model.Ancestors
import ConceptScript.Script.Node
import ConceptScript.Script.Reading

/-!
# `ConceptScript.Script.Interpretation`: a statement as one type

A statement read as a certain type is the keyword of the type followed by
its parsable members in order. A member that is a concept is written as a
reference, that is, as the keys of that concept joined by dots. One
member, the parent member, is not written when the statement stands in a
block of a fitting concept: it is that concept.

Directly after a reference that is a key, a key that is a text needs a
dot before it.

Reading a member is watched: every attempt leaves an event, the last one
of a failed interpretation included.
-/

set_option autoImplicit false

namespace ConceptScript.Script

open ConceptScript.Text
open ConceptScript.Model (TypeId Member)

/-- An attempt to read a member: where the reader was afterwards, which
member of which type it was, and what came of it. -/
structure MemberEvent where
  reader : Reader
  type : TypeId
  index : Nat
  value : Except Mismatch Slot

/-- What came of reading a statement as a certain type. -/
structure Interpretation where
  events : List MemberEvent
  result : Except Mismatch Node
  reader : Reader

/-- Reads a key of a referenced concept. A key that is itself a concept
is read by `reference`. -/
def readKey (reference : TypeId → Reading Node) (typeName : String) (member : Member) :
    Reading Slot :=
  match member.value with
  | .text | .choice _ => do
    let token ← Reading.textToken
    pure (.text token.value)
  | .concept inner => do
    let node ← reference inner
    pure (.node node)
  | .anyConcept => Reading.fail (.notReferable typeName member.name)

/-- Reads the keys of a type as slots for all its members. Keys are
separated by dots; `later` tells whether a key has been read already. -/
def readKeys (reference : TypeId → Reading Node) (typeName : String) :
    Bool → List Member → Reading (List Slot)
  | _, [] => pure []
  | later, member :: rest =>
    if member.isKey then do
      Reading.dotIf later (.expectedDotBetweenKeys typeName)
      let slot ← readKey reference typeName member
      let slots ← readKeys reference typeName true rest
      pure (slot :: slots)
    else do
      let slots ← readKeys reference typeName later rest
      pure (.empty :: slots)

/-- Reads a reference to a concept of a type: its keys. The depth bounds
how many types keys may lead through. -/
def readReferenceWithin (m : Model) : Nat → TypeId → Reading Node
  | 0, type => Reading.fail (.endlessReference (m.typeAt type).typeName)
  | depth + 1, type => do
    let c := m.typeAt type
    let slots ← readKeys (readReferenceWithin m depth) c.typeName false c.members
    pure (.mk type slots)

/-- Reads a reference to a concept of a type. In a model that loaded no
keys lead back to their type, so they lead through each type at most
once. -/
def readReference (m : Model) (type : TypeId) : Reading Node :=
  readReferenceWithin m m.types.length type

/-- Reads the value of a member. `parent` is the concept whose block the
statement stands in, if the member may be filled from it. The answer also
tells whether the value is a key given by a reference. -/
def readValue (m : Model) (c : ConceptType) (member : Member) (parent : Option Node) :
    Reading (Slot × Bool) :=
  match member.value with
  | .text => do
    let token ← Reading.textToken
    pure (.text token.value, false)
  | .choice values => do
    let token ← Reading.textToken
    match values.find? (sameIgnoringAsciiCase · token.value) with
    | some value => pure (.text value, false)
    | none => Reading.fail (.invalidValue token.value member.name values)
  | .anyConcept =>
    match parent with
    | some node => pure (.node node, false)
    | none => Reading.fail (.notNested c.shownName member.name)
  | .concept declared =>
    match parent.filter (fun node => m.isAssignable node.type declared) with
    | some node => pure (.node node, false)
    | none => do
      let node ← readReference m declared
      pure (.node node, member.isKey)

/-- Whether a member needs a dot before it, told whether the member
before it was a key given by a reference. -/
def needsDot (member : Member) (afterReference : Bool) : Bool :=
  afterReference && member.isKey && !member.value.isConcept

/-- Reads a member with the dot it may need before it. -/
def readMember (m : Model) (c : ConceptType) (member : Member) (parent : Option Node)
    (afterReference : Bool) : Reading (Slot × Bool) := do
  Reading.dotIf (needsDot member afterReference) (.expectedDotAfterParent member.name c.typeName)
  readValue m c member parent

/-- What came of reading some members of a type. -/
structure MembersRead where
  events : List MemberEvent
  result : Except Mismatch (List Slot)
  reader : Reader

/-- Reads the members of a type from a given index on, as slots for all
of them. `parent` is the concept whose block the statement stands in. -/
def readMembers (m : Model) (c : ConceptType) (parent : Option Node) :
    Bool → Nat → List Member → Reader → MembersRead
  | _, _, [], r => ⟨[], .ok [], r⟩
  | afterReference, index, member :: rest, r =>
    if member.isParsable then
      let nested := if c.parentMember?.map (·.2) = some index then parent else none
      match readMember m c member nested afterReference r with
      | (.error why, r') => ⟨[⟨r', c.id, index, .error why⟩], .error why, r'⟩
      | (.ok (slot, after), r') =>
        let others := readMembers m c parent after (index + 1) rest r'
        ⟨⟨r', c.id, index, .ok slot⟩ :: others.events, others.result.map (slot :: ·),
          others.reader⟩
    else
      let others := readMembers m c parent afterReference (index + 1) rest r
      ⟨others.events, others.result.map (.empty :: ·), others.reader⟩

/-- Reads a statement as a type. `context` holds the concepts whose
blocks the statement stands in, the innermost first. -/
def interpret (m : Model) (context : List Node) (c : ConceptType) (r : Reader) :
    Interpretation :=
  match r.tryReadKeyword c.shownName with
  | none => ⟨[], .error (.expectedKeyword c.shownName), r⟩
  | some r' =>
    let members := readMembers m c context.head? false 0 c.members r'
    ⟨members.events, members.result.map (.mk c.id), members.reader⟩

namespace Reading.Kept

variable {P : (α : Type) → Reading α → Prop} (hP : Kept P)

include hP

/-- Reading keys keeps what reading a reference and the parts of a reading
keep. Induction on the members, as `readKeys` reads them. -/
theorem readKeys {reference : TypeId → Reading Node} (h : ∀ type, P Node (reference type))
    (typeName : String) (later : Bool) (members : List Member) :
    P (List Slot) (readKeys reference typeName later members) := by
  have hkey : ∀ member, P Slot (readKey reference typeName member) := by
    intro member
    unfold readKey
    split
    · exact hP.map hP.textToken _
    · exact hP.map hP.textToken _
    · exact hP.map (h _) _
    · exact hP.fail fun _ heq => (by cases heq)
  induction members generalizing later with
  | nil => exact hP.pure _
  | cons member rest ih =>
    unfold Script.readKeys
    split
    · exact hP.bind (hP.dotIf _ fun _ heq => (by cases heq)) fun _ =>
        hP.bind (hkey member) fun _ => hP.map (ih true) _
    · exact hP.map (ih later) _

/-- Reading a reference is of this sort at any depth: the depth is what the
induction is on, and at no depth left the reading fails. -/
theorem readReferenceWithin (m : Model) (depth : Nat) (type : TypeId) :
    P Node (readReferenceWithin m depth type) := by
  induction depth generalizing type with
  | zero => exact hP.fail fun _ heq => (by cases heq)
  | succ depth ih => exact hP.map (hP.readKeys ih _ _ _) _

/-- Reading a value is put together from the same parts, for each kind of
value and with or without a block around. -/
theorem readValue (m : Model) (c : ConceptType) (member : Member) (parent : Option Node) :
    P (Slot × Bool) (readValue m c member parent) := by
  unfold Script.readValue
  split
  · exact hP.map hP.textToken _
  · refine hP.bind hP.textToken fun _ => ?_
    split
    · exact hP.pure _
    · exact hP.fail fun _ heq => (by cases heq)
  · split
    · exact hP.pure _
    · exact hP.fail fun _ heq => (by cases heq)
  · split
    · exact hP.pure _
    · exact hP.map (hP.readReferenceWithin m _ _) _

/-- What is kept by putting readings together holds of reading a member. -/
theorem readMember (m : Model) (c : ConceptType) (member : Member) (parent : Option Node)
    (afterReference : Bool) : P (Slot × Bool) (readMember m c member parent afterReference) :=
  hP.bind (hP.dotIf _ fun _ heq => (by cases heq)) fun _ => hP.readValue m c member parent

end Reading.Kept

/-- Reading a member moves forward, whether or not a dot has to come first. -/
theorem advancing_readMember (m : Model) (c : ConceptType) (member : Member)
    (parent : Option Node) (afterReference : Bool) :
    (readMember m c member parent afterReference).Advancing :=
  Reading.kept_advancing.readMember m c member parent afterReference

/-- Reading the members of a type moves forward, also where one of them
fails. -/
theorem leadsTo_readMembers (m : Model) (c : ConceptType) (parent : Option Node)
    (afterReference : Bool) (index : Nat) (members : List Member) (r : Reader) :
    r.LeadsTo (readMembers m c parent afterReference index members r).reader := by
  induction members generalizing afterReference index r with
  | nil => exact .refl r
  | cons member rest ih =>
    unfold readMembers
    split
    · dsimp only
      have hr := advancing_readMember m c member
        (if c.parentMember?.map (·.2) = some index then parent else none) afterReference r
      split
      · next why r' h =>
        rw [h] at hr
        exact hr
      · next slot after r' h =>
        rw [h] at hr
        exact hr.trans (ih after (index + 1) r')
    · exact ih afterReference (index + 1) r

/-- A statement that was read has at least its keyword. -/
theorem interpret_rest_length_lt {m : Model} {context : List Node} {c : ConceptType} {r : Reader}
    {n : Node} (h : (interpret m context c r).result = .ok n) :
    (interpret m context c r).reader.rest.length < r.rest.length := by
  unfold interpret at h ⊢
  split at h
  · cases h
  · next r' hr' =>
    have := (leadsTo_readMembers m c context.head? false 0 c.members r').rest_length_le
    have := Reader.tryReadKeyword_rest_length_lt hr'
    dsimp only
    omega

end ConceptScript.Script
