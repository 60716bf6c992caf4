import ConceptScript.Proofs.Model.Nesting
import ConceptScript.Proofs.Script.Typing

/-!
# `ConceptScript.Proofs.Script.NestedMember`: nesting, offered and read

The rule of nesting is there twice. `Model.validChildren` asks the model
which types can stand in a block of a type. The parser finds out while it
reads: at the parent member it takes the concept of the innermost block if
that fits, and reads a reference by keys if not.

`parentMember_taken_iff` says that the two agree. Take any place at which
reading a statement as a type comes to the parent member (`ComesTo`). The
member is filled from the block, and no token is read for it, if and only
if the type is a valid child of the type of the block.

A type is no valid child of itself, although a statement of a type can be
read in a block of the same type. So the types are different here.

Both sides come down to one condition on the parent member,
`Member.Takes`: for the query by `mem_validChildren_iff`, for the reader
by `readMember_of_takes` and `takes_of_readMember`. A reference that is
read instead is of the declared type itself, so it is never the concept of
a block that does not fit, also where it has no keys and reads nothing.
-/

set_option autoImplicit false

namespace ConceptScript

namespace Script

open ConceptScript.Model (TypeId Member mem_validChildren_iff getElem?_of_parentMember?)

variable {m : Model} {c : ConceptType} {context : List Node}

/-! ### One member -/

section

variable {member : Member} {n : Node} {r r' : Reader} {afterReference isReference : Bool}

/-- A member that takes the concept of a block needs no dot and no token. -/
theorem readMember_of_takes (h : member.Takes m n.type) (c : ConceptType) (afterReference : Bool)
    (r : Reader) :
    readMember m c member (some n) afterReference r = (.ok (.node n, false), r) := by
  have hdot : needsDot member afterReference = false := by
    rcases h with hvalue | ⟨declared, hvalue, _⟩ <;>
      simp [needsDot, hvalue, Model.ValueKind.isConcept]
  unfold readMember
  rw [hdot]
  show readValue m c member (some n) r = _
  unfold readValue
  rcases h with hvalue | ⟨declared, hvalue, hfits⟩
  · rw [hvalue]
    rfl
  · simp only [hvalue, Option.filter_some, hfits, if_true]
    rfl

/-- A member that was filled with the concept of a block takes it. -/
theorem takes_of_readMember (hm : m.Accepted)
    (hmember : ∀ target, member.value = .concept target → target < m.types.length)
    (h : readMember m c member (some n) afterReference r = (.ok (.node n, isReference), r')) :
    member.Takes m n.type := by
  obtain ⟨_, ⟨_, _, _, _, hvalue⟩, _⟩ := (accepts_readMember hm hmember _ _ _ _ _).mp h
  cases hvalue with
  | anyConcept isAny _ => exact .inl isAny
  | nested isConcept nested fits =>
    cases nested
    exact .inr ⟨_, isConcept, fits⟩
  | @reference _ declared _ isConcept notNested reference =>
    -- The reference is of the declared type, and a concept of that type fits.
    have htype := (reference.isReference hm (hmember declared isConcept)).type_eq
    have hfits := notNested n rfl
    rw [htype, m.isAssignable_self] at hfits
    cases hfits

end

/-! ### Members before and after -/

/-- Two changes of a result, one after the other. -/
theorem map_map {ε α β γ : Type} (x : Except ε α) (f : α → β) (g : β → γ) :
    (x.map f).map g = x.map fun a => g (f a) := by
  cases x <;> rfl

/-- Members that were read one after another have a slot each. The members
after them are read as they would be on their own, from where the reader
then is. -/
theorem readMembers_append {before : List Member} {afterReference : Bool} {index : Nat}
    {r : Reader} {slots : List Slot}
    (h : (readMembers m c context.head? afterReference index before r).result = .ok slots) :
    slots.length = before.length ∧ ∃ flag, ∀ rest,
      let first := readMembers m c context.head? afterReference index before r
      let others := readMembers m c context.head? flag (index + before.length) rest first.reader
      readMembers m c context.head? afterReference index (before ++ rest) r
        = ⟨first.events ++ others.events, others.result.map (slots ++ ·), others.reader⟩ := by
  -- Whether a reference was read last changes from member to member.
  induction before generalizing afterReference index r slots with
  | nil =>
    cases h
    refine ⟨rfl, afterReference, fun rest => ?_⟩
    show readMembers m c context.head? afterReference index rest r = _
    cases hall : readMembers m c context.head? afterReference index rest r with
    | mk events result reader => cases result <;> simp [readMembers, hall, Except.map]
  | cons member before ih =>
    cases hparsable : member.isParsable with
    | false =>
      rw [readMembers_unparsable hparsable] at h
      obtain ⟨others, hothers, rfl⟩ := map_eq_ok_iff.mp h
      obtain ⟨hlength, flag, hrest⟩ := ih hothers
      refine ⟨by simp [hlength], flag, fun rest => ?_⟩
      rw [List.cons_append, readMembers_unparsable hparsable, readMembers_unparsable hparsable]
      simp [hrest rest, map_map, Nat.add_assoc, Nat.add_comm 1]
    | true =>
      cases hstep : readMember m c member (nestedFor c context index) afterReference r with
      | mk value middle =>
        cases value with
        | error why =>
          rw [readMembers_error hparsable hstep] at h
          cases h
        | ok v =>
          rw [readMembers_ok hparsable hstep] at h
          obtain ⟨others, hothers, rfl⟩ := map_eq_ok_iff.mp h
          obtain ⟨hlength, flag, hrest⟩ := ih hothers
          refine ⟨by simp [hlength], flag, fun rest => ?_⟩
          rw [List.cons_append, readMembers_ok hparsable hstep, readMembers_ok hparsable hstep]
          simp [hrest rest, map_map, Nat.add_assoc, Nat.add_comm 1]

/-- Members leave events with the indices from the first one on, one for
each at most. -/
theorem index_of_mem_events {members : List Member} {afterReference : Bool} {index : Nat}
    {r : Reader} {e : MemberEvent}
    (h : e ∈ (readMembers m c context.head? afterReference index members r).events) :
    index ≤ e.index ∧ e.index < index + members.length := by
  induction members generalizing afterReference index r with
  | nil => exact absurd h List.not_mem_nil
  | cons member rest ih =>
    cases hparsable : member.isParsable with
    | false =>
      rw [readMembers_unparsable hparsable] at h
      have := ih h
      simp
      omega
    | true =>
      cases hstep : readMember m c member (nestedFor c context index) afterReference r with
      | mk value middle =>
        cases value with
        | error why =>
          rw [readMembers_error hparsable hstep] at h
          simp [List.mem_singleton.mp h]
        | ok v =>
          rw [readMembers_ok hparsable hstep] at h
          rcases List.mem_cons.mp h with rfl | h
          · simp
          · have := ih h
            simp
            omega

/-- Reading a statement as a type comes to the member with an index: the
keyword and all members before it were read, and the reader is at a
place. -/
def ComesTo (m : Model) (context : List Node) (c : ConceptType) (r : Reader) (index : Nat)
    (r' : Reader) : Prop :=
  ∃ start slots, r.tryReadKeyword c.shownName = some start
    ∧ (readMembers m c context.head? false 0 (c.members.take index) start).result = .ok slots
    ∧ (readMembers m c context.head? false 0 (c.members.take index) start).reader = r'

namespace ComesTo

variable {member : Member} {index : Nat} {r r' : Reader}

/-- A statement is read as the members before the one it comes to, and then
as that member and those after it. -/
theorem interpret_eq (h : ComesTo m context c r index r')
    (hmember : c.members[index]? = some member) :
    ∃ before slots afterReference, (∀ e ∈ before, e.index < index) ∧ slots.length = index
      ∧ let others := readMembers m c context.head? afterReference index
          (member :: c.members.drop (index + 1)) r'
        interpret m context c r = ⟨before ++ others.events,
          others.result.map fun more => .mk c.id (slots ++ more), others.reader⟩ := by
  obtain ⟨start, slots, hkeyword, hslots, rfl⟩ := h
  obtain ⟨hlt, rfl⟩ := List.getElem?_eq_some_iff.mp hmember
  have hbefore : (c.members.take index).length = index := by
    rw [List.length_take]
    omega
  have hsplit : c.members
      = c.members.take index ++ c.members[index] :: c.members.drop (index + 1) := by
    rw [← List.drop_eq_getElem_cons hlt, List.take_append_drop]
  -- All members before this one are read alike, whatever comes after them.
  obtain ⟨hlength, afterReference, hrest⟩ := readMembers_append hslots
  refine ⟨(readMembers m c context.head? false 0 (c.members.take index) start).events, slots,
    afterReference, ?_, hlength.trans hbefore, ?_⟩
  · intro e he
    have := index_of_mem_events he
    omega
  · have hall := hrest (c.members[index] :: c.members.drop (index + 1))
    rw [hbefore, Nat.zero_add, ← hsplit] at hall
    unfold interpret
    rw [hkeyword]
    simp only [hall, map_map]

/-- Of all events of the statement one is about the member that it comes
to: the one that reading the member there leaves. -/
theorem mem_events_iff (h : ComesTo m context c r index r')
    (hmember : c.members[index]? = some member) (hparsable : member.isParsable = true) :
    ∃ afterReference,
      let step := readMember m c member (nestedFor c context index) afterReference r'
      ∀ place slot, ⟨place, c.id, index, .ok slot⟩ ∈ (interpret m context c r).events ↔
        ∃ isReference, step = (.ok (slot, isReference), place) := by
  obtain ⟨before, slots, afterReference, hearlier, _, heq⟩ := h.interpret_eq hmember
  refine ⟨afterReference, fun place slot => ?_⟩
  have hbefore : ⟨place, c.id, index, .ok slot⟩ ∉ before := fun he =>
    absurd (hearlier _ he) (Nat.lt_irrefl index)
  rw [heq]
  cases hstep : readMember m c member (nestedFor c context index) afterReference r' with
  | mk value middle =>
    cases value with
    | error why =>
      rw [readMembers_error hparsable hstep]
      simp [hbefore]
    | ok v =>
      rw [readMembers_ok hparsable hstep]
      -- The members after it leave events with greater indices.
      have hafter : ⟨place, c.id, index, .ok slot⟩ ∉ (readMembers m c context.head? v.2 (index + 1)
          (c.members.drop (index + 1)) middle).events := by
        intro he
        exact absurd (index_of_mem_events he).1 (Nat.not_succ_le_self index)
      simp [hbefore, hafter, Prod.ext_iff, eq_comm, and_comm]

/-- In a statement that was read, the slot of the member it came to holds
what was read there. -/
theorem slot_eq (h : ComesTo m context c r index r') (hmember : c.members[index]? = some member)
    (hparsable : member.isParsable = true) {filled : Node}
    (hfilled : (interpret m context c r).result = .ok filled) :
    ∃ place slot, ⟨place, c.id, index, .ok slot⟩ ∈ (interpret m context c r).events
      ∧ filled.slots[index]? = some slot := by
  obtain ⟨before, slots, afterReference, hearlier, hlength, heq⟩ := h.interpret_eq hmember
  rw [heq] at hfilled ⊢
  obtain ⟨more, hmore, rfl⟩ := map_eq_ok_iff.mp hfilled
  cases hstep : readMember m c member (nestedFor c context index) afterReference r' with
  | mk value middle =>
    cases value with
    | error why =>
      rw [readMembers_error hparsable hstep] at hmore
      cases hmore
    | ok v =>
      rw [readMembers_ok hparsable hstep] at hmore ⊢
      obtain ⟨others, _, rfl⟩ := map_eq_ok_iff.mp hmore
      refine ⟨middle, v.1, by simp, ?_⟩
      simp [Node.slots, ← hlength]

end ComesTo

/-! ### Nesting -/

/-- Where reading a statement in a block comes to its parent member, the
member is filled with the concept of the block, and no token is read for
it, if and only if the type is a valid child of that concept's type. In a
statement that is then read to its end the slot of the parent member holds
the concept of the block under the same condition. -/
theorem parentMember_taken_iff (hm : m.Accepted) (hc : c ∈ m.types) {member : Member} {index : Nat}
    (hparent : c.parentMember? = some (member, index)) (hparsable : member.isParsable = true)
    {n : Node} (hother : n.type ≠ c.id) {outer : List Node} {r r' : Reader}
    (h : ComesTo m (n :: outer) c r index r') :
    (⟨r', c.id, index, .ok (.node n)⟩ ∈ (interpret m (n :: outer) c r).events
        ↔ c ∈ m.validChildren n.type)
      ∧ ∀ filled, (interpret m (n :: outer) c r).result = .ok filled →
        (filled.slots[index]? = some (.node n) ↔ c ∈ m.validChildren n.type) := by
  have hmember := getElem?_of_parentMember? hparent
  have hnested : nestedFor c (n :: outer) index = some n := by simp [nestedFor, hparent]
  have hreference : ∀ target, member.value = .concept target → target < m.types.length :=
    fun _ hvalue => hm.reference_lt hc (List.mem_of_getElem? hmember) hvalue
  have hvalid : c ∈ m.validChildren n.type ↔ member.Takes m n.type := by
    rw [mem_validChildren_iff]
    simp [hc, hparent, Ne.symm hother]
  obtain ⟨afterReference, hevents⟩ := h.mem_events_iff hmember hparsable
  rw [hnested] at hevents
  rw [hvalid]
  have hfilled : ∀ place,
      ⟨place, c.id, index, .ok (.node n)⟩ ∈ (interpret m (n :: outer) c r).events →
      member.Takes m n.type := by
    intro place he
    obtain ⟨_, hstep⟩ := (hevents place _).mp he
    exact takes_of_readMember hm hreference hstep
  refine ⟨⟨hfilled r', fun htakes =>
    (hevents r' _).mpr ⟨false, readMember_of_takes htakes c _ _⟩⟩, ?_⟩
  intro filled hresult
  obtain ⟨place, slot, he, hslot⟩ := h.slot_eq hmember hparsable hresult
  rw [hslot, Option.some.injEq]
  constructor
  · rintro rfl
    exact hfilled place he
  · intro htakes
    -- What was read for the member is the one thing that reading it gives.
    obtain ⟨_, hstep⟩ := (hevents place slot).mp he
    rw [readMember_of_takes htakes] at hstep
    cases hstep
    rfl

/-- Notes about entities. A log is an entity, and a note in the block of an
entity is about that entity. -/
def noteModel : Model :=
  ⟨"1", [⟨0, "EntityInfo", some "Entity", [], [⟨"Name", .text, true, true, false⟩], none⟩,
    ⟨1, "LogInfo", some "Log", [0], [⟨"Name", .text, true, true, false⟩], none⟩,
    ⟨2, "NoteInfo", some "Note", [],
      [⟨"Text", .text, true, true, false⟩, ⟨"About", .concept 0, false, true, true⟩], none⟩]⟩

/-- The model of notes is accepted: it is what its declaration is resolved
to. -/
theorem accepted_noteModel : noteModel.Accepted :=
  ⟨⟨"1", [⟨"EntityInfo", some "Entity", [], none, [⟨"Name", .text, true, true, false⟩]⟩,
    ⟨"LogInfo", some "Log", ["EntityInfo"], none, [⟨"Name", .text, true, true, false⟩]⟩,
    ⟨"NoteInfo", some "Note", [], none,
      [⟨"Text", .text, true, true, false⟩,
        ⟨"About", .concept "EntityInfo", false, true, true⟩]⟩]⟩, rfl⟩

/-- The tokens of `note Slow`. -/
def noteWords : List Token := [⟨.word, "note", 0, 4⟩, ⟨.word, "Slow", 5, 9⟩]

/-- The tokens after `note Slow` in a script. -/
def noteRest : List Token := [⟨.special, ";", 9, 10⟩, .endAt 10]

/-- In the block of a log a note is about the log: after its text the second
member is filled with the log, and the reader stays before the semicolon. -/
theorem parentMember_taken_from_log :
    ComesTo noteModel [.mk 1 [.text "Daily"]] (noteModel.typeAt 2)
        (.ofTokens (noteWords ++ noteRest)) 1 ⟨noteWords.reverse, noteRest⟩
      ∧ noteModel.typeAt 2 ∈ noteModel.validChildren 1
      ∧ ⟨⟨noteWords.reverse, noteRest⟩, 2, 1, .ok (.node (.mk 1 [.text "Daily"]))⟩
        ∈ (interpret noteModel [.mk 1 [.text "Daily"]] (noteModel.typeAt 2)
          (.ofTokens (noteWords ++ noteRest))).events := by
  have hcomes : ComesTo noteModel [.mk 1 [.text "Daily"]] (noteModel.typeAt 2)
      (.ofTokens (noteWords ++ noteRest)) 1 ⟨noteWords.reverse, noteRest⟩ :=
    ⟨⟨noteWords.take 1, noteWords.drop 1 ++ noteRest⟩, [.text "Slow"], rfl, rfl, rfl⟩
  obtain ⟨hevent, hslot⟩ := parentMember_taken_iff accepted_noteModel (c := noteModel.typeAt 2)
    (by decide) rfl rfl (by decide) hcomes
  have hchild := (hslot (.mk 2 [.text "Slow", .node (.mk 1 [.text "Daily"])]) rfl).mp rfl
  exact ⟨hcomes, hchild, hevent.mpr hchild⟩

end Script

end ConceptScript
