import ConceptScript.Proofs.Script.ListedValues

/-!
# `ConceptScript.Proofs.Script.WrittenForm`: how concepts are written

A concept is written as pieces that leave open how its texts are quoted
(`Piece`, `Spelled`). A concept that is referred to is written as its keys
with dots between them (`Node.form`), and one that is declared outside all
blocks as its keyword and its parsable members (`Node.written`).

* `IsReference.reference`, `Reference.spelled`: references are the phrases
  of the grammar that are written so.
* `Node.WellTyped.headAs`: a concept that fits its type is what the grammar
  makes of the statement that is written for it. What the grammar keeps of
  a choice is one of its words, so this is up to `Node.kept`.
* `HeadAs.length_eq`: all statements for a concept are equally long.
-/

set_option autoImplicit false

namespace ConceptScript.Script

open ConceptScript.Text
open ConceptScript.Model (TypeId Member)

/-! ### Pieces -/

/-- A piece of a written statement. -/
inductive Piece where
  | keyword (word : String)
  | value (text : String)
  | dot
  deriving DecidableEq, Repr

/-- A token that is a way to write a piece. A text can be written as a word
or as a string, or be the content of an external text. -/
def Token.Spells (t : Token) : Piece → Prop
  | .keyword word => t.kind = .word ∧ t.value = word
  | .value text => t.kind.isValue = true ∧ t.value = text
  | .dot => t.is "." = true

/-- What is related to two lists after one another is cut into two. -/
theorem forall₂_append_left_iff {α β : Type} {R : α → β → Prop} {as as' : List α} {bs : List β} :
    List.Forall₂ R (as ++ as') bs ↔
      ∃ u v, bs = u ++ v ∧ List.Forall₂ R as u ∧ List.Forall₂ R as' v := by
  constructor
  · intro h
    induction as generalizing bs with
    | nil => exact ⟨[], bs, rfl, .nil, h⟩
    | cons a as ih =>
      obtain ⟨b, bs, hab, hrest, rfl⟩ := List.forall₂_cons_left_iff.mp h
      obtain ⟨u, v, rfl, hu, hv⟩ := ih hrest
      exact ⟨b :: u, v, rfl, .cons hab hu, hv⟩
  · rintro ⟨u, v, rfl, hu, hv⟩
    exact List.rel_append hu hv

/-- Tokens that are a way to write some pieces. -/
def Spelled (pieces : List Piece) (w : List Token) : Prop :=
  List.Forall₂ (fun piece (t : Token) => t.Spells piece) pieces w

/-- A way to write pieces in a row is one to write the first ones and then
the others. -/
theorem Spelled.of_append {pieces pieces' : List Piece} {w : List Token}
    (h : Spelled (pieces ++ pieces') w) :
    ∃ u v, w = u ++ v ∧ Spelled pieces u ∧ Spelled pieces' v :=
  forall₂_append_left_iff.mp h

/-- Ways to write pieces can be put after one another. -/
theorem Spelled.append {pieces pieces' : List Piece} {w w' : List Token} (h : Spelled pieces w)
    (h' : Spelled pieces' w') : Spelled (pieces ++ pieces') (w ++ w') :=
  List.rel_append h h'

/-- A dot where one is needed. -/
def dotIf (needed : Bool) : List Piece := if needed then [.dot] else []

/-- A dot where one is needed is written as the grammar has it. -/
theorem Spelled.dotIf {needed : Bool} {w : List Token} (h : Spelled (dotIf needed) w) :
    DotIf needed w := by
  cases needed with
  | false =>
    cases h
    exact .none
  | true =>
    obtain ⟨t, _, hdot, hnil, rfl⟩ := List.forall₂_cons_left_iff.mp h
    cases hnil
    exact .dot hdot

/-- A dot where the grammar has one is written where it is needed. -/
theorem DotIf.spelled {needed : Bool} {w : List Token} (h : DotIf needed w) :
    Spelled (Script.dotIf needed) w := by
  cases h with
  | none => exact .nil
  | dot isDot => exact .cons isDot .nil

/-- Some phrases with dots between them, and one in front if some phrase
stands before. -/
def joinDots : Bool → List (List Piece) → List Piece
  | _, [] => []
  | later, phrase :: rest => dotIf later ++ phrase ++ joinDots true rest

mutual

/-- A concept as it is referred to: its keys, with dots between them. -/
def Node.form (m : Model) : Node → List Piece
  | .mk type slots => joinDots false (keyForms m (m.typeAt type).members slots)

/-- The keys among some members with their slots. -/
def keyForms (m : Model) : List Member → List Slot → List (List Piece)
  | member :: members, slot :: slots =>
    if member.isKey then slot.form m :: keyForms m members slots else keyForms m members slots
  | _, _ => []

/-- What is in a slot as it is written. -/
def Slot.form (m : Model) : Slot → List Piece
  | .empty => []
  | .text value => [.value value]
  | .node n => n.form m

end

variable {m : Model}

/-! ### References -/

mutual

/-- A reference that is written is one in the sense of the grammar. Mutual
induction with keys and their values. -/
theorem IsReference.reference {d : TypeId} {w : List Token} {n : Node} (h : IsReference m d n)
    (hw : Spelled (n.form m) w) : Reference m d w n := by
  cases h with
  | keys _ each =>
    rw [Node.form] at hw
    exact .keys (keys_of_fits each hw)
termination_by sizeOf n

/-- Keys that are written with dots between them are keys in the sense of the
grammar. -/
theorem keys_of_fits {later : Bool} {members : List Member} {slots : List Slot} {w : List Token}
    (h : List.Forall₂ (fun member slot => SlotFits m none member member.isKey slot) members slots)
    (hw : Spelled (joinDots later (keyForms m members slots)) w) :
    Keys m later members w slots := by
  cases h with
  | nil =>
    rw [keyForms, joinDots] at hw
    · cases hw
      exact .nil
    · simp
  | @cons member slot members slots hfits hrest =>
    rw [keyForms] at hw
    cases hkey : member.isKey with
    | false =>
      rw [hkey] at hw hfits
      cases hfits
      exact .other hkey (keys_of_fits hrest hw)
    | true =>
      rw [hkey, if_pos rfl, joinDots] at hw
      rw [hkey] at hfits
      -- The tokens are those of a dot, if one is needed, of the key, and of the others.
      obtain ⟨_, words, rfl, hfirst, hwords⟩ := Spelled.of_append hw
      obtain ⟨dots, own, rfl, hdots, hown⟩ := Spelled.of_append hfirst
      exact .key hkey hdots.dotIf (hfits.keyValue hown) (keys_of_fits hrest hwords)
termination_by sizeOf slots

/-- The value of a key that is written is one in the sense of the grammar. -/
theorem SlotFits.keyValue {member : Member} {slot : Slot} {w : List Token}
    (h : SlotFits m none member true slot) (hw : Spelled (slot.form m) w) :
    KeyValue m member w slot := by
  cases h with
  | text plain =>
    rw [Slot.form] at hw
    obtain ⟨t, _, ⟨hvalue, rfl⟩, hnil, rfl⟩ := List.forall₂_cons_left_iff.mp hw
    cases hnil
    exact .text plain hvalue
  | anyConcept _ fromBlock => cases fromBlock
  | nested _ fromBlock _ => cases fromBlock
  | reference isConcept isReference _ =>
    rw [Slot.form] at hw
    exact .reference isConcept (isReference.reference hw)
termination_by sizeOf slot

end

/-! ### Statements -/

/-- What a concept holds for the members that are written. -/
def Node.parts (m : Model) (n : Node) : List (Member × Slot) :=
  (n.stored m).filter (·.1.isParsable)

/-- The written members, with a dot wherever a plain key stands directly
behind a key that is a concept. The flag tells whether such a key stands
in front. -/
def writtenParts (m : Model) : Bool → List (Member × Slot) → List Piece
  | _, [] => []
  | afterReference, (member, slot) :: rest =>
    dotIf (afterReference && member.isKey && !member.value.isConcept) ++ slot.form m
      ++ writtenParts m (member.isKey && member.value.isConcept) rest

/-- A concept as the statement that declares it outside all blocks. -/
def Node.written (m : Model) (n : Node) : List Piece :=
  .keyword (m.typeAt n.type).shownName :: writtenParts m false (n.parts m)

/-- What is kept of the value of a member: of a choice the first of its
words that is the same but for the case of ASCII letters. -/
def keptSlot (member : Member) : Slot → Slot
  | .text text =>
    match member.value with
    | .choice values => .text ((values.find? (sameIgnoringAsciiCase · text)).getD text)
    | .text | .concept _ | .anyConcept => .text text
  | slot => slot

/-- A concept as it is kept. -/
def Node.kept (m : Model) (n : Node) : Node :=
  .mk n.type ((n.stored m).map fun p => keptSlot p.1 p.2)

/-- A text is the same as itself, whatever case counts. -/
theorem sameIgnoringAsciiCase_self (s : String) : sameIgnoringAsciiCase s s = true :=
  beq_self_eq_true _

/-- A value of a member outside all blocks, as it is written. -/
theorem SlotFits.memberValue {member : Member} {slot : Slot} {w : List Token}
    (h : SlotFits m none member true slot)
    (hlisted : ∀ values text, slot = .text text → member.value = .choice values → text ∈ values)
    (hw : Spelled (slot.form m) w) :
    MemberValue m member none w (keptSlot member slot)
      (member.isKey && member.value.isConcept) := by
  cases h with
  | @text _ _ value plain =>
    rw [Slot.form] at hw
    obtain ⟨t, _, ⟨hvalue, rfl⟩, hnil, rfl⟩ := List.forall₂_cons_left_iff.mp hw
    cases hnil
    rw [plain, Bool.and_false]
    cases hkind : member.value with
    | text =>
      rw [keptSlot, hkind]
      exact .text hkind hvalue
    | choice values =>
      have hmem := hlisted values t.value rfl hkind
      -- The word itself is one of those that are looked up.
      have hsome : (values.find? (sameIgnoringAsciiCase · t.value)).isSome = true :=
        List.find?_isSome.mpr ⟨t.value, hmem, sameIgnoringAsciiCase_self t.value⟩
      obtain ⟨found, hfound⟩ := Option.isSome_iff_exists.mp hsome
      rw [keptSlot, hkind]
      dsimp only
      rw [hfound]
      exact .choice hkind hvalue hfound
    | concept target =>
      rw [hkind] at plain
      cases plain
    | anyConcept =>
      rw [hkind] at plain
      cases plain
  | anyConcept _ fromBlock => cases fromBlock
  | nested _ fromBlock _ => cases fromBlock
  | @reference _ _ _ n isConcept isReference _ =>
    rw [Slot.form] at hw
    have hreference := isReference.reference hw
    have hflag : (member.isKey && member.value.isConcept) = member.isKey := by
      rw [isConcept]
      exact Bool.and_true _
    rw [hflag]
    exact .reference isConcept (fun _ hnone => (by cases hnone)) hreference

/-- Outside of all blocks no member is filled from one. -/
theorem nestedFor_nil (c : ConceptType) (index : Nat) : nestedFor c [] index = none := by
  unfold nestedFor
  split <;> rfl

/-- The members of a concept outside all blocks, as they are written. -/
theorem members_of_fits {c : ConceptType} {afterReference : Bool} {index : Nat}
    {members : List Member} {slots : List Slot} {w : List Token}
    (h : List.Forall₂ (fun member slot => SlotFits m none member member.isParsable slot)
      members slots)
    (hlisted : ∀ member values text, (member, .text text) ∈ members.zip slots →
      member.value = .choice values → text ∈ values)
    (hw : Spelled (writtenParts m afterReference
      ((members.zip slots).filter (·.1.isParsable))) w) :
    Members m c [] afterReference index members w
      ((members.zip slots).map fun p => keptSlot p.1 p.2) := by
  induction h generalizing afterReference index w with
  | nil =>
    cases hw
    exact .nil
  | @cons member slot members slots hfits hrest ih =>
    have hlisted' := fun member values text hmem =>
      hlisted member values text (List.mem_cons_of_mem _ hmem)
    rw [List.zip_cons_cons, List.map_cons]
    cases hparsable : member.isParsable with
    | false =>
      rw [List.zip_cons_cons, List.filter_cons_of_neg (by simp [hparsable])] at hw
      rw [hparsable] at hfits
      cases hfits
      exact .unparsable hparsable (ih hlisted' hw)
    | true =>
      simp only [List.zip_cons_cons, List.filter_cons, hparsable, if_true, writtenParts] at hw
      rw [hparsable] at hfits
      -- The tokens are those of a dot, if one is needed, of the member, and of the others.
      obtain ⟨_, words, rfl, hfirst, hwords⟩ := Spelled.of_append hw
      obtain ⟨dots, own, rfl, hdots, hown⟩ := Spelled.of_append hfirst
      have hvalue := hfits.memberValue (fun values text htext =>
        hlisted member values text (htext ▸ List.mem_cons_self)) hown
      rw [← nestedFor_nil c index] at hvalue
      exact .parsable hparsable hdots.dotIf hvalue (ih hlisted' hwords)

/-- A concept is read from the statement that declares it. -/
theorem Node.WellTyped.headAs (hm : m.Accepted) {c : ConceptType} (hc : c ∈ m.types) {n : Node}
    (htype : n.type = c.id) (h : n.WellTyped m []) (hlisted : n.ChoicesListed m)
    {w : List Token} (hw : Spelled (n.written m) w) : HeadAs m [] c w (n.kept m) := by
  have htypeAt : m.typeAt n.type = c := htype ▸ hm.typeAt_id hc
  have heach := h.each
  rw [ConceptType.numbered] at heach
  -- No member is filled from a block, so their numbers do not matter.
  have hfits : List.Forall₂ (fun member slot => SlotFits m none member member.isParsable slot)
      (m.typeAt n.type).members n.slots := by
    rw [← List.zipIdx_map_fst 0 (m.typeAt n.type).members, List.forall₂_map_left_iff]
    refine heach.imp fun p slot hslot => ?_
    dsimp only at hslot
    rw [nestedFor_nil] at hslot
    exact hslot
  rw [Node.written, htypeAt] at hw
  obtain ⟨t, words, ⟨hword, hvalue⟩, hwords, rfl⟩ := List.forall₂_cons_left_iff.mp hw
  have hmembers : Members m c [] false 0 (m.typeAt n.type).members words
      ((n.stored m).map fun p => keptSlot p.1 p.2) :=
    members_of_fits hfits hlisted hwords
  rw [htypeAt] at hmembers
  rw [Node.kept, htype]
  exact .mk hword (hvalue ▸ sameIgnoringAsciiCase_self _) hmembers

/-! ### What is read is as long as what is written -/

mutual

/-- A reference in the sense of the grammar is written as the form of its
concept. Mutual induction with keys and their values. -/
theorem Reference.spelled {d : TypeId} {w : List Token} {n : Node} :
    Reference m d w n → Spelled (n.form m) w
  | .keys keys => by
    rw [Node.form]
    exact keys.spelled

/-- Keys in the sense of the grammar are written with dots between them. -/
theorem Keys.spelled {later : Bool} {members : List Member} {w : List Token}
    {slots : List Slot} : Keys m later members w slots →
      Spelled (joinDots later (keyForms m members slots)) w
  | .nil => by
    rw [keyForms]
    · exact .nil
    · simp
  | .other notKey tail => by
    rw [keyForms, notKey]
    exact tail.spelled
  | .key isKey dot value tail => by
    rw [keyForms, isKey, if_pos rfl, joinDots]
    exact (dot.spelled.append value.spelled).append tail.spelled

/-- The value of a key in the sense of the grammar is written as what is in
its slot. -/
theorem KeyValue.spelled {member : Member} {own : List Token} {slot : Slot} :
    KeyValue m member own slot → Spelled (slot.form m) own
  | .text _ isValue => by
    rw [Slot.form]
    exact .cons ⟨isValue, rfl⟩ .nil
  | .reference _ reference => by
    rw [Slot.form]
    exact reference.spelled

end

/-- Outside of blocks the value of a member takes as many tokens as its
written form has pieces, and it counts as a reference if it is a key that is
a concept. -/
theorem MemberValue.length_eq {member : Member} {own : List Token} {slot : Slot} {flag : Bool}
    (h : MemberValue m member none own slot flag) :
    own.length = (slot.form m).length ∧ flag = (member.isKey && member.value.isConcept) := by
  cases h with
  | text isText _ =>
    rw [isText, Slot.form]
    exact ⟨rfl, (Bool.and_false _).symm⟩
  | choice isChoice _ _ =>
    rw [isChoice, Slot.form]
    exact ⟨rfl, (Bool.and_false _).symm⟩
  | anyConcept _ nested => cases nested
  | nested _ nested _ => cases nested
  | reference isConcept _ reference =>
    rw [isConcept, Slot.form]
    exact ⟨reference.spelled.length_eq.symm, (Bool.and_true _).symm⟩

/-- Members that are read outside all blocks are as long as when they are
written. -/
theorem Members.length_eq {c : ConceptType} {afterReference : Bool} {index : Nat}
    {members : List Member} {w : List Token} {slots : List Slot}
    (h : Members m c [] afterReference index members w slots) :
    w.length = (writtenParts m afterReference
      ((members.zip slots).filter (·.1.isParsable))).length := by
  induction h with
  | nil => rfl
  | unparsable unparsable _ ih =>
    rw [List.zip_cons_cons, List.filter_cons_of_neg (by simp [unparsable])]
    exact ih
  | parsable parsable dot value _ ih =>
    rw [nestedFor_nil] at value
    obtain ⟨hown, hflag⟩ := value.length_eq
    rw [hflag] at ih
    rw [List.zip_cons_cons, List.filter_cons_of_pos (by exact parsable), writtenParts]
    simp only [List.length_append, ih, hown, dot.spelled.length_eq]

/-- A head outside of blocks takes as many tokens as its written form has
pieces. -/
theorem HeadAs.length_eq (hm : m.Accepted) {c : ConceptType} (hc : c ∈ m.types) {w : List Token}
    {n : Node} (h : HeadAs m [] c w n) : w.length = (n.written m).length := by
  obtain ⟨_, _, members⟩ := h
  have hmembers := members.length_eq
  rw [Node.written, Node.parts, Node.stored, List.length_cons, List.length_cons]
  show _ = (writtenParts m false (((m.typeAt c.id).members.zip _).filter _)).length + 1
  rw [hm.typeAt_id hc, hmembers]
  rfl

/-- What is kept of a value is written with as many pieces. -/
theorem Slot.length_form_kept (member : Member) (slot : Slot) :
    ((keptSlot member slot).form m).length = (slot.form m).length := by
  cases slot with
  | text text =>
    rw [keptSlot]
    split <;> simp only [Slot.form, List.length_singleton]
  | _ => rfl

/-- What is kept of the values of members is written with as many pieces. -/
theorem length_writtenParts_kept (afterReference : Bool) (members : List Member)
    (slots : List Slot) :
    (writtenParts m afterReference ((members.zip ((members.zip slots).map
        fun p => keptSlot p.1 p.2)).filter (·.1.isParsable))).length
      = (writtenParts m afterReference ((members.zip slots).filter (·.1.isParsable))).length := by
  induction members generalizing slots afterReference with
  | nil => rfl
  | cons member members ih =>
    cases slots with
    | nil => rfl
    | cons slot slots =>
      rw [List.zip_cons_cons, List.map_cons, List.zip_cons_cons, List.filter_cons, List.filter_cons]
      dsimp only
      split
      · simp only [writtenParts, List.length_append, Slot.length_form_kept, ih]
      · exact ih _ slots

/-- What is kept of a concept is written at the same length. -/
theorem Node.length_written_kept (m : Model) (n : Node) :
    ((n.kept m).written m).length = (n.written m).length :=
  congrArg (· + 1) (length_writtenParts_kept false (m.typeAt n.type).members n.slots)

end ConceptScript.Script
