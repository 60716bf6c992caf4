import Mathlib.Data.List.Forall2
import ConceptScript.Proofs.Script.Derivation

/-!
# `ConceptScript.Proofs.Script.Contents`: quoted texts are not looked at

A quoted string and a reference to an external text stand for a text. In
this text there may be anything: a brace, a dot, the keyword of a type.
Reading a script looks only at whether there is such a token, and its text
ends up in a concept as it is. So two streams of tokens that differ in such
texts alone (`Token.SameFrame`) are read alike, from start to end:
`parse_ignores_contents`.

What comes of them is the same up to texts, `T` being the texts that stand
for each other: `Node.Matches`, `Event.Matches`. A `Pairing` is a relation
of tokens that fits such a `T`. Each reading keeps it (`Reading.Matches`),
with the same mismatches on both sides, since a mismatch names a token only
if it is no value.

A listed value is the one kind of text that is compared with others, and a
member that lists its values is left out here. As the key of a reference
it may stand, because there it is not compared.
-/

set_option autoImplicit false

namespace ConceptScript.Script

open ConceptScript.Text
open ConceptScript.Model (TypeId Member)

/-! ### Tokens, concepts and events -/

/-- Whether tokens of a kind hold a text that stands in quotes or outside
of the script. -/
def TokenKind.isContent : TokenKind → Bool
  | .quoted _ | .external => true
  | .word | .special | .comment | .endOfScript => false

/-- Two tokens that may differ in the text that they hold, and in nothing
else. -/
structure Token.SameFrame (t t' : Token) : Prop where
  kind : t'.kind = t.kind
  start : t'.start = t.start
  stop : t'.stop = t.stop
  value : t.kind.isContent = false → t'.value = t.value

mutual

/-- Two concepts that are the same up to the texts in them. -/
inductive Node.Matches (T : String → String → Prop) : Node → Node → Prop
  | mk {type : TypeId} {slots slots' : List Slot}
      (each : List.Forall₂ (Slot.Matches T) slots slots') :
      Node.Matches T (.mk type slots) (.mk type slots')

/-- Two values that are the same up to the texts in them. -/
inductive Slot.Matches (T : String → String → Prop) : Slot → Slot → Prop
  | empty : Slot.Matches T .empty .empty
  | text {value value' : String} (texts : T value value') :
      Slot.Matches T (.text value) (.text value')
  | node {n n' : Node} (nodes : Node.Matches T n n') : Slot.Matches T (.node n) (.node n')

end

/-- Two results that come to related values or fail in a related way. -/
inductive SameResult {ε α : Type} (E : ε → ε → Prop) (S : α → α → Prop) :
    Except ε α → Except ε α → Prop
  | ok {a a' : α} (values : S a a') : SameResult E S (.ok a) (.ok a')
  | error {e e' : ε} (errors : E e e') : SameResult E S (.error e) (.error e')

/-- Two failures with the same code at the same token. -/
structure Failure.Matches (f f' : Failure) : Prop where
  index : f'.index = f.index
  code : f'.fault.code = f.fault.code

/-- Two events that show the same to whoever watches, up to texts: the same
keyword, member or block at the same place in the stream. -/
inductive Event.Matches (T : String → String → Prop) : Event → Event → Prop
  | statement {r r' : Reader} (position : r'.position = r.position)
      (keyword : r'.current.word? = r.current.word?) :
      Event.Matches T (.statement r) (.statement r')
  | member {e e' : MemberEvent} (position : e'.reader.position = e.reader.position)
      (type : e'.type = e.type) (index : e'.index = e.index)
      (value : SameResult Eq (Slot.Matches T) e.value e'.value) :
      Event.Matches T (.member e) (.member e')
  | block {r r' : Reader} {context context' : List Node} {opening : Bool}
      (position : r'.position = r.position)
      (blocks : List.Forall₂ (Node.Matches T) context context') :
      Event.Matches T (.block r context opening) (.block r' context' opening)

/-- Results that are related stay so when related functions are applied. -/
theorem SameResult.map {ε α β : Type} {E : ε → ε → Prop} {S : α → α → Prop} {S' : β → β → Prop}
    {x x' : Except ε α} {f f' : α → β} (h : SameResult E S x x')
    (hf : ∀ a a', S a a' → S' (f a) (f' a')) : SameResult E S' (x.map f) (x'.map f') := by
  cases h with
  | ok values => exact .ok (hf _ _ values)
  | error errors => exact .error errors

/-- Tokens that stand for each other differ in nothing but their texts, and
these stand for each other. -/
structure Pairing (P : Token → Token → Prop) (T : String → String → Prop) : Prop where
  frame : ∀ {t t'}, P t t' → t.SameFrame t'
  text : ∀ {t t'}, P t t' → T t.value t'.value

/-- Two readers at the same place of streams that stand for each other. -/
structure Reader.Matches (P : Token → Token → Prop) (r r' : Reader) : Prop where
  before : List.Forall₂ P r.before r'.before
  rest : List.Forall₂ P r.rest r'.rest

namespace Token.SameFrame

variable {t t' : Token}

/-- A token is in the same frame as itself. -/
theorem refl (t : Token) : t.SameFrame t := ⟨rfl, rfl, rfl, fun _ => rfl⟩

/-- Tokens in the same frame both end the script, or neither does. -/
theorem isEnd (h : t.SameFrame t') : t'.isEnd = t.isEnd := by rw [Token.isEnd, Token.isEnd, h.kind]

/-- Tokens in the same frame are the same special token, or neither is this
one. -/
theorem is (h : t.SameFrame t') (text : String) : t'.is text = t.is text := by
  rw [Token.is, Token.is, h.kind]
  cases hcontent : t.kind.isContent with
  | false => rw [h.value hcontent]
  | true =>
    -- A text in quotes is no special character and no word, whatever it says.
    have hneither : (t.kind == .special || t.kind == .word) = false := by
      cases hkind : t.kind with
      | word | special =>
        rw [hkind] at hcontent
        cases hcontent
      | quoted quote => rfl
      | external | comment | endOfScript => rfl
    rw [hneither, Bool.false_and, Bool.false_and]

/-- Words in the same frame are the same. -/
theorem value_of_word (h : t.SameFrame t') (hword : t.kind = .word) : t'.value = t.value :=
  h.value (hword ▸ rfl)

/-- Tokens in the same frame give the same word, or none. -/
theorem word? (h : t.SameFrame t') : t'.word? = t.word? := by
  rw [Token.word?, Token.word?, h.kind]
  split
  · next hword => rw [h.value_of_word hword]
  · rfl

/-- A token that is no value has no text of its own. -/
theorem eq_of_not_value (h : t.SameFrame t') (hvalue : t.kind.isValue = false) : t' = t := by
  have hcontent : t.kind.isContent = false := by
    cases hkind : t.kind <;> simp_all [TokenKind.isContent, TokenKind.isValue]
  obtain ⟨kind, value, start, stop⟩ := t
  obtain ⟨kind', value', start', stop'⟩ := t'
  obtain ⟨rfl, rfl, rfl, hsame⟩ := h
  rw [show value' = value from hsame hcontent]

end Token.SameFrame

variable {P : Token → Token → Prop} {T : String → String → Prop}

/-! ### Readers -/

namespace Reader.Matches

variable {r r' : Reader}

/-- Readers that match have read the same number of tokens. -/
theorem position (hr : r.Matches P r') : r'.position = r.position := hr.before.length_eq.symm

/-- Where there is a next token, one stands for the other. -/
theorem current_of_not_end (hr : r.Matches P r') (hend : r.current.isEnd = false) :
    P r.current r'.current := by
  obtain ⟨before, rest⟩ := r
  obtain ⟨before', rest'⟩ := r'
  cases hr.rest with
  | nil => cases hend
  | cons h _ => exact h

/-- Readers that match are at tokens in the same frame. -/
theorem current (hP : Pairing P T) (hr : r.Matches P r') : r.current.SameFrame r'.current := by
  obtain ⟨before, rest⟩ := r
  obtain ⟨before', rest'⟩ := r'
  cases hr.rest with
  | nil => exact .refl _
  | cons h _ => exact hP.frame h

/-- Readers that match are both at the end of their scripts, or neither is. -/
theorem atEnd (hP : Pairing P T) (hr : r.Matches P r') : r'.atEnd = r.atEnd :=
  (hr.current hP).isEnd

/-- Readers that match still do when both go on by one token. -/
theorem advance (hP : Pairing P T) (hr : r.Matches P r') : r.advance.Matches P r'.advance := by
  obtain ⟨before, rest⟩ := r
  obtain ⟨before', rest'⟩ := r'
  obtain ⟨hbefore, hrest⟩ := hr
  cases hrest with
  | nil => exact ⟨hbefore, .nil⟩
  | @cons t t' ts ts' h htail =>
    simp only [Reader.advance, (hP.frame h).isEnd]
    split
    · exact ⟨hbefore, .cons h htail⟩
    · exact ⟨.cons h hbefore, htail⟩

/-- Both readers read a word or special character, or none does. -/
theorem tryRead (hP : Pairing P T) (hr : r.Matches P r') (text : String) :
    (r.tryRead text = none ∧ r'.tryRead text = none)
      ∨ (r.tryRead text = some r.advance ∧ r'.tryRead text = some r'.advance) := by
  unfold Reader.tryRead
  rw [(hr.current hP).is text]
  split
  · exact .inr ⟨rfl, rfl⟩
  · exact .inl ⟨rfl, rfl⟩

/-- At readers that match a keyword is read by both or by neither. -/
theorem tryReadKeyword (hP : Pairing P T) (hr : r.Matches P r') (keyword : String) :
    (r.tryReadKeyword keyword = none ∧ r'.tryReadKeyword keyword = none)
      ∨ (r.tryReadKeyword keyword = some r.advance
        ∧ r'.tryReadKeyword keyword = some r'.advance) := by
  have hcurrent := hr.current hP
  have hsame : (r'.current.kind = .word ∧ sameIgnoringAsciiCase r'.current.value keyword = true) ↔
      (r.current.kind = .word ∧ sameIgnoringAsciiCase r.current.value keyword = true) := by
    rw [hcurrent.kind]
    exact and_congr_right fun hword => by rw [hcurrent.value_of_word hword]
  simp only [Reader.tryReadKeyword, hsame]
  split
  · exact .inr ⟨rfl, rfl⟩
  · exact .inl ⟨rfl, rfl⟩

end Reader.Matches

/-! ### Readings -/

namespace Reading

variable {α β : Type} {S : α → α → Prop} {S' : β → β → Prop}

/-- Readings that do the same at readers that match. Where one fails, the
other one fails in the same way. -/
def Matches (P : Token → Token → Prop) (S : α → α → Prop) (p p' : Reading α) : Prop :=
  ∀ r r' : Reader, r.Matches P r' →
    SameResult Eq S (p r).1 (p' r').1 ∧ (p r).2.Matches P (p' r').2

/-- Values that are related are related when nothing is read. -/
theorem matches_pure {a a' : α} (h : S a a') :
    Matches P S (pure a : Reading α) (pure a' : Reading α) := fun _ _ hr => ⟨.ok h, hr⟩

/-- Failing in one way is failing in the same way. -/
theorem matches_fail (why : Mismatch) :
    Matches P S (fail why : Reading α) (fail why : Reading α) := fun _ _ hr => ⟨.error rfl, hr⟩

/-- A text is read at both readers, and the two texts stand for each other. -/
theorem matches_textToken (hP : Pairing P T) : Matches P P textToken textToken := by
  intro r r' hr
  have hcurrent := hr.current hP
  show SameResult Eq P r.readText.1 r'.readText.1 ∧ r.readText.2.Matches P r'.readText.2
  unfold Reader.readText
  rw [hcurrent.kind]
  cases hvalue : r.current.kind.isValue with
  | false =>
    -- What is found in place of a value is the same token.
    rw [hcurrent.eq_of_not_value hvalue]
    exact ⟨.error rfl, hr⟩
  | true =>
    exact ⟨.ok (hr.current_of_not_end (Token.isEnd_of_isValue hvalue)), hr.advance hP⟩

/-- A dot is read at both readers or at neither. -/
theorem matches_dot (hP : Pairing P T) (why : Mismatch) :
    Matches P Eq (dot why) (dot why) := by
  intro r r' hr
  unfold dot
  rcases hr.tryRead hP "." with ⟨h, h'⟩ | ⟨h, h'⟩
  · rw [h, h']
    exact ⟨.error rfl, hr⟩
  · rw [h, h']
    exact ⟨.ok rfl, hr.advance hP⟩

/-- The same of a dot that is read where one is needed. -/
theorem matches_dotIf (hP : Pairing P T) (needed : Bool) (why : Mismatch) :
    Matches P Eq (dotIf needed why) (dotIf needed why) := by
  unfold dotIf
  split
  · exact matches_dot hP why
  · exact matches_pure rfl

/-- Readings that match can be put after one another. What is read next may
depend on the two values as far as these are related. -/
theorem Matches.bind {p p' : Reading α} {q q' : α → Reading β} (hp : Matches P S p p')
    (hq : ∀ a a', S a a' → Matches P S' (q a) (q' a')) : Matches P S' (p >>= q) (p' >>= q') := by
  intro r r' hr
  show SameResult Eq S' (andThen p q r).1 (andThen p' q' r').1
    ∧ (andThen p q r).2.Matches P (andThen p' q' r').2
  have hfirst := hp r r' hr
  unfold andThen
  generalize p r = x at hfirst ⊢
  generalize p' r' = x' at hfirst ⊢
  obtain ⟨value, s⟩ := x
  obtain ⟨value', s'⟩ := x'
  obtain ⟨hvalue, hs⟩ := hfirst
  cases hvalue with
  | ok h => exact hq _ _ h s s' hs
  | error h => exact ⟨.error h, hs⟩

end Reading

open Reading

variable (m : Model)

/-! ### References and members -/

/-- Reading a key matches, if reading references does. -/
theorem matches_readKey (hP : Pairing P T) {reference : TypeId → Reading Node}
    (h : ∀ type, Matches P (Node.Matches T) (reference type) (reference type))
    (typeName : String) (member : Member) :
    Matches P (Slot.Matches T) (readKey reference typeName member)
      (readKey reference typeName member) := by
  unfold readKey
  split
  · exact (matches_textToken hP).bind fun t t' ht => matches_pure (.text (hP.text ht))
  · exact (matches_textToken hP).bind fun t t' ht => matches_pure (.text (hP.text ht))
  · exact (h _).bind fun n n' hn => matches_pure (.node hn)
  · exact matches_fail _

/-- Reading keys matches, if reading references does. Induction on the
members. -/
theorem matches_readKeys (hP : Pairing P T) {reference : TypeId → Reading Node}
    (h : ∀ type, Matches P (Node.Matches T) (reference type) (reference type))
    (typeName : String) (later : Bool) (members : List Member) :
    Matches P (List.Forall₂ (Slot.Matches T)) (readKeys reference typeName later members)
      (readKeys reference typeName later members) := by
  induction members generalizing later with
  | nil => exact matches_pure .nil
  | cons member rest ih =>
    unfold readKeys
    split
    · refine (matches_dotIf hP _ _).bind fun _ _ _ => ?_
      refine (matches_readKey hP h typeName member).bind fun slot slot' hslot => ?_
      exact (ih true).bind fun slots slots' hslots => matches_pure (.cons hslot hslots)
    · exact (ih later).bind fun slots slots' hslots => matches_pure (.cons .empty hslots)

/-- Reading a reference matches. The induction is on the depth, for keys may
be references themselves. -/
theorem matches_readReferenceWithin (hP : Pairing P T) (depth : Nat) (type : TypeId) :
    Matches P (Node.Matches T) (readReferenceWithin m depth type)
      (readReferenceWithin m depth type) := by
  induction depth generalizing type with
  | zero => exact matches_fail _
  | succ depth ih =>
    exact (matches_readKeys hP ih _ _ _).bind fun slots slots' hslots => matches_pure (.mk hslots)

/-- Concepts that match are of one type. -/
theorem Node.Matches.type_eq {n n' : Node} (h : n.Matches T n') : n'.type = n.type := by
  cases h
  rfl

/-- Whether a member is filled from the block depends on the type of the
concept around it. -/
theorem rel_filter_type {parent parent' : Option Node}
    (h : Option.Rel (Node.Matches T) parent parent') (p : TypeId → Bool) :
    Option.Rel (Node.Matches T) (parent.filter (p ·.type)) (parent'.filter (p ·.type)) := by
  cases h with
  | none => exact .none
  | some nodes =>
    rw [Option.filter_some, Option.filter_some, nodes.type_eq]
    split
    · exact .some nodes
    · exact .none

/-- Reading a value that is no choice matches. A choice is left out because
its text decides whether it is read. -/
theorem matches_readValue (hP : Pairing P T) (c : ConceptType) {member : Member}
    (hfree : ∀ values, member.value ≠ .choice values) {parent parent' : Option Node}
    (hparent : Option.Rel (Node.Matches T) parent parent') :
    Matches P (fun v v' => v.1.Matches T v'.1 ∧ v'.2 = v.2) (readValue m c member parent)
      (readValue m c member parent') := by
  unfold readValue
  split
  · exact (matches_textToken hP).bind fun t t' ht => matches_pure ⟨.text (hP.text ht), rfl⟩
  · -- Here the text would be compared with the listed values.
    next values hvalues => exact absurd hvalues (hfree values)
  · cases hparent with
    | none => exact matches_fail _
    | some nodes => exact matches_pure ⟨.node nodes, rfl⟩
  · next declared _ =>
    have hread : Matches P (fun v v' : Slot × Bool => v.1.Matches T v'.1 ∧ v'.2 = v.2)
        (readReference m declared >>= fun n => pure (.node n, member.isKey))
        (readReference m declared >>= fun n => pure (.node n, member.isKey)) :=
      (matches_readReferenceWithin m hP _ _).bind fun n n' hn => matches_pure ⟨.node hn, rfl⟩
    -- A fitting block is there on both sides or on none.
    have hfilter := rel_filter_type hparent (m.isAssignable · declared)
    generalize parent.filter (fun n => m.isAssignable n.type declared) = found at hfilter ⊢
    generalize parent'.filter (fun n => m.isAssignable n.type declared) = found' at hfilter ⊢
    cases hfilter with
    | none => exact hread
    | some nodes => exact matches_pure ⟨.node nodes, rfl⟩

/-- Reading a member that is no choice matches. -/
theorem matches_readMember (hP : Pairing P T) (c : ConceptType) {member : Member}
    (hfree : ∀ values, member.value ≠ .choice values) {parent parent' : Option Node}
    (hparent : Option.Rel (Node.Matches T) parent parent') (afterReference : Bool) :
    Matches P (fun v v' => v.1.Matches T v'.1 ∧ v'.2 = v.2)
      (readMember m c member parent afterReference)
      (readMember m c member parent' afterReference) :=
  (matches_dotIf hP _ _).bind fun _ _ _ => matches_readValue m hP c hfree hparent

/-! ### Heads -/

/-- Reading members at readers that match: the same is shown and comes of
it, up to texts. -/
structure MembersRead.Matches (P : Token → Token → Prop) (T : String → String → Prop)
    (x x' : MembersRead) : Prop where
  events : List.Forall₂ (fun e e' => Event.Matches T (.member e) (.member e')) x.events x'.events
  result : SameResult Eq (List.Forall₂ (Slot.Matches T)) x.result x'.result
  reader : x.reader.Matches P x'.reader

variable {m} {r r' : Reader}

/-- The concept that a member is filled with from a block matches, if the
blocks do. -/
theorem matches_nestedFor {context context' : List Node}
    (hcontext : List.Forall₂ (Node.Matches T) context context') (c : ConceptType) (index : Nat) :
    Option.Rel (Node.Matches T) (nestedFor c context index) (nestedFor c context' index) := by
  unfold nestedFor
  split
  · cases hcontext with
    | nil => exact .none
    | cons nodes _ => exact .some nodes
  · exact .none

/-- Reading the members of a type matches, if the parsable ones are no
choices. Induction on the members. -/
theorem matches_readMembers (hP : Pairing P T) (c : ConceptType) {context context' : List Node}
    (hcontext : List.Forall₂ (Node.Matches T) context context') {members : List Member}
    (hfree : ∀ member ∈ members, member.isParsable = true → ∀ values,
      member.value ≠ .choice values)
    (afterReference : Bool) (index : Nat) (hr : r.Matches P r') :
    (readMembers m c context.head? afterReference index members r).Matches P T
      (readMembers m c context'.head? afterReference index members r') := by
  induction members generalizing afterReference index r r' with
  | nil => exact ⟨.nil, .ok .nil, hr⟩
  | cons member rest ih =>
    obtain ⟨hmember, hrest⟩ := List.forall_mem_cons.mp hfree
    cases hparsable : member.isParsable with
    | false =>
      have hothers := ih hrest afterReference (index + 1) hr
      rw [readMembers_unparsable hparsable, readMembers_unparsable hparsable]
      exact ⟨hothers.events, hothers.result.map fun _ _ h => .cons .empty h, hothers.reader⟩
    | true =>
      obtain ⟨hvalue, hs⟩ := matches_readMember m hP c (hmember hparsable)
        (matches_nestedFor hcontext c index) afterReference r r' hr
      cases hread : readMember m c member (nestedFor c context index) afterReference r with
      | mk value s =>
        cases hread' : readMember m c member (nestedFor c context' index) afterReference r' with
        | mk value' s' =>
          -- Either both members are read, and the others follow, or both fail for the same
          -- reason.
          rw [hread, hread'] at hvalue hs
          cases hvalue with
          | error hsame =>
            rw [readMembers_error hparsable hread, readMembers_error hparsable hread']
            exact ⟨.cons (.member hs.position rfl rfl (.error hsame)) .nil, .error hsame, hs⟩
          | @ok v v' h =>
            obtain ⟨slot, after⟩ := v
            obtain ⟨slot', after'⟩ := v'
            obtain ⟨hslot, rfl⟩ : slot.Matches T slot' ∧ after' = after := h
            have hothers := ih hrest after' (index + 1) hs
            rw [readMembers_ok hparsable hread, readMembers_ok hparsable hread']
            exact ⟨.cons (.member hs.position rfl rfl (.ok hslot)) hothers.events,
              hothers.result.map fun _ _ h => .cons hslot h, hothers.reader⟩

/-- A statement read as a type at readers that match. -/
structure Interpretation.Matches (P : Token → Token → Prop) (T : String → String → Prop)
    (i i' : Interpretation) : Prop where
  events : List.Forall₂ (fun e e' => Event.Matches T (.member e) (.member e')) i.events i'.events
  result : SameResult Eq (Node.Matches T) i.result i'.result
  reader : i.reader.Matches P i'.reader

/-- Reading a statement as a type matches. -/
theorem matches_interpret (hP : Pairing P T) {c : ConceptType}
    (hfree : ∀ member ∈ c.members, member.isParsable = true → ∀ values,
      member.value ≠ .choice values) {context context' : List Node}
    (hcontext : List.Forall₂ (Node.Matches T) context context') (hr : r.Matches P r') :
    (interpret m context c r).Matches P T (interpret m context' c r') := by
  unfold interpret
  rcases hr.tryReadKeyword hP c.shownName with ⟨h, h'⟩ | ⟨h, h'⟩
  · rw [h, h']
    exact ⟨.nil, .error rfl, hr⟩
  · rw [h, h']
    have hmembers := matches_readMembers (m := m) hP c hcontext hfree false 0 (hr.advance hP)
    exact ⟨hmembers.events, hmembers.result.map fun _ _ h => .mk h, hmembers.reader⟩

/-- What was read, at readers that match. -/
def MatchesRead (P : Token → Token → Prop) (T : String → String → Prop)
    (x x' : Node × Reader) : Prop := x.1.Matches T x'.1 ∧ x.2.Matches P x'.2

variable {all all' : List Interpretation}

/-- The same interpretations succeed. -/
theorem matches_successes (h : List.Forall₂ (Interpretation.Matches P T) all all') :
    List.Forall₂ (MatchesRead P T) (successes all) (successes all') := by
  rw [successes_eq_filterMap, successes_eq_filterMap]
  refine List.rel_filterMap (fun i i' hi => ?_) h
  have hresult := hi.result
  unfold Interpretation.success?
  generalize i.result = x at hresult ⊢
  generalize i'.result = x' at hresult ⊢
  cases hresult with
  | ok nodes => exact .some ⟨nodes, hi.reader⟩
  | error _ => exact .none

/-- The failure that is reported is the same one. -/
theorem matches_furthest? (h : List.Forall₂ (Interpretation.Matches P T) all all') :
    furthest? all' = furthest? all := by
  induction h with
  | nil => rfl
  | @cons i i' rest rest' hi _ ih =>
    have hresult := hi.result
    rw [furthest?, furthest?, ih, hi.reader.position]
    generalize i.result = x at hresult ⊢
    generalize i'.result = x' at hresult ⊢
    cases hresult with
    | ok nodes => rfl
    | error hsame =>
      rw [hsame]

/-- The choice between interpretations that match comes out alike: lengths
and places are what decides, and these are the same. -/
theorem matches_choose (word : String) (index : Nat)
    (h : List.Forall₂ (Interpretation.Matches P T) all all') :
    SameResult Failure.Matches (MatchesRead P T) (choose m word index all)
      (choose m word index all') := by
  have hsuccesses := matches_successes h
  have hpositions : (successes all).map (·.2.position) = (successes all').map (·.2.position) := by
    rw [← List.forall₂_eq_eq_eq]
    exact List.rel_map (fun _ _ hread => hread.2.position.symm) hsuccesses
  unfold choose
  dsimp only
  -- Lengths count tokens, so both sides have the same longest interpretations.
  rw [← hpositions, matches_furthest? h]
  cases ((successes all).map (·.2.position)).max? with
  | none =>
    cases furthest? all with
    | none => exact .error ⟨rfl, rfl⟩
    | some found => exact .error ⟨rfl, rfl⟩
  | some longest =>
    have hlongest : List.Forall₂ (MatchesRead P T)
        ((successes all).filter (·.2.position == longest))
        ((successes all').filter (·.2.position == longest)) :=
      List.rel_filter (fun _ _ hread => by dsimp only; rw [hread.2.position]) hsuccesses
    dsimp only
    generalize (successes all).filter (·.2.position == longest) = found at hlongest ⊢
    generalize (successes all').filter (·.2.position == longest) = found' at hlongest ⊢
    cases hlongest with
    | nil => exact .error ⟨rfl, rfl⟩
    | cons hbest hothers =>
      cases hothers with
      | nil => exact .ok hbest
      | cons _ _ => exact .error ⟨rfl, rfl⟩

/-- What a part of a statement shows and comes to, at readers that match:
something, and a reader with which reading goes on. -/
structure MatchesStep {α : Type} (P : Token → Token → Prop) (T : String → String → Prop)
    (S : α → α → Prop) (x x' : List Event × Except Failure (α × Reader)) : Prop where
  events : List.Forall₂ (Event.Matches T) x.1 x'.1
  result : SameResult Failure.Matches (fun y y' => S y.1 y'.1 ∧ y.2.Matches P y'.2) x.2 x'.2

namespace MatchesStep

variable {α : Type} {S : α → α → Prop} {events : List Event}
  {x' : List Event × Except Failure (α × Reader)}

/-- Where one part fails, so does the other. -/
theorem of_error {f : Failure} (h : MatchesStep P T S (events, .error f) x') :
    ∃ events' f', x' = (events', .error f') ∧ List.Forall₂ (Event.Matches T) events events'
      ∧ f.Matches f' := by
  obtain ⟨events', result'⟩ := x'
  obtain ⟨hevents, hresult⟩ := h
  cases hresult with
  | error hfailure => exact ⟨events', _, rfl, hevents, hfailure⟩

/-- Where one part reads something, so does the other. -/
theorem of_ok {a : α} {s : Reader} (h : MatchesStep P T S (events, .ok (a, s)) x') :
    ∃ events' a' s', x' = (events', .ok (a', s')) ∧ List.Forall₂ (Event.Matches T) events events'
      ∧ S a a' ∧ s.Matches P s' := by
  obtain ⟨events', result'⟩ := x'
  obtain ⟨hevents, hresult⟩ := h
  cases hresult with
  | @ok _ y' hread => exact ⟨events', y'.1, y'.2, rfl, hevents, hread.1, hread.2⟩

end MatchesStep

/-- Reading a statement matches. -/
theorem matches_readStatement (hP : Pairing P T)
    (hfree : ∀ c ∈ m.types, ∀ member ∈ c.members, member.isParsable = true → ∀ values,
      member.value ≠ .choice values) {context context' : List Node}
    (hcontext : List.Forall₂ (Node.Matches T) context context') (hr : r.Matches P r') :
    MatchesStep P T (Node.Matches T) (readStatement m context r) (readStatement m context' r') := by
  have hcurrent := hr.current hP
  have hstart : Event.Matches T (.statement r) (.statement r') :=
    .statement hr.position hcurrent.word?
  unfold readStatement
  rw [hcurrent.is, hcurrent.word?, hr.position]
  dsimp only
  split
  · exact ⟨.cons hstart .nil, .error ⟨rfl, rfl⟩⟩
  · split
    · exact ⟨.cons hstart .nil, .error ⟨rfl, rfl⟩⟩
    · next word _ =>
      have hall : List.Forall₂ (Interpretation.Matches P T) (interpretations m context word r)
          (interpretations m context' word r') := by
        rw [interpretations, interpretations, List.forall₂_map_left_iff, List.forall₂_map_right_iff,
          List.forall₂_same]
        exact fun c hc => matches_interpret hP (hfree c (List.mem_of_mem_filter hc)) hcontext hr
      refine ⟨.cons hstart ?_, matches_choose word r.position hall⟩
      rw [List.forall₂_map_left_iff, List.forall₂_map_right_iff]
      exact List.rel_flatMap hall fun _ _ hi => hi.events

/-! ### Blocks and ends of statements -/

/-- Closing blocks matches. -/
theorem matches_closeBlocks (hP : Pairing P T) {context context' : List Node}
    (hcontext : List.Forall₂ (Node.Matches T) context context') (hr : r.Matches P r') :
    MatchesStep P T (List.Forall₂ (Node.Matches T)) (closeBlocks context r)
      (closeBlocks context' r') := by
  induction hcontext generalizing r r' with
  | nil =>
    unfold closeBlocks
    rcases hr.tryRead hP "\x7d" with ⟨h, h'⟩ | ⟨h, h'⟩
    · rw [h, h']
      exact ⟨.nil, .ok ⟨.nil, hr⟩⟩
    · rw [h, h']
      exact ⟨.nil, .error ⟨hr.position, rfl⟩⟩
  | cons nodes houter ih =>
    unfold closeBlocks
    rcases hr.tryRead hP "\x7d" with ⟨h, h'⟩ | ⟨h, h'⟩
    · rw [h, h']
      exact ⟨.nil, .ok ⟨.cons nodes houter, hr⟩⟩
    · rw [h, h']
      have hnext := hr.advance hP
      have hothers := ih hnext
      exact ⟨.cons (.block hnext.position houter) hothers.events, hothers.result⟩

/-- The end of a statement matches. -/
theorem matches_endStatement (hP : Pairing P T) {n n' : Node} (hn : n.Matches T n')
    {context context' : List Node} (hcontext : List.Forall₂ (Node.Matches T) context context')
    (hr : r.Matches P r') :
    MatchesStep P T (List.Forall₂ (Node.Matches T)) (endStatement m n context r)
      (endStatement m n' context' r') := by
  have hnext := hr.advance hP
  unfold endStatement
  rcases hr.tryRead hP "\x7b" with ⟨h, h'⟩ | ⟨h, h'⟩
  · rw [h, h']
    rcases hr.tryRead hP ";" with ⟨h, h'⟩ | ⟨h, h'⟩
    · rw [h, h']
      exact ⟨.nil, .error ⟨hr.position, rfl⟩⟩
    · rw [h, h']
      exact matches_closeBlocks hP hcontext hnext
  · rw [h, h']
    have hinner : List.Forall₂ (Node.Matches T) (n :: context) (n' :: context') :=
      .cons hn hcontext
    have hblocks := matches_closeBlocks hP hinner hnext
    exact ⟨.cons (.block hnext.position hinner) hblocks.events, hblocks.result⟩

/-! ### Scripts -/

/-- A parse of streams that stand for each other. -/
structure Parse.Matches (T : String → String → Prop) (x x' : Parse) : Prop where
  events : List.Forall₂ (Event.Matches T) x.events x'.events
  result : SameResult Failure.Matches (List.Forall₂ (Node.Matches T)) x.result x'.result

/-- Parsing matches. Induction along the parse, one statement at a time. -/
theorem matches_parseFrom (hP : Pairing P T)
    (hfree : ∀ c ∈ m.types, ∀ member ∈ c.members, member.isParsable = true → ∀ values,
      member.value ≠ .choice values) {context context' : List Node}
    (hcontext : List.Forall₂ (Node.Matches T) context context') (hr : r.Matches P r') :
    (parseFrom m context r).Matches T (parseFrom m context' r') := by
  -- Both parses take the same turn at each statement, so their recursions are one.
  fun_induction parseFrom m context r generalizing context' r' with
  | case1 r hend =>
    cases hcontext
    rw [parseFrom_of_atEnd ((hr.atEnd hP).trans hend)]
    exact ⟨.nil, .ok .nil⟩
  | case2 r hend n outer =>
    cases hcontext
    rw [parseFrom, if_pos ((hr.atEnd hP).trans hend)]
    exact ⟨.nil, .error ⟨hr.position, rfl⟩⟩
  | case3 context r hend events failure hread =>
    have hend' := (hr.atEnd hP).trans (Bool.eq_false_iff.mpr hend)
    obtain ⟨events', failure', hread', hevents, hfailure⟩ :=
      (hread ▸ matches_readStatement hP hfree hcontext hr).of_error
    rw [parseFrom_of_head_error hend' hread']
    exact ⟨hevents, .error hfailure⟩
  | case4 context r hend events n afterHead hread closing failure hending =>
    have hend' := (hr.atEnd hP).trans (Bool.eq_false_iff.mpr hend)
    obtain ⟨events', n', afterHead', hread', hevents, hn, hafter⟩ :=
      (hread ▸ matches_readStatement hP hfree hcontext hr).of_ok
    obtain ⟨closing', failure', hending', hclosing, hfailure⟩ :=
      (hending ▸ matches_endStatement hP hn hcontext hafter).of_error
    rw [parseFrom_of_ending_error hend' hread' hending']
    exact ⟨List.rel_append hevents hclosing, .error hfailure⟩
  | case5 =>
    rename_i context r hend events n afterHead hread closing inner next hending _ ih
    have hend' := (hr.atEnd hP).trans (Bool.eq_false_iff.mpr hend)
    obtain ⟨events', n', afterHead', hread', hevents, hn, hafter⟩ :=
      (hread ▸ matches_readStatement hP hfree hcontext hr).of_ok
    obtain ⟨closing', inner', next', hending', hclosing, hinner, hnext⟩ :=
      (hending ▸ matches_endStatement hP hn hcontext hafter).of_ok
    have hothers := ih hinner hnext
    rw [parseFrom_of_ok hend' hread' hending']
    exact ⟨List.rel_append (List.rel_append hevents hclosing) hothers.events,
      hothers.result.map fun _ _ h => .cons hn h⟩

/-- A text of the second stream for one of the first: it is the same, or they
are the texts of quoted strings or external texts at one place of the two
streams. -/
def SameText (tokens tokens' : List Token) (value value' : String) : Prop :=
  value' = value ∨ ∃ t t', (t, t') ∈ tokens.zip tokens' ∧ t.kind.isContent = true
    ∧ value = t.value ∧ value' = t'.value

/-- The tokens at one place of two streams stand for each other. -/
theorem pairing_zip (tokens tokens' : List Token) :
    Pairing (fun t t' => t.SameFrame t' ∧ (t, t') ∈ tokens.zip tokens')
      (SameText tokens tokens') where
  frame h := h.1
  text := by
    intro t t' ⟨hframe, hmem⟩
    cases hcontent : t.kind.isContent with
    | false => exact .inl (hframe.value hcontent)
    | true => exact .inr ⟨t, t', hmem, hcontent, rfl, rfl⟩

/-- Two streams of tokens that differ only in the texts of quoted strings and
external texts are parsed alike. Both give concepts, and these differ at most
in such texts; or both fail, with the same code at the same token. On the way
the same keywords, members and blocks are seen at the same places. -/
theorem parse_ignores_contents (m : Model)
    (hfree : ∀ c ∈ m.types, ∀ member ∈ c.members, member.isParsable = true → ∀ values,
      member.value ≠ .choice values) {tokens tokens' : List Token}
    (h : List.Forall₂ Token.SameFrame tokens tokens') :
    (parse m tokens).Matches (SameText tokens tokens') (parse m tokens') := by
  have hpaired : List.Forall₂
      (fun t t' => t.SameFrame t' ∧ (t, t') ∈ tokens.zip tokens') tokens tokens' := by
    rw [List.forall₂_iff_zip] at h ⊢
    exact ⟨h.1, fun hmem => ⟨h.2 hmem, hmem⟩⟩
  exact matches_parseFrom (pairing_zip tokens tokens') hfree .nil ⟨.nil, hpaired⟩

/-- The tokens of `module '…';`, whatever is in the quotes. -/
def quotedModule (name : String) : List Token :=
  [⟨.word, "module", 0, 6⟩, ⟨.quoted .single, name, 7, 12⟩, ⟨.special, ";", 12, 13⟩, .endAt 13]

/-- A module is named `};.`, which ends nothing. -/
theorem parse_ignores_contents_of_braces :
    List.Forall₂ Token.SameFrame (quotedModule "Abc") (quotedModule "\x7d;.")
      ∧ (parse moduleModel (quotedModule "Abc")).result = .ok [.mk 0 [.text "Abc"]]
      ∧ (parse moduleModel (quotedModule "Abc")).Matches
        (SameText (quotedModule "Abc") (quotedModule "\x7d;."))
        (parse moduleModel (quotedModule "\x7d;.")) := by
  have hframe : List.Forall₂ Token.SameFrame (quotedModule "Abc") (quotedModule "\x7d;.") :=
    .cons (.refl _) (.cons ⟨rfl, rfl, rfl, fun h => (by cases h)⟩ (.cons (.refl _)
      (.cons (.refl _) .nil)))
  have hread : (parse moduleModel (quotedModule "Abc")).result = .ok [.mk 0 [.text "Abc"]] := by
    rw [parse, parseFrom_of_ok rfl rfl rfl, parseFrom_of_atEnd rfl]
    rfl
  refine ⟨hframe, hread, parse_ignores_contents moduleModel ?_ hframe⟩
  simp [moduleModel]

end ConceptScript.Script
