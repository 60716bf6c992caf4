import ConceptScript.Proofs.Model.Loading
import ConceptScript.Proofs.Script.KeyLayout
import ConceptScript.Proofs.Script.ReferenceDepth

/-!
# `ConceptScript.Proofs.Script.ViablePrefix`: where readings fail

A reading is sharp (`Reading.Sharp`) when it fails as soon as it must and
not before: what stands in front of the token that it fails for can be
completed, and whatever comes after this token it fails in the same way.
Sharp readings after one another are sharp (`Sharp.bind`). So references
are, unless some key of theirs can be any concept, and so are statements as
a type.

The token that a reading fails for need not be the one that it stops at. A
word that is not one of a choice is read before it is looked up, so reading
stops behind it (`Mismatch.overshoot`). `interpret_fails_first` says what
the place of a failure is worth with this exception, and
`not_completable_of_unlisted` that there is one.
-/

set_option autoImplicit false

namespace ConceptScript.Script

open ConceptScript.Text
open ConceptScript.Model (TypeId Member KeyLeads)

/-- How many tokens behind the one that it is about a mismatch stands. -/
def Mismatch.overshoot : Mismatch → Nat
  | .invalidValue _ _ _ => 1
  | .expectedKeyword _ | .expectedText _ | .expectedDotAfterParent _ _
  | .expectedDotBetweenKeys _ | .notNested _ _ | .notReferable _ _ | .endlessReference _ => 0

namespace Reading

variable {α β : Type}

/-- Tokens that a reading takes, whatever stands around them. -/
def Takes (p : Reading α) (w : List Token) (a : α) : Prop :=
  ∀ before rest, p ⟨before, w ++ rest⟩ = (.ok a, ⟨w.reverse ++ before, rest⟩)

/-- Tokens of which none is the end of a script. -/
def Unended (w : List Token) : Prop := ∀ t ∈ w, t.isEnd = false

/-- A failure is sharp when it is due to one token. What was read before
this token can be completed, and nothing can be read if this token follows. -/
structure FailsSharply (p : Reading α) (r : Reader) (why : Mismatch) (r' : Reader)
    (kept : List Token) : Prop where
  reads : ∃ passed, r.Reads (kept ++ passed) r' ∧ passed.length = why.overshoot
  viable : ∃ more a, Unended more ∧ Takes p (kept ++ more) a
  decided : ∀ s : Reader, s.before = r.before →
    s.rest.take (kept.length + 1) = r.rest.take (kept.length + 1) →
      ∃ s', p s = (.error why, s') ∧ s'.position = r'.position

/-- A reading that can succeed, takes what it takes whatever stands around
it, and fails sharply. -/
structure Sharp (p : Reading α) : Prop where
  takes : ∀ {r a r'}, p r = (.ok a, r') → ∃ w, r.Reads w r' ∧ Takes p w a
  possible : ∃ w a, Unended w ∧ Takes p w a
  fails : ∀ {r why r'}, p r = (.error why, r') → ∃ kept, FailsSharply p r why r' kept

/-! ### One after another -/

/-- After a reading that succeeds the next one goes on from there. -/
theorem bind_of_ok {p : Reading α} {q : α → Reading β} {r r' : Reader} {a : α}
    (h : p r = (.ok a, r')) : (p >>= q) r = q a r' := by
  show andThen p q r = _
  rw [andThen, h]

/-- After a reading that fails nothing more is read. -/
theorem bind_of_error {p : Reading α} {q : α → Reading β} {r r' : Reader} {why : Mismatch}
    (h : p r = (.error why, r')) : (p >>= q) r = (.error why, r') := by
  show andThen p q r = _
  rw [andThen, h]

/-- Changing the value of a reading leaves its reader and its failures. -/
theorem map_apply (p : Reading α) (f : α → β) (r : Reader) :
    (p >>= fun a => pure (f a)) r = ((p r).1.map f, (p r).2) := by
  cases h : p r with
  | mk value r' =>
    cases value with
    | ok a => exact bind_of_ok h
    | error why => exact bind_of_error h

/-- Two readings take tokens of the one and then tokens of the other. -/
theorem Takes.bind {p : Reading α} {q : α → Reading β} {u v : List Token} {a : α} {b : β}
    (hp : Takes p u a) (hq : Takes (q a) v b) : Takes (p >>= q) (u ++ v) b := by
  intro before rest
  rw [List.append_assoc, bind_of_ok (hp before (v ++ rest)), hq, List.reverse_append,
    List.append_assoc]

/-- Tokens in a row do not end the script if none of them does. -/
theorem unended_append {u v : List Token} (hu : Unended u) (hv : Unended v) : Unended (u ++ v) :=
  fun t ht => (List.mem_append.mp ht).elim (hu t) (hv t)

/-- A list that starts like `u ++ v` is `u` and a list that starts like `v`. -/
theorem exists_of_take_eq {u v w : List Token} {n : Nat}
    (h : w.take (u.length + n) = (u ++ v).take (u.length + n)) :
    ∃ v', w = u ++ v' ∧ v'.take n = v.take n := by
  rw [List.take_length_add_append] at h
  have hfront := congrArg (List.take u.length) h
  have hback := congrArg (List.drop u.length) h
  rw [List.take_take, Nat.min_eq_left (Nat.le_add_right _ _), List.take_left] at hfront
  rw [List.drop_take, Nat.add_sub_cancel_left, List.drop_left] at hback
  exact ⟨w.drop u.length, (List.take_append_drop u.length w).symm.trans (by rw [hfront]), hback⟩

variable {p : Reading α} {q : α → Reading β}

/-- If the second of two readings fails, the two do. -/
theorem FailsSharply.after {r middle r' : Reader} {why : Mismatch} {u kept : List Token} {a : α}
    (hread : r.Reads u middle) (hp : Takes p u a) (h : FailsSharply (q a) middle why r' kept) :
    FailsSharply (p >>= q) r why r' (u ++ kept) where
  reads := by
    obtain ⟨passed, hreads, hpassed⟩ := h.reads
    refine ⟨passed, ?_, hpassed⟩
    rw [List.append_assoc]
    exact Reader.reads_append.mpr ⟨middle, hread, hreads⟩
  viable := by
    obtain ⟨more, b, hmore, htakes⟩ := h.viable
    refine ⟨more, b, hmore, ?_⟩
    rw [List.append_assoc]
    exact hp.bind htakes
  decided := by
    intro s hbefore hrest
    rw [hread.rest, List.length_append, Nat.add_assoc] at hrest
    obtain ⟨rest, hs, hsame⟩ := exists_of_take_eq hrest
    -- The first reading takes the same tokens on the other stream, so the second one is at the
    -- same place there.
    obtain ⟨s', hfail, hposition⟩ := h.decided ⟨u.reverse ++ s.before, rest⟩
      (by rw [hbefore, hread.before]) hsame
    have hfirst : p s = (.ok a, ⟨u.reverse ++ s.before, rest⟩) := by
      have := hp s.before rest
      rwa [← hs] at this
    exact ⟨s', (bind_of_ok hfirst).trans hfail, hposition⟩

/-- If the first of two readings fails, the two do, as long as the second
one could succeed. -/
theorem FailsSharply.before {r r' : Reader} {why : Mismatch} {kept : List Token}
    (h : FailsSharply p r why r' kept) (hq : ∀ a, Sharp (q a)) :
    FailsSharply (p >>= q) r why r' kept where
  reads := h.reads
  viable := by
    obtain ⟨more, a, hmore, htakes⟩ := h.viable
    obtain ⟨v, b, hv, hnext⟩ := (hq a).possible
    refine ⟨more ++ v, b, unended_append hmore hv, ?_⟩
    rw [← List.append_assoc]
    exact htakes.bind hnext
  decided := by
    intro s hbefore hrest
    obtain ⟨s', hfail, hposition⟩ := h.decided s hbefore hrest
    exact ⟨s', bind_of_error hfail, hposition⟩

/-- Sharp readings after one another are sharp. -/
theorem Sharp.bind (hp : Sharp p) (hq : ∀ a, Sharp (q a)) : Sharp (p >>= q) where
  takes := by
    intro r b r' h
    cases hfirst : p r with
    | mk value middle =>
      cases value with
      | error why => cases (bind_of_error hfirst).symm.trans h
      | ok a =>
        obtain ⟨u, hread, hu⟩ := hp.takes hfirst
        obtain ⟨v, hread', hv⟩ := (hq a).takes ((bind_of_ok hfirst).symm.trans h)
        exact ⟨u ++ v, Reader.reads_append.mpr ⟨middle, hread, hread'⟩, hu.bind hv⟩
  possible := by
    obtain ⟨u, a, hu, htakes⟩ := hp.possible
    obtain ⟨v, b, hv, htakes'⟩ := (hq a).possible
    exact ⟨u ++ v, b, unended_append hu hv, htakes.bind htakes'⟩
  -- The failure is that of the first reading, completed by the second one, or it is that of the
  -- second one, after what the first one took.
  fails := by
    intro r why r' h
    cases hfirst : p r with
    | mk value middle =>
      cases value with
      | error why' =>
        cases (bind_of_error hfirst).symm.trans h
        obtain ⟨kept, hkept⟩ := hp.fails hfirst
        exact ⟨kept, hkept.before hq⟩
      | ok a =>
        obtain ⟨u, hread, hu⟩ := hp.takes hfirst
        obtain ⟨kept, hkept⟩ := (hq a).fails ((bind_of_ok hfirst).symm.trans h)
        exact ⟨u ++ kept, .after hread hu hkept⟩

/-! ### Single steps -/

/-- Reading nothing is sharp: it does not fail. -/
theorem sharp_pure (a : α) : Sharp (pure a : Reading α) where
  takes := by
    intro r b r' h
    cases h
    exact ⟨[], .nil r, fun _ _ => rfl⟩
  possible := ⟨[], a, fun _ h => absurd h List.not_mem_nil, fun _ _ => rfl⟩
  fails h := by cases h

/-- Changing the value of a reading keeps it sharp. -/
theorem Sharp.map (hp : Sharp p) (f : α → β) : Sharp (p >>= fun a => pure (f a)) :=
  hp.bind fun _ => sharp_pure _

/-- Readers with the same token ahead are at this token. -/
theorem current_eq_of_take {r s : Reader} (h : s.rest.take 1 = r.rest.take 1) :
    s.current = r.current := by
  obtain ⟨_, rest⟩ := r
  obtain ⟨_, rest'⟩ := s
  cases rest <;> cases rest' <;> simp_all [Reader.current]

/-- A step that reads one token of a certain sort. At other tokens it fails,
and the token says why. -/
theorem sharp_of_token (P : Token → Prop) (value : Token → α) (why : Token → Mismatch)
    (hP : ∀ t, P t → t.isEnd = false) (hexists : ∃ t, P t)
    (hok : ∀ r, P r.current → p r = (.ok (value r.current), r.advance))
    (hfail : ∀ r, ¬P r.current → ∃ passed r', r.Reads passed r'
      ∧ passed.length = (why r.current).overshoot ∧ p r = (.error (why r.current), r')) :
    Sharp p := by
  have htakes : ∀ t, P t → Takes p [t] (value t) := by
    intro t ht before rest
    have hreads : (⟨before, [t] ++ rest⟩ : Reader).Reads [t] ⟨[t].reverse ++ before, rest⟩ :=
      ⟨rfl, rfl⟩
    obtain ⟨hcurrent, hadvance⟩ := (Reader.reads_singleton (hP t ht)).mp hreads
    rw [hadvance, hok _ (hcurrent.symm ▸ ht), hcurrent]
  obtain ⟨sample, hsample⟩ := hexists
  have hpossible : Unended [sample] := fun t ht => List.mem_singleton.mp ht ▸ hP _ hsample
  refine ⟨fun {r a r'} h => ?_, ⟨[sample], _, hpossible, htakes sample hsample⟩,
    fun {r why' r'} h => ?_⟩
  · by_cases hcurrent : P r.current
    · cases (hok r hcurrent).symm.trans h
      exact ⟨[r.current], Reader.reads_advance (hP _ hcurrent), htakes _ hcurrent⟩
    · obtain ⟨_, _, _, _, herror⟩ := hfail r hcurrent
      cases herror.symm.trans h
  · by_cases hcurrent : P r.current
    · cases (hok r hcurrent).symm.trans h
    · obtain ⟨passed, _, hreads, hlength, herror⟩ := hfail r hcurrent
      cases herror.symm.trans h
      refine ⟨[], ⟨passed, hreads, hlength⟩, ⟨[sample], _, hpossible, htakes sample hsample⟩, ?_⟩
      intro s hbefore hrest
      -- The failure is the same at the same token, and stands as far behind it.
      have hsame := current_eq_of_take hrest
      obtain ⟨passed', s', hreads', hlength', herror'⟩ := hfail s (hsame ▸ hcurrent)
      rw [hsame] at hlength' herror'
      refine ⟨s', herror', ?_⟩
      rw [hreads'.position, hreads.position, hlength', hlength, Reader.position, hbefore,
        Reader.position]

/-- Reading a text is sharp: one token decides. -/
theorem sharp_textToken : Sharp textToken :=
  sharp_of_token (·.kind.isValue = true) id .expectedText
    (fun _ his => Token.isEnd_of_isValue his) ⟨⟨.word, "", 0, 0⟩, rfl⟩ (fun _ his => if_pos his)
    fun r hnot => ⟨[], r, .nil r, rfl, if_neg hnot⟩

/-- Reading a dot where one is needed is sharp, if it fails in its place. -/
theorem sharp_dotIf (needed : Bool) {why : Mismatch} (hwhy : why.overshoot = 0) :
    Sharp (dotIf needed why) := by
  cases needed with
  | false => exact sharp_pure ()
  | true =>
    refine sharp_of_token (·.is "." = true) (fun _ => ()) (fun _ => why)
      (fun _ his => Token.isEnd_of_is his) ⟨⟨.special, ".", 0, 1⟩, rfl⟩ (fun r his => ?_)
      fun r hnot => ⟨[], r, .nil r, hwhy.symm, ?_⟩
    · show dot why r = _
      rw [dot, Reader.tryRead_of_is his]
    · show dot why r = _
      rw [dot, Reader.tryRead_eq_none_iff.mpr (Bool.eq_false_iff.mpr hnot)]

/-- A word that is looked up in a list. -/
theorem sharp_listed {values : List String} (hvalues : values ≠ []) (member : String)
    (f : String → α) :
    Sharp (textToken >>= fun t => match values.find? (sameIgnoringAsciiCase · t.value) with
      | some value => pure (f value)
      | none => fail (.invalidValue t.value member values)) := by
  obtain ⟨first, hfirst⟩ := List.exists_mem_of_ne_nil values hvalues
  have hlisted : (values.find? (sameIgnoringAsciiCase · first)).isSome = true :=
    List.find?_isSome.mpr ⟨first, hfirst, sameIgnoringAsciiCase_self first⟩
  -- One token decides: it has to be a value, and one of the list.
  refine sharp_of_token
    (fun t => t.kind.isValue = true
      ∧ (values.find? (sameIgnoringAsciiCase · t.value)).isSome = true)
    (fun t => f ((values.find? (sameIgnoringAsciiCase · t.value)).getD ""))
    (fun t => if t.kind.isValue = true then .invalidValue t.value member values
      else .expectedText t)
    (fun _ his => Token.isEnd_of_isValue his.1) ⟨⟨.word, first, 0, 0⟩, rfl, hlisted⟩
    (fun r his => ?_) fun r hnot => ?_
  · obtain ⟨value, hvalue⟩ := Option.isSome_iff_exists.mp his.2
    rw [bind_of_ok (if_pos his.1), hvalue]
    rfl
  · by_cases his : r.current.kind.isValue = true
    · -- The word is read before it is looked up.
      have hnone : values.find? (sameIgnoringAsciiCase · r.current.value) = none := by
        rw [← Option.not_isSome_iff_eq_none]
        exact fun hsome => hnot ⟨his, hsome⟩
      refine ⟨[r.current], r.advance, Reader.reads_advance (Token.isEnd_of_isValue his), ?_, ?_⟩
      · rw [if_pos his]
        rfl
      · rw [bind_of_ok (if_pos his), hnone, if_pos his]
        rfl
    · refine ⟨[], r, .nil r, ?_, ?_⟩
      · rw [if_neg his]
        rfl
      · rw [bind_of_error (if_neg his), if_neg his]

end Reading

open Reading

variable {m : Model}

/-! ### References -/

/-- Reading keys is sharp, if reading the references among them is and none
can be any concept. Induction on the members. -/
theorem sharp_readKeys {reference : TypeId → Reading Node} {members : List Member}
    (hkeys : ∀ member ∈ members.filter (·.isKey), member.value ≠ .anyConcept
      ∧ ∀ target, member.value = .concept target → Sharp (reference target))
    (typeName : String) (later : Bool) : Sharp (readKeys reference typeName later members) := by
  induction members generalizing later with
  | nil => exact sharp_pure _
  | cons member rest ih =>
    unfold readKeys
    split
    · next hkey =>
      rw [List.filter_cons_of_pos hkey] at hkeys
      obtain ⟨⟨hany, htarget⟩, hrest⟩ := List.forall_mem_cons.mp hkeys
      have hown : Sharp (readKey reference typeName member) := by
        unfold readKey
        split
        · exact sharp_textToken.map _
        · exact sharp_textToken.map _
        · next target hvalue => exact (htarget target hvalue).map _
        · next hvalue => exact absurd hvalue hany
      exact (sharp_dotIf later rfl).bind fun _ => hown.bind fun _ => (ih hrest true).map _
    · next hkey =>
      rw [List.filter_cons_of_neg hkey] at hkeys
      exact (ih hkeys later).map _

/-- Reading a reference that can be written is sharp. Induction along the
keys, which lead in no circle. -/
theorem sharp_readReference (hm : m.Accepted) {type : TypeId} (htype : type < m.types.length)
    (h : Referable m type) : Sharp (readReference m type) := by
  induction type, htype using hm.induction_on_keys with
  | step type htype ih =>
    obtain ⟨hany, htargets⟩ := referable_iff.mp h
    rw [readReference_eq hm htype]
    refine Sharp.map (sharp_readKeys (fun member hmem => ?_) _ _) _
    refine ⟨hany member hmem, fun target hvalue => ?_⟩
    have hlead := keyLeads_iff_exists_key.mpr ⟨member, hmem, hvalue⟩
    exact ih target hlead (htargets target hlead)

/-! ### Members -/

/-- A member that is written whatever the statement stands in: it need not
be filled from a block, and a reference for it can be written. -/
structure Writable (m : Model) (member : Member) : Prop where
  notAny : member.value ≠ .anyConcept
  referable : ∀ target, member.value = .concept target → Referable m target

/-- Reading a member that can be written is sharp. -/
theorem sharp_readMember (hm : m.Accepted) {c : ConceptType} (hc : c ∈ m.types) {member : Member}
    (hmember : member ∈ c.members) (h : Writable m member) (parent : Option Node)
    (afterReference : Bool) : Sharp (readMember m c member parent afterReference) := by
  refine (sharp_dotIf _ rfl).bind fun _ => ?_
  unfold readValue
  split
  · exact sharp_textToken.map _
  · next values hvalue => exact sharp_listed (hm.choice_ne_nil hc hmember hvalue) _ _
  · next hvalue => exact absurd hvalue h.notAny
  · next target hvalue =>
    split
    · exact sharp_pure _
    · exact (sharp_readReference hm (hm.reference_lt hc hmember hvalue)
        (h.referable target hvalue)).map _

/-- Reading members of a type, without the events. -/
def membersReading (m : Model) (c : ConceptType) (context : List Node) (afterReference : Bool)
    (index : Nat) (members : List Member) : Reading (List Slot) := fun r =>
  let read := readMembers m c context.head? afterReference index members r
  (read.result, read.reader)

section

variable {c : ConceptType} {context : List Node} {afterReference : Bool} {index : Nat}
  {member : Member} {rest : List Member}

/-- A member that is not parsable is left empty. This and the next lemma take
the reading of members apart, as the recursion does. -/
theorem membersReading_unparsable (h : member.isParsable = false) :
    membersReading m c context afterReference index (member :: rest)
      = membersReading m c context afterReference (index + 1) rest >>= fun slots =>
        pure (.empty :: slots) := by
  funext r
  rw [map_apply, membersReading, readMembers_unparsable h]
  rfl

/-- A parsable member is read, and the others after it. -/
theorem membersReading_parsable (h : member.isParsable = true) :
    membersReading m c context afterReference index (member :: rest)
      = readMember m c member (nestedFor c context index) afterReference >>= fun v =>
        membersReading m c context v.2 (index + 1) rest >>= fun slots => pure (v.1 :: slots) := by
  funext r
  cases hfirst : readMember m c member (nestedFor c context index) afterReference r with
  | mk value r' =>
    cases value with
    | error why =>
      rw [bind_of_error hfirst, membersReading, readMembers_error h hfirst]
    | ok v =>
      rw [bind_of_ok hfirst, map_apply, membersReading, readMembers_ok h hfirst]
      rfl

end

/-- Reading members that can be written is sharp. Induction on the members. -/
theorem sharp_membersReading (hm : m.Accepted) {c : ConceptType} (hc : c ∈ m.types)
    {members : List Member} (hmembers : members ⊆ c.members)
    (h : ∀ member ∈ members, member.isParsable = true → Writable m member) (context : List Node)
    (afterReference : Bool) (index : Nat) :
    Sharp (membersReading m c context afterReference index members) := by
  induction members generalizing afterReference index with
  | nil => exact sharp_pure _
  | cons member rest ih =>
    obtain ⟨hmember, hsub⟩ := List.cons_subset.mp hmembers
    obtain ⟨hfirst, hrest⟩ := List.forall_mem_cons.mp h
    have htail := ih hsub hrest
    cases hparsable : member.isParsable with
    | false =>
      rw [membersReading_unparsable hparsable]
      exact (htail _ _).map _
    | true =>
      rw [membersReading_parsable hparsable]
      exact (sharp_readMember hm hc hmember (hfirst hparsable) _ _).bind fun v =>
        (htail _ _).map _

/-! ### Statements as a type -/

/-- Reading the keyword of a type. -/
def keywordReading (keyword : String) : Reading Unit := fun r =>
  match r.tryReadKeyword keyword with
  | some r' => (.ok (), r')
  | none => (.error (.expectedKeyword keyword), r)

/-- Reading the keyword is sharp. The word that is given for the completion
is the keyword itself. -/
theorem sharp_keywordReading (keyword : String) : Sharp (keywordReading keyword) := by
  refine sharp_of_token (fun t => t.kind = .word ∧ sameIgnoringAsciiCase t.value keyword = true)
    (fun _ => ()) (fun _ => .expectedKeyword keyword) (fun _ his => Token.isEnd_of_word his.1)
    ⟨⟨.word, keyword, 0, 0⟩, rfl, sameIgnoringAsciiCase_self keyword⟩ (fun r his => ?_)
    fun r hnot => ⟨[], r, .nil r, rfl, ?_⟩
  · rw [keywordReading, Reader.tryReadKeyword, if_pos his]
  · rw [keywordReading, Reader.tryReadKeyword, if_neg hnot]

/-- Reading a statement as a type, without the events. -/
def headReading (m : Model) (context : List Node) (c : ConceptType) : Reading Node :=
  keywordReading c.shownName >>= fun _ =>
    membersReading m c context false 0 c.members >>= fun slots => pure (.mk c.id slots)

/-- A head is read as the statement is interpreted, without the attempts. -/
theorem headReading_apply (m : Model) (context : List Node) (c : ConceptType) (r : Reader) :
    headReading m context c r =
      ((interpret m context c r).result, (interpret m context c r).reader) := by
  unfold interpret
  split
  · next h =>
    have hfirst : keywordReading c.shownName r = (.error (.expectedKeyword c.shownName), r) := by
      rw [keywordReading, h]
    exact bind_of_error hfirst
  · next r' h =>
    have hfirst : keywordReading c.shownName r = (.ok (), r') := by
      rw [keywordReading, h]
    exact (bind_of_ok hfirst).trans (map_apply _ _ _)

/-- Reading a head of a type is sharp, if its members can be written. -/
theorem sharp_headReading (hm : m.Accepted) {c : ConceptType} (hc : c ∈ m.types)
    (h : ∀ member ∈ c.members, member.isParsable = true → Writable m member)
    (context : List Node) : Sharp (headReading m context c) :=
  (sharp_keywordReading _).bind fun _ =>
    (sharp_membersReading hm hc (List.Subset.refl _) h context false 0).map _

/-! ### The place of a failure -/

/-- At one place in a script, the tokens that are left are told by all. -/
theorem Reader.rest_of_tokens {r s : Reader} {w : List Token} (hposition : s.position = r.position)
    (h : s.tokens = r.before.reverse ++ w) : s.before = r.before ∧ s.rest = w := by
  have hlength : s.before.reverse.length = r.before.reverse.length := by
    rw [List.length_reverse, List.length_reverse]
    exact hposition
  obtain ⟨hbefore, hrest⟩ := List.append_inj h hlength
  exact ⟨List.reverse_inj.mp hbefore, hrest⟩

/-- The first tokens of the stream of a reader are those read and some of
those ahead. -/
theorem Reader.take_tokens (r : Reader) (n : Nat) :
    r.tokens.take (r.position + n) = r.before.reverse ++ r.rest.take n := by
  rw [Reader.tokens, Reader.position, ← List.length_reverse, List.take_length_add_append]

/-- Streams that start with the same tokens have the same ones behind and
ahead of readers at the same position. -/
theorem Reader.rest_of_take_tokens {r s : Reader} {n : Nat} (hposition : s.position = r.position)
    (h : s.tokens.take (r.position + n) = r.tokens.take (r.position + n)) :
    s.before = r.before ∧ s.rest.take n = r.rest.take n := by
  rw [r.take_tokens, ← hposition, s.take_tokens] at h
  exact Reader.rest_of_tokens (s := ⟨s.before, s.rest.take n⟩) hposition h

namespace Reading.FailsSharply

variable {α : Type} {p : Reading α} {r r' : Reader} {why : Mismatch} {kept : List Token}

/-- The token that a reading fails for comes after those that are kept. -/
theorem place (h : FailsSharply p r why r' kept) :
    r'.position = r.position + kept.length + why.overshoot
      ∧ r.tokens.take (r.position + kept.length) = r.before.reverse ++ kept := by
  obtain ⟨passed, hreads, hpassed⟩ := h.reads
  constructor
  · rw [hreads.position, List.length_append, hpassed]
    omega
  · rw [r.take_tokens, hreads.rest, List.append_assoc, List.take_left]

/-- A sharp failure is the same on every stream with the same tokens up to
the one that decides it. -/
theorem decided_of_take (h : FailsSharply p r why r' kept) {s : Reader}
    (hposition : s.position = r.position)
    (hsame : s.tokens.take (r.position + kept.length + 1)
      = r.tokens.take (r.position + kept.length + 1)) :
    ∃ s', p s = (.error why, s') ∧ s'.position = r'.position := by
  rw [Nat.add_assoc] at hsame
  obtain ⟨hbefore, hrest⟩ := Reader.rest_of_take_tokens hposition hsame
  exact h.decided s hbefore hrest

/-- What was read before a sharp failure can be completed, so that the
reading succeeds. -/
theorem exists_completion (h : FailsSharply p r why r' kept) :
    ∃ more, Unended more ∧ ∀ s rest, s.position = r.position →
      s.tokens = r.tokens.take (r.position + kept.length) ++ more ++ rest →
        ∃ a s', p s = (.ok a, s') := by
  obtain ⟨more, a, hmore, htakes⟩ := h.viable
  refine ⟨more, hmore, fun s rest hposition htokens =>
    ⟨a, ⟨(kept ++ more).reverse ++ s.before, rest⟩, ?_⟩⟩
  rw [h.place.2, List.append_assoc, List.append_assoc] at htokens
  obtain ⟨_, hrest⟩ := Reader.rest_of_tokens hposition htokens
  have hread := htakes s.before rest
  rwa [List.append_assoc, ← hrest] at hread

/-- Where a reading stops, the tokens before can be completed if and only if
it stops at the token that it fails for. -/
theorem exists_same_front_iff (h : FailsSharply p r why r' kept) :
    (∃ s a s', s.position = r.position
      ∧ s.tokens.take r'.position = r.tokens.take r'.position ∧ p s = (.ok a, s'))
      ↔ why.overshoot = 0 := by
  obtain ⟨hplace, hkept⟩ := h.place
  constructor
  · rintro ⟨s, a, s', hposition, hfront, hok⟩
    by_contra hovershoot
    -- The token that it fails for is one of those in front.
    have hsame := congrArg (List.take (r.position + kept.length + 1)) hfront
    rw [List.take_take, List.take_take, Nat.min_eq_left (by omega)] at hsame
    obtain ⟨_, herror, _⟩ := h.decided_of_take hposition hsame
    cases herror.symm.trans hok
  · intro hexact
    obtain ⟨more, _, hcompleted⟩ := h.exists_completion
    rw [hexact, Nat.add_zero] at hplace
    have htokens : Reader.tokens ⟨r.before, kept ++ more⟩ = r.before.reverse ++ kept ++ more :=
      (List.append_assoc ..).symm
    obtain ⟨a, s', hok⟩ := hcompleted ⟨r.before, kept ++ more⟩ [] rfl
      (by rw [hkept, htokens, List.append_nil])
    refine ⟨⟨r.before, kept ++ more⟩, a, s', rfl, ?_, hok⟩
    have hlength : (r.before.reverse ++ kept).length = r'.position := by
      rw [hplace, List.length_append, List.length_reverse]
      rfl
    rw [htokens, List.take_left' hlength, hplace, hkept]

end Reading.FailsSharply

/-- A statement that cannot be read as a type fails at the first token that
it cannot go on with, if all its members can be written. Take the place at
which reading stopped, or the one before if a word is none of a choice.

* The tokens up to this one make it fail, in the same way and at the same
  place, whatever comes after them.
* The tokens before this one can be completed: some words after them make
  up a statement, whatever comes after these.

So the place at which reading stopped is that of the first token that it
cannot go on with if and only if no word was looked up in vain. -/
theorem interpret_fails_first (hm : m.Accepted) {c : ConceptType} (hc : c ∈ m.types)
    (hmembers : ∀ member ∈ c.members, member.isParsable = true → Writable m member)
    {context : List Node} {r : Reader} {why : Mismatch}
    (h : (interpret m context c r).result = .error why) :
    let stop := (interpret m context c r).reader.position
    let culprit := stop - why.overshoot
    (∀ s, s.position = r.position → s.tokens.take (culprit + 1) = r.tokens.take (culprit + 1) →
        (interpret m context c s).result = .error why
          ∧ (interpret m context c s).reader.position = stop)
      ∧ (∃ more, (∀ t ∈ more, t.isEnd = false) ∧ ∀ s rest, s.position = r.position →
        s.tokens = r.tokens.take culprit ++ more ++ rest →
          ∃ n, (interpret m context c s).result = .ok n)
      ∧ ((∃ s n, s.position = r.position ∧ s.tokens.take stop = r.tokens.take stop
        ∧ (interpret m context c s).result = .ok n) ↔ why.overshoot = 0) := by
  intro stop culprit
  have hfail : headReading m context c r = (.error why, (interpret m context c r).reader) := by
    rw [headReading_apply, h]
  -- The head is read by a sharp reading, so all of this is said of that reading first.
  obtain ⟨kept, hsharp⟩ := (sharp_headReading hm hc hmembers context).fails hfail
  have hculprit : culprit = r.position + kept.length := by
    have := hsharp.place.1
    show stop - why.overshoot = _
    omega
  have hread : ∀ {s s' : Reader} {result}, headReading m context c s = (result, s') →
      (interpret m context c s).result = result ∧ (interpret m context c s).reader = s' := by
    intro s s' result hs
    rw [headReading_apply] at hs
    exact Prod.mk.inj hs
  refine ⟨fun s hposition hsame => ?_, ?_, ?_⟩
  · rw [hculprit] at hsame
    obtain ⟨s', hs, hplace⟩ := hsharp.decided_of_take hposition hsame
    obtain ⟨hresult, hreader⟩ := hread hs
    exact ⟨hresult, hreader ▸ hplace⟩
  · obtain ⟨more, hmore, hcompleted⟩ := hsharp.exists_completion
    refine ⟨more, hmore, fun s rest hposition htokens => ?_⟩
    rw [hculprit] at htokens
    obtain ⟨n, s', hs⟩ := hcompleted s rest hposition htokens
    exact ⟨n, (hread hs).1⟩
  · rw [← hsharp.exists_same_front_iff]
    constructor
    · rintro ⟨s, n, hposition, hfront, hok⟩
      exact ⟨s, n, _, hposition, hfront, by rw [headReading_apply, hok]⟩
    · rintro ⟨s, n, s', hposition, hfront, hs⟩
      exact ⟨s, n, hposition, hfront, (hread hs).1⟩

/-- The tokens of `entity A B;`. -/
def undottedEntity : List Token :=
  [⟨.word, "entity", 0, 6⟩, ⟨.word, "A", 7, 8⟩, ⟨.word, "B", 9, 10⟩, ⟨.special, ";", 10, 11⟩,
    .endAt 11]

/-- In `entity A B;` the dot is missing in front of `B`. Whatever comes after
`B` does not help, and `entity A` is the beginning of an entity. -/
theorem entity_fails_first_without_dot :
    let c := moduleModel.typeAt 1
    let why : Mismatch := .expectedDotAfterParent "Name" "EntityInfo"
    moduleModel.Accepted ∧ c ∈ moduleModel.types
      ∧ (∀ member ∈ c.members, member.isParsable = true → Writable moduleModel member)
      ∧ (interpret moduleModel [] c ⟨[], undottedEntity⟩).result = .error why
      ∧ (interpret moduleModel [] c ⟨[], undottedEntity⟩).reader.position = 2
      ∧ (∀ s, s.position = 0 → s.tokens.take 3 = undottedEntity.take 3 →
        (interpret moduleModel [] c s).result = .error why
          ∧ (interpret moduleModel [] c s).reader.position = 2)
      ∧ (∃ more, (∀ t ∈ more, t.isEnd = false) ∧ ∀ s rest, s.position = 0 →
        s.tokens = undottedEntity.take 2 ++ more ++ rest →
          ∃ n, (interpret moduleModel [] c s).result = .ok n)
      ∧ ∃ s n, s.position = 0 ∧ s.tokens.take 2 = undottedEntity.take 2
        ∧ (interpret moduleModel [] c s).result = .ok n := by
  have hc : moduleModel.typeAt 1 ∈ moduleModel.types := List.mem_cons_of_mem _ List.mem_cons_self
  have hwritable : ∀ member ∈ (moduleModel.typeAt 1).members, member.isParsable = true →
      Writable moduleModel member := by
    have hmodule : Referable moduleModel 0 :=
      (exists_keyLayout_iff accepted_moduleModel (by decide)).mp ⟨[.value], rfl⟩
    intro member hmember _
    rcases List.mem_pair.mp hmember with rfl | rfl
    · exact ⟨fun h => (by cases h), fun target h => (by cases h; exact hmodule)⟩
    · exact ⟨fun h => (by cases h), fun target h => (by cases h)⟩
  have hfails : (interpret moduleModel [] (moduleModel.typeAt 1) ⟨[], undottedEntity⟩).result
      = .error (.expectedDotAfterParent "Name" "EntityInfo") := rfl
  obtain ⟨hdecided, hcompleted, hiff⟩ :=
    interpret_fails_first accepted_moduleModel hc hwritable hfails
  exact ⟨accepted_moduleModel, hc, hwritable, hfails, rfl, hdecided, hcompleted, hiff.mpr rfl⟩

/-- The tokens of `Sort sideways;`. -/
def sidewaysSort : List Token :=
  [⟨.word, "Sort", 0, 4⟩, ⟨.word, "sideways", 5, 13⟩, ⟨.special, ";", 13, 14⟩, .endAt 14]

/-- The word `sideways` is none of those for a sort. It is read before it is
looked up, so reading stops behind it, and no sort begins with
`Sort sideways`. -/
theorem not_completable_of_unlisted :
    let c := sortModel.typeAt 0
    sortModel.Accepted ∧ c ∈ sortModel.types
      ∧ (∀ member ∈ c.members, member.isParsable = true → Writable sortModel member)
      ∧ (interpret sortModel [] c ⟨[], sidewaysSort⟩).result
        = .error (.invalidValue "sideways" "Direction" ["Asc", "Desc"])
      ∧ (interpret sortModel [] c ⟨[], sidewaysSort⟩).reader.position = 2
      ∧ ∀ s n, s.position = 0 → s.tokens.take 2 = sidewaysSort.take 2 →
        (interpret sortModel [] c s).result ≠ .ok n := by
  have hc : sortModel.typeAt 0 ∈ sortModel.types := List.mem_cons_self
  have hwritable : ∀ member ∈ (sortModel.typeAt 0).members, member.isParsable = true →
      Writable sortModel member := by
    intro member hmember _
    cases List.mem_singleton.mp hmember
    exact ⟨fun h => (by cases h), fun target h => (by cases h)⟩
  refine ⟨accepted_sortModel, hc, hwritable, rfl, rfl, fun s n hposition hfront hok => ?_⟩
  have hread : headReading sortModel [] (sortModel.typeAt 0) ⟨[], sidewaysSort⟩
      = (.error (.invalidValue "sideways" "Direction" ["Asc", "Desc"]),
        ⟨(sidewaysSort.take 2).reverse, sidewaysSort.drop 2⟩) := rfl
  obtain ⟨_, hsharp⟩ := (sharp_headReading accepted_sortModel hc hwritable []).fails hread
  -- If the two words could be completed, the failure would not stand behind its word.
  have hexact := hsharp.exists_same_front_iff.mp
    ⟨s, n, _, hposition, hfront, by rw [headReading_apply, hok]⟩
  cases hexact

end ConceptScript.Script
