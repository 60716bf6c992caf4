import ConceptScript.Proofs.Script.Parting

/-!
# `ConceptScript.Proofs.Script.AttemptReach`: how far attempts at members get

All interpretations of a statement start at the same keyword. After it they
read values and dots, the `Readable` tokens, and nothing else: a reading
that does so is `InHead`. So no attempt at a member gets past a token that
is not readable, and if one interpretation stops before such a token, no
attempt of any other one gets further (`Reader.PassesKeyword.position_le`).

`readStatement_cases` says where the attempts at a statement come from: from
interpretations as the types with the keyword. Each is about a parsable
member of its type (`ofWord_of_mem_events`), and has read the keyword and
then readable tokens (`passesKeyword_of_mem_events`), as the interpretation
that is chosen has.
-/

set_option autoImplicit false

namespace ConceptScript.Script

open ConceptScript.Text
open ConceptScript.Model (Member)

variable {m : Model} {c : ConceptType} {context : List Node} {r r' s : Reader} {e : MemberEvent}

/-! ### Readable tokens -/

/-- A reader gets from one place to another past readable tokens. -/
def Reader.Passes (r r' : Reader) : Prop := ∃ w, r.Reads w r' ∧ ∀ t ∈ w, t.Readable

/-- A reader passes nothing to stay where it is. -/
theorem Reader.Passes.refl (r : Reader) : r.Passes r := ⟨[], .nil r, by simp⟩

/-- What is passed on the way to a second reader and on from there is passed
on the way to the third. -/
theorem Reader.Passes.trans (h : r.Passes r') (h' : r'.Passes s) : r.Passes s := by
  obtain ⟨w, hreads, hreadable⟩ := h
  obtain ⟨w', hreads', hreadable'⟩ := h'
  exact ⟨w ++ w', Reader.reads_append.mpr ⟨r', hreads, hreads'⟩,
    List.forall_mem_append.mpr ⟨hreadable, hreadable'⟩⟩

/-- Reading one readable token passes it. -/
theorem Reader.passes_of_reads {t : Token} (h : r.Reads [t] r') (ht : t.Readable) : r.Passes r' :=
  ⟨[t], h, List.forall_mem_singleton.mpr ht⟩

namespace Reading

/-- A reading that passes readable tokens only, whatever comes of it. -/
def InHead {α : Type} (p : Reading α) : Prop := ∀ r : Reader, r.Passes (p r).2

/-- Reading a text passes a value, or nothing. -/
theorem inHead_textToken : InHead textToken := by
  intro r
  show r.Passes r.readText.2
  unfold Reader.readText
  split
  · next hvalue =>
    have hreads := Reader.reads_advance (Token.isEnd_of_isValue hvalue)
    exact Reader.passes_of_reads hreads (.inl hvalue)
  · exact .refl r

/-- Reading a dot passes a dot, or nothing. -/
theorem inHead_dot (why : Mismatch) : InHead (dot why) := by
  intro r
  unfold dot
  split
  · next r' hread =>
    obtain ⟨t, his, hreads⟩ := Reader.tryRead_eq_some_iff.mp hread
    exact Reader.passes_of_reads hreads (.inr his)
  · exact .refl r

/-- Readings one after the other stay in the head if each of them does. -/
theorem InHead.bind {α β : Type} {p : Reading α} {q : α → Reading β} (hp : InHead p)
    (hq : ∀ a, InHead (q a)) : InHead (p >>= q) := by
  intro r
  show r.Passes (andThen p q r).2
  have hr := hp r
  unfold andThen
  split
  · next a r' h =>
    rw [h] at hr
    exact hr.trans (hq a r')
  · next why r' h =>
    rw [h] at hr
    exact hr

/-- Staying in the head is kept by putting readings together. -/
theorem kept_inHead : Kept fun _ p => InHead p where
  pure _ r := .refl r
  fail _ r := .refl r
  textToken := inHead_textToken
  dot _ := inHead_dot _
  bind := InHead.bind

end Reading

/-- Reading a member stays in the head. -/
theorem inHead_readMember (m : Model) (c : ConceptType) (member : Member) (parent : Option Node)
    (afterReference : Bool) : (readMember m c member parent afterReference).InHead :=
  Reading.kept_inHead.readMember m c member parent afterReference

/-! ### Attempts -/

/-- Reading members passes readable tokens. Each attempt on the way is about
one of the parsable members, and has passed readable tokens, too. -/
theorem readMembers_passes (m : Model) (c : ConceptType) (context : List Node)
    (afterReference : Bool) (index : Nat) (members : List Member) (r : Reader) :
    let read := readMembers m c context.head? afterReference index members r
    r.Passes read.reader ∧ ∀ e ∈ read.events, e.type = c.id
      ∧ (∃ member, (member, e.index) ∈ (members.zipIdx index).filter (·.1.isParsable))
      ∧ r.Passes e.reader := by
  induction members generalizing afterReference index r with
  | nil => exact ⟨.refl r, fun _ he => absurd he List.not_mem_nil⟩
  | cons member rest ih =>
    rw [List.zipIdx_cons, List.filter_cons]
    cases hparsable : member.isParsable with
    | false =>
      rw [readMembers_unparsable hparsable]
      exact ih afterReference (index + 1) r
    | true =>
      have hstep := inHead_readMember m c member (nestedFor c context index) afterReference r
      cases hread : readMember m c member (nestedFor c context index) afterReference r with
      | mk value s =>
        rw [hread] at hstep
        cases value with
        | error why =>
          rw [readMembers_error hparsable hread]
          exact ⟨hstep, List.forall_mem_singleton.mpr ⟨rfl, ⟨member, List.mem_cons_self⟩, hstep⟩⟩
        | ok v =>
          rw [readMembers_ok hparsable hread]
          obtain ⟨hreader, hothers⟩ := ih v.2 (index + 1) s
          refine ⟨hstep.trans hreader, List.forall_mem_cons.mpr
            ⟨⟨rfl, ⟨member, List.mem_cons_self⟩, hstep⟩, fun e he => ?_⟩⟩
          -- The others start where this member ends, so what they pass comes after it.
          obtain ⟨htype, ⟨found, hfound⟩, hpasses⟩ := hothers e he
          exact ⟨htype, ⟨found, List.mem_cons_of_mem _ hfound⟩, hstep.trans hpasses⟩

/-- A reader gets past the keyword of a statement, and then past readable
tokens. -/
def Reader.PassesKeyword (r r' : Reader) : Prop :=
  ∃ w, r.Reads (r.current :: w) r' ∧ ∀ t ∈ w, t.Readable

/-- A reader past a keyword comes after one before it. -/
theorem Reader.PassesKeyword.leadsTo (h : r.PassesKeyword r') : r.LeadsTo r' :=
  let ⟨_, hreads, _⟩ := h
  hreads.leadsTo

/-- What is passed after the keyword was read is past the keyword. -/
theorem Reader.passesKeyword_of_passes {t : Token} (h : r.Reads [t] s) (h' : s.Passes r') :
    r.PassesKeyword r' := by
  obtain ⟨w, hreads, hreadable⟩ := h'
  exact ⟨w, Reader.current_of_reads h ▸ Reader.reads_append.mpr ⟨s, h, hreads⟩, hreadable⟩

/-- An attempt is at a parsable member of the type that is tried, and past
its keyword. -/
theorem attempt_of_mem_events (h : e ∈ (interpret m context c r).events) :
    e.type = c.id ∧ (∃ member, (member, e.index) ∈ c.parsableMembers)
      ∧ r.PassesKeyword e.reader := by
  unfold interpret at h
  split at h
  · exact absurd h List.not_mem_nil
  · next s hkeyword =>
    obtain ⟨t, _, hreads⟩ := Reader.tryReadKeyword_eq_some_iff.mp hkeyword
    obtain ⟨htype, hmember, hpasses⟩ :=
      (readMembers_passes m c context false 0 c.members s).2 e h
    exact ⟨htype, hmember, Reader.passesKeyword_of_passes hreads hpasses⟩

/-- An attempt leaves its reader past the keyword. -/
theorem passesKeyword_of_mem_events (h : e ∈ (interpret m context c r).events) :
    r.PassesKeyword e.reader := (attempt_of_mem_events h).2.2

/-- Attempts at a type are made only if the statement starts with a word that
is read as its keyword. -/
theorem keyword_of_mem_events (h : e ∈ (interpret m context c r).events) :
    r.current.kind = .word ∧ sameIgnoringAsciiCase r.current.value c.shownName = true := by
  unfold interpret at h
  split at h
  · exact absurd h List.not_mem_nil
  · next s hkeyword =>
    obtain ⟨t, hsame, hreads⟩ := Reader.tryReadKeyword_eq_some_iff.mp hkeyword
    exact Reader.current_of_reads hreads ▸ hsame

/-- A statement that is read ends past its keyword. -/
theorem passesKeyword_of_ok {n : Node} (h : (interpret m context c r).result = .ok n) :
    r.PassesKeyword (interpret m context c r).reader := by
  unfold interpret at h ⊢
  split at h
  · cases h
  · next s hkeyword =>
    obtain ⟨t, _, hreads⟩ := Reader.tryReadKeyword_eq_some_iff.mp hkeyword
    exact Reader.passesKeyword_of_passes hreads
      (readMembers_passes m c context false 0 c.members s).1

/-- An attempt at a parsable member of a type that a word is the keyword of. -/
def MemberEvent.OfWord (m : Model) (t : Token) (e : MemberEvent) : Prop :=
  ∃ c ∈ m.byKeyword t.value, c.id = e.type ∧ ∃ member, (member, e.index) ∈ c.parsableMembers

/-- An attempt at reading a type with a keyword is one of the word. -/
theorem ofWord_of_mem_events {t : Token} (hc : c ∈ m.byKeyword t.value)
    (h : e ∈ (interpret m context c r).events) : e.OfWord m t := by
  obtain ⟨htype, hmember, _⟩ := attempt_of_mem_events h
  exact ⟨c, hc, htype.symm, hmember⟩

/-- What a head can be: no word, so that nothing is tried, or a word with
attempts at its types, all of which start from this word. -/
theorem readStatement_cases (m : Model) (context : List Node) (r : Reader) :
    (∃ failure, readStatement m context r = ([.statement r], .error failure))
      ∨ r.current.kind = .word
        ∧ ∃ (events : List MemberEvent) (result : Except Failure (Node × Reader)),
        readStatement m context r = (.statement r :: events.map .member, result)
          ∧ (∀ e ∈ events, ∃ c ∈ m.byKeyword r.current.value,
            e ∈ (interpret m context c r).events)
          ∧ ∀ n r', result = .ok (n, r') → r.PassesKeyword r' := by
  unfold readStatement
  dsimp only
  split
  · exact .inl ⟨_, rfl⟩
  · split
    · exact .inl ⟨_, rfl⟩
    · next word hword =>
      obtain ⟨hkind, rfl⟩ := Token.word?_eq_some_iff.mp hword
      refine .inr ⟨hkind, _, _, rfl, fun e he => ?_, fun n r' hok => ?_⟩
      · obtain ⟨i, hi, he⟩ := List.mem_flatMap.mp he
        obtain ⟨c, hc, rfl⟩ := List.mem_map.mp hi
        exact ⟨c, hc, he⟩
      · obtain ⟨i, hi, hresult, rfl⟩ := mem_successes (choose_mem_successes hok)
        obtain ⟨c, _, rfl⟩ := List.mem_map.mp hi
        exact passesKeyword_of_ok hresult

/-- If one interpretation stops before a token that is not readable, nothing
of the statement is read past that place. -/
theorem Reader.PassesKeyword.position_le (h : r.PassesKeyword s)
    (hstop : ¬ s.current.Readable) (h' : r.PassesKeyword r') : r'.position ≤ s.position := by
  obtain ⟨w, hreads, _⟩ := h
  obtain ⟨w', hreads', hreadable⟩ := h'
  rcases List.append_eq_append_iff.mp (hreads.rest.symm.trans hreads'.rest) with
    ⟨past, hw', hrest⟩ | ⟨past, hw, _⟩
  · cases past with
    | nil =>
      rw [List.append_nil] at hw'
      exact Nat.le_of_eq (hreads'.position.trans (hw' ▸ hreads.position.symm))
    | cons t past =>
      -- The token after the stop would be one of those that were passed.
      have ht : t ∈ w' := by
        rw [(List.cons.inj hw').2]
        simp
      exact absurd (Reader.current_of_rest hrest ▸ hreadable t ht) hstop
  · rw [hreads.position, hreads'.position, hw, List.length_append]
    omega

end ConceptScript.Script
