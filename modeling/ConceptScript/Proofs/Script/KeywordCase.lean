import ConceptScript.Script.Statement
import ConceptScript.Proofs.Script.Derivation
import ConceptScript.Proofs.Text.LetterCase

/-!
# `ConceptScript.Proofs.Script.KeywordCase`: keywords that are found and read

The types that a statement may be of are those found under its first word,
by the lowercase form. To be read as one of them the statement then has to
start with the keyword, up to ASCII case. So a type can be found under a
word that is not taken for its keyword.

* `result_readMembers_ne`: nothing but the keyword of a type is ever missed
  as a keyword.
* `expectedKeyword_iff`: a type misses its keyword at just those words that
  differ from it by more than ASCII case, and a keyword of ASCII characters
  is read wherever it is found just when there is no `k` in it.
-/

set_option autoImplicit false

namespace ConceptScript.Script

open ConceptScript.Text
open ConceptScript.Model (Member)

/-! ### Readings without keywords -/

namespace Reading

/-- A reading that never fails for want of a keyword. -/
def NeedsNoKeyword {α : Type} (p : Reading α) : Prop :=
  ∀ r keyword, (p r).1 ≠ .error (.expectedKeyword keyword)

/-- A reading does not ask for a keyword just if it fails for other reasons
only. -/
theorem needsNoKeyword_iff {α : Type} {p : Reading α} :
    NeedsNoKeyword p ↔ FailsFor (fun why => ∀ keyword, why ≠ .expectedKeyword keyword) p := by
  constructor
  · rintro h r why hfail keyword rfl
    exact h r keyword hfail
  · exact fun h r keyword hfail => h r _ hfail keyword rfl

/-- Not to ask for a keyword is kept by putting readings together. -/
theorem kept_needsNoKeyword : Kept fun _ p => NeedsNoKeyword p where
  pure a := needsNoKeyword_iff.mpr (failsFor_pure a)
  fail h := needsNoKeyword_iff.mpr (failsFor_fail h)
  textToken := needsNoKeyword_iff.mpr (failsFor_textToken fun _ _ h => (by cases h))
  dot h := needsNoKeyword_iff.mpr (failsFor_dot h)
  bind hp hq := needsNoKeyword_iff.mpr
    ((needsNoKeyword_iff.mp hp).bind fun a => needsNoKeyword_iff.mp (hq a))

end Reading

/-- Changing the value of a result does not make it fail in a way in which it
does not. -/
theorem map_ne_error {α β : Type} {x : Except Mismatch α} {why : Mismatch} (h : x ≠ .error why)
    (f : α → β) : x.map f ≠ .error why := by
  cases x with
  | ok a => exact fun heq => (by cases heq)
  | error why' => exact fun heq => h (congrArg Except.error (Except.error.inj heq))

/-- Reading members never fails for want of a keyword: only the head of a
statement asks for one. -/
theorem result_readMembers_ne (m : Model) (c : ConceptType) (parent : Option Node)
    (afterReference : Bool) (index : Nat) (members : List Member) (r : Reader)
    (keyword : String) : (readMembers m c parent afterReference index members r).result
      ≠ .error (.expectedKeyword keyword) := by
  induction members generalizing afterReference index r with
  | nil => exact fun h => (by cases h)
  | cons member rest ih =>
    unfold readMembers
    split
    · dsimp only
      have hmember := Reading.kept_needsNoKeyword.readMember m c member
        (if c.parentMember?.map (·.2) = some index then parent else none) afterReference r keyword
      split
      · next why r' h =>
        rw [h] at hmember
        exact fun heq => hmember (congrArg Except.error (Except.error.inj heq))
      · exact map_ne_error (ih _ _ _) _
    · exact map_ne_error (ih _ _ _) _

/-! ### Keywords -/

/-- A type is never refused for want of its keyword where it was found by
the word that comes next. -/
def ReadWhereFound (m : Model) (c : ConceptType) : Prop :=
  ∀ word, c ∈ m.byKeyword word → ∀ context r, r.current.word? = some word →
    ∀ shown, (interpret m context c r).result ≠ .error (.expectedKeyword shown)

/-- A type is among those of a word just if the lowercase forms of the word
and of its keyword are the same. -/
theorem mem_byKeyword_iff {m : Model} {c : ConceptType} (hc : c ∈ m.types) {k : String}
    (hk : c.keyword = some k) (word : String) :
    c ∈ m.byKeyword word ↔ lowercase word = lowercase k := by
  rw [Model.byKeyword, List.mem_filter, and_iff_right hc, hk]
  exact beq_iff_eq.trans eq_comm

/-- A type misses its keyword at any word but those that are the keyword up
to ASCII case. -/
theorem result_interpret_iff (m : Model) {c : ConceptType} {k : String}
    (hk : c.keyword = some k) (context : List Node) {r : Reader} {word : String}
    (hword : r.current.word? = some word) :
    (∃ shown, (interpret m context c r).result = .error (.expectedKeyword shown)) ↔
      sameIgnoringAsciiCase word k = false := by
  have hshown : c.shownName = k := by
    rw [ConceptType.shownName, hk]
    rfl
  obtain ⟨hkind, hvalue⟩ := Token.word?_eq_some_iff.mp hword
  unfold interpret
  rw [hshown, Reader.tryReadKeyword, hkind, hvalue]
  cases sameIgnoringAsciiCase word k with
  | false => exact ⟨fun _ => rfl, fun _ => ⟨k, rfl⟩⟩
  | true =>
    -- The keyword was read, and after it no reading misses one.
    refine ⟨fun ⟨shown, h⟩ => ?_, fun h => (by cases h)⟩
    exact absurd h (map_ne_error (result_readMembers_ne _ _ _ _ _ _ _ _) _)

/-- A type misses its keyword at just those words that differ from it by
more than ASCII case, under which it may have been found. Of the keywords
of ASCII characters those without a `k` are read wherever they are found. -/
theorem expectedKeyword_iff (m : Model) {c : ConceptType} (hc : c ∈ m.types) {k : String}
    (hk : c.keyword = some k) :
    (∀ context r word, r.current.word? = some word →
        ((∃ shown, (interpret m context c r).result = .error (.expectedKeyword shown)) ↔
          sameIgnoringAsciiCase word k = false))
      ∧ ((∀ ch ∈ k.toList, IsAscii ch) →
        (ReadWhereFound m c ↔ 'k' ∉ k.toList ∧ 'K' ∉ k.toList)) := by
  refine ⟨fun context r word hword => result_interpret_iff m hk context hword, fun hascii => ?_⟩
  rw [← forall_sameIgnoringAsciiCase_iff hascii]
  constructor
  · intro h word hform
    -- Any reader at the word will do.
    have hnext : (Reader.ofTokens [⟨.word, word, 0, 0⟩]).current.word? = some word := rfl
    have hread := h word ((mem_byKeyword_iff hc hk word).mpr hform) [] _ hnext
    refine Bool.of_not_eq_false fun hdiffers => ?_
    obtain ⟨shown, hmissed⟩ := (result_interpret_iff m hk [] hnext).mpr hdiffers
    exact hread shown hmissed
  · intro h word hfound context r hword shown hmissed
    have hsame := h word ((mem_byKeyword_iff hc hk word).mp hfound)
    have hdiffers := (result_interpret_iff m hk context hword).mp ⟨shown, hmissed⟩
    cases hsame.symm.trans hdiffers

/-- The keyword `Module` has no `k`. -/
theorem readWhereFound_of_module : ReadWhereFound moduleModel
    ⟨0, "ModuleInfo", some "Module", [], [⟨"Name", .text, true, true, false⟩], none⟩ := by
  have hletters : "Module".toList = ['M', 'o', 'd', 'u', 'l', 'e'] := rfl
  refine ((expectedKeyword_iff moduleModel List.mem_cons_self rfl).2 ?_).mpr ?_
  · rw [hletters]
    simp [IsAscii]
  · rw [hletters]
    decide

/-! ### An accent -/

/-- A broadcast is known by its name. -/
def broadcastType : ConceptType :=
  ⟨0, "BroadcastInfo", some "Émission", [], [⟨"Name", .text, true, true, false⟩], none⟩

/-- A model of broadcasts alone. -/
def broadcastModel : Model := ⟨"1", [broadcastType]⟩

/-- Broadcasts are found under the word `émission`, which is then not taken
for their keyword. -/
theorem not_readWhereFound_of_accent :
    broadcastModel.Accepted ∧ broadcastType ∈ broadcastModel.byKeyword "émission"
      ∧ (interpret broadcastModel [] broadcastType (.ofTokens [⟨.word, "émission", 0, 9⟩])).result
        = .error (.expectedKeyword "Émission") := by
  refine ⟨⟨⟨"1", [⟨"BroadcastInfo", some "Émission", [], none,
    [⟨"Name", .text, true, true, false⟩]⟩]⟩, rfl⟩, ?_, ?_⟩
  · decide +kernel
  · rfl

end ConceptScript.Script
