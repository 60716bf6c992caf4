import Mathlib.Data.String.Basic
import ConceptScript.Model.Nesting
import ConceptScript.Proofs.Script.KeywordCase

/-!
# `ConceptScript.Proofs.Model.NestedKeywords`: keywords offered in a block

The keywords offered in a block are those of the valid children of its
type, in the order of their lowercase forms. None is missing, and none is
made up. Two notions of case meet here. Of keywords that differ in ASCII
case alone the first is kept, and the order and the look-up go by the
lowercase form under the full rules.

The first notion never takes two keywords for one where the second does
not (`lowercase_eq_of_sameIgnoringAsciiCase`), so nothing is lost. But it
keeps both of two keywords that have one lowercase form and differ beyond
ASCII. `keywordsFor_strict_iff` says that this is the only way to be
offered one keyword twice.
-/

set_option autoImplicit false

namespace ConceptScript.Model

open ConceptScript.Text

/-! ### The first of each word -/

section

variable {taken words : List String} {word : String}

/-- The words that are left were taken before or are among those looked at. -/
theorem mem_of_mem_firstsIgnoringAsciiCase (h : word ∈ firstsIgnoringAsciiCase taken words) :
    word ∈ taken ∨ word ∈ words := by
  fun_induction firstsIgnoringAsciiCase taken words with
  | case1 taken => exact .inl h
  | case2 taken first rest _ ih => exact (ih h).imp_right (List.mem_cons_of_mem first)
  | case3 taken first rest _ ih =>
    have hmem := ih h
    simp only [List.mem_append, List.mem_singleton] at hmem
    simp only [List.mem_cons]
    tauto

/-- A word that was taken stays. -/
theorem mem_firstsIgnoringAsciiCase_of_mem (h : word ∈ taken) :
    word ∈ firstsIgnoringAsciiCase taken words := by
  fun_induction firstsIgnoringAsciiCase taken words with
  | case1 taken => exact h
  | case2 taken first rest _ ih => exact ih h
  | case3 taken first rest _ ih => exact ih (List.mem_append_left _ h)

/-- Each word is there in some case. -/
theorem exists_mem_firstsIgnoringAsciiCase (h : word ∈ words) :
    ∃ kept ∈ firstsIgnoringAsciiCase taken words, sameIgnoringAsciiCase kept word = true := by
  fun_induction firstsIgnoringAsciiCase taken words with
  | case1 taken => cases h
  | case2 taken first rest hseen ih =>
    rcases List.mem_cons.mp h with rfl | hrest
    · -- What was taken before stands for the word.
      obtain ⟨kept, hkept, hsame⟩ := List.any_eq_true.mp hseen
      exact ⟨kept, mem_firstsIgnoringAsciiCase_of_mem hkept, hsame⟩
    · exact ih hrest
  | case3 taken first rest _ ih =>
    rcases List.mem_cons.mp h with rfl | hrest
    · have hkept : word ∈ firstsIgnoringAsciiCase (taken ++ [word]) rest :=
        mem_firstsIgnoringAsciiCase_of_mem (by simp)
      exact ⟨word, hkept, beq_self_eq_true _⟩
    · exact ih hrest

/-- No two of the words that are kept differ in ASCII case alone. -/
theorem pairwise_firstsIgnoringAsciiCase
    (h : taken.Pairwise fun a b => sameIgnoringAsciiCase a b = false) :
    (firstsIgnoringAsciiCase taken words).Pairwise
      fun a b => sameIgnoringAsciiCase a b = false := by
  fun_induction firstsIgnoringAsciiCase taken words with
  | case1 taken => exact h
  | case2 taken first rest _ ih => exact ih h
  | case3 taken first rest hnew ih =>
    refine ih (List.pairwise_append.mpr ⟨h, List.pairwise_singleton _ _, ?_⟩)
    intro a ha b hb
    rw [List.mem_singleton.mp hb]
    exact Bool.eq_false_iff.mpr fun hsame => hnew (List.any_eq_true.mpr ⟨a, ha, hsame⟩)

end

/-! ### Sorted words -/

/-- Sorting loses no word and adds none. -/
theorem perm_sortWords (words : List String) : (sortWords words).Perm words :=
  List.mergeSort_perm _ _

/-- Sorted words are in the order of their lowercase forms. -/
theorem pairwise_sortWords (words : List String) :
    (sortWords words).Pairwise fun a b => lowercase a ≤ lowercase b := by
  let le (a b : String) : Bool := decide (lowercase a ≤ lowercase b)
  have htrans : ∀ a b c, le a b = true → le b c = true → le a c = true := by
    intro a b c hab hbc
    simp only [le, decide_eq_true_eq] at hab hbc ⊢
    exact String.le_trans hab hbc
  have htotal : ∀ a b, (le a b || le b a) = true := by
    intro a b
    simpa [le] using String.le_total (lowercase a) (lowercase b)
  exact (List.pairwise_mergeSort htrans htotal words).imp fun h => of_decide_eq_true h

/-! ### What is offered -/

section

variable {m : Model} {parent : TypeId} {k : String}

/-- The keywords that the valid children of a type are declared with. -/
def NestedKeyword (m : Model) (parent : TypeId) (k : String) : Prop :=
  ∃ c ∈ m.validChildren parent, c.keyword = some k

/-- The nested keywords of a type are those that its valid children have. -/
theorem nestedKeyword_iff : m.NestedKeyword parent k ↔
    k ∈ (m.validChildren parent).filterMap (·.keyword) := by
  simp [NestedKeyword, List.mem_filterMap]

/-- Only nested keywords are shown. -/
theorem nestedKeyword_of_mem_keywordsFor (h : k ∈ m.keywordsFor (some parent)) :
    m.NestedKeyword parent k := by
  have hkept := (perm_sortWords _).mem_iff.mp h
  exact nestedKeyword_iff.mpr
    ((mem_of_mem_firstsIgnoringAsciiCase hkept).resolve_left List.not_mem_nil)

/-- Each nested keyword is shown, up to the case of ASCII letters. -/
theorem exists_mem_keywordsFor (h : m.NestedKeyword parent k) :
    ∃ shown ∈ m.keywordsFor (some parent), sameIgnoringAsciiCase shown k = true := by
  obtain ⟨kept, hkept, hsame⟩ :
      ∃ kept ∈ firstsIgnoringAsciiCase [] ((m.validChildren parent).filterMap (·.keyword)),
        sameIgnoringAsciiCase kept k = true :=
    exists_mem_firstsIgnoringAsciiCase (nestedKeyword_iff.mp h)
  exact ⟨kept, (perm_sortWords _).mem_iff.mpr hkept, hsame⟩

/-- No two of the keywords offered differ in ASCII case alone. -/
theorem pairwise_keywordsFor (m : Model) (parent : TypeId) :
    (m.keywordsFor (some parent)).Pairwise fun a b => sameIgnoringAsciiCase a b = false := by
  have hsymm : ∀ {a b}, sameIgnoringAsciiCase a b = false → sameIgnoringAsciiCase b a = false :=
    fun h => BEq.comm.trans h
  exact ((perm_sortWords _).pairwise_iff hsymm).mpr (pairwise_firstsIgnoringAsciiCase .nil)

/-- Two words find the same types just when they have one lowercase form,
unless the first one finds none. -/
theorem byKeyword_eq_iff {a b : String} (ha : m.NestedKeyword parent a) :
    m.byKeyword a = m.byKeyword b ↔ lowercase a = lowercase b := by
  obtain ⟨c, hchild, hkeyword⟩ := ha
  have hc : c ∈ m.types := List.mem_of_mem_filter hchild
  constructor
  · intro hsame
    have hfound : c ∈ m.byKeyword a := (Script.mem_byKeyword_iff hc hkeyword a).mpr rfl
    exact ((Script.mem_byKeyword_iff hc hkeyword b).mp (hsame ▸ hfound)).symm
  · intro hform
    rw [byKeyword, byKeyword, hform]

/-- Of the keywords of valid children no two have one lowercase form and
differ beyond ASCII. -/
def OneSpelling (m : Model) (parent : TypeId) : Prop :=
  ∀ k k', m.NestedKeyword parent k → m.NestedKeyword parent k' →
    lowercase k = lowercase k' → sameIgnoringAsciiCase k k' = true

/-- No lowercase form is shown twice just if no two nested keywords have one
and differ beyond ASCII. Words that differ in ASCII letters alone were
dropped before. -/
theorem pairwise_lowercase_ne_iff (m : Model) (parent : TypeId) :
    (m.keywordsFor (some parent)).Pairwise (fun a b => lowercase a ≠ lowercase b) ↔
      m.OneSpelling parent := by
  constructor
  · intro hdiffer k k' hk hk' hform
    obtain ⟨shown, hshown, hsame⟩ := exists_mem_keywordsFor hk
    obtain ⟨shown', hshown', hsame'⟩ := exists_mem_keywordsFor hk'
    -- What both are shown by has the same form, so it is one entry.
    have heq : shown = shown' := by
      refine List.inj_on_of_nodup_map (List.pairwise_map.mpr hdiffer) hshown hshown' ?_
      rw [lowercase_eq_of_sameIgnoringAsciiCase hsame, hform,
        lowercase_eq_of_sameIgnoringAsciiCase hsame']
    subst heq
    rw [sameIgnoringAsciiCase_iff] at hsame hsame' ⊢
    rw [← hsame, hsame']
  · intro hone
    refine (pairwise_keywordsFor m parent).imp_of_mem fun {a b} ha hb hdiffer hform => ?_
    have hsame := hone a b (nestedKeyword_of_mem_keywordsFor ha)
      (nestedKeyword_of_mem_keywordsFor hb) hform
    rw [hsame] at hdiffer
    cases hdiffer

end

/-- The keywords offered in a block are sorted by their lowercase forms.
Each is the keyword of a valid child, and each valid child with a keyword is
there under the lowercase form of it. No form is there twice, and no two
entries find the same types, if and only if no two keywords of valid
children have one form and differ beyond ASCII. -/
theorem keywordsFor_strict_iff (m : Model) (parent : TypeId) :
    let offered := m.keywordsFor (some parent)
    offered.Pairwise (fun a b => lowercase a ≤ lowercase b)
      ∧ (∀ k ∈ offered, m.NestedKeyword parent k)
      ∧ (∀ k, m.NestedKeyword parent k → ∃ shown ∈ offered, lowercase shown = lowercase k)
      ∧ (offered.Pairwise (fun a b => lowercase a < lowercase b) ↔ m.OneSpelling parent)
      ∧ (offered.Pairwise (fun a b => m.byKeyword a ≠ m.byKeyword b) ↔ m.OneSpelling parent) := by
  have hsorted : (m.keywordsFor (some parent)).Pairwise fun a b => lowercase a ≤ lowercase b :=
    pairwise_sortWords _
  refine ⟨hsorted, fun k hk => nestedKeyword_of_mem_keywordsFor hk, fun k hk => ?_, ?_, ?_⟩
  · obtain ⟨shown, hshown, hsame⟩ := exists_mem_keywordsFor hk
    exact ⟨shown, hshown, lowercase_eq_of_sameIgnoringAsciiCase hsame⟩
  · rw [← pairwise_lowercase_ne_iff]
    constructor
    · exact List.Pairwise.imp fun hlt => ne_of_lt hlt
    · -- Sorted forms that differ increase strictly.
      intro hdiffer
      exact (hsorted.and hdiffer).imp fun h => lt_of_le_of_ne h.1 h.2
  · rw [← pairwise_lowercase_ne_iff]
    refine List.Pairwise.iff_of_mem fun {a b} ha _ => ?_
    exact not_congr (byKeyword_eq_iff (nestedKeyword_of_mem_keywordsFor ha))

/-! ### Two accents -/

/-- Broadcasts and their sections, with one keyword but for the case of its
first letter, in blocks of programmes. -/
def programmeDecl : Declaration :=
  let name : MemberDecl := ⟨"Name", .text, true, true, false⟩
  let inner : MemberDecl := ⟨"Of", .concept "Programme", true, true, false⟩
  ⟨"1", [⟨"Programme", some "Programme", [], none, [name]⟩,
    ⟨"Broadcast", some "Émission", [], none, [inner]⟩,
    ⟨"Section", some "émission", [], none, [inner]⟩]⟩

/-- The model that the declaration describes. -/
def programmeModel : Model :=
  let inner : Member := ⟨"Of", .concept 0, true, true, false⟩
  ⟨"1", [⟨0, "Programme", some "Programme", [], [⟨"Name", .text, true, true, false⟩], none⟩,
    ⟨1, "Broadcast", some "Émission", [], [inner], none⟩,
    ⟨2, "Section", some "émission", [], [inner], none⟩]⟩

/-- The keyword is offered twice, and both times it finds the same types. -/
theorem not_strict_of_accents :
    resolve programmeDecl = .ok programmeModel
      ∧ programmeModel.keywordsFor (some 0) = ["Émission", "émission"]
      ∧ programmeModel.byKeyword "Émission" = programmeModel.byKeyword "émission"
      ∧ ¬ (programmeModel.keywordsFor (some 0)).Pairwise
        fun a b => lowercase a < lowercase b := by
  have hform : lowercase "Émission" = lowercase "émission" := by decide +kernel
  have hkept : firstsIgnoringAsciiCase [] ((programmeModel.validChildren 0).filterMap (·.keyword))
      = ["Émission", "émission"] := by decide +kernel
  have hsorted : sortWords ["Émission", "émission"] = ["Émission", "émission"] :=
    List.mergeSort_of_pairwise (by simp [hform])
  have hoffered : programmeModel.keywordsFor (some 0) = ["Émission", "émission"] :=
    (congrArg sortWords hkept).trans hsorted
  refine ⟨rfl, hoffered, ?_, ?_⟩
  · rw [byKeyword, byKeyword, hform]
  · rw [hoffered, List.pairwise_pair, hform]
    exact lt_irrefl _

end ConceptScript.Model
