import ConceptScript.Text.Lowercase

/-!
# `ConceptScript.Proofs.Text.LetterCase`: the two notions of case

Words are looked up by their lowercase form under the full Unicode rules
and compared by ASCII case. On texts of ASCII characters the two are the
same (`lowercase_of_isAscii`). Of the other characters just one has a
lowercase form within ASCII, the Kelvin sign `K`, which becomes `k`
(`isAscii_of_lowerChar`).

So texts with the lowercase form of an ASCII text are that text up to
ASCII case, unless there is a `k` in it that can be replaced:
`forall_sameIgnoringAsciiCase_iff`. In the other direction the two never
disagree, whatever the texts: those that are the same up to ASCII case have
one lowercase form (`lowercase_eq_of_sameIgnoringAsciiCase`).
-/

set_option autoImplicit false

namespace ConceptScript.Text

/-- The characters of ASCII. -/
def IsAscii (c : Char) : Prop := c.toNat < 128

instance (c : Char) : Decidable (IsAscii c) := inferInstanceAs (Decidable (c.toNat < 128))

/-- The Kelvin sign, which is a letter. -/
def kelvinSign : Char := '\u212A'

/-! ### Single characters -/

/-- What holds of the first 128 characters holds of ASCII. -/
theorem forall_isAscii {P : Char → Prop} (h : ∀ n < 128, P (Char.ofNat n)) {c : Char}
    (hc : IsAscii c) : P c := by
  have hn := h c.toNat hc
  rwa [Char.ofNat_toNat] at hn

/-- The tables of letters beyond ASCII do not touch ASCII: there the
lowercase form is the usual one. -/
theorem lowerChar_of_isAscii {c : Char} (h : IsAscii c) : lowerChar c = [c.toLower] :=
  forall_isAscii (P := fun c => lowerChar c = [c.toLower]) (by decide +kernel) h

/-- The lowercase form of a character of ASCII is one as well. -/
theorem toLower_isAscii {c : Char} (h : IsAscii c) : IsAscii c.toLower :=
  forall_isAscii (P := fun c => IsAscii c.toLower) (by decide +kernel) h

/-- In ASCII only `k` and `K` have the lowercase form `k`. -/
theorem toLower_eq_k {c : Char} (h : IsAscii c) : c.toLower = 'k' → c = 'k' ∨ c = 'K' :=
  forall_isAscii (P := fun c => c.toLower = 'k' → c = 'k' ∨ c = 'K') (by decide +kernel) h

/-- A run that leads from characters beyond ASCII to characters beyond it,
or that is about ASCII or the Kelvin sign alone. -/
def StaysBeyond : Nat × Nat × Nat × Int → Prop
  | (lo, hi, _, distance) =>
    hi < 128 ∨ lo = kelvinSign.toNat ∧ hi = kelvinSign.toNat
      ∨ 128 ≤ lo + distance ∧ hi + distance < 0xD800
      ∨ 0xE000 ≤ lo + distance ∧ hi + distance < 0x110000

instance (run : Nat × Nat × Nat × Int) : Decidable (StaysBeyond run) := by
  unfold StaysBeyond
  infer_instance

/-- Every run of the table stays beyond ASCII, the Kelvin sign apart. The
table is a closed term, so this is computed. -/
theorem staysBeyond_lowercaseRuns : ∀ run ∈ lowercaseRuns, StaysBeyond run := by
  decide +kernel

/-- Beyond ASCII, and but for the Kelvin sign, a lowercase form is again a
character beyond ASCII, whatever run it is found in. -/
theorem lowerCode_beyond {runs : CaseRuns} (hruns : ∀ run ∈ runs, StaysBeyond run) {n : Nat}
    (hbeyond : 128 ≤ n) (hvalid : n.isValidChar) (hkelvin : n ≠ kelvinSign.toNat) :
    128 ≤ lowerCode runs n ∧ (lowerCode runs n).isValidChar := by
  induction runs with
  | nil => exact ⟨hbeyond, hvalid⟩
  | cons run rest ih =>
    obtain ⟨lo, hi, step, distance⟩ := run
    obtain ⟨hrun, hrest⟩ := List.forall_mem_cons.mp hruns
    rw [lowerCode]
    split
    · exact ⟨hbeyond, hvalid⟩
    · split
      · next hlo hhi =>
        -- The code lies in the run, so the run is not about ASCII or the Kelvin sign alone.
        unfold StaysBeyond at hrun
        unfold Nat.isValidChar
        omega
      · exact ih hrest

/-- A valid number is the number of its character. -/
theorem toNat_ofNat_of_isValidChar {n : Nat} (h : n.isValidChar) : (Char.ofNat n).toNat = n := by
  rw [Char.ofNat, dif_pos h]
  rfl

/-- Within ASCII come the lowercase forms of ASCII characters, and that of
the Kelvin sign. -/
theorem isAscii_of_lowerChar {c : Char} (h : ∀ d ∈ lowerChar c, IsAscii d) :
    IsAscii c ∨ c = kelvinSign := by
  by_cases hdotted : c = 'İ'
  · have hcombining : '\u0307' ∈ lowerChar c := by
      rw [lowerChar, if_pos hdotted]
      exact List.mem_cons_of_mem _ (List.mem_singleton_self _)
    exact absurd (h _ hcombining) (by decide)
  · rw [lowerChar, if_neg hdotted, List.forall_mem_singleton] at h
    by_cases hascii : IsAscii c
    · exact .inl hascii
    · by_cases hkelvin : c = kelvinSign
      · exact .inr hkelvin
      · obtain ⟨hbeyond, hvalid⟩ := lowerCode_beyond staysBeyond_lowercaseRuns
          (Nat.not_lt.mp hascii) c.valid fun heq => hkelvin (Char.toNat_inj.mp heq)
        rw [IsAscii, toNat_ofNat_of_isValidChar hvalid] at h
        exact absurd h (Nat.not_lt.mpr hbeyond)

/-! ### Texts -/

/-- But for a sigma, the lowercase form of a text is that of its first
character and then that of the rest. -/
theorem lowerAfter_cons {before : List Char} {c : Char} {rest : List Char} (h : c ≠ 'Σ') :
    lowerAfter before (c :: rest) = lowerChar c ++ lowerAfter (c :: before) rest := by
  rw [lowerAfter, if_neg h]

/-- No character of ASCII is a sigma, so the special case of words that end
in one does not arise. -/
theorem ne_sigma_of_isAscii {c : Char} (h : IsAscii c) : c ≠ 'Σ' := by
  rintro rfl
  exact absurd h (by decide)

/-- A text of ASCII characters has one lowercase form. -/
theorem lowerAfter_of_isAscii {s : List Char} (h : ∀ c ∈ s, IsAscii c) (before : List Char) :
    lowerAfter before s = s.map Char.toLower := by
  induction s generalizing before with
  | nil => rfl
  | cons c rest ih =>
    obtain ⟨hc, hrest⟩ := List.forall_mem_cons.mp h
    rw [lowerAfter_cons (ne_sigma_of_isAscii hc), lowerChar_of_isAscii hc, ih hrest]
    rfl

/-- In a text of ASCII the two ways to make letters small agree. -/
theorem lowercase_of_isAscii {s : String} (h : ∀ c ∈ s.toList, IsAscii c) :
    lowercase s = asciiLowercase s := congrArg String.ofList (lowerAfter_of_isAscii h [])

/-- A text whose lowercase form is within ASCII is so itself, unless it has
a Kelvin sign. -/
theorem isAscii_of_lowerAfter {before s : List Char} (h : ∀ d ∈ lowerAfter before s, IsAscii d)
    (hkelvin : kelvinSign ∉ s) : ∀ c ∈ s, IsAscii c := by
  induction s generalizing before with
  | nil => exact fun _ hc => absurd hc List.not_mem_nil
  | cons c rest ih =>
    rw [lowerAfter] at h
    obtain ⟨hfirst, hothers⟩ := List.forall_mem_append.mp h
    refine List.forall_mem_cons.mpr
      ⟨?_, ih hothers fun hmem => hkelvin (List.mem_cons_of_mem c hmem)⟩
    split at hfirst
    · -- Neither form of a sigma is within ASCII.
      rw [List.forall_mem_singleton] at hfirst
      split at hfirst <;> exact absurd hfirst (by decide)
    · refine (isAscii_of_lowerChar hfirst).resolve_right fun heq => hkelvin ?_
      exact heq ▸ List.mem_cons_self

/-- The lowercase form of the Kelvin sign is the letter `k` of ASCII. -/
theorem lowerChar_kelvinSign : lowerChar kelvinSign = ['k'] := by decide +kernel

/-- A Kelvin sign in a text becomes a `k`, and the rest goes on as after any
letter. -/
theorem lowerAfter_kelvinSign (before rest : List Char) : lowerAfter before (kelvinSign :: rest)
    = 'k' :: lowerAfter (kelvinSign :: before) rest := by
  rw [lowerAfter_cons (by decide), lowerChar_kelvinSign]
  rfl

/-- A text with a Kelvin sign has a `k` in its lowercase form. Induction on
the text, whatever stands before it. -/
theorem k_mem_lowerAfter {before s : List Char} (h : kelvinSign ∈ s) :
    'k' ∈ lowerAfter before s := by
  induction s generalizing before with
  | nil => cases h
  | cons c rest ih =>
    rcases List.mem_cons.mp h with rfl | hrest
    · rw [lowerAfter_kelvinSign]
      exact List.mem_cons_self
    · exact List.mem_append_right _ (ih hrest)

/-- A text with Kelvin signs for its letters `k`. -/
def withKelvinSigns (s : List Char) : List Char :=
  s.map fun c => if c.toLower = 'k' then kelvinSign else c

/-- Writing Kelvin signs for the letters `k` of a text of ASCII does not
change its lowercase form. -/
theorem lowerAfter_withKelvinSigns {s : List Char} (h : ∀ c ∈ s, IsAscii c)
    (before : List Char) : lowerAfter before (withKelvinSigns s) = s.map Char.toLower := by
  induction s generalizing before with
  | nil => rfl
  | cons c rest ih =>
    obtain ⟨hc, hrest⟩ := List.forall_mem_cons.mp h
    show lowerAfter before ((if c.toLower = 'k' then kelvinSign else c) :: withKelvinSigns rest) = _
    split
    · next hk =>
      rw [lowerAfter_kelvinSign, ih hrest, List.map_cons, hk]
    · rw [lowerAfter_cons (ne_sigma_of_isAscii hc), lowerChar_of_isAscii hc, ih hrest]
      rfl

/-- Two texts are the same but for the case of ASCII if their characters are,
one by one. -/
theorem sameIgnoringAsciiCase_iff {a b : String} : sameIgnoringAsciiCase a b = true ↔
    a.toList.map Char.toLower = b.toList.map Char.toLower := by
  rw [sameIgnoringAsciiCase, beq_iff_eq, asciiLowercase, asciiLowercase, String.ofList_inj]

/-- To have the lowercase form of an ASCII text is to be that text up to
ASCII case, just when there is no `k` in it. -/
theorem forall_sameIgnoringAsciiCase_iff {k : String} (hk : ∀ c ∈ k.toList, IsAscii c) :
    (∀ word, lowercase word = lowercase k → sameIgnoringAsciiCase word k = true) ↔
      'k' ∉ k.toList ∧ 'K' ∉ k.toList := by
  have hform := lowerAfter_of_isAscii hk []
  constructor
  · intro h
    -- With a Kelvin sign for the letter the lowercase form is the same.
    have hnone : ∀ c ∈ k.toList, c.toLower ≠ 'k' := by
      intro c hc hck
      have hword : lowercase (String.ofList (withKelvinSigns k.toList)) = lowercase k := by
        rw [lowercase, lowercase, String.toList_ofList, lowerAfter_withKelvinSigns hk, hform]
      have hsame := sameIgnoringAsciiCase_iff.mp (h _ hword)
      rw [String.toList_ofList] at hsame
      have hkelvin : kelvinSign ∈ withKelvinSigns k.toList :=
        List.mem_map.mpr ⟨c, hc, if_pos hck⟩
      obtain ⟨d, hd, hdk⟩ := List.mem_map.mp (hsame ▸ List.mem_map_of_mem hkelvin)
      exact absurd (hdk ▸ toLower_isAscii (hk d hd)) (by decide)
    exact ⟨fun hlower => hnone 'k' hlower rfl, fun hupper => hnone 'K' hupper rfl⟩
  · rintro ⟨hlower, hupper⟩ word hword
    have hsame : lowerAfter [] word.toList = k.toList.map Char.toLower :=
      (String.ofList_injective hword).trans hform
    have hkelvin : kelvinSign ∉ word.toList := by
      intro hmem
      obtain ⟨c, hc, hck⟩ := List.mem_map.mp (hsame ▸ k_mem_lowerAfter hmem)
      rcases toLower_eq_k (hk c hc) hck with rfl | rfl
      · exact hlower hc
      · exact hupper hc
    have hlowered : ∀ d ∈ lowerAfter [] word.toList, IsAscii d := by
      intro d hd
      obtain ⟨c, hc, rfl⟩ := List.mem_map.mp (hsame ▸ hd)
      exact toLower_isAscii (hk c hc)
    rw [sameIgnoringAsciiCase_iff, ← hsame,
      lowerAfter_of_isAscii (isAscii_of_lowerAfter hlowered hkelvin)]

/-! ### ASCII case within the full rules -/

/-- The letters beyond ASCII are not changed when those of ASCII are made
small. -/
theorem toLower_of_not_isAscii {c : Char} (h : ¬ IsAscii c) : c.toLower = c := by
  have hbeyond : ¬ c.toNat ≤ 'Z'.toNat := fun hle => h (Nat.lt_of_le_of_lt hle (by decide))
  exact dif_neg fun hupper => hbeyond hupper.2

/-- What is the same for an ASCII character and its lowercase form is the
same for all characters and theirs. -/
theorem apply_toLower {α : Type} {f : Char → α}
    (h : ∀ n < 128, f (Char.ofNat n).toLower = f (Char.ofNat n)) (c : Char) :
    f c.toLower = f c := by
  by_cases hc : IsAscii c
  · exact forall_isAscii (P := fun c => f c.toLower = f c) h hc
  · rw [toLower_of_not_isAscii hc]

/-- Whether the first character that counts has a case does not depend on the
case of ASCII letters. -/
theorem startsCased_map_toLower (s : List Char) :
    startsCased (s.map Char.toLower) = startsCased s := by
  have hignorable := apply_toLower (f := fun c => inRanges caseIgnorableRanges c.toNat)
    (by decide +kernel)
  have hcased := apply_toLower (f := fun c => inRanges casedRanges c.toNat) (by decide +kernel)
  have hdrop : (s.map Char.toLower).dropWhile (fun c => inRanges caseIgnorableRanges c.toNat)
      = (s.dropWhile fun c => inRanges caseIgnorableRanges c.toNat).map Char.toLower := by
    rw [List.dropWhile_map]
    exact congrArg (fun p => (s.dropWhile p).map Char.toLower) (funext hignorable)
  unfold startsCased
  rw [hdrop]
  cases s.dropWhile fun c => inRanges caseIgnorableRanges c.toNat with
  | nil => rfl
  | cons c rest => exact hcased c

/-- The lowercase form does not depend on the case of ASCII letters, also
where it depends on the characters around. -/
theorem lowerAfter_map_toLower (before s : List Char) :
    lowerAfter (before.map Char.toLower) (s.map Char.toLower) = lowerAfter before s := by
  have hsigma := apply_toLower (f := fun c => decide (c = 'Σ')) (by decide +kernel)
  have hchar := apply_toLower (f := lowerChar) (by decide +kernel)
  induction s generalizing before with
  | nil => rfl
  | cons c rest ih =>
    have hrest := ih (c :: before)
    simp only [decide_eq_decide] at hsigma
    simp only [List.map_cons, lowerAfter, startsCased_map_toLower, hsigma, hchar] at hrest ⊢
    rw [hrest]

/-- Words that are the same up to ASCII case have one lowercase form. -/
theorem lowercase_eq_of_sameIgnoringAsciiCase {a b : String}
    (h : sameIgnoringAsciiCase a b = true) : lowercase a = lowercase b := by
  rw [sameIgnoringAsciiCase_iff] at h
  calc lowercase a
      = String.ofList (lowerAfter [] (a.toList.map Char.toLower)) :=
        congrArg String.ofList (lowerAfter_map_toLower [] a.toList).symm
    _ = String.ofList (lowerAfter [] (b.toList.map Char.toLower)) := by rw [h]
    _ = lowercase b := congrArg String.ofList (lowerAfter_map_toLower [] b.toList)

end ConceptScript.Text
