import ConceptScript.Proofs.Script.Typing

/-!
# `ConceptScript.Proofs.Script.ListedValues`: the words of choices

A member that is a choice takes one of some words, in any case, and keeps
it as it is declared. In a statement this is so. A key of a reference is
taken as it is written: it need not be one of the words, let alone be
spelled like one.

* `Reference.of_within`: what is in a reference, at any depth, was itself
  read as a reference, from some of the same tokens.
* `Head.choicesKept`: in a head the choices are kept as declared, and what
  is in it comes from a block around or from a reference.
* `parse_choicesKept`: so it is with all concepts of a script. Where no key
  is a choice, every choice is kept as declared.
-/

set_option autoImplicit false

namespace ConceptScript.Script

open ConceptScript.Text
open ConceptScript.Model (TypeId Member)

variable {m : Model}

/-! ### Concepts in concepts -/

/-- A concept is another one or stands in a slot of it, at any depth. -/
inductive Node.Within : Node → Node → Prop
  | self (n : Node) : Within n n
  | slot {inner concept n : Node} (mem : .node concept ∈ n.slots)
      (within : inner.Within concept) : Within inner n

/-- The slots of a concept, each with its member. -/
def Node.stored (m : Model) (n : Node) : List (Member × Slot) :=
  (m.typeAt n.type).members.zip n.slots

/-- Every choice of a concept is one of the words declared for it. -/
def Node.ChoicesListed (m : Model) (n : Node) : Prop :=
  ∀ member values text, (member, .text text) ∈ n.stored m → member.value = .choice values →
    text ∈ values

/-- A reference whose keys are the texts of tokens as they are written. -/
structure Node.KeysAsWritten (m : Model) (tokens : List Token) (n : Node) : Prop where
  isReference : IsReference m n.type n
  texts : ∀ member text, (member, .text text) ∈ n.stored m →
    member.isKey = true ∧ ∃ t ∈ tokens, t.kind.isValue = true ∧ t.value = text

/-- A concept whose choices are kept as declared, and those of the concepts
in it too, unless they are keys of references. -/
structure Node.ChoicesKept (m : Model) (tokens : List Token) (n : Node) : Prop where
  listed : n.ChoicesListed m
  within : ∀ inner : Node, inner.Within n → inner.ChoicesListed m ∨ inner.KeysAsWritten m tokens

/-! ### References -/

/-- A slot is that of some member, if there are as many of both. -/
theorem exists_mem_zip {members : List Member} {slots : List Slot} {slot : Slot}
    (hlength : members.length = slots.length) (h : slot ∈ slots) :
    ∃ member, (member, slot) ∈ members.zip slots := by
  rw [← List.map_snd_zip (Nat.le_of_eq hlength.symm)] at h
  obtain ⟨⟨member, _⟩, hmem, rfl⟩ := List.mem_map.mp h
  exact ⟨member, hmem⟩

/-- A slot of a reference is empty, or it is that of a key and was read from
some of the tokens. -/
theorem Keys.of_mem_zip {later : Bool} {members : List Member} {words : List Token}
    {slots : List Slot} {member : Member} {slot : Slot} :
    Keys m later members words slots → (member, slot) ∈ members.zip slots →
      slot = .empty ∨ member.isKey = true ∧ ∃ own, own ⊆ words ∧ KeyValue m member own slot
  | .nil, h => absurd h List.not_mem_nil
  | .other _ tail, h => by
    rcases List.mem_cons.mp h with heq | hmem
    · cases heq
      exact .inl rfl
    · exact tail.of_mem_zip hmem
  | @Keys.key _ _ _ _ dots own words _ _ isKey _ value tail, h => by
    have hown : own ⊆ dots ++ own ++ words := fun t ht =>
      List.mem_append_left _ (List.mem_append_right _ ht)
    rcases List.mem_cons.mp h with heq | hmem
    · cases heq
      exact .inr ⟨isKey, own, hown, value⟩
    · refine (tail.of_mem_zip hmem).imp id fun ⟨hkey, own', hsub, hvalue⟩ => ?_
      exact ⟨hkey, own', fun t ht => List.mem_append_right _ (hsub ht), hvalue⟩

/-- What is in a reference is itself a reference, read from some of the
tokens. -/
theorem Reference.of_within (hm : m.Accepted) {d : TypeId} {words : List Token} {n inner : Node}
    (hd : d < m.types.length) (h : Reference m d words n) (hwithin : inner.Within n) :
    inner.type < m.types.length ∧ ∃ own, own ⊆ words ∧ Reference m inner.type own inner := by
  induction hwithin generalizing d words with
  | self =>
    cases h with
    | keys keys => exact ⟨hd, words, List.Subset.refl words, .keys keys⟩
  | slot hslot _ ih =>
    cases h with
    | keys keys =>
      have hmembers := referTo_typeAt hm d
      obtain ⟨member, hmem⟩ := exists_mem_zip (keys.fits hm hmembers).length_eq hslot
      rcases keys.of_mem_zip hmem with hempty | ⟨_, own, hsub, value⟩
      · cases hempty
      · cases value with
        | reference isConcept reference =>
          have hlt := hmembers member (List.of_mem_zip hmem).1 _ isConcept
          obtain ⟨htype, own', hsub', href⟩ := ih hlt reference
          exact ⟨htype, own', List.Subset.trans hsub' hsub, href⟩

/-- The keys of a reference are the texts of the tokens it was read from. -/
theorem Reference.keysAsWritten (hm : m.Accepted) {d : TypeId} {words tokens : List Token}
    {n : Node} (hd : d < m.types.length) (hwords : words ⊆ tokens) (h : Reference m d words n) :
    n.KeysAsWritten m tokens := by
  have hreference := h.isReference hm hd
  refine ⟨hreference.type_eq.symm ▸ hreference, fun member text hmem => ?_⟩
  cases h with
  | keys keys =>
    rcases keys.of_mem_zip hmem with hempty | ⟨hkey, own, hsub, value⟩
    · cases hempty
    · cases value with
      | @text _ t _ isValue =>
        exact ⟨hkey, t, hwords (hsub (List.mem_singleton_self t)), isValue, rfl⟩

/-! ### Heads -/

/-- A slot of a head is empty, or it was read from some of the tokens. -/
theorem Members.of_mem_zip {c : ConceptType} {context : List Node} {afterReference : Bool}
    {index : Nat} {members : List Member} {words : List Token} {slots : List Slot}
    {member : Member} {slot : Slot}
    (h : Members m c context afterReference index members words slots)
    (hmem : (member, slot) ∈ members.zip slots) :
    slot = .empty ∨ ∃ i own isReference, own ⊆ words
      ∧ MemberValue m member (nestedFor c context i) own slot isReference := by
  induction h with
  | nil => exact absurd hmem List.not_mem_nil
  | unparsable _ _ ih =>
    rcases List.mem_cons.mp hmem with heq | hrest
    · cases heq
      exact .inl rfl
    · exact ih hrest
  | @parsable _ isReference index _ _ dots own words _ _ _ _ value _ ih =>
    have hown : own ⊆ dots ++ own ++ words := fun t ht =>
      List.mem_append_left _ (List.mem_append_right _ ht)
    rcases List.mem_cons.mp hmem with heq | hrest
    · cases heq
      exact .inr ⟨index, own, isReference, hown, value⟩
    · refine (ih hrest).imp id fun ⟨i, own', isReference', hsub, hvalue⟩ => ?_
      exact ⟨i, own', isReference', fun t ht => List.mem_append_right _ (hsub ht), hvalue⟩

/-- A member is filled from one of the blocks around. -/
theorem mem_of_nestedFor {c : ConceptType} {context : List Node} {index : Nat} {n : Node}
    (h : nestedFor c context index = some n) : n ∈ context := by
  unfold nestedFor at h
  split at h
  · exact List.mem_of_head? h
  · cases h

/-- A head keeps its choices as declared, if the concepts of the blocks
around do. -/
theorem Head.choicesKept (hm : m.Accepted) {context : List Node} {tokens words rest : List Token}
    {n : Node} (hwords : words ⊆ tokens)
    (hcontext : ∀ outer ∈ context, outer.ChoicesKept m tokens) (h : Head m context words n rest) :
    n.ChoicesKept m tokens := by
  cases h with
  | @longest c t words rest _ _ _ mem head _ =>
    cases head with
    | @mk _ _ slots _ _ members =>
      have hc : c ∈ m.types := List.mem_of_mem_filter mem
      -- The members of a node are looked up by its type, which is the one it was read as.
      have hstored : (Node.mk c.id slots).stored m = c.members.zip slots := by
        show (m.typeAt c.id).members.zip slots = _
        rw [hm.typeAt_id hc]
      have hlisted : (Node.mk c.id slots).ChoicesListed m := by
        intro member values text hmem hchoice
        rw [hstored] at hmem
        rcases members.of_mem_zip hmem with hempty | ⟨i, own, isReference, _, value⟩
        · cases hempty
        · cases value with
          | text isText _ => cases isText.symm.trans hchoice
          | choice isChoice _ listed =>
            cases isChoice.symm.trans hchoice
            exact List.mem_of_find?_eq_some listed
      refine ⟨hlisted, fun inner hwithin => ?_⟩
      cases hwithin with
      | self => exact .inl hlisted
      | slot hslot hwithin =>
        have hfits := members.fits hm fun _ hmember _ hvalue => hm.reference_lt hc hmember hvalue
        obtain ⟨member, hmem⟩ :=
          exists_mem_zip (List.length_zipIdx.symm.trans hfits.length_eq) hslot
        rcases members.of_mem_zip hmem with hempty | ⟨i, own, isReference, hsub, value⟩
        · cases hempty
        · -- It came from a block around, as what it was there, or it is a reference.
          cases value with
          | anyConcept _ nested => exact (hcontext _ (mem_of_nestedFor nested)).within inner hwithin
          | nested _ nested _ => exact (hcontext _ (mem_of_nestedFor nested)).within inner hwithin
          | reference isConcept _ reference =>
            have hlt := hm.reference_lt hc (List.of_mem_zip hmem).1 isConcept
            obtain ⟨htype, own', hsub', href⟩ := reference.of_within hm hlt hwithin
            refine .inr (href.keysAsWritten hm htype fun u hu => hwords ?_)
            exact List.mem_append_left _ (List.mem_cons_of_mem t (hsub (hsub' hu)))

/-! ### Scripts -/

/-- What every head hands on from the blocks around it holds of all concepts
of a script. -/
theorem forall_mem_of_head (hm : m.Accepted) {tokens : List Token} {nodes : List Node}
    (h : (parse m tokens).result = .ok nodes) {P : Node → Prop}
    (hhead : ∀ context words rest n, words ⊆ tokens → (∀ outer ∈ context, P outer) →
      Head m context words n rest → P n) : ∀ n ∈ nodes, P n := by
  have hindex : ∀ (i : Nat) (n : Node), nodes[i]? = some n → P n := by
    intro i
    induction i using Nat.strongRecOn with
    | ind i ih =>
      intro n hi
      obtain ⟨before, s, after, next, _, hleads, _, hmem, hread⟩ :=
        exists_statement_of_getElem? h hi
      obtain ⟨_, head⟩ := (readStatement_eq_ok_iff hm).mp hread
      have hwords : s.rest ⊆ tokens := by
        obtain ⟨read, hrest, _⟩ := hleads
        show s.rest ⊆ (Reader.ofTokens tokens).rest
        rw [hrest]
        exact List.subset_append_right read s.rest
      refine hhead _ s.rest next.rest n hwords (fun outer houter => ?_) head
      -- A block around is that of an earlier concept.
      have hearlier := (hmem outer houter).resolve_left List.not_mem_nil
      obtain ⟨j, hj⟩ := List.mem_iff_getElem?.mp hearlier
      rw [List.getElem?_take] at hj
      split at hj
      · next hlt => exact ih j hlt outer hj
      · cases hj
  intro n hn
  obtain ⟨i, hi⟩ := List.mem_iff_getElem?.mp hn
  exact hindex i n hi

/-- Of a concept in a script, and of what is in it, all choices are words as
declared, unless they are keys of references, which are as written. Where no
key is a choice, they are all words as declared. -/
theorem parse_choicesKept (hm : m.Accepted) {tokens : List Token} {nodes : List Node}
    (h : (parse m tokens).result = .ok nodes) :
    (∀ n ∈ nodes, n.ChoicesKept m tokens)
      ∧ ((∀ c ∈ m.types, ∀ member ∈ c.members, member.isKey = true →
            ∀ values, member.value ≠ .choice values) →
          ∀ n ∈ nodes, ∀ inner : Node, inner.Within n → inner.ChoicesListed m) := by
  have hkept : ∀ n ∈ nodes, n.ChoicesKept m tokens :=
    forall_mem_of_head hm h fun _ _ _ _ hwords hcontext head =>
      head.choicesKept hm hwords hcontext
  refine ⟨hkept, fun hnone n hn inner hwithin => ?_⟩
  rcases (hkept n hn).within inner hwithin with hlisted | hwritten
  · exact hlisted
  · intro member values text hmem hchoice
    have hkey := (hwritten.texts member text hmem).1
    have hmember := (List.of_mem_zip hmem).1
    rcases m.typeAt_mem_or inner.type with htype | hblank
    · exact absurd hchoice (hnone _ htype member hmember hkey values)
    · rw [hblank] at hmember
      exact absurd hmember List.not_mem_nil

/-! ### A key that is a choice -/

/-- Sortings are `Asc` or `Desc`, and one is used by its direction. -/
def sortModel : Model :=
  ⟨"1", [⟨0, "SortInfo", some "Sort", [],
      [⟨"Direction", .choice ["Asc", "Desc"], true, true, false⟩], none⟩,
    ⟨1, "UseInfo", some "Use", [], [⟨"Sort", .concept 0, true, true, false⟩], none⟩]⟩

/-- The model of sortings is accepted: it is what its declaration is resolved
to. -/
theorem accepted_sortModel : sortModel.Accepted :=
  ⟨⟨"1", [⟨"SortInfo", some "Sort", [], none,
      [⟨"Direction", .choice ["Asc", "Desc"], true, true, false⟩]⟩,
    ⟨"UseInfo", some "Use", [], none, [⟨"Sort", .concept "SortInfo", true, true, false⟩]⟩]⟩, rfl⟩

/-- The tokens of `sort desc; use DESC;`. -/
def sortTokens : List Token :=
  [⟨.word, "sort", 0, 4⟩, ⟨.word, "desc", 5, 9⟩, ⟨.special, ";", 9, 10⟩, ⟨.word, "use", 11, 14⟩,
    ⟨.word, "DESC", 15, 19⟩, ⟨.special, ";", 19, 20⟩, .endAt 20]

/-- A choice is kept as declared where it stands in its own statement, and as
written in a reference. -/
theorem parse_sortTokens : (parse sortModel sortTokens).result
    = .ok [.mk 0 [.text "Desc"], .mk 1 [.node (.mk 0 [.text "DESC"])]] := by
  rw [parse, parseFrom_of_ok rfl rfl rfl, parseFrom_of_ok rfl rfl rfl, parseFrom_of_atEnd rfl]
  rfl

/-- Both statements keep their choices in the sense of `Node.ChoicesKept`:
the key of the reference is left out of it. -/
theorem parse_choicesKept_of_sorts :
    (Node.mk 0 [.text "Desc"]).ChoicesKept sortModel sortTokens
      ∧ (Node.mk 1 [.node (.mk 0 [.text "DESC"])]).ChoicesKept sortModel sortTokens := by
  obtain ⟨hkept, _⟩ := parse_choicesKept accepted_sortModel parse_sortTokens
  exact ⟨hkept _ List.mem_cons_self, hkept _ (List.mem_cons_of_mem _ List.mem_cons_self)⟩

/-- The direction of the sorting that is used is none of the words. -/
theorem not_choicesListed_of_key :
    (parse sortModel sortTokens).result
        = .ok [.mk 0 [.text "Desc"], .mk 1 [.node (.mk 0 [.text "DESC"])]]
      ∧ (Node.mk 0 [.text "DESC"]).Within (.mk 1 [.node (.mk 0 [.text "DESC"])])
      ∧ ¬ (Node.mk 0 [.text "DESC"]).ChoicesListed sortModel := by
  refine ⟨parse_sortTokens, .slot (List.mem_singleton_self _) (.self _), fun h => ?_⟩
  have hlisted := h _ ["Asc", "Desc"] "DESC" (List.mem_singleton_self _) rfl
  exact absurd hlisted (by decide)

end ConceptScript.Script
