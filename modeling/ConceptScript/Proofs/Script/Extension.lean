import ConceptScript.Proofs.Model.Extension
import ConceptScript.Proofs.Script.ReferenceDepth
import ConceptScript.Proofs.Script.Typing

/-!
# `ConceptScript.Proofs.Script.Extension`: scripts in a longer model

A model that extends another one reads the scripts of the shorter model as
that model does. `parse_extends` says so of the whole of what is found: the
concepts and all events on the way.

Each reading of the parser does the same with both models, mismatches
included, when it is about old types and the open blocks are of old types
(`readReference_extends`, `readMember_extends`, `interpret_extends`). This
includes types that fail: a statement is chosen among all types with its
keyword, so a type that failed with the shorter model must not succeed with
the longer one. A statement whose first word is no keyword of the shorter
model can be one of the longer model. So a script that is refused may be
accepted afterwards, but not the other way round.
-/

set_option autoImplicit false

namespace ConceptScript.Script

open ConceptScript.Text
open ConceptScript.Model (TypeId Member)

variable {m m' : Model} {added : List ConceptType}

/-! ### References -/

/-- A reference to an old type is read in the same way with more types, at
any depth. -/
theorem readReferenceWithin_extends (h : m.Extends m' added) (hm : m.Accepted) (depth : Nat)
    {type : TypeId} (htype : type < m.types.length) :
    readReferenceWithin m' depth type = readReferenceWithin m depth type := by
  induction depth generalizing type with
  | zero => rw [readReferenceWithin, readReferenceWithin, h.typeAt_eq htype]
  | succ depth ih =>
    have hkeys : ∀ member ∈ (m.typeAt type).members, member.isKey = true → ∀ target,
        member.value = .concept target →
          readReferenceWithin m' depth target = readReferenceWithin m depth target :=
      fun member hmem _ target hvalue => ih (hm.reference_lt (Model.typeAt_mem htype) hmem hvalue)
    rw [readReferenceWithin, readReferenceWithin, h.typeAt_eq htype, readKeys_congr hkeys]

/-- The longer model has more depth for reading a reference, but the depth
of the shorter one is enough. -/
theorem readReference_extends (h : m.Extends m' added) (hm : m.Accepted) {type : TypeId}
    (htype : type < m.types.length) : readReference m' type = readReference m type := by
  rw [readReference, readReferenceWithin_extends h hm _ htype]
  exact readReferenceWithin_eq hm htype h.length_le

/-! ### Members -/

/-- A member that refers to old types is read in the same way with more
types. -/
theorem readMember_extends (h : m.Extends m' added) (hm : m.Accepted)
    {c : ConceptType} {member : Member}
    (hmember : ∀ target, member.value = .concept target → target < m.types.length)
    {parent : Option Node} (hparent : ∀ n, parent = some n → n.type < m.types.length)
    (afterReference : Bool) :
    readMember m' c member parent afterReference = readMember m c member parent afterReference := by
  have hvalue : readValue m' c member parent = readValue m c member parent := by
    unfold readValue
    split
    · rfl
    · rfl
    · rfl
    · next declared hconcept =>
      have hsame : parent.filter (fun n => m'.isAssignable n.type declared)
          = parent.filter (fun n => m.isAssignable n.type declared) := by
        cases parent with
        | none => rfl
        | some n => rw [Option.filter_some, Option.filter_some,
            h.isAssignable_eq hm (hparent n rfl)]
      rw [hsame, readReference_extends h hm (hmember declared hconcept)]
  rw [readMember, readMember, hvalue]

/-- Members that refer to old types are read in the same way with more types. -/
theorem readMembers_extends (h : m.Extends m' added) (hm : m.Accepted)
    (c : ConceptType) {parent : Option Node}
    (hparent : ∀ n, parent = some n → n.type < m.types.length) (afterReference : Bool)
    (index : Nat) {members : List Member}
    (hmembers : ∀ member ∈ members, ∀ target, member.value = .concept target →
      target < m.types.length) (r : Reader) :
    readMembers m' c parent afterReference index members r
      = readMembers m c parent afterReference index members r := by
  induction members generalizing afterReference index r with
  | nil => rfl
  | cons member rest ih =>
    obtain ⟨hmember, hrest⟩ := List.forall_mem_cons.mp hmembers
    have hnested : ∀ n, (if c.parentMember?.map (·.2) = some index then parent else none) = some n →
        n.type < m.types.length := by
      intro n hn
      split at hn
      · exact hparent n hn
      · cases hn
    simp only [readMembers, readMember_extends h hm hmember hnested, ih _ _ hrest]

/-- A statement is read as an old type in the same way, whatever comes of
it. -/
theorem interpret_extends (h : m.Extends m' added) (hm : m.Accepted)
    {c : ConceptType} (hc : c ∈ m.types) {context : List Node}
    (hcontext : ∀ n ∈ context, n.type < m.types.length) (r : Reader) :
    interpret m' context c r = interpret m context c r := by
  have hparent : ∀ n, context.head? = some n → n.type < m.types.length :=
    fun n hn => hcontext n (List.mem_of_mem_head? hn)
  have hmembers : ∀ member ∈ c.members, ∀ target, member.value = .concept target →
      target < m.types.length := fun member hmem target hvalue => hm.reference_lt hc hmem hvalue
  simp only [interpret, readMembers_extends h hm c hparent false 0 hmembers]

/-! ### Statements -/

/-- The model is asked about a choice only to tell why there is none. -/
theorem choose_of_ok (m' : Model) {word : String} {index : Nat} {all : List Interpretation}
    {n : Node} {r : Reader} (h : choose m word index all = .ok (n, r)) :
    choose m' word index all = .ok (n, r) :=
  choose_eq_ok_iff.mpr (choose_eq_ok_iff.mp h)

/-- A statement that was read has a keyword of an old type, and then only
old types have it. -/
theorem readStatement_extends (h : m.Extends m' added) (hm : m.Accepted)
    {context : List Node} (hcontext : ∀ n ∈ context, n.type < m.types.length) {r next : Reader}
    {n : Node} (hread : (readStatement m context r).2 = .ok (n, next)) :
    readStatement m' context r = readStatement m context r := by
  unfold readStatement at hread ⊢
  dsimp only at hread ⊢
  split at hread
  · cases hread
  · next hbrace =>
    rw [if_neg hbrace, if_neg hbrace]
    split at hread
    · cases hread
    · next word hword =>
      -- Some type has read the statement, so the word is one of its keywords.
      have hknown : m.byKeyword word ≠ [] := by
        obtain ⟨i, hi, -⟩ := mem_successes (choose_mem_successes hread)
        exact List.ne_nil_of_mem (List.exists_of_mem_map hi).choose_spec.1
      have hsame : interpretations m' context word r = interpretations m context word r := by
        rw [interpretations, interpretations, h.byKeyword_eq hknown]
        exact List.map_congr_left fun c hc =>
          interpret_extends h hm (List.mem_of_mem_filter hc) hcontext r
      have hchosen : choose m word r.position (interpretations m context word r) = .ok (n, next) :=
        hread
      rw [hsame, choose_of_ok m' hchosen, hchosen]

/-- A statement that ends well does so with any model: types are only named
in the failure. -/
theorem endStatement_extends (m' : Model) {context : List Node} {n : Node} {r : Reader}
    {ended : List Node × Reader} (hend : (endStatement m n context r).2 = .ok ended) :
    endStatement m' n context r = endStatement m n context r := by
  unfold endStatement at hend ⊢
  split at hend
  · rfl
  · split at hend
    · rfl
    · cases hend

/-! ### Scripts -/

/-- A script that is parsed without a fault is parsed in the same way with
more types. No old keyword gets a new meaning, and no new one is read. -/
theorem parseFrom_extends (h : m.Extends m' added) (hm : m.Accepted)
    {context : List Node} (hcontext : ∀ n ∈ context, n.type < m.types.length) {r : Reader}
    {nodes : List Node} (hparse : (parseFrom m context r).result = .ok nodes) :
    parseFrom m' context r = parseFrom m context r := by
  fun_induction parseFrom m context r generalizing nodes with
  | case1 r hend => exact parseFrom_of_atEnd hend
  | case2 => cases hparse
  | case3 => cases hparse
  | case4 => cases hparse
  | case5 context r hend events n afterHead hread closing context' next hending others ih =>
    have hread' := readStatement_extends h hm hcontext (congrArg Prod.snd hread)
    have hending' := endStatement_extends m' (congrArg Prod.snd hending)
    obtain ⟨_, head⟩ := (readStatement_eq_ok_iff hm).mp (congrArg Prod.snd hread)
    -- The blocks open afterwards are of concepts read so far, all of old types.
    have hcontext' : ∀ outer ∈ context', outer.type < m.types.length := by
      intro outer houter
      rcases mem_of_endStatement (congrArg Prod.snd hending) outer houter with rfl | hopen
      · exact (head.wellTyped hm).isType
      · exact hcontext outer hopen
    cases hothers : others.result with
    | error failure =>
      rw [hothers] at hparse
      cases hparse
    | ok rest =>
      rw [parseFrom_of_ok (Bool.eq_false_iff.mpr hend) (hread'.trans hread)
        (hending'.trans hending), ih hcontext' hothers]
      rw [← hothers]

/-- What a model reads from a script, any model that extends it reads from
it as well, with the same events. -/
theorem parse_extends (h : m.Extends m' added) (hm : m.Accepted)
    {tokens : List Token} {nodes : List Node} (hparse : (parse m tokens).result = .ok nodes) :
    (parse m' tokens).result = .ok nodes
      ∧ (parse m' tokens).events = (parse m tokens).events := by
  have hsame : parse m' tokens = parse m tokens :=
    parseFrom_extends h hm (fun _ hn => absurd hn List.not_mem_nil) hparse
  exact ⟨hsame ▸ hparse, congrArg Parse.events hsame⟩

/-- A script that a model file accepts is accepted after more types with
other keywords were written at its end, if the file still loads. -/
theorem parse_of_more_types {d d' : Model.Declaration} {after : List Model.TypeDecl}
    (h : Model.resolve d = .ok m) (h' : Model.resolve d' = .ok m')
    (htypes : d'.types = d.types ++ after)
    (hother : ∀ t ∈ d.types, ∀ t' ∈ after, ∀ word word', word ≠ "" → t.keyword = some word →
      t'.keyword = some word' → lowercase word' ≠ lowercase word)
    {tokens : List Token} {nodes : List Node} (hparse : (parse m tokens).result = .ok nodes) :
    (parse m' tokens).result = .ok nodes := by
  obtain ⟨added, hextends⟩ := Model.extends_of_resolve h h' htypes hother
  have hsame : parse m' tokens = parse m tokens :=
    parseFrom_extends hextends ⟨d, h⟩ (fun _ hn => absurd hn List.not_mem_nil) hparse
  rw [hsame, hparse]

/-- The types added to the modules and entities: entities that are stored,
and marks for any entity. -/
def storageTypes : List ConceptType :=
  [⟨2, "StoredEntityInfo", some "Stored", [1],
      [⟨"Module", .concept 0, true, true, false⟩, ⟨"Name", .text, true, true, false⟩], none⟩,
    ⟨3, "MarkInfo", some "Mark", [], [⟨"Entity", .concept 1, true, true, false⟩], none⟩]

/-- A script of modules and entities is read the same when there are types
that derive from entities and refer to them. -/
theorem parse_modules_with_storage :
    (parse ⟨"1", moduleModel.types ++ storageTypes⟩ (moduleTokens ++ [.endAt 34])).result
        = .ok [.mk 0 [.text "A"], .mk 1 [.node (.mk 0 [.text "A"]), .text "B"],
          .mk 1 [.node (.mk 0 [.text "A"]), .text "C"]]
      ∧ (parse ⟨"1", moduleModel.types ++ storageTypes⟩ (moduleTokens ++ [.endAt 34])).events
        = (parse moduleModel (moduleTokens ++ [.endAt 34])).events := by
  have hextends : moduleModel.Extends ⟨"1", moduleModel.types ++ storageTypes⟩ storageTypes :=
    ⟨rfl, by simp [moduleModel, storageTypes]; decide⟩
  have hparse : (parse moduleModel (moduleTokens ++ [.endAt 34])).result
      = .ok [.mk 0 [.text "A"], .mk 1 [.node (.mk 0 [.text "A"]), .text "B"],
        .mk 1 [.node (.mk 0 [.text "A"]), .text "C"]] := by
    rw [parse, parseFrom_of_ok rfl rfl rfl, parseFrom_of_ok rfl rfl rfl,
      parseFrom_of_ok rfl rfl rfl, parseFrom_of_atEnd rfl]
    rfl
  exact parse_extends hextends accepted_moduleModel hparse

end ConceptScript.Script
