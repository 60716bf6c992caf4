import ConceptScript.Proofs.Model.KeyCircle
import ConceptScript.Proofs.Script.WrittenForm

/-!
# `ConceptScript.Proofs.Script.KeyLayout`: what a reference looks like

The keys of a type say what a reference to it looks like: a value for each
key that is a text, for each key that is a concept what a reference to this
concept looks like, and a dot between any two keys (`keyLayout`). There is
no such layout if some key on the way can be any concept
(`exists_keyLayout_iff`).

`reference_iff_laid` compares this with the grammar. What a reference reads
and what the concept is known by afterwards are two walks along the keys,
one through tokens and one through slots; `Reference.valuesOf_eq` says that
they meet. `readReference_reads_keys` says both of the parser.
-/

set_option autoImplicit false

namespace ConceptScript.Script

open ConceptScript.Text
open ConceptScript.Model (TypeId Member KeyLeads)
open Relation (ReflTransGen)

/-! ### Layouts -/

/-- What a token of a reference is there for. -/
inductive KeyMark where
  | value
  | dot
  deriving DecidableEq, Repr

/-- A token that can be there for it. -/
def Token.Fills (t : Token) : KeyMark → Prop
  | .value => t.kind.isValue = true
  | .dot => t.is "." = true

/-- Tokens with a layout. -/
def Laid (marks : List KeyMark) (w : List Token) : Prop :=
  List.Forall₂ (fun mark (t : Token) => t.Fills mark) marks w

/-- The keys of a type. -/
def keysOf (c : ConceptType) : List Member := c.members.filter (·.isKey)

/-- The layout of a key, told those of references. -/
def keyMarks (reference : TypeId → Option (List KeyMark)) (member : Member) :
    Option (List KeyMark) :=
  match member.value with
  | .text | .choice _ => some [.value]
  | .concept target => reference target
  | .anyConcept => none

/-- The layout of references to a type. The depth bounds how many types
keys may lead through. -/
def keyLayoutWithin (m : Model) : Nat → TypeId → Option (List KeyMark)
  | 0, _ => none
  | depth + 1, type =>
    ((keysOf (m.typeAt type)).mapM (keyMarks (keyLayoutWithin m depth))).map
      [KeyMark.dot].intercalate

/-- The layout of references to a type. In a model that loads the bound is
no restriction, by `keyLayout_eq`. -/
def keyLayout (m : Model) (type : TypeId) : Option (List KeyMark) :=
  keyLayoutWithin m m.types.length type

/-- A type whose keys lead to no key that can be any concept. -/
def Referable (m : Model) (type : TypeId) : Prop :=
  ∀ target, ReflTransGen (KeyLeads m.types) type target →
    ∀ member ∈ keysOf (m.typeAt target), member.value ≠ .anyConcept

variable {m : Model}

/-- A key leads from one type to another just if a key of the first has a
concept of the second as its value. -/
theorem keyLeads_iff_exists_key {type target : TypeId} :
    KeyLeads m.types type target ↔
      ∃ member ∈ keysOf (m.typeAt type), member.value = .concept target := by
  simp only [Model.keyLeads_iff, keysOf, List.mem_filter, and_assoc]

/-- The layout of a key depends on that of the concept that it is. -/
theorem keyMarks_congr {reference reference' : TypeId → Option (List KeyMark)} {member : Member}
    (h : ∀ target, member.value = .concept target → reference target = reference' target) :
    keyMarks reference member = keyMarks reference' member := by
  unfold keyMarks
  split
  · rfl
  · rfl
  · next target hvalue => exact h target hvalue
  · rfl

/-! ### The layout of a type from those of its keys -/

section

variable {α β : Type} {f g : α → Option β} {a : α} {as : List α} {bs : List β}

/-- Functions that agree on a list come to the same over it. -/
theorem mapM_congr (h : ∀ a ∈ as, f a = g a) : as.mapM f = as.mapM g := by
  induction as with
  | nil => rfl
  | cons a as ih =>
    obtain ⟨hfirst, hrest⟩ := List.forall_mem_cons.mp h
    rw [List.mapM_cons, List.mapM_cons, hfirst, ih hrest]

/-- There are values for a list just if there is one for the first member and
there are some for the rest. -/
theorem mapM_cons_eq_some_iff :
    (a :: as).mapM f = some bs ↔ ∃ b, f a = some b ∧ ∃ rest, as.mapM f = some rest
      ∧ b :: rest = bs := by
  simp only [List.mapM_cons, Option.bind_eq_bind, Option.bind_eq_some_iff, Option.pure_def,
    Option.some.injEq]

/-- There are values for a list just if there is one for each member. -/
theorem exists_mapM_eq_some_iff : (∃ bs, as.mapM f = some bs) ↔ ∀ a ∈ as, ∃ b, f a = some b := by
  induction as with
  | nil => exact ⟨fun _ _ h => absurd h List.not_mem_nil, fun _ => ⟨[], rfl⟩⟩
  | cons a as ih =>
    rw [List.forall_mem_cons, ← ih]
    constructor
    · rintro ⟨bs, hbs⟩
      obtain ⟨b, hb, rest, hrest, -⟩ := mapM_cons_eq_some_iff.mp hbs
      exact ⟨⟨b, hb⟩, rest, hrest⟩
    · rintro ⟨⟨b, hb⟩, rest, hrest⟩
      exact ⟨b :: rest, mapM_cons_eq_some_iff.mpr ⟨b, hb, rest, hrest, rfl⟩⟩

end

/-- Between the layouts of the keys there are dots. -/
theorem keyLayout_eq (hm : m.Accepted) {type : TypeId} (htype : type < m.types.length) :
    keyLayout m type =
      ((keysOf (m.typeAt type)).mapM (keyMarks (keyLayout m))).map [KeyMark.dot].intercalate := by
  refine (hm.eq_of_length_le (f := keyLayoutWithin m) (fun depth depth' type hsame => ?_) htype
    (Nat.le_succ _)).symm
  rw [keyLayoutWithin, keyLayoutWithin, mapM_congr fun member hmem => keyMarks_congr fun target
    hvalue => hsame target (keyLeads_iff_exists_key.mpr ⟨member, hmem, hvalue⟩)]

/-- References to a type have a layout just if its keys have, and it is
theirs with dots between them. Here the bound on the depth is gone. -/
theorem keyLayout_eq_some_iff (hm : m.Accepted) {type : TypeId} (htype : type < m.types.length)
    {marks : List KeyMark} :
    keyLayout m type = some marks ↔ ∃ parts,
      (keysOf (m.typeAt type)).mapM (keyMarks (keyLayout m)) = some parts
        ∧ [KeyMark.dot].intercalate parts = marks := by
  rw [keyLayout_eq hm htype, Option.map_eq_some_iff]

/-- A type is referable if no key of it can be any concept and all types
that its keys lead to are. -/
theorem referable_iff {type : TypeId} :
    Referable m type ↔ (∀ member ∈ keysOf (m.typeAt type), member.value ≠ .anyConcept)
      ∧ ∀ target, KeyLeads m.types type target → Referable m target := by
  constructor
  · intro h
    exact ⟨h type .refl, fun target hlead target' htarget' => h target' (.head hlead htarget')⟩
  · rintro ⟨hkeys, htargets⟩ target htarget
    rcases htarget.cases_head with rfl | ⟨next, hlead, hrest⟩
    · exact hkeys
    · exact htargets next hlead target hrest

/-- A key has a layout unless it may be any concept or refers to a type that
has none. -/
theorem exists_keyMarks_iff {reference : TypeId → Option (List KeyMark)} {member : Member} :
    (∃ marks, keyMarks reference member = some marks) ↔ member.value ≠ .anyConcept
      ∧ ∀ target, member.value = .concept target → ∃ marks, reference target = some marks := by
  unfold keyMarks
  split <;> simp_all

/-- The types that can be referred to are those with a layout. -/
theorem exists_keyLayout_iff (hm : m.Accepted) {type : TypeId} (htype : type < m.types.length) :
    (∃ marks, keyLayout m type = some marks) ↔ Referable m type := by
  induction type, htype using hm.induction_on_keys with
  | step type htype ih =>
    -- A type has a layout if each of its keys has, and keys lead to types with shorter chains.
    have hkeys : (∃ marks, keyLayout m type = some marks) ↔
        ∀ member ∈ keysOf (m.typeAt type), ∃ marks, keyMarks (keyLayout m) member = some marks := by
      rw [← exists_mapM_eq_some_iff]
      simp only [keyLayout_eq_some_iff hm htype]
      exact ⟨fun ⟨_, parts, hparts, _⟩ => ⟨parts, hparts⟩,
        fun ⟨parts, hparts⟩ => ⟨_, parts, hparts, rfl⟩⟩
    rw [hkeys, referable_iff]
    simp only [exists_keyMarks_iff]
    constructor
    · intro h
      refine ⟨fun member hmem => (h member hmem).1, fun target hlead => ?_⟩
      obtain ⟨member, hmem, hvalue⟩ := keyLeads_iff_exists_key.mp hlead
      exact (ih target hlead).mp ((h member hmem).2 target hvalue)
    · rintro ⟨hnone, hall⟩ member hmem
      refine ⟨hnone member hmem, fun target hvalue => ?_⟩
      have hlead := keyLeads_iff_exists_key.mpr ⟨member, hmem, hvalue⟩
      exact (ih target hlead).mpr (hall target hlead)

/-! ### References and their layout -/

/-- Some layouts with dots between them, and one in front if a key stands
before. -/
def dotted (later : Bool) (parts : List (List KeyMark)) : List KeyMark :=
  if later then parts.flatMap (.dot :: ·) else [KeyMark.dot].intercalate parts

/-- Without layouts there are no dots. -/
theorem dotted_nil (later : Bool) : dotted later [] = [] := by
  cases later <;> rfl

/-- The first layout has a dot in front if a key stands before, and all later
ones have. -/
theorem dotted_cons (later : Bool) (part : List KeyMark) (parts : List (List KeyMark)) :
    dotted later (part :: parts) = (if later then [.dot] else []) ++ part ++ dotted true parts := by
  cases later with
  | true => rfl
  | false =>
    -- After the first layout a dot stands before each.
    induction parts generalizing part with
    | nil => simp [dotted]
    | cons next parts ih =>
      have hnext : [KeyMark.dot].intercalate (next :: parts) = next ++ dotted true parts := ih next
      show [KeyMark.dot].intercalate (part :: next :: parts) = part ++ dotted true (next :: parts)
      rw [List.intercalate_cons_cons, hnext, List.append_assoc]
      rfl

/-- A dot where one is needed is what the grammar asks for there. -/
theorem laid_dotIf_iff {later : Bool} {w : List Token} :
    Laid (if later then [.dot] else []) w ↔ DotIf later w := by
  constructor
  · intro h
    cases later with
    | false =>
      cases h
      exact .none
    | true =>
      obtain ⟨t, _, hdot, hnil, rfl⟩ := List.forall₂_cons_left_iff.mp h
      cases hnil
      exact .dot hdot
  · intro h
    cases h with
    | none => exact .nil
    | dot his => exact .cons his .nil

section

variable {layout : TypeId → Option (List KeyMark)}

/-- Some tokens are the value of a key just if they are laid out as the key
is, given this of references. -/
theorem keyValue_iff_laid {member : Member}
    (h : ∀ target, member.value = .concept target → ∀ w, (∃ n, Reference m target w n) ↔
      ∃ marks, layout target = some marks ∧ Laid marks w) (w : List Token) :
    (∃ slot, KeyValue m member w slot) ↔ ∃ marks, keyMarks layout member = some marks
      ∧ Laid marks w := by
  constructor
  · rintro ⟨slot, hvalue⟩
    cases hvalue with
    | text plain isValue =>
      refine ⟨[.value], ?_, .cons isValue .nil⟩
      unfold keyMarks
      split <;> simp_all [Model.ValueKind.isConcept]
    | reference isConcept reference =>
      obtain ⟨marks, hmarks, hlaid⟩ := (h _ isConcept w).mp ⟨_, reference⟩
      exact ⟨marks, by rw [keyMarks, isConcept]; exact hmarks, hlaid⟩
  · rintro ⟨marks, hmarks, hlaid⟩
    -- A text and a choice have the same layout: one value.
    have hplain (hconcept : member.value.isConcept = false) (hvalue : [KeyMark.value] = marks) :
        ∃ slot, KeyValue m member w slot := by
      subst hvalue
      obtain ⟨t, _, hvalue, hnil, rfl⟩ := List.forall₂_cons_left_iff.mp hlaid
      cases hnil
      exact ⟨_, .text hconcept hvalue⟩
    unfold keyMarks at hmarks
    split at hmarks
    · next hkind => exact hplain (hkind ▸ rfl) (Option.some.inj hmarks)
    · next hkind => exact hplain (hkind ▸ rfl) (Option.some.inj hmarks)
    · next target hkind =>
      obtain ⟨n, href⟩ := (h target hkind w).mpr ⟨marks, hmarks, hlaid⟩
      exact ⟨_, .reference hkind href⟩
    · cases hmarks

/-- Keys are read as their layouts with dots between them. -/
theorem keys_iff_laid {members : List Member}
    (h : ∀ member ∈ members.filter (·.isKey), ∀ target, member.value = .concept target → ∀ w,
      (∃ n, Reference m target w n) ↔ ∃ marks, layout target = some marks ∧ Laid marks w)
    (later : Bool) (w : List Token) :
    (∃ slots, Keys m later members w slots) ↔ ∃ parts,
      (members.filter (·.isKey)).mapM (keyMarks layout) = some parts
        ∧ Laid (dotted later parts) w := by
  -- The flag varies: a dot comes in front of every key but the first.
  induction members generalizing later w with
  | nil =>
    constructor
    · rintro ⟨_, hkeys⟩
      cases hkeys
      exact ⟨[], rfl, dotted_nil later ▸ .nil⟩
    · rintro ⟨parts, hparts, hlaid⟩
      obtain rfl : [] = parts := Option.some.inj hparts
      rw [dotted_nil] at hlaid
      cases hlaid
      exact ⟨[], .nil⟩
  | cons member rest ih =>
    cases hkey : member.isKey with
    | false =>
      -- A member that is no key has no part in the layout.
      rw [List.filter_cons_of_neg (Bool.eq_false_iff.mp hkey)] at h ⊢
      rw [← ih h]
      constructor
      · rintro ⟨_, hkeys⟩
        cases hkeys with
        | other _ tail => exact ⟨_, tail⟩
        | key isKey _ _ _ => exact absurd (isKey.symm.trans hkey) Bool.noConfusion
      · rintro ⟨_, htail⟩
        exact ⟨_, .other hkey htail⟩
    | true =>
      rw [List.filter_cons_of_pos hkey] at h ⊢
      obtain ⟨hfirst, hrest⟩ := List.forall_mem_cons.mp h
      have hvalue := keyValue_iff_laid hfirst
      constructor
      · -- The tokens of the first key are split off, and the rest is laid out as the other keys
        -- are.
        rintro ⟨_, hkeys⟩
        cases hkeys with
        | other notKey _ => exact absurd (hkey.symm.trans notKey) Bool.noConfusion
        | key _ dot value tail =>
          obtain ⟨marks, hmarks, hown⟩ := (hvalue _).mp ⟨_, value⟩
          obtain ⟨parts, hparts, hwords⟩ := (ih hrest true _).mp ⟨_, tail⟩
          refine ⟨marks :: parts, mapM_cons_eq_some_iff.mpr ⟨marks, hmarks, parts, hparts, rfl⟩, ?_⟩
          rw [dotted_cons]
          exact List.rel_append (List.rel_append (laid_dotIf_iff.mpr dot) hown) hwords
      · -- The layout says where the first key ends, so the tokens can be split there.
        rintro ⟨_, hall, hlaid⟩
        obtain ⟨marks, hmarks, parts, hparts, rfl⟩ := mapM_cons_eq_some_iff.mp hall
        rw [dotted_cons] at hlaid
        obtain ⟨_, words, rfl, hhead, hwords⟩ := forall₂_append_left_iff.mp hlaid
        obtain ⟨dots, own, rfl, hdots, hown⟩ := forall₂_append_left_iff.mp hhead
        obtain ⟨slot, hslot⟩ := (hvalue own).mpr ⟨marks, hmarks, hown⟩
        obtain ⟨slots, hslots⟩ := (ih hrest true words).mpr ⟨parts, hparts, hwords⟩
        exact ⟨_, .key hkey (laid_dotIf_iff.mp hdots) hslot hslots⟩

end

/-- The references to a type are the phrases with its layout. -/
theorem reference_iff_laid (hm : m.Accepted) {type : TypeId} (htype : type < m.types.length)
    (w : List Token) :
    (∃ n, Reference m type w n) ↔ ∃ marks, keyLayout m type = some marks ∧ Laid marks w := by
  induction type, htype using hm.induction_on_keys generalizing w with
  | step type htype ih =>
    have hkeys : (∃ slots, Keys m false (m.typeAt type).members w slots) ↔ ∃ parts,
        (keysOf (m.typeAt type)).mapM (keyMarks (keyLayout m)) = some parts
          ∧ Laid (dotted false parts) w :=
      keys_iff_laid (fun member hmem target hvalue =>
        ih target (keyLeads_iff_exists_key.mpr ⟨member, hmem, hvalue⟩)) false w
    simp only [keyLayout_eq_some_iff hm htype]
    constructor
    · rintro ⟨_, ⟨keys⟩⟩
      obtain ⟨parts, hparts, hlaid⟩ := hkeys.mp ⟨_, keys⟩
      exact ⟨_, ⟨parts, hparts, rfl⟩, hlaid⟩
    · rintro ⟨_, ⟨parts, hparts, rfl⟩, hlaid⟩
      obtain ⟨slots, hslots⟩ := hkeys.mpr ⟨parts, hparts, hlaid⟩
      exact ⟨_, .keys hslots⟩

/-! ### What a concept is known by -/

/-- The values of tokens, one after another. -/
def valuesOf (w : List Token) : String := String.join (w.map (·.value))

/-- The values of tokens after others come after the values of these. -/
theorem valuesOf_append (w w' : List Token) : valuesOf (w ++ w') = valuesOf w ++ valuesOf w' := by
  rw [valuesOf, List.map_append, String.join_append]
  rfl

/-- The values of one token are its value. -/
theorem valuesOf_singleton (t : Token) : valuesOf [t] = t.value := by
  rw [valuesOf, List.map_singleton, String.join_cons, String.join_nil, String.append_empty]

/-- The texts of keys with dots between them, and one in front if a key
stands before. -/
def dottedTexts (later : Bool) (texts : List String) : String :=
  if later then String.join (texts.map ("." ++ ·)) else joinWith "." texts

/-- The first text has a dot in front if a key stands before, and all later
ones have. -/
theorem dottedTexts_cons (later : Bool) (text : String) (texts : List String) :
    dottedTexts later (text :: texts)
      = (if later then "." else "") ++ text ++ dottedTexts true texts := by
  cases later with
  | true => exact String.join_cons
  | false =>
    show joinWith "." (text :: texts) = "" ++ text ++ dottedTexts true texts
    rw [String.empty_append]
    induction texts generalizing text with
    | nil => exact (String.append_empty).symm
    | cons next texts ih =>
      have hdotted : dottedTexts true (next :: texts) = "." ++ next ++ dottedTexts true texts :=
        String.join_cons
      rw [joinWith, ih, hdotted]
      simp only [String.append_assoc]

/-- The value of a dot is a dot. -/
theorem DotIf.valuesOf_eq {needed : Bool} {w : List Token} (h : DotIf needed w) :
    valuesOf w = if needed then "." else "" := by
  cases h with
  | none => rfl
  | dot isDot => exact (valuesOf_singleton _).trans (Token.eq_of_is isDot)

/-- The text that a key is known by. -/
def Slot.keyText (m : Model) : Slot → String
  | .empty => ""
  | .text value => value
  | .node n => n.keyText m

/-- A key is known by a text, which comes first. -/
theorem keyTexts_cons_key {member : Member} {members : List Member} {slot : Slot}
    {slots : List Slot} (hkey : member.isKey = true) (hslot : slot ≠ .empty) :
    Node.keyTexts m (member :: members) (slot :: slots)
      = slot.keyText m :: Node.keyTexts m members slots := by
  cases slot with
  | empty => exact absurd rfl hslot
  | text value => exact if_pos hkey
  | node n => exact if_pos hkey

/-- A member that is no key has no part in what a concept is known by. -/
theorem keyTexts_cons_other {member : Member} {members : List Member} {slot : Slot}
    {slots : List Slot} (hkey : member.isKey = false) :
    Node.keyTexts m (member :: members) (slot :: slots) = Node.keyTexts m members slots := by
  cases slot <;> exact if_neg (Bool.eq_false_iff.mp hkey)

mutual

/-- The values of a reference are what the concept is known by. -/
theorem Reference.valuesOf_eq {type : TypeId} {w : List Token} {n : Node} :
    Reference m type w n → valuesOf w = n.keyText m
  | .keys keys => by
    rw [Node.keyText]
    exact keys.valuesOf_eq

/-- The values of the tokens of keys are the texts of the keys with dots
between them. Mutual induction with values of keys and references. -/
theorem Keys.valuesOf_eq {later : Bool} {members : List Member} {w : List Token}
    {slots : List Slot} :
    Keys m later members w slots → valuesOf w = dottedTexts later (Node.keyTexts m members slots)
  | .nil => by
    cases later <;> rfl
  | .other notKey tail => by
    rw [keyTexts_cons_other notKey]
    exact tail.valuesOf_eq
  | .key isKey dot value tail => by
    obtain ⟨hfilled, hvalue⟩ := value.valuesOf_eq
    rw [keyTexts_cons_key isKey hfilled, dottedTexts_cons, valuesOf_append, valuesOf_append,
      dot.valuesOf_eq, hvalue, tail.valuesOf_eq]

/-- The values of the tokens of a key are its text, and its slot is filled. -/
theorem KeyValue.valuesOf_eq {member : Member} {own : List Token} {slot : Slot} :
    KeyValue m member own slot → slot ≠ .empty ∧ valuesOf own = slot.keyText m
  | .text _ _ => ⟨Slot.noConfusion, valuesOf_singleton _⟩
  | .reference _ reference => ⟨Slot.noConfusion, reference.valuesOf_eq⟩

end

/-! ### References are read -/

/-- A reference to a type is of this type. -/
theorem Reference.type_eq {type : TypeId} {w : List Token} {n : Node} (h : Reference m type w n) :
    n.type = type := by
  obtain ⟨_⟩ := h
  rfl

/-- References are read as the dotted keys of their type. In a model that
loads a type has a layout unless its keys lead to one that can be any
concept, and the layout is put together from those of its keys. A reference
is read if and only if there is a layout and the next tokens have it. Then
these tokens are read and no more, and their values are what the concept is
known by. -/
theorem readReference_reads_keys (hm : m.Accepted) {type : TypeId}
    (htype : type < m.types.length) :
    keyLayout m type =
        ((keysOf (m.typeAt type)).mapM (keyMarks (keyLayout m))).map [KeyMark.dot].intercalate
      ∧ ((∃ marks, keyLayout m type = some marks) ↔ Referable m type)
      ∧ ∀ r,
        ((∃ n, (readReference m type r).1 = .ok n) ↔
          ∃ marks w rest, keyLayout m type = some marks ∧ Laid marks w ∧ r.rest = w ++ rest)
        ∧ ∀ n r', readReference m type r = (.ok n, r') → n.type = type
          ∧ ∃ marks w, keyLayout m type = some marks ∧ Laid marks w ∧ r.Reads w r'
            ∧ String.join (w.map (·.value)) = n.keyText m := by
  have hread := accepts_readReference hm htype
  refine ⟨keyLayout_eq hm htype, exists_keyLayout_iff hm htype, fun r => ⟨⟨?_, ?_⟩, ?_⟩⟩
  · rintro ⟨n, hn⟩
    obtain ⟨w, href, hreads⟩ := (hread r n _).mp (Prod.ext hn rfl)
    obtain ⟨marks, hmarks, hlaid⟩ := (reference_iff_laid hm htype w).mp ⟨n, href⟩
    exact ⟨marks, w, _, hmarks, hlaid, hreads.rest⟩
  · rintro ⟨marks, w, rest, hmarks, hlaid, hrest⟩
    obtain ⟨n, href⟩ := (reference_iff_laid hm htype w).mpr ⟨marks, hmarks, hlaid⟩
    have hreads : r.Reads w ⟨w.reverse ++ r.before, rest⟩ := ⟨hrest, rfl⟩
    exact ⟨n, congrArg Prod.fst ((hread r n _).mpr ⟨w, href, hreads⟩)⟩
  · intro n r' hn
    obtain ⟨w, href, hreads⟩ := (hread r n r').mp hn
    obtain ⟨marks, hmarks, hlaid⟩ := (reference_iff_laid hm htype w).mp ⟨n, href⟩
    exact ⟨href.type_eq, marks, w, hmarks, hlaid, hreads, href.valuesOf_eq⟩

/-- Links have a module, a mark and another module as keys. Marks have no
keys at all, and notes have one that can be any concept. -/
def linkModel : Model :=
  ⟨"1", [⟨0, "ModuleInfo", some "Module", [], [⟨"Name", .text, true, true, false⟩], none⟩,
    ⟨1, "MarkInfo", some "Mark", [], [⟨"Text", .text, false, true, false⟩], none⟩,
    ⟨2, "LinkInfo", some "Link", [],
      [⟨"From", .concept 0, true, true, false⟩, ⟨"Mark", .concept 1, true, true, false⟩,
        ⟨"To", .concept 0, true, true, false⟩], none⟩,
    ⟨3, "NoteInfo", some "Note", [], [⟨"On", .anyConcept, true, true, false⟩], none⟩]⟩

/-- The model of links is accepted: it is what its declaration is resolved
to. -/
theorem accepted_linkModel : linkModel.Accepted :=
  ⟨⟨"1", [⟨"ModuleInfo", some "Module", [], none, [⟨"Name", .text, true, true, false⟩]⟩,
    ⟨"MarkInfo", some "Mark", [], none, [⟨"Text", .text, false, true, false⟩]⟩,
    ⟨"LinkInfo", some "Link", [], none,
      [⟨"From", .concept "ModuleInfo", true, true, false⟩,
        ⟨"Mark", .concept "MarkInfo", true, true, false⟩,
        ⟨"To", .concept "ModuleInfo", true, true, false⟩]⟩,
    ⟨"NoteInfo", some "Note", [], none, [⟨"On", .anyConcept, true, true, false⟩]⟩]⟩, rfl⟩

/-- A link is referred to as in `a..b`, with nothing between the dots for
the mark. There is no way to refer to a note. -/
theorem link_reads_keys :
    let words : List Token := [⟨.word, "a", 0, 1⟩, ⟨.special, ".", 1, 2⟩, ⟨.special, ".", 2, 3⟩,
      ⟨.word, "b", 3, 4⟩]
    let r : Reader := ⟨[], words ++ [⟨.special, ";", 4, 5⟩]⟩
    linkModel.Accepted ∧ 2 < linkModel.types.length ∧ 3 < linkModel.types.length
      ∧ keyLayout linkModel 2 = some [.value, .dot, .dot, .value]
      ∧ ¬ Referable linkModel 3
      ∧ ∃ n, (readReference linkModel 2 r).1 = .ok n ∧ n.type = 2
        ∧ n.keyText linkModel = "a..b" := by
  intro words r
  obtain ⟨_, _, hlink⟩ := readReference_reads_keys accepted_linkModel (by decide : 2 < 4)
  obtain ⟨_, hnote, _⟩ := readReference_reads_keys accepted_linkModel (by decide : 3 < 4)
  obtain ⟨hiff, hread⟩ := hlink r
  have hlayout : keyLayout linkModel 2 = some [.value, .dot, .dot, .value] := rfl
  have hlaid : Laid [.value, .dot, .dot, .value] words :=
    .cons rfl (.cons rfl (.cons rfl (.cons rfl .nil)))
  obtain ⟨n, hn⟩ := hiff.mpr ⟨_, words, _, hlayout, hlaid, rfl⟩
  obtain ⟨htype, marks, w, hmarks, hw, hreads, htext⟩ := hread n _ (Prod.ext hn rfl)
  cases hlayout.symm.trans hmarks
  -- What was read is as long as the layout, so these are the words.
  obtain ⟨hwords, _⟩ := List.append_inj hreads.rest hw.length_eq
  have hjoined : String.join (words.map (·.value)) = "a..b" := by decide
  rw [← hwords, hjoined] at htext
  refine ⟨accepted_linkModel, by decide, by decide, hlayout, fun h => ?_, n, hn, htype, htext.symm⟩
  obtain ⟨_, hsome⟩ := hnote.mpr h
  cases hsome

end ConceptScript.Script
