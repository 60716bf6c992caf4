import ConceptScript.Proofs.Model.Signature
import ConceptScript.Proofs.Script.WrittenForm

/-!
# `ConceptScript.Proofs.Script.AsShown`: statements and signatures

A signature joins all keys of a type by dots (`signature_eq_render`). A
statement that is like it is `Node.shown`. But a dot is read only behind a
key that was given by a reference and in front of one that is a text or a
choice (`TakesDot`), and so the statement may not be what is written for
the concept: it is if all written keys of the type that are neighbours take
a dot, and it has more tokens if some do not (`Node.shown_eq_written`).

`readAs_written` is the main result. The statement that is written for a
concept is read as this concept, whole. The one that is shown is read so
just if the keys take their dots. Of a choice the first of the words is
kept that is the same up to ASCII case.
-/

set_option autoImplicit false

namespace ConceptScript.Script

open ConceptScript.Text
open ConceptScript.Model (TypeId Member KeysFirst)

variable {m : Model}

/-! ### The form of a signature -/

section

variable {α : Type} (member : α → Member) (form : α → List Piece)

/-- The keys joined by dots, and then the others. -/
def shownParts (parts : List α) : List Piece :=
  joinDots false ((parts.filter fun a => (member a).isKey).map form)
    ++ (parts.filter fun a => !(member a).isKey).flatMap form

end

/-- A concept as a statement that is like the signature of its type, with
values in the places of the labels (`labelled`). -/
def Node.shown (m : Model) (n : Node) : List Piece :=
  .keyword (m.typeAt n.type).shownName :: shownParts (·.1) (·.2.form m) (n.parts m)

/-- A piece in a text. -/
def Piece.text : Piece → String
  | .keyword word => word
  | .value text => text
  | .dot => "."

/-- Pieces as a text, with spaces between them but not around dots. -/
def render : List Piece → String
  | [] => ""
  | [piece] => piece.text
  | piece :: next :: rest =>
    piece.text ++ (if piece = .dot ∨ next = .dot then "" else " ") ++ render (next :: rest)

/-- A value after a piece other than a dot is set off by a space. -/
theorem render_cons_value {piece : Piece} (hpiece : piece ≠ .dot) (text : String)
    (rest : List Piece) :
    render (piece :: .value text :: rest) = piece.text ++ " " ++ render (.value text :: rest) := by
  have hnot : ¬(piece = .dot ∨ Piece.value text = .dot) := by simp [hpiece]
  rw [render, if_neg hnot]

/-- Values in a row are set off by spaces. Induction on the values. -/
theorem render_values {piece : Piece} (hpiece : piece ≠ .dot) (texts : List String) :
    render (piece :: texts.map .value) = joinWith " " (piece.text :: texts) := by
  induction texts generalizing piece with
  | nil => rfl
  | cons text rest ih =>
    rw [List.map_cons, render_cons_value hpiece, ih (fun h => by cases h)]
    rfl

/-- A text in front of the first one is in front of all of them joined. -/
theorem joinWith_append_cons (separator a b : String) (rest : List String) :
    joinWith separator ((a ++ b) :: rest) = a ++ joinWith separator (b :: rest) := by
  cases rest with
  | nil => rfl
  | cons next more =>
    simp only [joinWith, String.append_assoc]

/-- Keys with dots between them and other values after these are the keys
joined by dots, and then the others joined by spaces. -/
theorem render_keys (key : String) (keys others : List String) :
    render (.value key :: (joinDots true (keys.map fun k => [.value k]) ++ others.map .value))
      = joinWith " " (joinWith "." (key :: keys) :: others) := by
  induction keys generalizing key with
  | nil => exact render_values (fun h => by cases h) others
  | cons next rest ih =>
    have hparts : joinDots true ((next :: rest).map fun k => [Piece.value k])
        = .dot :: .value next :: joinDots true (rest.map fun k => [.value k]) := rfl
    have hdot (pieces : List Piece) : render (.value key :: .dot :: .value next :: pieces)
        = key ++ ("." ++ render (.value next :: pieces)) := by
      simp [render, Piece.text]
    rw [hparts, List.cons_append, List.cons_append, hdot, ih, joinWith, String.append_assoc,
      joinWith_append_cons, joinWith_append_cons]

/-- A statement of a type with labels in the places of the values. -/
def labelled (m : Model) (c : ConceptType) : List Piece :=
  .keyword c.shownName
    :: shownParts (·.1) (fun p => [.value (m.parameterLabel p.1)]) c.parsableMembers

/-- The signature of a type is a statement with labels. -/
theorem signature_eq_render (m : Model) (c : ConceptType) :
    m.signature c = render (labelled m c) := by
  have hothers : (c.parsableMembers.filter fun p => !p.1.isKey).flatMap
      (fun p => [Piece.value (m.parameterLabel p.1)]) = (m.otherLabels c).map .value := by
    rw [Model.otherLabels, List.map_map, ← List.map_eq_flatMap]
    rfl
  have hkeys : (c.parsableMembers.filter fun p => p.1.isKey).map
      (fun p => [Piece.value (m.parameterLabel p.1)])
      = (m.keyLabels c).map fun k => [.value k] := by
    rw [Model.keyLabels, List.map_map]
    rfl
  have hword : Piece.keyword c.shownName ≠ .dot := fun h => by cases h
  rw [labelled, shownParts, hothers, hkeys]
  unfold Model.signature
  dsimp only
  -- Without keys there are no dots, and else the first key comes without one.
  cases m.keyLabels c with
  | nil => exact (render_values hword _).symm
  | cons key keys =>
    have hfirst : joinDots false ((key :: keys).map fun k => [Piece.value k])
        = .value key :: joinDots true (keys.map fun k => [.value k]) := rfl
    rw [hfirst, List.cons_append, render_cons_value hword, render_keys]
    rfl

/-! ### Where both forms agree -/

/-- Without keys the parts of a statement are written one after the other,
with no dots. -/
theorem writtenParts_others {parts : List (Member × Slot)}
    (h : ∀ part ∈ parts, part.1.isKey = false) (afterReference : Bool) :
    writtenParts m afterReference parts = parts.flatMap (·.2.form m) := by
  induction parts generalizing afterReference with
  | nil => rfl
  | cons part rest ih =>
    obtain ⟨hfirst, hrest⟩ := List.forall_mem_cons.mp h
    obtain ⟨member, slot⟩ := part
    have hnot : member.isKey = false := hfirst
    rw [writtenParts, ih hrest, hnot, Bool.and_false, Bool.false_and]
    rfl

/-- Two keys as they have to be for a dot between them: a concept, and
then a text or a choice. -/
def TakesDot (a b : Member) : Prop := a.value.isConcept = true ∧ b.value.isConcept = false

/-- The written keys of a type take a dot wherever two of them are
neighbours. -/
def DotsBetweenKeys (c : ConceptType) : Prop :=
  (c.members.filter fun a => a.isParsable && a.isKey).IsChain TakesDot

/-- Behind a key, the other keys are written with dots wherever they are
neighbours that take one. -/
theorem writtenParts_keys {keys others : List (Member × Slot)}
    (hkeys : ∀ part ∈ keys, part.1.isKey = true) (hothers : ∀ part ∈ others, part.1.isKey = false)
    {a : Member} (hdots : (a :: keys.map (·.1)).IsChain TakesDot) :
    writtenParts m a.value.isConcept (keys ++ others)
      = joinDots true (keys.map (·.2.form m)) ++ others.flatMap (·.2.form m) := by
  induction keys generalizing a with
  | nil => exact writtenParts_others hothers _
  | cons key rest ih =>
    obtain ⟨b, slot⟩ := key
    obtain ⟨hkey, hrest⟩ := List.forall_mem_cons.mp hkeys
    have hb : b.isKey = true := hkey
    obtain ⟨hab, hchain⟩ := List.isChain_cons_cons.mp hdots
    obtain ⟨hconcept, hplain⟩ : TakesDot a b := hab
    have htail : writtenParts m b.value.isConcept (rest ++ others) = _ := ih hrest hchain
    simp only [List.cons_append, writtenParts, hb, hconcept, Bool.true_and, List.map_cons, joinDots]
    rw [htail, hplain, List.append_assoc _ _ (others.flatMap _)]
    rfl

/-- Behind a key, the other keys are written with fewer dots than are shown
between them, unless all neighbours take one. -/
theorem length_writtenParts_keys {keys others : List (Member × Slot)}
    (hkeys : ∀ part ∈ keys, part.1.isKey = true) (hothers : ∀ part ∈ others, part.1.isKey = false)
    (a : Member) :
    let written := writtenParts m a.value.isConcept (keys ++ others)
    let shown := joinDots true (keys.map (·.2.form m)) ++ others.flatMap (·.2.form m)
    written.length ≤ shown.length
      ∧ (shown.length = written.length → (a :: keys.map (·.1)).IsChain TakesDot) := by
  induction keys generalizing a with
  | nil =>
    dsimp only
    rw [List.nil_append, writtenParts_others hothers]
    exact ⟨Nat.le_refl _, fun _ => .singleton a⟩
  | cons key rest ih =>
    obtain ⟨b, slot⟩ := key
    obtain ⟨hkey, hrest⟩ := List.forall_mem_cons.mp hkeys
    have hb : b.isKey = true := hkey
    obtain ⟨hle, hchain⟩ := ih hrest b
    dsimp only at hle hchain ⊢
    rw [List.cons_append, writtenParts, hb, Bool.and_true, Bool.true_and, List.map_cons, joinDots]
    simp only [List.length_append, List.map_cons, List.isChain_cons_cons] at hle hchain ⊢
    -- In front of this key a dot is shown. It is written if the two take one.
    have hdot : (dotIf true).length = 1 := rfl
    cases htakes : a.value.isConcept && !b.value.isConcept with
    | true =>
      have hab : TakesDot a b := by simpa [TakesDot] using htakes
      exact ⟨by omega, fun h => ⟨hab, hchain (by omega)⟩⟩
    | false =>
      have hnone : (dotIf false).length = 0 := rfl
      exact ⟨by omega, fun h => by omega⟩

/-- Members are written as they are shown if the keys take dots, and shorter
if not. -/
theorem shownParts_eq {parts : List (Member × Slot)}
    (hfirst : parts.Pairwise fun a b => b.1.isKey = true → a.1.isKey = true) :
    (((parts.filter (·.1.isKey)).map (·.1)).IsChain TakesDot →
        shownParts (·.1) (·.2.form m) parts = writtenParts m false parts)
      ∧ ((shownParts (·.1) (·.2.form m) parts).length = (writtenParts m false parts).length →
        ((parts.filter (·.1.isKey)).map (·.1)).IsChain TakesDot) := by
  have hkeys : ∀ part ∈ parts.filter (·.1.isKey), part.1.isKey = true :=
    fun part hpart => (List.mem_filter.mp hpart).2
  have hothers : ∀ part ∈ parts.filter (!·.1.isKey), part.1.isKey = false :=
    fun part hpart => by simpa using (List.mem_filter.mp hpart).2
  have hparts : parts.filter (·.1.isKey) ++ parts.filter (!·.1.isKey) = parts :=
    Model.keys_append_others hfirst
  rw [shownParts, congrArg (writtenParts m false) hparts.symm]
  -- In front of the first key no dot is written or shown.
  generalize parts.filter (·.1.isKey) = keys at *
  cases keys with
  | nil => exact ⟨fun _ => (writtenParts_others hothers false).symm, fun _ => .nil⟩
  | cons key rest =>
    obtain ⟨hkey, hrest⟩ := List.forall_mem_cons.mp hkeys
    rw [List.cons_append, writtenParts, hkey, Bool.true_and]
    refine ⟨fun hdots => ?_, fun hlength => ?_⟩
    · rw [writtenParts_keys hrest hothers hdots]
      simp [joinDots, dotIf]
    · refine (length_writtenParts_keys (m := m) hrest hothers key.1).2 ?_
      simpa [joinDots, dotIf, Nat.add_assoc] using hlength

/-- A concept stores a value for each member of its type. -/
theorem Node.map_fst_stored {n : Node} (h : n.WellTyped m []) :
    (n.stored m).map (·.1) = (m.typeAt n.type).members := by
  have hlength := h.each.length_eq
  rw [ConceptType.numbered, List.length_zipIdx] at hlength
  exact List.map_fst_zip (Nat.le_of_eq hlength)

/-- What a concept stores is what is in its slots. -/
theorem Node.map_snd_stored {n : Node} (h : n.WellTyped m []) :
    (n.stored m).map (·.2) = n.slots := by
  have hlength := h.each.length_eq
  rw [ConceptType.numbered, List.length_zipIdx] at hlength
  exact List.map_snd_zip (Nat.le_of_eq hlength.symm)

/-- A statement is as it is shown if the written keys take dots, and has
another length if not. -/
theorem Node.shown_eq_written {n : Node} (h : n.WellTyped m [])
    (hfirst : KeysFirst (m.typeAt n.type).members) :
    (DotsBetweenKeys (m.typeAt n.type) → n.shown m = n.written m)
      ∧ ((n.shown m).length = (n.written m).length → DotsBetweenKeys (m.typeAt n.type)) := by
  have hparts : (n.parts m).Pairwise fun a b => b.1.isKey = true → a.1.isKey = true := by
    rw [← n.map_fst_stored h, KeysFirst, List.pairwise_map] at hfirst
    exact hfirst.filter _
  have hkeys : ((n.parts m).filter (·.1.isKey)).map (·.1)
      = (m.typeAt n.type).members.filter fun a => a.isParsable && a.isKey := by
    rw [← n.map_fst_stored h, List.filter_map, Node.parts, List.filter_filter]
    simp only [Function.comp_def, Bool.and_comm]
  rw [DotsBetweenKeys, ← hkeys]
  refine ⟨fun hdots => ?_, fun hlength => ?_⟩
  · rw [Node.shown, Node.written, (shownParts_eq hparts).1 hdots]
  · exact (shownParts_eq hparts).2 (Nat.succ.inj hlength)

/-! ### Words that are the same but for case -/

/-- The words of a choice differ in more than the case of ASCII letters. -/
def ChoicesDiffer (c : ConceptType) : Prop :=
  ∀ member ∈ c.members, ∀ values, member.value = .choice values →
    values.Pairwise fun a b => sameIgnoringAsciiCase a b = false

/-- Of choices that differ in more than case, a choice is found as itself. -/
theorem find?_sameIgnoringAsciiCase {values : List String} {text : String}
    (hdiffer : values.Pairwise fun a b => sameIgnoringAsciiCase a b = false)
    (hmem : text ∈ values) : values.find? (sameIgnoringAsciiCase · text) = some text := by
  induction values with
  | nil => exact absurd hmem List.not_mem_nil
  | cons value rest ih =>
    obtain ⟨hfirst, hrest⟩ := List.pairwise_cons.mp hdiffer
    rcases List.mem_cons.mp hmem with rfl | hmem
    · exact List.find?_cons_of_pos (sameIgnoringAsciiCase_self text)
    · rw [List.find?_cons, hfirst text hmem]
      exact ih hrest hmem

/-- A concept with listed choices is kept as it is, if choices differ in more
than case. -/
theorem Node.kept_eq_self {n : Node} (h : n.WellTyped m []) (hlisted : n.ChoicesListed m)
    (hdiffer : ChoicesDiffer (m.typeAt n.type)) : n.kept m = n := by
  have hslots : (n.stored m).map (fun p => keptSlot p.1 p.2) = n.slots := by
    rw [← n.map_snd_stored h]
    refine List.map_congr_left fun p hmem => ?_
    obtain ⟨member, slot⟩ := p
    show keptSlot member slot = slot
    cases slot with
    | empty => rfl
    | node concept => rfl
    | text text =>
      cases hkind : member.value with
      | choice values =>
        -- Only a choice could be kept in another spelling, and it is the one that is found.
        have hword := hlisted member values text hmem hkind
        have hmember := (List.of_mem_zip hmem).1
        have hfound := find?_sameIgnoringAsciiCase (hdiffer member hmember values hkind) hword
        rw [keptSlot, hkind]
        dsimp only
        rw [hfound]
        rfl
      | _ => rw [keptSlot, hkind]
  rw [Node.kept, hslots]
  cases n
  rfl

/-! ### Statements that are read as shown -/

/-- A statement that is read whole as a type, outside all blocks, and is
kept as a certain concept. -/
def ReadAs (m : Model) (c : ConceptType) (pieces : List Piece) (n : Node) : Prop :=
  ∀ w r r', Spelled pieces w → r.Reads w r' →
    (interpret m [] c r).result = .ok n ∧ (interpret m [] c r).reader = r'

/-- A token that spells a piece, with texts as words. -/
def Piece.token : Piece → Token
  | .keyword word => ⟨.word, word, 0, 0⟩
  | .value text => ⟨.word, text, 0, 0⟩
  | .dot => ⟨.special, ".", 0, 0⟩

/-- A piece is spelled by the token made for it. -/
theorem Piece.spells_token (piece : Piece) : piece.token.Spells piece := by
  cases piece with
  | dot => rfl
  | _ => exact ⟨rfl, rfl⟩

/-- Pieces are spelled by the tokens made for them. -/
theorem spelled_tokens (pieces : List Piece) : Spelled pieces (pieces.map Piece.token) := by
  induction pieces with
  | nil => exact .nil
  | cons piece rest ih => exact .cons piece.spells_token ih

/-- A statement that is read as a concept is as long as when the concept is
written. -/
theorem ReadAs.length_eq (hm : m.Accepted) {c : ConceptType} (hc : c ∈ m.types)
    {pieces : List Piece} {n : Node} (h : ReadAs m c pieces n) :
    pieces.length = (n.written m).length := by
  -- Any tokens that spell the pieces tell how long the reading is.
  have hspelled := spelled_tokens pieces
  have hreads : Reader.Reads ⟨[], pieces.map Piece.token⟩ (pieces.map Piece.token)
      ⟨(pieces.map Piece.token).reverse, []⟩ := ⟨by simp, by simp⟩
  obtain ⟨w, head, hreads'⟩ := (interpret_eq_ok_iff hm hc).mp (h _ _ _ hspelled hreads)
  have hposition := hreads.position.symm.trans hreads'.position
  rw [hspelled.length_eq, ← head.length_eq hm hc]
  exact Nat.add_right_cancel hposition

/-- A concept is read from the statement that is written for it. It is read
from the one with values in the places of the labels of the signature just
if the written keys of its type take dots wherever they are neighbours. It
is kept as it is, if no two words of a choice are the same up to case.
Outside all blocks a member that accepts any concept has no value. -/
theorem readAs_written (hm : m.Accepted) {c : ConceptType} (hc : c ∈ m.types) {n : Node}
    (htype : n.type = c.id) (h : n.WellTyped m []) (hlisted : n.ChoicesListed m) :
    ReadAs m c (n.written m) (n.kept m)
      ∧ (m.signature c = render (labelled m c)
        ∧ (ReadAs m c (n.shown m) (n.kept m) ↔ DotsBetweenKeys c))
      ∧ (ChoicesDiffer c → n.kept m = n) := by
  have htypeAt : m.typeAt n.type = c := htype ▸ hm.typeAt_id hc
  obtain ⟨heq, hdots⟩ := n.shown_eq_written h (htypeAt ▸ hm.keysFirst hc)
  have hwritten : ReadAs m c (n.written m) (n.kept m) := fun w r r' hw hreads =>
    (interpret_eq_ok_iff hm hc).mpr ⟨w, h.headAs hm hc htype hlisted hw, hreads⟩
  rw [htypeAt] at heq hdots
  refine ⟨hwritten, ⟨signature_eq_render m c, fun hshown => ?_, fun hall => ?_⟩, fun hdiffer => ?_⟩
  · -- Both statements are read as the same concept, so they are equally long.
    exact hdots ((hshown.length_eq hm hc).trans (n.length_written_kept m))
  · exact heq hall ▸ hwritten
  · exact n.kept_eq_self h hlisted (htypeAt.symm ▸ hdiffer)

/-- An entity is read as it is shown. -/
theorem readAs_written_of_entity :
    (Node.mk 1 [.node (.mk 0 [.text "A"]), .text "B"]).shown moduleModel
        = [.keyword "Entity", .value "A", .dot, .value "B"]
      ∧ ReadAs moduleModel (moduleModel.typeAt 1)
        [.keyword "Entity", .value "A", .dot, .value "B"]
        (.mk 1 [.node (.mk 0 [.text "A"]), .text "B"]) := by
  have hmodule : IsReference moduleModel 0 (.mk 0 [.text "A"]) :=
    .keys (by decide) (.cons (.text rfl) .nil)
  have htyped : (Node.mk 1 [.node (.mk 0 [.text "A"]), .text "B"]).WellTyped moduleModel [] :=
    ⟨by decide, .cons (.reference rfl hmodule (by decide)) (.cons (.text rfl) .nil)⟩
  have hlisted : (Node.mk 1 [.node (.mk 0 [.text "A"]), .text "B"]).ChoicesListed moduleModel := by
    intro member values text hmem hchoice
    cases hmem with
    | tail _ hmem =>
      cases hmem with
      | head => cases hchoice
      | tail _ hmem => cases hmem
  have hdots : DotsBetweenKeys (moduleModel.typeAt 1) := .cons_cons ⟨rfl, rfl⟩ (.singleton _)
  obtain ⟨_, ⟨_, hshown⟩, _⟩ := readAs_written accepted_moduleModel
    (List.mem_cons_of_mem _ List.mem_cons_self) rfl htyped hlisted
  exact ⟨rfl, hshown.mpr hdots⟩

/-! ### Keys that are texts, and words that differ in case -/

/-- Pairs have two texts as their keys, and orders are `asc` or `Asc`. -/
def pairModel : Model :=
  ⟨"1", [⟨0, "PairInfo", some "Pair", [],
      [⟨"First", .text, true, true, false⟩, ⟨"Second", .text, true, true, false⟩], none⟩,
    ⟨1, "OrderInfo", some "Order", [],
      [⟨"Direction", .choice ["asc", "Asc"], true, true, false⟩], none⟩]⟩

/-- The model of pairs is accepted: it is what its declaration is resolved
to. -/
theorem accepted_pairModel : pairModel.Accepted :=
  ⟨⟨"1", [⟨"PairInfo", some "Pair", [], none,
      [⟨"First", .text, true, true, false⟩, ⟨"Second", .text, true, true, false⟩]⟩,
    ⟨"OrderInfo", some "Order", [], none,
      [⟨"Direction", .choice ["asc", "Asc"], true, true, false⟩]⟩]⟩, rfl⟩

/-- The pair of `a` and `b` is shown as `Pair a.b`, which is no pair. The
order `Asc` is read as `asc`. -/
theorem not_readAs_shown :
    pairModel.Accepted
      ∧ ((Node.mk 0 [.text "a", .text "b"]).WellTyped pairModel []
        ∧ (Node.mk 0 [.text "a", .text "b"]).shown pairModel
          = [.keyword "Pair", .value "a", .dot, .value "b"]
        ∧ ∀ n, ¬ ReadAs pairModel (pairModel.typeAt 0)
          [.keyword "Pair", .value "a", .dot, .value "b"] n)
      ∧ (Node.mk 1 [.text "Asc"]).WellTyped pairModel []
        ∧ (Node.mk 1 [.text "Asc"]).ChoicesListed pairModel
        ∧ (Node.mk 1 [.text "Asc"]).shown pairModel = [.keyword "Order", .value "Asc"]
        ∧ ¬ ReadAs pairModel (pairModel.typeAt 1) [.keyword "Order", .value "Asc"]
          (.mk 1 [.text "Asc"]) := by
  refine ⟨accepted_pairModel,
    ⟨⟨by decide, .cons (.text rfl) (.cons (.text rfl) .nil)⟩, rfl, fun n h => ?_⟩,
    ⟨by decide, .cons (.text rfl) .nil⟩, ?_, rfl, fun h => ?_⟩
  · obtain ⟨hresult, _⟩ := h _ ⟨[], _⟩ ⟨_, []⟩ (spelled_tokens _) ⟨(List.append_nil _).symm, rfl⟩
    cases hresult
  · intro member values text hmem hchoice
    cases hmem with
    | head =>
      cases hchoice
      decide
    | tail _ hmem => cases hmem
  · obtain ⟨hresult, _⟩ := h _ ⟨[], _⟩ ⟨_, []⟩ (spelled_tokens _) ⟨(List.append_nil _).symm, rfl⟩
    have hslots : [Slot.text "asc"] = [.text "Asc"] := congrArg Node.slots (Except.ok.inj hresult)
    have hword : "asc" = "Asc" := Slot.text.inj (List.cons.inj hslots).1
    exact absurd hword (by decide)

end ConceptScript.Script
