import ConceptScript.Assist.SignatureHelp
import ConceptScript.Proofs.Cursor.ActiveParameter
import ConceptScript.Proofs.Model.Resolved
import ConceptScript.Proofs.Script.Derivation

/-!
# `ConceptScript.Proofs.Assist.SignatureHelp`: the active signature

The types that the statement at the cursor may be are types of the keyword
(`analyze_keyed`), and the signatures shown are those of all types of the
keyword. So the first possible type always has a signature, and this one is
active (`active?_of_valid`). The member read last for it is one of its
parsable members, so the active parameter is one of its parameters, or the
place after the last one.
-/

set_option autoImplicit false

namespace ConceptScript.Assist

open ConceptScript.Text
open ConceptScript.Script
open ConceptScript.Cursor
open ConceptScript.Files (FilePath)
open ConceptScript.Model (TypeId)

variable {m : Model} {a : Analysis}

/-- The first possible type is active if it has a signature. -/
theorem active?_of_valid {type : TypeId} {rest : List TypeId} (hvalid : a.valid = type :: rest)
    {signatures : List SignatureInfo} (h : ∃ s ∈ signatures, s.type = type) :
    ∃ place s, active? m a signatures = some (place, a.activeParameter m type)
      ∧ signatures[place]? = some s ∧ s.type = type := by
  obtain ⟨s, hs, rfl⟩ := h
  obtain ⟨place, s', hplace, hat, hsame⟩ :=
    exists_findIdx? (p := fun found => found.type == s.type) hs (beq_self_eq_true _)
  refine ⟨place, s', ?_, hat, eq_of_beq hsame⟩
  rw [active?, hvalid, List.findSome?_cons, hplace]
  rfl

/-- The signatures for a word are those of the types with this keyword, in
the order of the model. -/
theorem signaturesFor_eq_some {word : String} {signatures : List SignatureInfo}
    (h : m.signaturesFor word = some signatures) :
    signatures = (m.byKeyword word).map fun c =>
      ⟨c.id, m.signature c, c.documentation, m.parameters c⟩ := by
  unfold Model.signaturesFor at h
  split at h
  · cases h
  · next hsome => exact (Option.some.inj h).symm

/-- Help comes from the keyword at the cursor. What is marked as active is
told for the signatures that are shown. -/
theorem signatureHelp_eq_some {help : SignatureHelp} (h : signatureHelp m a = some help) :
    ∃ t signatures, a.keyword = some t ∧ m.signaturesFor t.value = some signatures
      ∧ help = ⟨signatures, (active? m a signatures).map (·.1),
        (active? m a signatures).map (·.2)⟩ := by
  unfold signatureHelp at h
  split at h
  · cases h
  · next t hkeyword =>
    obtain ⟨signatures, hsignatures, rfl⟩ := Option.map_eq_some_iff.mp h
    exact ⟨t, signatures, hkeyword, hsignatures, rfl⟩

/-- The signature of the first possible type of a keyword is active. -/
theorem active?_of_keyed (hm : m.Accepted) {word : String}
    (hvalid : ∀ type ∈ a.valid, ∃ c ∈ m.byKeyword word, c.id = type)
    (hlastRead : ∀ entry ∈ a.lastRead, ∃ c ∈ m.byKeyword word, c.id = entry.1
      ∧ ∃ member, (member, entry.2.member) ∈ c.parsableMembers)
    {signatures : List SignatureInfo} (hsignatures : m.signaturesFor word = some signatures)
    {type : TypeId} {rest : List TypeId} (hfirst : a.valid = type :: rest) :
    ∃ place s active, active? m a signatures = some (place, active)
      ∧ signatures[place]? = some s ∧ s.type = type ∧ active ≤ s.parameters.length := by
  have hlisted := signaturesFor_eq_some hsignatures
  have htypeAt : ∀ c ∈ m.byKeyword word, m.typeAt c.id = c :=
    fun c hc => hm.typeAt_id (List.mem_of_mem_filter hc)
  obtain ⟨c, hc, rfl⟩ := hvalid type (hfirst ▸ List.mem_cons_self)
  have hsigned : ∃ s ∈ signatures, s.type = c.id :=
    ⟨_, hlisted ▸ List.mem_map_of_mem hc, rfl⟩
  obtain ⟨place, s, hactive, hat, htype⟩ := active?_of_valid (m := m) hfirst hsigned
  refine ⟨place, s, _, hactive, hat, htype, ?_⟩
  obtain ⟨c', hc', rfl⟩ := List.mem_map.mp (hlisted ▸ List.mem_of_getElem? hat)
  -- A type is told by its id, so the signature and what was read are of one type.
  obtain rfl : c' = c := by rw [← htypeAt c' hc', ← htypeAt c hc, show c'.id = c.id from htype]
  refine activeParameter_le (htypeAt c' hc') fun entry hentry hid => ?_
  obtain ⟨c'', hc'', hid', hmember⟩ := hlastRead entry hentry
  rwa [← htypeAt c'' hc'', hid'.trans hid, htypeAt c' hc'] at hmember

/-- Signature help is about the keyword at the cursor: so are all types that
an analysis keeps something about. There is an active signature if and only
if a type is possible, it is that of the first possible type, and the active
parameter is one of its parameters or the place after them. Without a
keyword no type is possible, unless a comment hides the keyword. -/
theorem signatureHelp_active_iff (hm : m.Accepted) {texts : ExternalTexts}
    (hcalm : NeverCrashes texts) (path : Option FilePath) (text : List Char)
    (position : Option LineChr) :
    let a := analyze m texts path text position
    (∀ t, a.keyword = some t →
      (∀ type ∈ a.valid, ∃ c ∈ m.byKeyword t.value, c.id = type)
        ∧ ∀ entry ∈ a.lastRead, ∃ c ∈ m.byKeyword t.value, c.id = entry.1)
      ∧ (∀ help, signatureHelp m a = some help →
        (help.activeSignature.isSome = true ↔ a.valid ≠ [])
          ∧ ∀ place, help.activeSignature = some place → ∃ s active,
            help.signatures[place]? = some s ∧ a.valid.head? = some s.type
              ∧ help.activeParameter = some active ∧ active ≤ s.parameters.length)
      ∧ (a.keyword = none → a.insideComment = false → a.valid = []) := by
  intro a
  obtain ⟨hkeyed, hnone⟩ := analyze_keyed hcalm m path text position
  refine ⟨fun t ht => ?_, fun help hhelp => ?_, hnone⟩
  · obtain ⟨hvalid, hlastRead⟩ := hkeyed t ht
    refine ⟨hvalid, fun entry hentry => ?_⟩
    obtain ⟨c, hc, hid, _⟩ := hlastRead entry hentry
    exact ⟨c, hc, hid⟩
  · obtain ⟨t, signatures, ht, hsignatures, rfl⟩ := signatureHelp_eq_some hhelp
    obtain ⟨hvalid, hlastRead⟩ := hkeyed t ht
    cases hfirst : a.valid with
    | nil =>
      -- No type is possible, so nothing is active.
      have hnoActive : active? m a signatures = none := by rw [active?, hfirst, List.findSome?_nil]
      rw [hnoActive]
      exact ⟨by simp, fun _ hplace => (by cases hplace)⟩
    | cons type rest =>
      obtain ⟨place, s, active, hactive, hat, htype, hle⟩ :=
        active?_of_keyed hm hvalid hlastRead hsignatures hfirst
      rw [hactive]
      refine ⟨by simp, fun place' hplace => ?_⟩
      cases hplace
      exact ⟨s, active, hat, congrArg some htype.symm, rfl, hle⟩

/-- The cursor is after the name in `module A;`, and still on it. -/
theorem signatureHelp_on_name :
    let a := analyze moduleModel (fun _ _ => .unavailable "none") none "module A;".toList
      (some ⟨0, 8⟩)
    ∃ help, signatureHelp moduleModel a = some help ∧ a.valid = [0]
      ∧ (help.activeSignature.isSome = true ↔ a.valid ≠ [])
      ∧ help.activeSignature = some 0 ∧ ∃ s active, help.signatures[0]? = some s
        ∧ a.valid.head? = some s.type ∧ help.activeParameter = some active
        ∧ active ≤ s.parameters.length := by
  intro a
  have hcalm : NeverCrashes fun _ _ => .unavailable "none" := fun _ _ _ h => (by cases h)
  have hhelp : signatureHelp moduleModel a
      = some ⟨[⟨0, "Module <Name: String>", none, ["<Name: String>"]⟩], some 0, some 0⟩ := by
    decide +kernel
  obtain ⟨_, hconsistent, _⟩ := signatureHelp_active_iff accepted_moduleModel hcalm none
    "module A;".toList (some ⟨0, 8⟩)
  obtain ⟨hiff, hactive⟩ := hconsistent _ hhelp
  exact ⟨_, hhelp, by decide +kernel, hiff, rfl, hactive 0 rfl⟩

end ConceptScript.Assist
