import Mathlib.Data.List.Infix
import Mathlib.Data.List.Nodup
import Mathlib.Logic.Relation
import ConceptScript.Model.Declaration

/-!
# `ConceptScript.Proofs.Model.WellFormed`: the rules for declared models

The rules that a declaration must obey, said of what is written down and
not of how it is resolved: `Declaration.WellFormed`. Where a rule is
broken, `Declaration.FirstFlaw` says what is broken first. Names come
first, then type by type the base types and the members, and circles of
keys come last.

"First" is the same notion at each level. `StopsAt` says of an item that
the rule holds of the items before it, and no longer with the item. All the
rules concerned hold of each front of a list of which they hold, so there is one such
item at most (`StopsAt.unique`), and therefore one first flaw
(`Declaration.FirstFlaw.agrees`). Only where keys go in circles any name
on a circle will do.
-/

set_option autoImplicit false

namespace ConceptScript.Model

open Relation (TransGen)

/-! ### The rules -/

/-- The names of the declared types, in order. -/
def Declaration.names (d : Declaration) : List String := d.types.map (·.typeName)

/-- A declared value names a declared type, and lists at least one word if
it lists words. -/
def ValueDecl.Sound (names : List String) : ValueDecl → Prop
  | .text | .anyConcept => True
  | .concept target => target ∈ names
  | .choice values => values ≠ []

/-- Members with sound values of which the keys come first. -/
structure MembersSound (names : List String) (members : List MemberDecl) : Prop where
  values : ∀ m ∈ members, m.value.Sound names
  keysLead : members.filter (·.isKey) <+: members

/-- A type with declared base types and sound members. -/
structure TypeDecl.Sound (names : List String) (t : TypeDecl) : Prop where
  bases : ∀ base ∈ t.baseTypes, base ∈ names
  members : MembersSound names t.members

/-- A key of the first type is a concept of the second one, by name. -/
def Declaration.KeyLeads (d : Declaration) (a b : String) : Prop :=
  ∃ t ∈ d.types, t.typeName = a ∧ ∃ m ∈ t.members, m.isKey = true ∧ m.value = .concept b

/-- A name of a type whose keys lead back to it. -/
def Declaration.Circular (d : Declaration) (name : String) : Prop := TransGen d.KeyLeads name name

/-- A declaration that obeys the rules. -/
structure Declaration.WellFormed (d : Declaration) : Prop where
  distinct : d.names.Nodup
  sound : ∀ t ∈ d.types, t.Sound d.names
  acyclic : ∀ name, ¬d.Circular name

/-! ### The first rule broken -/

/-- The first item of a list with which a rule ends to hold. -/
structure StopsAt {α : Type} (Rule : List α → Prop) (items before : List α) (x : α) : Prop where
  front : before ++ [x] <+: items
  holds : Rule before
  fails : ¬Rule (before ++ [x])

/-- What is wrong with a member that comes after others of its type. Its
value is looked at before its place. -/
inductive MemberDecl.HasFlaw (names : List String) (typeName : String) (before : List MemberDecl)
    (m : MemberDecl) : Flaw → Prop where
  | target {target : String} (hvalue : m.value = .concept target) (hunknown : target ∉ names) :
    HasFlaw names typeName before m (.unknownType target (typeName ++ "." ++ m.name))
  | values (hvalue : m.value = .choice []) :
    HasFlaw names typeName before m (.noValues typeName m.name)
  | place (hvalue : m.value.Sound names) (hkey : m.isKey = true)
    (hlate : ∃ other ∈ before, other.isKey = false) :
    HasFlaw names typeName before m (.keyAfterOther typeName m.name)

/-- What is wrong first with a type: a base type, or else a member. -/
inductive TypeDecl.FirstFlaw (names : List String) (t : TypeDecl) : Flaw → Prop where
  | base {before : List String} {base : String}
    (hstops : StopsAt (fun bases => ∀ b ∈ bases, b ∈ names) t.baseTypes before base) :
    FirstFlaw names t (.unknownType base t.typeName)
  | member {before : List MemberDecl} {m : MemberDecl} {flaw : Flaw}
    (hbases : ∀ base ∈ t.baseTypes, base ∈ names)
    (hstops : StopsAt (MembersSound names) t.members before m)
    (hflaw : m.HasFlaw names t.typeName before flaw) : FirstFlaw names t flaw

/-- What is wrong first with a declaration: a name, or else a type, or else
a circle of keys. -/
inductive Declaration.FirstFlaw (d : Declaration) : Flaw → Prop where
  | name {before : List String} {name : String} (hstops : StopsAt List.Nodup d.names before name) :
    FirstFlaw d (.duplicateType name)
  | type {before : List TypeDecl} {t : TypeDecl} {flaw : Flaw} (hdistinct : d.names.Nodup)
    (hstops : StopsAt (fun types => ∀ t ∈ types, t.Sound d.names) d.types before t)
    (hflaw : t.FirstFlaw d.names flaw) : FirstFlaw d flaw
  | circle {name : String} (hdistinct : d.names.Nodup) (hsound : ∀ t ∈ d.types, t.Sound d.names)
    (hcircle : d.Circular name) : FirstFlaw d (.circularKeys name)

/-- Two flaws that are the same, or that both name a circle. -/
def Flaw.Agrees (flaw other : Flaw) : Prop :=
  flaw = other ∨ ∃ a b, flaw = .circularKeys a ∧ other = .circularKeys b

/-! ### One item at most is the first -/

namespace StopsAt

variable {α : Type} {Rule : List α → Prop} {items before before' : List α} {x x' : α}

/-- Where a rule stops it does not hold of the whole list. -/
theorem not_rule (hfronts : ∀ {a b}, a <+: b → Rule b → Rule a)
    (h : StopsAt Rule items before x) : ¬Rule items := fun hitems => h.fails (hfronts h.front hitems)

/-- A rule does not stop after the items with which it stopped. -/
private theorem not_prefix (hfronts : ∀ {a b}, a <+: b → Rule b → Rule a)
    (h : StopsAt Rule items before x) (h' : StopsAt Rule items before' x') :
    ¬before ++ [x] <+: before' := fun hprefix => h.fails (hfronts hprefix h'.holds)

/-- There is one item at which a rule that fronts inherit ends to hold. Of two
such places the longer front would hold with the item of the shorter one. -/
theorem unique (hfronts : ∀ {a b}, a <+: b → Rule b → Rule a)
    (h : StopsAt Rule items before x) (h' : StopsAt Rule items before' x') :
    before = before' ∧ x = x' := by
  have heq : before ++ [x] = before' ++ [x'] := by
    rcases List.prefix_or_prefix_of_prefix h.front h'.front with hle | hle
    · exact (List.prefix_concat_iff.mp hle).resolve_right (h.not_prefix hfronts h')
    · exact ((List.prefix_concat_iff.mp hle).resolve_right (h'.not_prefix hfronts h)).symm
  obtain ⟨hbefore, hx⟩ := List.append_inj' heq rfl
  exact ⟨hbefore, List.singleton_inj.mp hx⟩

/-! A rule for each item stops at the first item that breaks it. -/

/-- A rule about each item ends with the first item if this one breaks it. -/
theorem head {P : α → Prop} (hx : ¬P x) (rest : List α) :
    StopsAt (fun items => ∀ a ∈ items, P a) (x :: rest) [] x where
  front := List.prefix_append [x] rest
  holds := fun _ ha => absurd ha List.not_mem_nil
  fails := fun h => hx (h x List.mem_cons_self)

/-- An item that obeys a rule about each item moves the place where the rule
ends on by one. -/
theorem cons {P : α → Prop} {a : α} (ha : P a)
    (h : StopsAt (fun items => ∀ a ∈ items, P a) items before x) :
    StopsAt (fun items => ∀ a ∈ items, P a) (a :: items) (a :: before) x where
  front := List.cons_prefix_cons.mpr ⟨rfl, h.front⟩
  holds := List.forall_mem_cons.mpr ⟨ha, h.holds⟩
  fails := fun hall => h.fails (List.forall_mem_cons.mp hall).2

end StopsAt

/-! ### The rules hold of fronts -/

/-- What holds of all items of a list holds of those of a front of it. -/
theorem forall_mem_of_prefix {α : Type} {P : α → Prop} {a b : List α} (h : a <+: b)
    (hb : ∀ x ∈ b, P x) : ∀ x ∈ a, P x := fun x hx => hb x (h.mem hx)

namespace MembersSound

variable {names : List String} {before members : List MemberDecl} {m : MemberDecl}

/-- An empty list of members obeys the rules. -/
theorem nil : MembersSound names [] := ⟨fun _ hm => absurd hm List.not_mem_nil, List.prefix_rfl⟩

/-- The first members of sound ones are sound. -/
theorem of_prefix (h : before <+: members) (hsound : MembersSound names members) :
    MembersSound names before where
  values := forall_mem_of_prefix h hsound.values
  keysLead :=
    List.prefix_of_prefix_length_le ((h.filter _).trans hsound.keysLead) h
      (List.length_filter_le _ _)

/-- One more member keeps the members sound if its value is sound and it
does not come late as a key. -/
theorem concat_iff : MembersSound names (before ++ [m]) ↔ MembersSound names before
    ∧ m.value.Sound names ∧ (m.isKey = true → ∀ other ∈ before, other.isKey = true) := by
  constructor
  · intro h
    refine ⟨h.of_prefix (List.prefix_append _ _), h.values m List.mem_concat_self, fun hkey => ?_⟩
    have hlead := h.keysLead
    rw [List.filter_append, List.filter_cons_of_pos hkey, List.filter_nil,
      List.prefix_concat_iff] at hlead
    rcases hlead with hall | hinside
    · exact List.filter_eq_self.mp (List.append_cancel_right hall)
    · -- All keys are in front of the member, so they are not more with it.
      have hlen := (hinside.filter (·.isKey)).length_le
      rw [List.filter_append, List.filter_filter, List.filter_cons_of_pos hkey,
        List.length_append] at hlen
      simp only [Bool.and_self, List.filter_nil, List.length_singleton] at hlen
      omega
  · rintro ⟨hbefore, hvalue, hkey⟩
    refine ⟨fun other hother => ?_, ?_⟩
    · rcases List.mem_append.mp hother with hother | hother
      · exact hbefore.values other hother
      · exact List.mem_singleton.mp hother ▸ hvalue
    · rw [List.filter_append]
      cases hm : m.isKey with
      | true =>
        rw [List.filter_eq_self.mpr (hkey hm), List.filter_cons_of_pos hm, List.filter_nil]
      | false =>
        rw [List.filter_cons_of_neg (by simp [hm]), List.filter_nil, List.append_nil]
        exact hbefore.keysLead.trans (List.prefix_append _ _)

end MembersSound

/-! ### There is one first flaw -/

/-- A flaw of a member is a breach of the rules for members. -/
theorem MemberDecl.HasFlaw.not_sound {names : List String} {typeName : String}
    {before : List MemberDecl} {m : MemberDecl} {flaw : Flaw}
    (h : m.HasFlaw names typeName before flaw) : ¬MembersSound names (before ++ [m]) := by
  rw [MembersSound.concat_iff]
  rintro ⟨_, hvalue, hplace⟩
  cases h with
  | target htarget hunknown =>
    rw [htarget] at hvalue
    exact hunknown hvalue
  | values hempty =>
    rw [hempty] at hvalue
    exact hvalue rfl
  | place _ hkey hlate =>
    obtain ⟨other, hother, hfalse⟩ := hlate
    rw [hplace hkey other hother] at hfalse
    cases hfalse

/-- A member has one flaw to be reported: the two sorts exclude each other,
for the value is looked at first. -/
theorem MemberDecl.HasFlaw.unique {names : List String} {typeName : String}
    {before : List MemberDecl} {m : MemberDecl} {flaw other : Flaw}
    (h : m.HasFlaw names typeName before flaw) (h' : m.HasFlaw names typeName before other) :
    flaw = other := by
  -- Values of two kinds exclude each other, and a sound value excludes a flaw of the value.
  cases h with
  | target hvalue hunknown =>
    cases h' with
    | target hvalue' _ =>
      cases hvalue.symm.trans hvalue'
      rfl
    | values hvalue' => cases hvalue.symm.trans hvalue'
    | place hsound _ _ =>
      rw [hvalue] at hsound
      exact absurd hsound hunknown
  | values hvalue =>
    cases h' with
    | target hvalue' _ => cases hvalue.symm.trans hvalue'
    | values _ => rfl
    | place hsound _ _ =>
      rw [hvalue] at hsound
      exact absurd rfl hsound
  | place hsound _ _ =>
    cases h' with
    | target hvalue hunknown =>
      rw [hvalue] at hsound
      exact absurd hsound hunknown
    | values hvalue =>
      rw [hvalue] at hsound
      exact absurd rfl hsound
    | place _ _ _ => rfl

namespace TypeDecl.FirstFlaw

variable {names : List String} {t : TypeDecl} {flaw other : Flaw}

/-- A type with a flaw is not sound. -/
theorem not_sound (h : t.FirstFlaw names flaw) : ¬t.Sound names := by
  rintro ⟨hbases, hmembers⟩
  cases h with
  | base hstops => exact hstops.not_rule forall_mem_of_prefix hbases
  | member _ hstops _ => exact hstops.not_rule MembersSound.of_prefix hmembers

/-- A type has one first flaw: its base types come before its members, and
each list ends to hold at one place. -/
theorem unique (h : t.FirstFlaw names flaw) (h' : t.FirstFlaw names other) : flaw = other := by
  cases h with
  | base hstops =>
    cases h' with
    | base hstops' =>
      obtain ⟨-, rfl⟩ := hstops.unique forall_mem_of_prefix hstops'
      rfl
    | member hbases _ _ => exact absurd hbases (hstops.not_rule forall_mem_of_prefix)
  | member hbases hstops hflaw =>
    cases h' with
    | base hstops' => exact absurd hbases (hstops'.not_rule forall_mem_of_prefix)
    | member _ hstops' hflaw' =>
      obtain ⟨rfl, rfl⟩ := hstops.unique MembersSound.of_prefix hstops'
      exact hflaw.unique hflaw'

end TypeDecl.FirstFlaw

/-- A front of distinct names is distinct. -/
theorem nodup_of_prefix {a b : List String} (h : a <+: b) (hb : b.Nodup) : a.Nodup :=
  hb.sublist h.sublist

namespace Declaration.FirstFlaw

variable {d : Declaration} {flaw other : Flaw}

/-- A declaration with a flaw is not well formed. -/
theorem not_wellFormed (h : d.FirstFlaw flaw) : ¬d.WellFormed := by
  rintro ⟨hdistinct, hsound, hacyclic⟩
  cases h with
  | name hstops => exact hstops.not_rule nodup_of_prefix hdistinct
  | type _ hstops _ => exact hstops.not_rule forall_mem_of_prefix hsound
  | circle _ _ hcircle => exact hacyclic _ hcircle

/-- A declaration has one first flaw, up to the choice among circles. -/
theorem agrees (h : d.FirstFlaw flaw) (h' : d.FirstFlaw other) : flaw.Agrees other := by
  cases h with
  | name hstops =>
    have hrepeated := hstops.not_rule nodup_of_prefix
    cases h' with
    | name hstops' =>
      obtain ⟨-, rfl⟩ := hstops.unique nodup_of_prefix hstops'
      exact .inl rfl
    | type hdistinct _ _ => exact absurd hdistinct hrepeated
    | circle hdistinct _ _ => exact absurd hdistinct hrepeated
  | type hdistinct hstops hflaw =>
    cases h' with
    | name hstops' => exact absurd hdistinct (hstops'.not_rule nodup_of_prefix)
    | type _ hstops' hflaw' =>
      obtain ⟨-, rfl⟩ := hstops.unique forall_mem_of_prefix hstops'
      exact .inl (hflaw.unique hflaw')
    | circle _ hsound _ => exact absurd hsound (hstops.not_rule forall_mem_of_prefix)
  | circle hdistinct hsound _ =>
    cases h' with
    | name hstops' => exact absurd hdistinct (hstops'.not_rule nodup_of_prefix)
    | type _ hstops' _ => exact absurd hsound (hstops'.not_rule forall_mem_of_prefix)
    | circle _ _ _ => exact .inr ⟨_, _, rfl, rfl⟩

end Declaration.FirstFlaw

end ConceptScript.Model
