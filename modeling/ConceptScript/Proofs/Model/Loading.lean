import Mathlib.Data.List.Forall2
import ConceptScript.Proofs.Model.KeyCircle
import ConceptScript.Proofs.Model.WellFormed

/-!
# `ConceptScript.Proofs.Model.Loading`: what loads, and what it loads as

Resolving a declaration against the rules for declared models. Each part
of `resolve` has two lemmas: what a result is (`AsDeclared`), and what is
broken where there is none (`StopsAt`, `FirstFlaw`). The circles of keys
that are searched for among numbered types are those of the declared names
(`circular_idxOf`), because the numbers are the places of the names.

The last theorem puts the parts together: exactly the well-formed
declarations load, the model has the declared types in their order and
finds them by name and by keyword, and where nothing loads the flaw is the
first one.
-/

set_option autoImplicit false

namespace ConceptScript

open Model Text

namespace Model

/-! ### Types as they were declared -/

/-- A kind of value as it was declared, with types given by the places of
their names. -/
def ValueKind.AsDeclared (names : List String) : ValueKind → ValueDecl → Prop
  | .text, .text | .anyConcept, .anyConcept => True
  | .concept id, .concept target => names[id]? = some target
  | .choice values, .choice declared => values = declared
  | _, _ => False

/-- A value that refers to a type was declared by the name of this type. -/
theorem ValueKind.AsDeclared.of_concept {names : List String} {id : TypeId} {decl : ValueDecl}
    (h : (ValueKind.concept id).AsDeclared names decl) :
    ∃ target, decl = .concept target ∧ names[id]? = some target := by
  cases decl with
  | concept target => exact ⟨target, rfl, h⟩
  | text | anyConcept | choice _ => exact h.elim

/-- A value that was declared by the name of a type refers to the type of
this name. -/
theorem ValueKind.AsDeclared.concept_of {names : List String} {kind : ValueKind} {target : String}
    (h : kind.AsDeclared names (.concept target)) :
    ∃ id, kind = .concept id ∧ names[id]? = some target := by
  cases kind with
  | concept id => exact ⟨id, rfl, h⟩
  | text | anyConcept | choice _ => exact h.elim

/-- A member as it was declared. -/
structure Member.AsDeclared (names : List String) (m : Member) (decl : MemberDecl) : Prop where
  name : m.name = decl.name
  value : m.value.AsDeclared names decl.value
  isKey : m.isKey = decl.isKey
  isParsable : m.isParsable = decl.isParsable
  isParentNested : m.isParentNested = decl.isParentNested

end Model

/-- A type as it was declared at some place. An empty keyword is none. -/
structure ConceptType.AsDeclared (names : List String) (c : ConceptType) (decl : TypeDecl × Nat) :
    Prop where
  id : c.id = decl.2
  typeName : c.typeName = decl.1.typeName
  keyword : c.keyword = decl.1.keyword.filter (· != "")
  baseTypes : List.Forall₂ (fun base name => names[base]? = some name) c.baseTypes decl.1.baseTypes
  members : List.Forall₂ (Member.AsDeclared names) c.members decl.1.members
  documentation : c.documentation = decl.1.documentation

namespace Model

/-- A model as it was declared, type by type. -/
structure AsDeclared (m : Model) (d : Declaration) : Prop where
  version : m.version = d.version
  types : List.Forall₂ (ConceptType.AsDeclared d.names) m.types d.types.zipIdx

/-! ### Names -/

/-- Names of which none is found to be repeated are distinct, and none of
them was seen before. Induction on the names. -/
theorem firstRepeated_eq_none {seen names : List String} (h : firstRepeated seen names = none) :
    names.Nodup ∧ ∀ name ∈ names, name ∉ seen := by
  induction names generalizing seen with
  | nil => exact ⟨.nil, fun _ hname => absurd hname List.not_mem_nil⟩
  | cons name rest ih =>
    unfold firstRepeated at h
    split at h
    · cases h
    · next hseen =>
      obtain ⟨hrest, hdisjoint⟩ := ih h
      have hfirst : name ∉ rest := fun hname => hdisjoint name hname List.mem_cons_self
      refine ⟨List.nodup_cons.mpr ⟨hfirst, hrest⟩, List.forall_mem_cons.mpr ⟨?_, ?_⟩⟩
      · simpa using hseen
      · exact fun other hother hmem => hdisjoint other hother (List.mem_cons_of_mem _ hmem)

/-- A name that is answered repeats a name before it. -/
theorem firstRepeated_eq_some {seen names : List String} {name : String}
    (h : firstRepeated seen names = some name) :
    ∃ before, before ++ [name] <+: names ∧ before.Nodup ∧ (∀ other ∈ before, other ∉ seen)
      ∧ (name ∈ before ∨ name ∈ seen) := by
  induction names generalizing seen with
  | nil => cases h
  | cons first rest ih =>
    unfold firstRepeated at h
    split at h
    · next hseen =>
      cases h
      exact ⟨[], List.prefix_append [name] rest, .nil, fun _ ha => absurd ha List.not_mem_nil,
        .inr (by simpa using hseen)⟩
    · next hseen =>
      obtain ⟨before, hfront, hnodup, hnew, hrepeated⟩ := ih h
      refine ⟨first :: before, List.cons_prefix_cons.mpr ⟨rfl, hfront⟩,
        List.nodup_cons.mpr ⟨fun hfirst => hnew first hfirst List.mem_cons_self, hnodup⟩,
        List.forall_mem_cons.mpr ⟨by simpa using hseen, fun other hother hmem =>
          hnew other hother (List.mem_cons_of_mem _ hmem)⟩, ?_⟩
      -- The first name has become one of those seen, so a name seen may be this one.
      rcases hrepeated with hbefore | hseen'
      · exact .inl (List.mem_cons_of_mem _ hbefore)
      · rcases List.mem_cons.mp hseen' with rfl | hseen'
        · exact .inl List.mem_cons_self
        · exact .inr hseen'

/-- A name that is found to be repeated is the first with which the names are
no longer distinct. -/
theorem stopsAt_of_firstRepeated {names : List String} {name : String}
    (h : firstRepeated [] names = some name) : ∃ before, StopsAt List.Nodup names before name := by
  obtain ⟨before, hfront, hnodup, _, hrepeated⟩ := firstRepeated_eq_some h
  refine ⟨before, hfront, hnodup, fun hall => ?_⟩
  have hname := hrepeated.resolve_right List.not_mem_nil
  exact List.disjoint_of_nodup_append hall hname (List.mem_singleton_self name)

/-- The place of a name is one where this name stands. -/
theorem placeOf_eq_some {name : String} {names : List String} {id : Nat}
    (h : placeOf name names = some id) : names[id]? = some name := by
  induction names generalizing id with
  | nil => cases h
  | cons n rest ih =>
    unfold placeOf at h
    split at h
    · next heq =>
      cases h
      rw [List.getElem?_cons_zero, heq]
    · obtain ⟨i, hi, rfl⟩ := Option.map_eq_some_iff.mp h
      rw [List.getElem?_cons_succ, ih hi]

/-- A name without a place is not in the list. -/
theorem placeOf_eq_none {name : String} {names : List String} (h : placeOf name names = none) :
    name ∉ names := by
  induction names with
  | nil => exact List.not_mem_nil
  | cons n rest ih =>
    unfold placeOf at h
    split at h
    · cases h
    · next hne =>
      rw [Option.map_eq_none_iff] at h
      exact List.not_mem_cons_of_ne_of_not_mem (fun heq => hne heq.symm) (ih h)

/-- A reference is to the type at the place of its name. -/
theorem lookUp_eq_ok {names : List String} {name referencedBy : String} {id : TypeId}
    (h : lookUp names name referencedBy = .ok id) : names[id]? = some name := by
  unfold lookUp at h
  split at h
  · next found hfound =>
    cases h
    exact placeOf_eq_some hfound
  · cases h

/-- A reference fails only for a name that no type has, and the flaw tells
this name and who refers to it. -/
theorem lookUp_eq_error {names : List String} {name referencedBy : String} {flaw : Flaw}
    (h : lookUp names name referencedBy = .error flaw) :
    name ∉ names ∧ flaw = .unknownType name referencedBy := by
  unfold lookUp at h
  split at h
  · cases h
  · next hnone =>
    cases h
    exact ⟨placeOf_eq_none hnone, rfl⟩

/-- A step that may fail and then another one fail where one of them does. -/
theorem bind_eq_error {ε α β : Type} {x : Except ε α} {f : α → Except ε β} {e : ε}
    (h : x >>= f = .error e) : x = .error e ∨ ∃ a, x = .ok a ∧ f a = .error e := by
  cases x with
  | error e' =>
    cases h
    exact .inl rfl
  | ok a => exact .inr ⟨a, rfl, h⟩

/-! ### Base types -/

variable {names : List String} {typeName : String}

/-- Base types are resolved, one by one, to the types with their names. -/
theorem resolveBases_eq_ok {bases : List String} {ids : List TypeId}
    (h : resolveBases names typeName bases = .ok ids) :
    List.Forall₂ (fun id name => names[id]? = some name) ids bases := by
  induction bases generalizing ids with
  | nil =>
    cases h
    exact .nil
  | cons base rest ih =>
    obtain ⟨id, hid, h⟩ := bind_eq_ok.mp h
    obtain ⟨others, hothers, h⟩ := bind_eq_ok.mp h
    cases h
    exact .cons (lookUp_eq_ok hid) (ih hothers)

/-- Base types cannot be resolved because of the first name among them that
no type has. -/
theorem resolveBases_eq_error {bases : List String} {flaw : Flaw}
    (h : resolveBases names typeName bases = .error flaw) :
    ∃ before base, StopsAt (fun bases => ∀ b ∈ bases, b ∈ names) bases before base
      ∧ flaw = .unknownType base typeName := by
  induction bases with
  | nil => cases h
  | cons base rest ih =>
    rcases bind_eq_error h with hid | ⟨id, hid, h⟩
    · obtain ⟨hunknown, rfl⟩ := lookUp_eq_error hid
      exact ⟨[], base, .head hunknown rest, rfl⟩
    · rcases bind_eq_error h with hrest | ⟨others, _, h⟩
      · obtain ⟨before, unknown, hstops, rfl⟩ := ih hrest
        have hknown := List.mem_of_getElem? (lookUp_eq_ok hid)
        exact ⟨base :: before, unknown, hstops.cons hknown, rfl⟩
      · cases h

/-- Names that have places are names of the list. -/
theorem forall_mem_of_places {ids : List TypeId} {bases : List String}
    (h : List.Forall₂ (fun id name => names[id]? = some name) ids bases) :
    ∀ base ∈ bases, base ∈ names := by
  induction h with
  | nil => exact fun _ hbase => absurd hbase List.not_mem_nil
  | cons hid _ ih => exact List.forall_mem_cons.mpr ⟨List.mem_of_getElem? hid, ih⟩

/-! ### Members -/

/-- A resolved value is as it was declared, and its declaration obeys the
rules. -/
theorem resolveValue_eq_ok {member : String} {decl : ValueDecl} {value : ValueKind}
    (h : resolveValue names typeName member decl = .ok value) :
    value.AsDeclared names decl ∧ decl.Sound names := by
  cases decl with
  | text =>
    cases h
    exact ⟨trivial, trivial⟩
  | anyConcept =>
    cases h
    exact ⟨trivial, trivial⟩
  | concept target =>
    obtain ⟨id, hid, h⟩ := bind_eq_ok.mp h
    cases h
    exact ⟨lookUp_eq_ok hid, List.mem_of_getElem? (lookUp_eq_ok hid)⟩
  | choice values =>
    rw [resolveValue] at h
    split at h
    · cases h
    · next hvalues =>
      cases h
      exact ⟨rfl, fun hnil => hvalues (List.isEmpty_iff.mpr hnil)⟩

/-- A value cannot be resolved because of a flaw of its member. -/
theorem resolveValue_eq_error {before : List MemberDecl} {decl : MemberDecl} {flaw : Flaw}
    (h : resolveValue names typeName decl.name decl.value = .error flaw) :
    decl.HasFlaw names typeName before flaw := by
  cases hvalue : decl.value with
  | text =>
    rw [hvalue] at h
    cases h
  | anyConcept =>
    rw [hvalue] at h
    cases h
  | concept target =>
    rw [hvalue] at h
    rcases bind_eq_error h with hid | ⟨id, _, h⟩
    · obtain ⟨hunknown, rfl⟩ := lookUp_eq_error hid
      exact .target hvalue hunknown
    · cases h
  | choice values =>
    rw [hvalue, resolveValue] at h
    split at h
    · next hvalues =>
      cases h
      exact .values (List.isEmpty_iff.mp hvalues ▸ hvalue)
    · cases h

/-- What is wrong with a member, or with the members after it. -/
theorem resolveMembers_cons_error {before rest : List MemberDecl} {decl : MemberDecl} {flaw : Flaw}
    (h : resolveMembers names typeName (before.any (!·.isKey)) (decl :: rest) = .error flaw) :
    decl.HasFlaw names typeName before flaw
      ∨ decl.value.Sound names ∧ (decl.isKey = true → ∀ other ∈ before, other.isKey = true)
        ∧ resolveMembers names typeName ((before ++ [decl]).any (!·.isKey)) rest = .error flaw := by
  unfold resolveMembers at h
  rcases bind_eq_error h with hvalue | ⟨value, hvalue, h⟩
  · exact .inl (resolveValue_eq_error hvalue)
  · have hsound := (resolveValue_eq_ok hvalue).2
    dsimp only at h
    split at h
    · next hplace =>
      -- The value is all right, but the key comes too late.
      cases h
      obtain ⟨hkey, hlate⟩ := Bool.and_eq_true_iff.mp hplace
      exact .inl (.place hsound hkey (by simpa using hlate))
    · next hplace =>
      rcases bind_eq_error h with hrest | ⟨others, _, h⟩
      · refine .inr ⟨hsound, fun hkey other hother => ?_, ?_⟩
        · rw [hkey, Bool.true_and] at hplace
          simpa using fun hfalse => hplace (List.any_eq_true.mpr ⟨other, hother, hfalse⟩)
        · rw [List.any_append, List.any_cons, List.any_nil, Bool.or_false]
          exact hrest
      · cases h

/-- Members that are resolved after sound ones: the first that is not
sound is reported. -/
theorem resolveMembers_eq_error {before decls : List MemberDecl} {flaw : Flaw}
    (hbefore : MembersSound names before)
    (h : resolveMembers names typeName (before.any (!·.isKey)) decls = .error flaw) :
    ∃ earlier m, before <+: earlier ∧ StopsAt (MembersSound names) (before ++ decls) earlier m
      ∧ m.HasFlaw names typeName earlier flaw := by
  induction decls generalizing before with
  | nil => cases h
  | cons decl rest ih =>
    rw [List.append_cons]
    rcases resolveMembers_cons_error h with hflaw | ⟨hvalue, hplace, hrest⟩
    · exact ⟨before, decl, List.prefix_rfl,
        ⟨List.prefix_append _ _, hbefore, hflaw.not_sound⟩, hflaw⟩
    · obtain ⟨earlier, m, hle, hstops⟩ :=
        ih (MembersSound.concat_iff.mpr ⟨hbefore, hvalue, hplace⟩) hrest
      exact ⟨earlier, m, (List.prefix_append _ _).trans hle, hstops⟩

/-- Resolved members are as they were declared and obey the rules, with those
before them. The flag that no key may follow any more is the one that the
members before give. -/
theorem resolveMembers_eq_ok {before decls : List MemberDecl} {members : List Member}
    (hbefore : MembersSound names before)
    (h : resolveMembers names typeName (before.any (!·.isKey)) decls = .ok members) :
    MembersSound names (before ++ decls) ∧ List.Forall₂ (Member.AsDeclared names) members decls := by
  induction decls generalizing before members with
  | nil =>
    cases h
    exact ⟨(List.append_nil before).symm ▸ hbefore, .nil⟩
  | cons decl rest ih =>
    obtain ⟨value, others, hvalue, hplace, hothers, rfl⟩ := resolveMembers_cons h
    obtain ⟨hresolved, hsound⟩ := resolveValue_eq_ok hvalue
    have hfirst : MembersSound names (before ++ [decl]) := by
      refine MembersSound.concat_iff.mpr ⟨hbefore, hsound, fun hkey other hother => ?_⟩
      rw [hkey, Bool.true_and, List.any_eq_false] at hplace
      simpa using hplace other hother
    have hended : (before.any (!·.isKey) || !decl.isKey) = (before ++ [decl]).any (!·.isKey) := by
      rw [List.any_append, List.any_cons, List.any_nil, Bool.or_false]
    obtain ⟨hall, hrest⟩ := ih hfirst (hended ▸ hothers)
    rw [List.append_cons]
    exact ⟨hall, .cons ⟨rfl, hresolved, rfl, rfl, rfl⟩ hrest⟩

/-! ### Types -/

/-- Resolved types are as they were declared, each at its place, and obey the
rules. -/
theorem resolveTypes_eq_ok {id : TypeId} {decls : List TypeDecl} {types : List ConceptType}
    (h : resolveTypes names id decls = .ok types) :
    (∀ t ∈ decls, t.Sound names)
      ∧ List.Forall₂ (ConceptType.AsDeclared names) types (decls.zipIdx id) := by
  induction decls generalizing id types with
  | nil =>
    cases h
    exact ⟨fun _ ht => absurd ht List.not_mem_nil, .nil⟩
  | cons decl rest ih =>
    obtain ⟨bases, members, others, hbases, hmembers, hothers, rfl⟩ := resolveTypes_cons h
    have hplaces := resolveBases_eq_ok hbases
    obtain ⟨hsound, hresolved⟩ := resolveMembers_eq_ok .nil hmembers
    obtain ⟨hall, hrest⟩ := ih hothers
    exact ⟨List.forall_mem_cons.mpr ⟨⟨forall_mem_of_places hplaces, hsound⟩, hall⟩,
      .cons ⟨rfl, rfl, rfl, hplaces, hresolved, rfl⟩ hrest⟩

/-- Types cannot be resolved because of the first of them that does not obey
the rules, and because of what is wrong with it first. -/
theorem resolveTypes_eq_error {id : TypeId} {decls : List TypeDecl} {flaw : Flaw}
    (h : resolveTypes names id decls = .error flaw) :
    ∃ before t, StopsAt (fun types => ∀ t ∈ types, t.Sound names) decls before t
      ∧ t.FirstFlaw names flaw := by
  induction decls generalizing id with
  | nil => cases h
  | cons decl rest ih =>
    -- A flaw of the first type ends the list there.
    have hhead : decl.FirstFlaw names flaw →
        ∃ before t, StopsAt (fun types => ∀ t ∈ types, t.Sound names) (decl :: rest) before t
          ∧ t.FirstFlaw names flaw :=
      fun hflaw => ⟨[], decl, .head hflaw.not_sound rest, hflaw⟩
    unfold resolveTypes at h
    rcases bind_eq_error h with hbases | ⟨bases, hbases, h⟩
    · obtain ⟨before, base, hstops, rfl⟩ := resolveBases_eq_error hbases
      exact hhead (.base hstops)
    · have hknown := forall_mem_of_places (resolveBases_eq_ok hbases)
      rcases bind_eq_error h with hmembers | ⟨members, hmembers, h⟩
      · obtain ⟨before, m, _, hstops, hflaw⟩ := resolveMembers_eq_error .nil hmembers
        exact hhead (.member hknown hstops hflaw)
      · rcases bind_eq_error h with hrest | ⟨others, _, h⟩
        · obtain ⟨before, t, hstops, hflaw⟩ := ih hrest
          have hsound := (resolveMembers_eq_ok .nil hmembers).1
          exact ⟨decl :: before, t, hstops.cons ⟨hknown, hsound⟩, hflaw⟩
        · cases h

/-! ### Circles of keys, by number and by name -/

/-- Of two lists that are related item by item, items at the same place are. -/
theorem forall₂_getElem? {α β : Type} {R : α → β → Prop} {as : List α} {bs : List β} {i : Nat}
    {a : α} (h : List.Forall₂ R as bs) (ha : as[i]? = some a) : ∃ b, bs[i]? = some b ∧ R a b := by
  induction h generalizing i with
  | nil => cases ha
  | cons hab _ ih =>
    cases i with
    | zero =>
      cases ha
      exact ⟨_, rfl, hab⟩
    | succ i => exact ih ha

/-- Lists of which the members agree one by one in what two functions make of
them are mapped to the same list. -/
theorem forall₂_map_eq {α β γ : Type} {R : α → β → Prop} {as : List α} {bs : List β} {f : α → γ}
    {g : β → γ} (h : List.Forall₂ R as bs) (hfg : ∀ {a b}, R a b → f a = g b) :
    as.map f = bs.map g := by
  induction h with
  | nil => rfl
  | cons hab _ ih => rw [List.map_cons, List.map_cons, hfg hab, ih]

section Circles

variable {d : Declaration} {types : List ConceptType}

/-- Types as they were declared have the declared names. -/
theorem map_typeName_eq (h : List.Forall₂ (ConceptType.AsDeclared d.names) types d.types.zipIdx) :
    types.map (·.typeName) = d.names := by
  have hnames := forall₂_map_eq (g := TypeDecl.typeName ∘ Prod.fst) h
    (fun hresolved => hresolved.typeName)
  rwa [← List.map_map, List.zipIdx_map_fst] at hnames

/-- Where keys of numbered types lead, they lead by name. -/
theorem keyLeads_getD (h : List.Forall₂ (ConceptType.AsDeclared d.names) types d.types.zipIdx)
    {a b : TypeId} (hab : KeyLeads types a b) :
    d.KeyLeads (d.names.getD a "") (d.names.getD b "") := by
  obtain ⟨c, hc, member, hmem, hkey, hvalue⟩ := hab
  obtain ⟨⟨t, i⟩, ht, hresolved⟩ := forall₂_getElem? h hc
  rw [List.getElem?_zipIdx, Option.map_eq_some_iff] at ht
  obtain ⟨_, ht, heq⟩ := ht
  cases heq
  obtain ⟨j, hj⟩ := List.mem_iff_getElem?.mp hmem
  obtain ⟨decl, hdecl, hmember⟩ := forall₂_getElem? hresolved.members hj
  obtain ⟨target, hdeclared, htarget⟩ := (hvalue ▸ hmember.value).of_concept
  have hname : d.names[a]? = some t.typeName := by
    rw [Declaration.names, List.getElem?_map, ht, Option.map_some]
  rw [List.getD_eq_getElem?_getD, List.getD_eq_getElem?_getD, hname, htarget]
  exact ⟨t, List.mem_of_getElem? ht, rfl, decl, List.mem_of_getElem? hdecl,
    hmember.isKey ▸ hkey, hdeclared⟩

/-- Where declared keys lead by name, those of the numbered types lead. -/
theorem keyLeads_idxOf (h : List.Forall₂ (ConceptType.AsDeclared d.names) types d.types.zipIdx)
    (hdistinct : d.names.Nodup) {x y : String} (hxy : d.KeyLeads x y) :
    KeyLeads types (d.names.idxOf x) (d.names.idxOf y) := by
  -- A name has one place.
  have hplace : ∀ {i : Nat} {name : String}, d.names[i]? = some name → d.names.idxOf name = i := by
    intro i name hi
    obtain ⟨hlt, rfl⟩ := List.getElem?_eq_some_iff.mp hi
    exact hdistinct.idxOf_getElem i hlt
  obtain ⟨t, ht, rfl, decl, hdecl, hkey, hvalue⟩ := hxy
  obtain ⟨i, hi⟩ := List.mem_iff_getElem?.mp ht
  have hzip : d.types.zipIdx[i]? = some (t, i) := by
    rw [List.getElem?_zipIdx, hi, Option.map_some, Nat.zero_add]
  obtain ⟨c, hc, hresolved⟩ := forall₂_getElem? (R := flip _) h.flip hzip
  obtain ⟨j, hj⟩ := List.mem_iff_getElem?.mp hdecl
  obtain ⟨member, hmem, hmember⟩ := forall₂_getElem? (R := flip _) hresolved.members.flip hj
  obtain ⟨target, hkind, htarget⟩ := (hvalue ▸ hmember.value).concept_of
  have hname : d.names[i]? = some t.typeName := by
    rw [Declaration.names, List.getElem?_map, hi, Option.map_some]
  rw [hplace hname, hplace htarget]
  exact ⟨c, hc, member, List.mem_of_getElem? hmem, hmember.isKey.trans hkey, hkind⟩

/-- A type on a circle has a name on a circle. -/
theorem circular_getD (h : List.Forall₂ (ConceptType.AsDeclared d.names) types d.types.zipIdx)
    {id : TypeId} (hcircle : Circular types id) : d.Circular (d.names.getD id "") :=
  Relation.TransGen.lift (fun id => d.names.getD id "") (fun _ _ => keyLeads_getD h) _ _ hcircle

/-- A name on a circle is that of a type on a circle. Names have to be
distinct for this: the place of a name is the first one. -/
theorem circular_idxOf (h : List.Forall₂ (ConceptType.AsDeclared d.names) types d.types.zipIdx)
    (hdistinct : d.names.Nodup) {name : String} (hcircle : d.Circular name) :
    Circular types (d.names.idxOf name) :=
  Relation.TransGen.lift d.names.idxOf (fun _ _ => keyLeads_idxOf h hdistinct) _ _ hcircle

end Circles

/-! ### Declarations -/

section Loading

variable {d : Declaration} {m : Model}

/-- A declaration that loads obeys the rules, and the model is as it was
declared. -/
theorem wellFormed_and_asDeclared (h : resolve d = .ok m) : d.WellFormed ∧ m.AsDeclared d := by
  obtain ⟨htypes, hcircle, hrepeated, hversion⟩ := resolve_eq_ok h
  obtain ⟨hsound, hresolved⟩ := resolveTypes_eq_ok htypes
  have hdistinct : d.names.Nodup := (firstRepeated_eq_none hrepeated).1
  have hlinked : Linked m.types := Accepted.linked ⟨d, h⟩
  exact ⟨⟨hdistinct, hsound, fun name hname =>
    not_circular_of_keyCircle? hlinked hcircle _ (circular_idxOf hresolved hdistinct hname)⟩,
    ⟨hversion, hresolved⟩⟩

/-- In a model that loads, a choice is between at least one word. -/
theorem Accepted.choice_ne_nil (hm : m.Accepted) {c : ConceptType} (hc : c ∈ m.types)
    {member : Member} (hmember : member ∈ c.members) {values : List String}
    (hvalue : member.value = .choice values) : values ≠ [] := by
  obtain ⟨d, hd⟩ := hm
  obtain ⟨hwellFormed, hdeclared⟩ := wellFormed_and_asDeclared hd
  obtain ⟨i, hi⟩ := List.mem_iff_getElem?.mp hc
  obtain ⟨⟨decl, place⟩, hdecl, htype⟩ := forall₂_getElem? hdeclared.types hi
  obtain ⟨j, hj⟩ := List.mem_iff_getElem?.mp hmember
  obtain ⟨memberDecl, hmemberDecl, hsame⟩ := forall₂_getElem? htype.members hj
  have hsound := hwellFormed.sound decl (List.fst_mem_of_mem_zipIdx (List.mem_of_getElem? hdecl))
  -- The member was declared with these words, and the declaration obeys the rules.
  have hvalues := hsound.members.values memberDecl (List.mem_of_getElem? hmemberDecl)
  have hkind := hsame.value
  rw [hvalue] at hkind
  cases hdeclValue : memberDecl.value with
  | choice declared =>
    rw [hdeclValue] at hkind hvalues
    exact hkind ▸ hvalues
  | text | anyConcept | concept _ =>
    rw [hdeclValue] at hkind
    exact hkind.elim

/-- What is reported of a declaration is its first flaw: a repeated name,
else the flaw of a type, else a circle. -/
theorem firstFlaw_of_resolve {flaw : Flaw} (h : resolve d = .error flaw) : d.FirstFlaw flaw := by
  unfold resolve at h
  dsimp only at h
  split at h
  · next name hrepeated =>
    cases h
    obtain ⟨before, hstops⟩ := stopsAt_of_firstRepeated hrepeated
    exact .name hstops
  · next hnone =>
    have hdistinct : d.names.Nodup :=
      (firstRepeated_eq_none (Option.eq_none_iff_forall_ne_some.mpr hnone)).1
    rcases bind_eq_error h with htypes | ⟨types, htypes, h⟩
    · obtain ⟨before, t, hstops, hflaw⟩ := resolveTypes_eq_error htypes
      exact .type hdistinct hstops hflaw
    · obtain ⟨hsound, hresolved⟩ := resolveTypes_eq_ok htypes
      split at h
      · next id hfound =>
        cases h
        -- The circle is reported by the name of a type on it.
        have hname : (types.getD id .blank).typeName = d.names.getD id "" := by
          rw [← map_typeName_eq hresolved, List.getD_eq_getElem?_getD, List.getD_eq_getElem?_getD,
            List.getElem?_map]
          cases types[id]? <;> rfl
        rw [hname]
        exact .circle hdistinct hsound (circular_getD hresolved (circular_of_keyCircle? hfound))
      · cases h

/-- A declaration that obeys the rules loads. -/
theorem exists_resolve_of_wellFormed (h : d.WellFormed) : ∃ m, resolve d = .ok m := by
  cases hresult : resolve d with
  | ok m => exact ⟨m, rfl⟩
  | error flaw => exact absurd h (firstFlaw_of_resolve hresult).not_wellFormed

/-! ### Looking types up -/

/-- Names lead to the types that they are the names of, and nowhere else. -/
theorem byTypeName_eq_some_iff (h : resolve d = .ok m) {name : String} {c : ConceptType} :
    m.byTypeName name = some c ↔ m.types[c.id]? = some c ∧ d.names[c.id]? = some name := by
  obtain ⟨hwell, hresolved⟩ := wellFormed_and_asDeclared h
  have hnames := map_typeName_eq hresolved.types
  have hids := Accepted.ids_eq_range ⟨d, h⟩
  -- A type stands at the place that is its id, and there is its name.
  have hplace : ∀ {c}, c ∈ m.types → m.types[c.id]? = some c ∧ d.names[c.id]? = some c.typeName := by
    intro c hc
    obtain ⟨i, hi⟩ := List.mem_iff_getElem?.mp hc
    have hid : (m.types.map (·.id))[i]? = (List.range m.types.length)[i]? := by rw [hids]
    rw [List.getElem?_map, hi, List.getElem?_range (List.getElem?_eq_some_iff.mp hi).1] at hid
    obtain rfl : c.id = i := Option.some.inj hid
    exact ⟨hi, by rw [← hnames, List.getElem?_map, hi, Option.map_some]⟩
  constructor
  · intro hfound
    obtain rfl : c.typeName = name := by simpa using List.find?_some hfound
    exact hplace (List.mem_of_find?_eq_some hfound)
  · rintro ⟨hc, hname⟩
    have hmem := List.mem_of_getElem? hc
    obtain rfl : c.typeName = name := Option.some.inj ((hplace hmem).2.symm.trans hname)
    cases hfound : m.byTypeName c.typeName with
    | none => simpa using List.find?_eq_none.mp hfound c hmem
    | some other =>
      have hother := List.mem_of_find?_eq_some hfound
      have hsame : other.typeName = c.typeName := by simpa using List.find?_some hfound
      -- Names are distinct, so the places are the same.
      have hlt := (List.getElem?_eq_some_iff.mp hname).1
      have hid : c.id = other.id :=
        (List.getElem?_inj hlt hwell.distinct).mp
          (hname.trans (hsame ▸ (hplace hother).2.symm))
      rw [← (hplace hother).1, ← hid, hc]

/-- A declared type has a keyword, not the empty one, that a word spells up
to case. -/
def TypeDecl.HasKeywordLike (word : String) (t : TypeDecl) : Bool :=
  t.keyword.any fun keyword => keyword != "" && lowercase keyword == lowercase word

/-- The types that a keyword may mean are those that were declared with a
keyword like it, in the order of the declaration. -/
theorem byKeyword_eq (h : resolve d = .ok m) (word : String) :
    m.byKeyword word =
      (d.types.zipIdx.filter fun t => t.1.HasKeywordLike word).map fun t => m.typeAt t.2 := by
  have hresolved := (wellFormed_and_asDeclared h).2.types
  have hfilter : List.Forall₂ (ConceptType.AsDeclared d.names) (m.byKeyword word)
      (d.types.zipIdx.filter fun t => t.1.HasKeywordLike word) := by
    refine List.rel_filter (fun c t hct => ?_) hresolved
    dsimp only
    rw [hct.keyword, TypeDecl.HasKeywordLike]
    cases t.1.keyword with
    | none => exact Iff.rfl
    | some keyword =>
      by_cases hempty : keyword = "" <;> simp [Option.filter, hempty]
  have hids := forall₂_map_eq (f := fun c => m.typeAt c.id) (g := fun t => m.typeAt t.2) hfilter
    (fun hct => congrArg m.typeAt hct.id)
  calc m.byKeyword word = (m.byKeyword word).map fun c => m.typeAt c.id := by
        refine (List.map_id _).symm.trans (List.map_congr_left fun c hc => ?_)
        exact (Accepted.typeAt_id ⟨d, h⟩ (List.mem_of_mem_filter hc)).symm
    _ = _ := hids

end Loading

/-- Exactly the declarations that obey the rules load. The model is as it
was declared, a name leads to the type at its place, and a word leads to
the types with such a keyword in their order. Where nothing loads, the flaw
is what is wrong first. -/
theorem resolve_accepts_exactly_wellFormed (d : Declaration) :
    ((∃ m, resolve d = .ok m) ↔ d.WellFormed)
      ∧ (∀ m, resolve d = .ok m → m.AsDeclared d
        ∧ (∀ name c, m.byTypeName name = some c ↔
          m.types[c.id]? = some c ∧ d.names[c.id]? = some name)
        ∧ ∀ word, m.byKeyword word =
          (d.types.zipIdx.filter fun t => t.1.HasKeywordLike word).map fun t => m.typeAt t.2)
      ∧ ∀ flaw, resolve d = .error flaw →
        d.FirstFlaw flaw ∧ ∀ other, d.FirstFlaw other → other.Agrees flaw := by
  refine ⟨⟨?_, exists_resolve_of_wellFormed⟩, fun m h => ?_, fun flaw h => ?_⟩
  · rintro ⟨m, h⟩
    exact (wellFormed_and_asDeclared h).1
  · exact ⟨(wellFormed_and_asDeclared h).2, fun _ _ => byTypeName_eq_some_iff h, byKeyword_eq h⟩
  · have hfirst := firstFlaw_of_resolve h
    exact ⟨hfirst, fun other hother => hother.agrees hfirst⟩

/-- Entities of modules. A type is referred to before it is declared, and
another one by itself. -/
def entityDeclaration : Declaration :=
  ⟨"1", [⟨"EntityInfo", some "Entity", ["NodeInfo"], none,
      [⟨"Module", .concept "ModuleInfo", true, true, false⟩, ⟨"Name", .text, true, true, false⟩]⟩,
    ⟨"NodeInfo", some "", [], none, [⟨"Next", .concept "NodeInfo", false, true, false⟩]⟩,
    ⟨"ModuleInfo", some "Module", [], none, [⟨"Name", .text, true, true, false⟩]⟩]⟩

/-- With two more types: a member that names no type and would be late as a
key, and a type whose key is a concept of the type. -/
def flawedDeclaration : Declaration :=
  ⟨"1", entityDeclaration.types ++ [⟨"TagInfo", none, [], none,
      [⟨"Text", .text, false, true, false⟩, ⟨"Owner", .concept "Missing", true, true, false⟩]⟩,
    ⟨"LoopInfo", none, [], none, [⟨"Loop", .concept "LoopInfo", true, true, false⟩]⟩]⟩

/-- The first of these loads, and modules are found by name. The second
does not, and the missing type is what is wrong first. -/
theorem entities_load_and_missing_type_reported :
    (∃ m c, resolve entityDeclaration = .ok m ∧ m.AsDeclared entityDeclaration
        ∧ m.byTypeName "ModuleInfo" = some c ∧ c.id = 2)
      ∧ resolve flawedDeclaration = .error (.unknownType "Missing" "TagInfo.Owner")
      ∧ flawedDeclaration.FirstFlaw (.unknownType "Missing" "TagInfo.Owner") := by
  obtain ⟨-, hloads, -⟩ := resolve_accepts_exactly_wellFormed entityDeclaration
  obtain ⟨-, -, hflaw⟩ := resolve_accepts_exactly_wellFormed flawedDeclaration
  have hresolve : resolve flawedDeclaration = .error (.unknownType "Missing" "TagInfo.Owner") := rfl
  obtain ⟨hresolved, hname, -⟩ := hloads _ rfl
  have hmodule := (hname "ModuleInfo" ⟨2, "ModuleInfo", some "Module", [],
    [⟨"Name", .text, true, true, false⟩], none⟩).mpr ⟨rfl, rfl⟩
  exact ⟨⟨_, _, rfl, hresolved, hmodule, rfl⟩, hresolve, (hflaw _ hresolve).1⟩

end Model

end ConceptScript
