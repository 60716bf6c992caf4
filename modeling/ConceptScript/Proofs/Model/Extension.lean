import ConceptScript.Proofs.Model.Ancestors

/-!
# `ConceptScript.Proofs.Model.Extension`: models with more types

A model `Extends` another one when it has the same types and then some
more, whose keywords are other words. The new types may derive from the old
ones and refer to them.

Of the old types the longer model says what the shorter one does. They are
found under the same ids (`Extends.typeAt_eq`) and under the same keywords
(`Extends.byKeyword_eq`), and the same concepts can stand for others
(`Extends.isAssignable_eq`). The last one needs that the shorter model
loads: then base types of old types are old types.

`extends_of_resolve` says where such models come from. A declaration with
more types at its end, if both load, describes a model that extends the
one before.
-/

set_option autoImplicit false

namespace ConceptScript.Model

open ConceptScript.Text
open Relation (ReflTransGen)

/-- A model with more types after those of another one. No new type has a
keyword with the lowercase form of an old one. -/
structure Extends (m m' : Model) (added : List ConceptType) : Prop where
  types : m'.types = m.types ++ added
  otherKeyword : ∀ c ∈ m.types, ∀ d ∈ added, ∀ word word', c.keyword = some word →
    d.keyword = some word' → lowercase word' ≠ lowercase word

namespace Extends

variable {m m' : Model} {added : List ConceptType}

/-- A model with more types has no fewer types. -/
theorem length_le (h : Extends m m' added) : m.types.length ≤ m'.types.length := by
  rw [h.types, List.length_append]
  exact Nat.le_add_right _ _

/-- The types of a model keep their numbers when others are added after them. -/
theorem typeAt_eq (h : Extends m m' added) {id : TypeId} (hid : id < m.types.length) :
    m'.typeAt id = m.typeAt id := by
  rw [typeAt, typeAt, h.types, List.getD_append _ _ _ _ hid]

/-- A keyword of an old type is the keyword of no new one. -/
theorem byKeyword_eq (h : Extends m m' added) {word : String} (hknown : m.byKeyword word ≠ []) :
    m'.byKeyword word = m.byKeyword word := by
  have hform : ∀ {c : ConceptType}, (c.keyword.any (lowercase · == lowercase word)) = true →
      ∃ k, c.keyword = some k ∧ lowercase k = lowercase word := by
    intro c hc
    cases hk : c.keyword with
    | none => simp [hk] at hc
    | some k => exact ⟨k, rfl, by simpa [hk] using hc⟩
  obtain ⟨c, hc⟩ := List.exists_mem_of_ne_nil _ hknown
  obtain ⟨hmem, hc⟩ := List.mem_filter.mp hc
  obtain ⟨k, hk, hlower⟩ := hform hc
  have hnone : added.filter (fun d => d.keyword.any (lowercase · == lowercase word)) = [] := by
    refine List.filter_eq_nil_iff.mpr fun d hd hsame => ?_
    obtain ⟨k', hk', hlower'⟩ := hform hsame
    exact h.otherKeyword c hmem d hd k k' hk hk' (hlower'.trans hlower.symm)
  show List.filter _ m'.types = List.filter _ m.types
  rw [h.types, List.filter_append, hnone, List.append_nil]

/-- Base types lead from an old type to the same types in both models. -/
theorem reaches_iff (h : Extends m m' added) (hm : m.Accepted) {a d : TypeId}
    (ha : a < m.types.length) :
    ReflTransGen m'.HasBase a d ↔ ReflTransGen m.HasBase a d := by
  have hsame : ∀ t b, t < m.types.length → (m'.HasBase t b ↔ m.HasBase t b) := by
    intro t b ht
    rw [HasBase, HasBase, h.typeAt_eq ht]
  constructor
  · intro hreach
    -- What is reached is an old type, so its base types are those it had.
    suffices ReflTransGen m.HasBase a d ∧ d < m.types.length from this.1
    induction hreach with
    | refl => exact ⟨.refl, ha⟩
    | tail _ hbase ih =>
      have hbase := (hsame _ _ ih.2).mp hbase
      exact ⟨ih.1.tail hbase, hm.hasBase_lt ih.2 hbase⟩
  · intro hreach
    suffices ReflTransGen m'.HasBase a d ∧ d < m.types.length from this.1
    induction hreach with
    | refl => exact ⟨.refl, ha⟩
    | tail _ hbase ih =>
      exact ⟨ih.1.tail ((hsame _ _ ih.2).mpr hbase), hm.hasBase_lt ih.2 hbase⟩

/-- What a type of the model can stand for is not changed by new types,
because its base types are all old. -/
theorem isAssignable_eq (h : Extends m m' added) (hm : m.Accepted) {a : TypeId}
    (ha : a < m.types.length) (d : TypeId) :
    m'.isAssignable a d = m.isAssignable a d := by
  rw [Bool.eq_iff_iff, isAssignable_iff, isAssignable_iff, h.reaches_iff hm ha]

end Extends

/-! ### Declarations with more types -/

section

variable {names : List String} (more : List String)

/-- A name that has a place keeps it when names are added after it. The four
lemmas after this one say the same of what is looked up in a list of names. -/
theorem placeOf_append {name : String} {id : Nat} (h : placeOf name names = some id) :
    placeOf name (names ++ more) = some id := by
  induction names generalizing id with
  | nil => cases h
  | cons n rest ih =>
    unfold placeOf at h
    rw [List.cons_append, placeOf]
    split at h
    · next heq => rw [if_pos heq, h]
    · next hne =>
      obtain ⟨i, hi, rfl⟩ := Option.map_eq_some_iff.mp h
      rw [if_neg hne, ih hi]
      rfl

/-- A reference that is found is found with more names, and is the same one. -/
theorem lookUp_append {name referencedBy : String} {id : TypeId}
    (h : lookUp names name referencedBy = .ok id) :
    lookUp (names ++ more) name referencedBy = .ok id := by
  unfold lookUp at h
  split at h
  · next found hfound =>
    cases h
    rw [lookUp, placeOf_append more hfound]
  · cases h

/-- Base types that are resolved are resolved with more names, to the same
types. -/
theorem resolveBases_append {typeName : String} {bases : List String} {ids : List TypeId}
    (h : resolveBases names typeName bases = .ok ids) :
    resolveBases (names ++ more) typeName bases = .ok ids := by
  induction bases generalizing ids with
  | nil => exact h
  | cons base rest ih =>
    obtain ⟨first, hfirst, h⟩ := bind_eq_ok.mp h
    obtain ⟨others, hothers, h⟩ := bind_eq_ok.mp h
    exact bind_eq_ok.mpr ⟨first, lookUp_append more hfirst, bind_eq_ok.mpr ⟨others, ih hothers, h⟩⟩

/-- A value that is resolved is resolved with more names, to the same one. -/
theorem resolveValue_append {typeName member : String} {decl : ValueDecl} {value : ValueKind}
    (h : resolveValue names typeName member decl = .ok value) :
    resolveValue (names ++ more) typeName member decl = .ok value := by
  cases decl with
  | text | anyConcept | choice _ => exact h
  | concept target =>
    obtain ⟨id, hid, h⟩ := bind_eq_ok.mp h
    exact bind_eq_ok.mpr ⟨id, lookUp_append more hid, h⟩

/-- Members that are resolved are resolved with more names, to the same ones.
Induction on the declared members. -/
theorem resolveMembers_append {typeName : String} {keysEnded : Bool} {decls : List MemberDecl}
    {members : List Member} (h : resolveMembers names typeName keysEnded decls = .ok members) :
    resolveMembers (names ++ more) typeName keysEnded decls = .ok members := by
  induction decls generalizing keysEnded members with
  | nil => exact h
  | cons decl rest ih =>
    obtain ⟨value, others, hvalue, hkey, hothers, rfl⟩ := resolveMembers_cons h
    rw [resolveMembers, resolveValue_append more hvalue]
    show (if (decl.isKey && keysEnded) = true then _ else _) = _
    rw [hkey, if_neg Bool.false_ne_true, ih hothers]
    rfl

/-- Types that were resolved, and more types, are resolved one after
another. -/
theorem resolveTypes_append {id : TypeId} {decls after : List TypeDecl}
    {types all : List ConceptType} (h : resolveTypes names id decls = .ok types)
    (hall : resolveTypes (names ++ more) id (decls ++ after) = .ok all) :
    ∃ added, all = types ++ added
      ∧ resolveTypes (names ++ more) (id + decls.length) after = .ok added := by
  induction decls generalizing id types all with
  | nil =>
    cases h
    exact ⟨all, rfl, hall⟩
  | cons decl rest ih =>
    obtain ⟨bases, members, others, hbases, hmembers, hothers, rfl⟩ := resolveTypes_cons h
    obtain ⟨bases', members', others', hbases', hmembers', hothers', rfl⟩ := resolveTypes_cons hall
    -- The first type refers to the same types when more names are there.
    cases (resolveBases_append more hbases).symm.trans hbases'
    cases (resolveMembers_append more hmembers).symm.trans hmembers'
    obtain ⟨added, rfl, hadded⟩ := ih hothers hothers'
    refine ⟨added, rfl, ?_⟩
    rwa [List.length_cons, Nat.add_comm rest.length, ← Nat.add_assoc]

end

/-- A keyword of a type was declared, and it is not empty. -/
theorem keyword_of_resolveTypes {names : List String} {id : TypeId} {decls : List TypeDecl}
    {types : List ConceptType} (h : resolveTypes names id decls = .ok types) {c : ConceptType}
    (hc : c ∈ types) {word : String} (hword : c.keyword = some word) :
    word ≠ "" ∧ ∃ t ∈ decls, t.keyword = some word := by
  induction decls generalizing id types with
  | nil =>
    cases h
    exact absurd hc List.not_mem_nil
  | cons decl rest ih =>
    obtain ⟨bases, members, others, _, _, hothers, rfl⟩ := resolveTypes_cons h
    rcases List.mem_cons.mp hc with rfl | hc
    · obtain ⟨hkeyword, hsome⟩ := Option.filter_eq_some_iff.mp hword
      exact ⟨bne_iff_ne.mp hsome, decl, List.mem_cons_self, hkeyword⟩
    · obtain ⟨hsome, t, ht, hkeyword⟩ := ih hothers hc
      exact ⟨hsome, t, List.mem_cons_of_mem _ ht, hkeyword⟩

/-- Types declared after those of a model, with other keywords, extend the
model. -/
theorem extends_of_resolve {d d' : Declaration} {m m' : Model} {after : List TypeDecl}
    (h : resolve d = .ok m) (h' : resolve d' = .ok m') (htypes : d'.types = d.types ++ after)
    (hother : ∀ t ∈ d.types, ∀ t' ∈ after, ∀ word word', word ≠ "" → t.keyword = some word →
      t'.keyword = some word' → lowercase word' ≠ lowercase word) :
    ∃ added, Extends m m' added := by
  have hall := (resolve_eq_ok h').1
  rw [htypes, List.map_append] at hall
  obtain ⟨added, htypes', hadded⟩ := resolveTypes_append _ (resolve_eq_ok h).1 hall
  refine ⟨added, htypes', fun c hc d hd word word' hword hword' => ?_⟩
  obtain ⟨hsome, t, ht, hkeyword⟩ := keyword_of_resolveTypes (resolve_eq_ok h).1 hc hword
  obtain ⟨_, t', ht', hkeyword'⟩ := keyword_of_resolveTypes hadded hd hword'
  exact hother t ht t' ht' word word' hsome hkeyword hkeyword'

end ConceptScript.Model
