import ConceptScript.Script.Statement
import ConceptScript.Proofs.Model.KeyDepth
import ConceptScript.Proofs.Script.Grammar
import ConceptScript.Proofs.Script.Reads

/-!
# `ConceptScript.Proofs.Script.Recognize`: heads are read as the grammar says

Each reading of the parser accepts the phrase of the grammar that it is
meant for, exactly: `accepts_readReference`, `accepts_readMember`. For the
reading of all members, of a head as one type and of a head the same is
said of their results (`readMembers_eq_ok_iff`, `interpret_eq_ok_iff`,
`readStatement_eq_ok_iff`).

References are read with a bounded depth. The bound is enough in a model
that loads, by `Model.Accepted.exists_keysSorted`.
-/

set_option autoImplicit false

namespace ConceptScript.Script

open ConceptScript.Text
open ConceptScript.Model (TypeId Member KeysSorted)

variable {m : Model}

namespace Reading

/-- A dot where one is needed is read as the grammar has it. -/
theorem accepts_dotIf (needed : Bool) (why : Mismatch) :
    Accepts (dotIf needed why) (fun w _ => DotIf needed w) := by
  intro r a r'
  cases needed with
  | false =>
    show (pure () : Reading Unit) r = _ ↔ _
    rw [accepts_pure]
    constructor
    · rintro ⟨w, ⟨rfl, _⟩, hreads⟩
      exact ⟨[], .none, hreads⟩
    · rintro ⟨w, hdot, hreads⟩
      cases hdot
      exact ⟨[], ⟨rfl, rfl⟩, hreads⟩
  | true =>
    show dot why r = _ ↔ _
    rw [accepts_dot]
    constructor
    · rintro ⟨w, ⟨t, rfl, his⟩, hreads⟩
      exact ⟨[t], .dot his, hreads⟩
    · rintro ⟨w, hdot, hreads⟩
      cases hdot with
      | dot his => exact ⟨_, ⟨_, rfl, his⟩, hreads⟩

/-- A reading whose value is changed afterwards. -/
theorem Accepts.map {α β : Type} {p : Reading α} {L : List Token → α → Prop} {f : α → β}
    (hp : Accepts p L) : Accepts (p >>= fun a => pure (f a)) (fun w b => ∃ a, L w a ∧ b = f a) := by
  refine (hp.bind fun a => accepts_pure (f a)).congr fun w b => ?_
  constructor
  · rintro ⟨u, a, v, rfl, hu, rfl, rfl⟩
    exact ⟨a, (List.append_nil u).symm ▸ hu, rfl⟩
  · rintro ⟨a, hu, rfl⟩
    exact ⟨w, a, [], (List.append_nil w).symm, hu, rfl, rfl⟩

end Reading

open Reading

/-! ### References -/

/-- A key is read as the grammar has it, if references are. -/
theorem accepts_readKey {reference : TypeId → Reading Node} {typeName : String} {member : Member}
    (h : ∀ target, member.value = .concept target →
      Accepts (reference target) (Reference m target)) :
    Accepts (readKey reference typeName member) (KeyValue m member) := by
  -- The values of the two kinds of plain keys are read alike.
  have htext : member.value.isConcept = false →
      Accepts (textToken >>= fun t => pure (.text t.value)) (KeyValue m member) := by
    intro hplain
    refine accepts_textToken.map.congr fun w slot => ?_
    constructor
    · rintro ⟨t, ⟨rfl, hvalue⟩, rfl⟩
      exact .text hplain hvalue
    · intro hkey
      cases hkey with
      | text _ hvalue => exact ⟨_, ⟨rfl, hvalue⟩, rfl⟩
      | reference hconcept _ =>
        rw [hconcept] at hplain
        cases hplain
  unfold readKey
  split
  · next hkind => exact htext (hkind ▸ rfl)
  · next hkind => exact htext (hkind ▸ rfl)
  · next inner hkind =>
    refine (h inner hkind).map.congr fun w slot => ?_
    constructor
    · rintro ⟨n, href, rfl⟩
      exact .reference hkind href
    · intro hkey
      cases hkey with
      | text hplain _ =>
        rw [hkind] at hplain
        cases hplain
      | reference hconcept href =>
        cases hkind.symm.trans hconcept
        exact ⟨_, href, rfl⟩
  · next hkind =>
    refine (accepts_fail _).congr fun w slot => ?_
    refine ⟨False.elim, fun hkey => ?_⟩
    cases hkey with
    | text hplain _ =>
      rw [hkind] at hplain
      cases hplain
    | reference hconcept _ => cases hkind.symm.trans hconcept

/-- Keys are read as the grammar has them, if references are. Induction on
the members. -/
theorem accepts_readKeys {reference : TypeId → Reading Node} {typeName : String}
    {members : List Member} (later : Bool)
    (h : ∀ member ∈ members, member.isKey = true → ∀ target, member.value = .concept target →
      Accepts (reference target) (Reference m target)) :
    Accepts (readKeys reference typeName later members) (Keys m later members) := by
  induction members generalizing later with
  | nil =>
    refine (accepts_pure _).congr fun w slots => ?_
    constructor
    · rintro ⟨rfl, rfl⟩
      exact .nil
    · intro hkeys
      cases hkeys
      exact ⟨rfl, rfl⟩
  | cons member rest ih =>
    have hrest := fun member' hmem => h member' (List.mem_cons_of_mem _ hmem)
    unfold readKeys
    split
    · next hkey =>
      have hvalue : Accepts (readKey reference typeName member) (KeyValue m member) :=
        accepts_readKey (h member List.mem_cons_self hkey)
      -- A dot unless the key is the first one, the key, and the keys after it.
      refine ((accepts_dotIf later _).bind fun _ => hvalue.bind fun _ =>
        (ih true hrest).map).congr fun w slots => ?_
      constructor
      · rintro ⟨dots, _, _, rfl, hdot, own, slot, words, rfl, hown, tail, htail, rfl⟩
        rw [← List.append_assoc]
        exact .key hkey hdot hown htail
      · intro hkeys
        cases hkeys with
        | other hnot _ =>
          rw [hkey] at hnot
          cases hnot
        | key _ hdot hown htail =>
          rw [List.append_assoc]
          exact ⟨_, (), _, rfl, hdot, _, _, _, rfl, hown, _, htail, rfl⟩
    · next hkey =>
      refine (ih later hrest).map.congr fun w slots => ?_
      constructor
      · rintro ⟨tail, htail, rfl⟩
        exact .other (Bool.eq_false_iff.mpr hkey) htail
      · intro hkeys
        cases hkeys with
        | other _ htail => exact ⟨_, htail, rfl⟩
        | key hisKey _ _ _ => exact absurd hisKey hkey

/-- A depth of as many types as are listed from a type on is enough. -/
theorem accepts_readReferenceWithin {order : List TypeId} (horder : KeysSorted m.types order)
    {depth : Nat} (hdepth : order.length ≤ depth) {type : TypeId} (hmem : type ∈ order) :
    Accepts (readReferenceWithin m depth type) (Reference m type) := by
  induction horder generalizing depth type with
  | nil => exact absurd hmem List.not_mem_nil
  | cons hkeys hsorted ih =>
    rename_i id rest
    rcases List.mem_cons.mp hmem with rfl | hmem
    · obtain ⟨inner, rfl⟩ : ∃ inner, depth = inner + 1 := ⟨depth - 1, by
        rw [List.length_cons] at hdepth
        omega⟩
      have hinner : rest.length ≤ inner := Nat.le_of_succ_le_succ hdepth
      -- What the keys lead to is listed after the type, so one step less is enough for it.
      have hread : Accepts (readKeys (readReferenceWithin m inner) (m.typeAt type).typeName false
          (m.typeAt type).members) (Keys m false (m.typeAt type).members) :=
        accepts_readKeys false fun member hmember hkey target hvalue =>
          ih hinner (hkeys target (Model.mem_keyReferences.mpr ⟨member, hmember, hkey, hvalue⟩))
      refine hread.map.congr fun w n => ?_
      constructor
      · rintro ⟨slots, hslots, rfl⟩
        exact .keys hslots
      · intro href
        cases href with
        | keys hslots => exact ⟨_, hslots, rfl⟩
    · rw [List.length_cons] at hdepth
      exact ih (Nat.le_of_succ_le hdepth) hmem

/-- A reference to a type of an accepted model is read as the grammar has it.
Keys lead in no circle, so the induction can go along them, and the bound on
the depth is never met. -/
theorem accepts_readReference (hm : m.Accepted) {type : TypeId} (htype : type < m.types.length) :
    Accepts (readReference m type) (Reference m type) := by
  obtain ⟨order, hsorted, hlength, hall⟩ := hm.exists_keysSorted
  exact accepts_readReferenceWithin hsorted hlength (hall type htype)

/-! ### Members -/

/-- A value is looked up in a list. Nothing is read for that. -/
theorem accepts_listed (values : List String) (text : String) (why : Mismatch) :
    Accepts
      (match values.find? (sameIgnoringAsciiCase · text) with
        | some value => pure (.text value, false)
        | none => fail why : Reading (Slot × Bool))
      (fun w v => w = [] ∧ ∃ value, values.find? (sameIgnoringAsciiCase · text) = some value
        ∧ v = (.text value, false)) := by
  split
  · next value hfind =>
    refine (accepts_pure _).congr fun w v => ?_
    simp only [hfind, Option.some.injEq, exists_eq_left']
  · next hfind =>
    refine (accepts_fail _).congr fun w v => ?_
    simp only [hfind, reduceCtorEq, false_and, exists_false, and_false]

/-- The value of a member is read as the grammar has it, or comes from the
block around. -/
theorem accepts_readValue (hm : m.Accepted) {c : ConceptType} {member : Member}
    (hmember : ∀ target, member.value = .concept target → target < m.types.length)
    (parent : Option Node) :
    Accepts (readValue m c member parent)
      (fun w v => MemberValue m member parent w v.1 v.2) := by
  unfold readValue
  split
  · next hkind =>
    refine accepts_textToken.map.congr fun w v => ?_
    constructor
    · rintro ⟨t, ⟨rfl, hvalue⟩, rfl⟩
      exact .text hkind hvalue
    · obtain ⟨slot, flag⟩ := v
      intro hval
      cases hval with
      | text _ hvalue => exact ⟨_, ⟨rfl, hvalue⟩, rfl⟩
      | _ => simp_all
  · next values hkind =>
    refine (accepts_textToken.bind fun t => accepts_listed values t.value _).congr
      fun w v => ?_
    constructor
    · rintro ⟨u, t, v', rfl, ⟨rfl, hvalue⟩, rfl, value, hfind, rfl⟩
      exact .choice hkind hvalue hfind
    · obtain ⟨slot, flag⟩ := v
      intro hval
      cases hval with
      | choice hchoice hvalue hfind =>
        cases hkind.symm.trans hchoice
        exact ⟨_, _, [], rfl, ⟨rfl, hvalue⟩, rfl, _, hfind, rfl⟩
      | _ => simp_all
  · next hkind =>
    split
    · next n =>
      refine (accepts_pure _).congr fun w v => ?_
      constructor
      · rintro ⟨rfl, rfl⟩
        exact .anyConcept hkind rfl
      · obtain ⟨slot, flag⟩ := v
        intro hval
        cases hval with
        | anyConcept _ hnested =>
          cases hnested
          exact ⟨rfl, rfl⟩
        | _ => simp_all
    · refine (accepts_fail _).congr fun w v => ?_
      refine ⟨False.elim, fun hval => ?_⟩
      obtain ⟨slot, flag⟩ := v
      cases hval <;> simp_all
  · next target hkind =>
    split
    -- The enclosing node fits, and nothing is read.
    · next n hfilter =>
      obtain ⟨hparent, hfits⟩ := Option.filter_eq_some_iff.mp hfilter
      refine (accepts_pure _).congr fun w v => ?_
      constructor
      · rintro ⟨rfl, rfl⟩
        exact .nested hkind hparent hfits
      · obtain ⟨slot, flag⟩ := v
        intro hval
        cases hval with
        | nested hconcept hnested _ =>
          cases hparent.symm.trans hnested
          exact ⟨rfl, rfl⟩
        | reference hconcept hnot _ =>
          cases hkind.symm.trans hconcept
          rw [hnot n hparent] at hfits
          cases hfits
        | _ => simp_all
    -- There is none that fits, so the node is referred to by its keys.
    · next hfilter =>
      refine (accepts_readReference hm (hmember target hkind)).map.congr fun w v => ?_
      constructor
      · rintro ⟨n, href, rfl⟩
        refine .reference hkind ?_ href
        intro n' hn'
        rw [hn', Option.filter_eq_none_iff] at hfilter
        exact Bool.eq_false_iff.mpr (hfilter n' rfl)
      · obtain ⟨slot, flag⟩ := v
        intro hval
        cases hval with
        | nested hconcept hnested hfits =>
          cases hkind.symm.trans hconcept
          rw [hnested, Option.filter_eq_none_iff] at hfilter
          exact absurd hfits (hfilter _ rfl)
        | reference hconcept _ href =>
          cases hkind.symm.trans hconcept
          exact ⟨_, href, rfl⟩
        | _ => simp_all

/-- A member with the dot it may need before it. -/
theorem accepts_readMember (hm : m.Accepted) {c : ConceptType} {member : Member}
    (hmember : ∀ target, member.value = .concept target → target < m.types.length)
    (parent : Option Node) (afterReference : Bool) :
    Accepts (readMember m c member parent afterReference) (fun w v => ∃ dots own, w = dots ++ own
      ∧ DotIf (afterReference && member.isKey && !member.value.isConcept) dots
      ∧ MemberValue m member parent own v.1 v.2) := by
  refine ((accepts_dotIf _ _).bind fun _ => accepts_readValue hm hmember parent).congr
    fun w v => ?_
  constructor
  · rintro ⟨dots, _, own, rfl, hdot, hown⟩
    exact ⟨dots, own, rfl, hdot, hown⟩
  · rintro ⟨dots, own, rfl, hdot, hown⟩
    exact ⟨dots, (), own, rfl, hdot, hown⟩

section

variable {c : ConceptType} {context : List Node} {afterReference : Bool} {index : Nat}
  {member : Member} {rest : List Member} {r r' : Reader}

/-- A member that is not parsable is left empty and shows no attempt. -/
theorem readMembers_unparsable (h : member.isParsable = false) :
    readMembers m c context.head? afterReference index (member :: rest) r =
      let others := readMembers m c context.head? afterReference (index + 1) rest r
      ⟨others.events, others.result.map (.empty :: ·), others.reader⟩ := by
  rw [readMembers, if_neg (Bool.eq_false_iff.mp h)]

/-- A member that cannot be read ends the reading of members, with one failed
attempt. -/
theorem readMembers_error {why : Mismatch} (hparsable : member.isParsable = true)
    (h : readMember m c member (nestedFor c context index) afterReference r = (.error why, r')) :
    readMembers m c context.head? afterReference index (member :: rest) r =
      ⟨[⟨r', c.id, index, .error why⟩], .error why, r'⟩ := by
  rw [nestedFor] at h
  rw [readMembers, if_pos hparsable]
  simp only [h]

/-- A member that is read shows an attempt, and the others are read after it. -/
theorem readMembers_ok {slot : Slot} {isReference : Bool} (hparsable : member.isParsable = true)
    (h : readMember m c member (nestedFor c context index) afterReference r =
      (.ok (slot, isReference), r')) :
    readMembers m c context.head? afterReference index (member :: rest) r =
      let others := readMembers m c context.head? isReference (index + 1) rest r'
      ⟨⟨r', c.id, index, .ok slot⟩ :: others.events, others.result.map (slot :: ·),
        others.reader⟩ := by
  rw [nestedFor] at h
  rw [readMembers, if_pos hparsable]
  simp only [h]

end

/-- A value computed from a result is there when the result is. -/
theorem map_eq_ok_iff {ε α β : Type} {x : Except ε α} {f : α → β} {b : β} :
    x.map f = .ok b ↔ ∃ a, x = .ok a ∧ f a = b := by
  cases x with
  | error e => exact ⟨fun h => (by cases h), fun ⟨a, ha, _⟩ => (by cases ha)⟩
  | ok a =>
    constructor
    · intro h
      exact ⟨a, rfl, Except.ok.inj h⟩
    · rintro ⟨a', ha, rfl⟩
      cases ha
      rfl

/-- Members are read just if the tokens to come start with what the grammar
has for them, and exactly this is read. Induction on the members. -/
theorem readMembers_eq_ok_iff (hm : m.Accepted) {c : ConceptType} {context : List Node}
    {afterReference : Bool} {index : Nat} {members : List Member}
    (hmembers : ∀ member ∈ members, ∀ target, member.value = .concept target →
      target < m.types.length) {r r' : Reader} {slots : List Slot} :
    (readMembers m c context.head? afterReference index members r).result = .ok slots
        ∧ (readMembers m c context.head? afterReference index members r).reader = r' ↔
      ∃ w, Members m c context afterReference index members w slots ∧ r.Reads w r' := by
  -- Whether a reference was read last changes on the way.
  induction members generalizing afterReference index r slots with
  | nil =>
    constructor
    · rintro ⟨hresult, rfl⟩
      cases hresult
      exact ⟨[], .nil, .nil r⟩
    · rintro ⟨w, hmem, hreads⟩
      cases hmem
      exact ⟨rfl, hreads.eq_of_nil⟩
  | cons member rest ih =>
    have hrest := fun member' hmem => hmembers member' (List.mem_cons_of_mem _ hmem)
    have hread := accepts_readMember (c := c) hm (hmembers member List.mem_cons_self)
      (nestedFor c context index) afterReference r
    cases hparsable : member.isParsable with
    | false =>
      rw [readMembers_unparsable hparsable]
      dsimp only
      rw [map_eq_ok_iff]
      constructor
      · rintro ⟨⟨others, hothers, rfl⟩, hreader⟩
        obtain ⟨w, hmem, hreads⟩ := (ih hrest).mp ⟨hothers, hreader⟩
        exact ⟨w, .unparsable hparsable hmem, hreads⟩
      · rintro ⟨w, hmem, hreads⟩
        cases hmem with
        | unparsable _ htail =>
          obtain ⟨hothers, hreader⟩ := (ih hrest).mpr ⟨w, htail, hreads⟩
          exact ⟨⟨_, hothers, rfl⟩, hreader⟩
        | parsable hisParsable _ _ _ =>
          rw [hparsable] at hisParsable
          cases hisParsable
    | true =>
      constructor
      · intro h
        cases hstep : readMember m c member (nestedFor c context index) afterReference r with
        | mk value middle =>
          cases value with
          | error why =>
            rw [readMembers_error hparsable hstep] at h
            cases h.1
          | ok v =>
            rw [readMembers_ok hparsable hstep] at h
            dsimp only at h
            rw [map_eq_ok_iff] at h
            obtain ⟨⟨others, hothers, rfl⟩, hreader⟩ := h
            obtain ⟨_, ⟨dots, own, rfl, hdot, hown⟩, hreads⟩ := (hread v middle).mp hstep
            obtain ⟨w, hmem, hreads'⟩ := (ih hrest).mp ⟨hothers, hreader⟩
            exact ⟨dots ++ own ++ w, .parsable hparsable hdot hown hmem,
              Reader.reads_append.mpr ⟨middle, hreads, hreads'⟩⟩
      · rintro ⟨w, hmem, hreads⟩
        cases hmem with
        | unparsable hunparsable _ =>
          rw [hparsable] at hunparsable
          cases hunparsable
        | parsable _ hdot hown htail =>
          obtain ⟨middle, hreads, hreads'⟩ := Reader.reads_append.mp hreads
          have hstep := (hread (_, _) middle).mpr ⟨_, ⟨_, _, rfl, hdot, hown⟩, hreads⟩
          rw [readMembers_ok hparsable hstep]
          dsimp only
          rw [map_eq_ok_iff]
          obtain ⟨hothers, hreader⟩ := (ih hrest).mpr ⟨_, htail, hreads'⟩
          exact ⟨⟨_, hothers, rfl⟩, hreader⟩

/-! ### Heads -/

/-- A statement is read as a type just if the tokens to come start with a
head of this type. -/
theorem interpret_eq_ok_iff (hm : m.Accepted) {context : List Node} {c : ConceptType}
    (hc : c ∈ m.types) {r r' : Reader} {n : Node} :
    (interpret m context c r).result = .ok n ∧ (interpret m context c r).reader = r' ↔
      ∃ w, HeadAs m context c w n ∧ r.Reads w r' := by
  have hmembers : ∀ member ∈ c.members, ∀ target, member.value = .concept target →
      target < m.types.length := fun member hmem target hvalue => hm.reference_lt hc hmem hvalue
  unfold interpret
  constructor
  · intro h
    split at h
    · cases h.1
    · next middle hkeyword =>
      dsimp only at h
      rw [map_eq_ok_iff] at h
      obtain ⟨⟨slots, hslots, rfl⟩, hreader⟩ := h
      -- What is read is the keyword and then the members.
      obtain ⟨t, ⟨hword, hsame⟩, hread⟩ := Reader.tryReadKeyword_eq_some_iff.mp hkeyword
      obtain ⟨words, hwords, hread'⟩ := (readMembers_eq_ok_iff hm hmembers).mp ⟨hslots, hreader⟩
      exact ⟨t :: words, .mk hword hsame hwords, Reader.reads_append.mpr ⟨middle, hread, hread'⟩⟩
  · rintro ⟨w, hhead, hreads⟩
    cases hhead with
    | mk hword hsame hwords =>
      obtain ⟨middle, hread, hread'⟩ := Reader.reads_append.mp (List.singleton_append ▸ hreads)
      rw [Reader.tryReadKeyword_eq_some_iff.mpr ⟨_, ⟨hword, hsame⟩, hread⟩]
      dsimp only
      rw [map_eq_ok_iff]
      obtain ⟨hslots, hreader⟩ := (readMembers_eq_ok_iff hm hmembers).mpr ⟨_, hwords, hread'⟩
      exact ⟨⟨_, hslots, rfl⟩, hreader⟩

/-- What an interpretation that succeeded has read, and where it ends. -/
def Interpretation.success? (i : Interpretation) : Option (Node × Reader) :=
  i.result.toOption.map (·, i.reader)

/-- An interpretation has succeeded with a concept and a reader just if it
comes to these. -/
theorem Interpretation.success?_eq_some_iff {i : Interpretation} {n : Node} {r : Reader} :
    i.success? = some (n, r) ↔ i.result = .ok n ∧ i.reader = r := by
  unfold success?
  cases i.result <;> simp [Except.toOption]

/-- What succeeds is listed in the order of the interpretations. -/
theorem successes_eq_filterMap (all : List Interpretation) :
    successes all = all.filterMap Interpretation.success? := by
  induction all with
  | nil => rfl
  | cons i rest ih =>
    unfold successes
    rw [List.filterMap_cons]
    split
    · next n hn => rw [Interpretation.success?_eq_some_iff.mpr ⟨hn, rfl⟩, ih]
    · next why hwhy =>
      have hnone : i.success? = none := by
        rw [Interpretation.success?, hwhy]
        rfl
      rw [hnone, ih]

/-- Only one of some readings is as long as the longest when all others
are shorter. -/
theorem only_longest_iff {read : List (Node × Reader)} {best : Node × Reader} :
    (∃ longest, (read.map (·.2.position)).max? = some longest
        ∧ read.filter (·.2.position == longest) = [best]) ↔
      ∃ before after, read = before ++ best :: after
        ∧ ∀ x ∈ before ++ after, x.2.position < best.2.position := by
  constructor
  · rintro ⟨longest, hlongest, honly⟩
    obtain ⟨_, hmax⟩ := List.max?_eq_some_iff.mp hlongest
    obtain ⟨before, after, rfl, hbefore, hbest, hafter⟩ := List.filter_eq_cons_iff.mp honly
    rw [List.filter_eq_nil_iff] at hafter
    have hbest : best.2.position = longest := eq_of_beq hbest
    refine ⟨before, after, rfl, fun x hx => ?_⟩
    have hle : x.2.position ≤ longest := by
      refine hmax _ (List.mem_map.mpr ⟨x, ?_, rfl⟩)
      rcases List.mem_append.mp hx with hx | hx
      · exact List.mem_append_left _ hx
      · exact List.mem_append_right _ (List.mem_cons_of_mem _ hx)
    -- It is not as long as the longest, or it would be among those kept.
    have hne : ¬ (x.2.position == longest) = true := by
      rcases List.mem_append.mp hx with hx | hx
      · exact hbefore x hx
      · exact hafter x hx
    rw [beq_iff_eq] at hne
    omega
  · rintro ⟨before, after, rfl, hshorter⟩
    refine ⟨best.2.position, List.max?_eq_some_iff.mpr ⟨?_, ?_⟩, ?_⟩
    · exact List.mem_map.mpr ⟨best, by simp, rfl⟩
    · intro place hplace
      obtain ⟨x, hx, rfl⟩ := List.mem_map.mp hplace
      simp only [List.mem_append, List.mem_cons] at hx
      rcases hx with hx | rfl | hx
      · exact Nat.le_of_lt (hshorter x (List.mem_append_left _ hx))
      · exact Nat.le_refl _
      · exact Nat.le_of_lt (hshorter x (List.mem_append_right _ hx))
    · have hne : ∀ x ∈ before ++ after, ¬ (x.2.position == best.2.position) = true := by
        intro x hx
        have := hshorter x hx
        rw [beq_iff_eq]
        omega
      rw [List.filter_eq_cons_iff]
      exact ⟨before, after, rfl, fun x hx => hne x (List.mem_append_left _ hx),
        beq_self_eq_true _,
        List.filter_eq_nil_iff.mpr fun x hx => hne x (List.mem_append_right _ hx)⟩

/-- One interpretation is chosen when it succeeds and all others that
succeed are shorter. -/
theorem choose_eq_ok_iff {word : String} {index : Nat} {all : List Interpretation} {n : Node}
    {r : Reader} :
    choose m word index all = .ok (n, r) ↔ ∃ before i after, all = before ++ i :: after
      ∧ i.result = .ok n ∧ i.reader = r
      ∧ ∀ j ∈ before ++ after, ∀ n', j.result = .ok n' → j.reader.position < r.position := by
  -- What is chosen is the only one of greatest length.
  have hchoose : choose m word index all = .ok (n, r) ↔ ∃ longest,
      ((successes all).map (·.2.position)).max? = some longest
        ∧ (successes all).filter (·.2.position == longest) = [(n, r)] := by
    unfold choose
    dsimp only
    split
    · next longest hlongest =>
      simp only [hlongest, Option.some.injEq, exists_eq_left']
      split
      · next best hbest => rw [hbest, Except.ok.injEq, List.singleton_inj]
      · next hmany => exact ⟨fun h => (by cases h), fun h => absurd h (hmany (n, r))⟩
    · next hnone =>
      simp only [hnone, reduceCtorEq, false_and, exists_false, iff_false]
      split <;> exact fun h => (by cases h)
  -- The rest is where in the list of all interpretations it stands.
  rw [hchoose, only_longest_iff, successes_eq_filterMap]
  constructor
  · rintro ⟨found, found', hfound, hshorter⟩
    obtain ⟨before, rest, rfl, rfl, hrest⟩ := List.filterMap_eq_append_iff.mp hfound
    obtain ⟨failed, i, after, rfl, hfailed, hi, rfl⟩ := List.filterMap_eq_cons_iff.mp hrest
    obtain ⟨hresult, hreader⟩ := Interpretation.success?_eq_some_iff.mp hi
    refine ⟨before ++ failed, i, after, by simp, hresult, hreader, fun j hj n' hn' => ?_⟩
    have hsuccess := Interpretation.success?_eq_some_iff.mpr ⟨hn', rfl⟩
    refine hshorter (n', j.reader) ?_
    rw [List.append_assoc, List.mem_append, List.mem_append] at hj
    rcases hj with hj | hj | hj
    · exact List.mem_append_left _ (List.mem_filterMap.mpr ⟨j, hj, hsuccess⟩)
    · rw [hfailed j hj] at hsuccess
      cases hsuccess
    · exact List.mem_append_right _ (List.mem_filterMap.mpr ⟨j, hj, hsuccess⟩)
  · rintro ⟨before, i, after, rfl, hresult, rfl, hshorter⟩
    refine ⟨before.filterMap Interpretation.success?, after.filterMap Interpretation.success?,
      ?_, ?_⟩
    · rw [List.filterMap_append, List.filterMap_cons_some
        (Interpretation.success?_eq_some_iff.mpr ⟨hresult, rfl⟩)]
    · rw [← List.filterMap_append]
      rintro ⟨n', r'⟩ hx
      obtain ⟨j, hj, hsuccess⟩ := List.mem_filterMap.mp hx
      obtain ⟨hn', rfl⟩ := Interpretation.success?_eq_some_iff.mp hsuccess
      exact hshorter j hj n' hn'

/-- Of interpretations as different types the one is chosen that is longer
than those as all other types. -/
theorem choose_map_eq_ok_iff {word : String} {index : Nat} {types : List ConceptType}
    (hnodup : types.Nodup) {f : ConceptType → Interpretation} {n : Node} {r : Reader} :
    choose m word index (types.map f) = .ok (n, r) ↔ ∃ c ∈ types, (f c).result = .ok n
      ∧ (f c).reader = r ∧ ∀ c' ∈ types, ∀ n', (f c').result = .ok n' →
        (f c').reader.position < r.position ∨ c' = c := by
  rw [choose_eq_ok_iff]
  constructor
  · rintro ⟨before, i, after, hall, hresult, hreader, hshorter⟩
    obtain ⟨types₁, rest, rfl, rfl, hrest⟩ := List.map_eq_append_iff.mp hall
    obtain ⟨c, types₂, rfl, rfl, rfl⟩ := List.map_eq_cons_iff.mp hrest
    refine ⟨c, by simp, hresult, hreader, fun c' hc' n' hn' => ?_⟩
    -- Another type stands before or after this one in the list, since no type comes twice.
    by_cases hsame : c' = c
    · exact .inr hsame
    · have hother : c' ∈ types₁ ++ types₂ := by
        simp only [List.mem_append, List.mem_cons, hsame, false_or] at hc' ⊢
        exact hc'
      exact .inl (hshorter _ (List.map_append ▸ List.mem_map_of_mem hother) n' hn')
  · rintro ⟨c, hc, hresult, hreader, hshorter⟩
    obtain ⟨types₁, types₂, rfl⟩ := List.append_of_mem hc
    refine ⟨types₁.map f, f c, types₂.map f, by simp, hresult, hreader, fun j hj n' hn' => ?_⟩
    rw [← List.map_append] at hj
    obtain ⟨c', hc', rfl⟩ := List.mem_map.mp hj
    have hmem : c' ∈ types₁ ++ c :: types₂ := by
      simp only [List.mem_append, List.mem_cons] at hc' ⊢
      tauto
    rcases hshorter c' hmem n' hn' with hlt | rfl
    · exact hlt
    · exact absurd hc' (List.nodup_middle.mp hnodup).notMem

/-- A statement is read just if the tokens to come start with a head in the
sense of the grammar, the one interpretation of these tokens that reads the
most. -/
theorem readStatement_eq_ok_iff (hm : m.Accepted) {context : List Node} {r r' : Reader}
    {n : Node} :
    (readStatement m context r).2 = .ok (n, r') ↔
      r.LeadsTo r' ∧ Head m context r.rest n r'.rest := by
  have hnodup : ∀ word, (m.byKeyword word).Nodup := fun word => hm.nodup.filter _
  have hread : ∀ {word : String} {c : ConceptType}, c ∈ m.byKeyword word → ∀ {n : Node}
      {r' : Reader}, (interpret m context c r).result = .ok n
        ∧ (interpret m context c r).reader = r' ↔ ∃ w, HeadAs m context c w n ∧ r.Reads w r' :=
    fun hc => interpret_eq_ok_iff hm (List.mem_of_mem_filter hc)
  unfold readStatement
  dsimp only
  constructor
  · intro h
    split at h
    · cases h
    · next hclosing =>
      split at h
      · cases h
      · next word hfirst =>
        obtain ⟨hkind, rfl⟩ := Token.word?_eq_some_iff.mp hfirst
        obtain ⟨c, hc, hresult, hreader, hshorter⟩ :=
          (choose_map_eq_ok_iff (hnodup r.current.value)).mp h
        obtain ⟨w, hhead, hreads⟩ := (hread hc).mp ⟨hresult, hreader⟩
        cases hhead with
        | mk hisWord hsame hwords =>
          have ht := Reader.current_of_reads hreads
          subst ht
          refine ⟨hreads.leadsTo, ?_⟩
          rw [hreads.rest]
          refine .longest hkind (Bool.eq_false_iff.mpr hclosing) hc (.mk hisWord hsame hwords) ?_
          intro c' hc' words' rest' n' happ hhead'
          -- Another head at the front of the tokens was read by its interpretation.
          have hreads' : r.Reads words' ⟨words'.reverse ++ r.before, rest'⟩ :=
            ⟨hreads.rest.trans happ.symm, rfl⟩
          obtain ⟨hresult', hreader'⟩ := (hread hc').mpr ⟨_, hhead', hreads'⟩
          rcases hshorter c' hc' n' hresult' with hlt | hsame
          · rw [hreader', hreads.position, hreads'.position] at hlt
            exact .inl (by omega)
          · exact .inr hsame
  · rintro ⟨⟨read, hrest, hbefore⟩, hhead⟩
    generalize hts : r.rest = tokens at hhead
    cases hhead with
    | longest hkind hclosing hc hhead hothers =>
      have hsame := List.append_cancel_right (hrest.symm.trans hts)
      subst hsame
      have hreads : r.Reads _ r' := ⟨hrest, hbefore⟩
      rw [Reader.current_of_reads hreads, if_neg (Bool.eq_false_iff.mp hclosing),
        Token.word?_eq_some_iff.mpr ⟨hkind, rfl⟩]
      obtain ⟨hresult, hreader⟩ := (hread hc).mpr ⟨_, hhead, hreads⟩
      refine (choose_map_eq_ok_iff (hnodup _)).mpr ⟨_, hc, hresult, hreader, ?_⟩
      intro c' hc' n' hn'
      -- Another interpretation that succeeds has read another head.
      obtain ⟨w', hhead', hreads'⟩ := (hread hc').mp ⟨hn', rfl⟩
      rcases hothers c' hc' w' _ n' (hreads'.rest.symm.trans hts) hhead' with hlt | hsame
      · rw [hreads.position, hreads'.position]
        exact .inl (by omega)
      · exact .inr hsame

end ConceptScript.Script
