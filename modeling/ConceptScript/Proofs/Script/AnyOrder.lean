import ConceptScript.Proofs.Script.Recognize

/-!
# `ConceptScript.Proofs.Script.AnyOrder`: the order of the types of a keyword

A statement is tried as one type of its keyword after the other. Here it
is shown that the order of these types does not matter. What is chosen is
said without it: `longest` are the interpretations that succeed and read
the most tokens, and `FurthestFailure` is the last place at which one
fails. `chosen_choose` says how these two decide.

A model lists its types in an order, and so does each keyword. What stays
the same when the types of a keyword are tried in another order is the
concept and the place where reading goes on, or the code of the fault and
its token (`choose_anyOrder`). The message of a fault can change: types
that fit equally well are named in their order, and of several attempts
that fail at the same place the first one is reported.
-/

set_option autoImplicit false

namespace ConceptScript.Script

variable {m : Model} {word : String} {index : Nat} {all all' : List Interpretation}

/-! ### What decides -/

/-- What the interpretations come to that succeed and read the most
tokens. -/
def longest (all : List Interpretation) : List (Node × Reader) :=
  (successes all).filter fun x => ∀ y ∈ successes all, y.2.position ≤ x.2.position

/-- The last place at which an interpretation fails. -/
structure FurthestFailure (all : List Interpretation) (place : Nat) : Prop where
  fails : ∃ i ∈ all, (∃ why, i.result = .error why) ∧ i.reader.position = place
  last : ∀ i ∈ all, ∀ why, i.result = .error why → i.reader.position ≤ place

/-- There is one place at which the furthest failures are. -/
theorem FurthestFailure.unique {place place' : Nat} (h : FurthestFailure all place)
    (h' : FurthestFailure all place') : place = place' := by
  obtain ⟨i, hi, ⟨why, hwhy⟩, rfl⟩ := h.fails
  obtain ⟨j, hj, ⟨why', hwhy'⟩, rfl⟩ := h'.fails
  exact Nat.le_antisymm (h'.last i hi why hwhy) (h.last j hj why' hwhy')

/-- In another order the same interpretations succeed. -/
theorem successes_perm (h : all.Perm all') : (successes all).Perm (successes all') := by
  rw [successes_eq_filterMap, successes_eq_filterMap]
  exact h.filterMap _

/-- In another order the same ones read the most. -/
theorem longest_perm (h : all.Perm all') : (longest all).Perm (longest all') := by
  have hsame : (successes all).filter (fun x => ∀ y ∈ successes all, y.2.position ≤ x.2.position)
      = (successes all).filter (fun x => ∀ y ∈ successes all', y.2.position ≤ x.2.position) := by
    refine List.filter_congr fun x _ => decide_eq_decide.mpr ?_
    exact forall_congr' fun y => imp_congr_left (successes_perm h).mem_iff
  rw [longest, longest, hsame]
  exact (successes_perm h).filter _

/-- The furthest place does not depend on the order. -/
theorem FurthestFailure.perm {place : Nat} (h : all.Perm all')
    (hplace : FurthestFailure all place) : FurthestFailure all' place := by
  obtain ⟨i, hi, hfails⟩ := hplace.fails
  exact ⟨⟨i, h.mem_iff.mp hi, hfails⟩, fun j hj => hplace.last j (h.mem_iff.mpr hj)⟩

/-- The longest interpretations are those of the greatest length. -/
theorem longest_eq {length : Nat}
    (h : ((successes all).map (·.2.position)).max? = some length) :
    longest all = (successes all).filter (·.2.position == length) := by
  obtain ⟨hmem, hmax⟩ := List.max?_eq_some_iff.mp h
  obtain ⟨z, hz, hlength⟩ := List.mem_map.mp hmem
  refine List.filter_congr fun x hx => ?_
  rw [Bool.eq_iff_iff, decide_eq_true_iff, beq_iff_eq]
  constructor
  · intro hlongest
    have hle := hmax _ (List.mem_map_of_mem hx)
    have hge := hlongest z hz
    omega
  · rintro heq y hy
    exact heq ▸ hmax _ (List.mem_map_of_mem hy)

/-- If nothing that succeeded has a place, every interpretation fails. -/
theorem longest_of_none (h : ((successes all).map (·.2.position)).max? = none) :
    longest all = [] ∧ ∀ i ∈ all, ∃ why, i.result = .error why := by
  have hnone : successes all = [] := List.map_eq_nil_iff.mp (List.max?_eq_none_iff.mp h)
  refine ⟨by rw [longest, hnone]; rfl, fun i hi => ?_⟩
  cases hresult : i.result with
  | error why => exact ⟨why, rfl⟩
  | ok n =>
    -- Such an interpretation would be one of those that succeed.
    have hmem : (n, i.reader) ∈ successes all := by
      rw [successes_eq_filterMap]
      exact List.mem_filterMap.mpr ⟨i, hi, Interpretation.success?_eq_some_iff.mpr ⟨hresult, rfl⟩⟩
    rw [hnone] at hmem
    exact absurd hmem List.not_mem_nil

/-- If there is no furthest failure, every interpretation succeeds. -/
theorem ok_of_furthest?_eq_none (h : furthest? all = none) :
    ∀ i ∈ all, ∃ n, i.result = .ok n := by
  induction all with
  | nil => exact fun _ hi => absurd hi List.not_mem_nil
  | cons i rest ih =>
    rw [furthest?] at h
    split at h
    · next n hn => exact List.forall_mem_cons.mpr ⟨⟨n, hn⟩, ih h⟩
    · cases h
    · split at h <;> cases h

/-- The failure that is chosen to be told is at the furthest place. -/
theorem furthestFailure_of_furthest? {why : Mismatch} {place : Nat}
    (h : furthest? all = some (why, place)) : FurthestFailure all place := by
  induction all generalizing why place with
  | nil => cases h
  | cons i rest ih =>
    rw [furthest?] at h
    split at h
    · next n hn =>
      obtain ⟨⟨j, hj, hfails⟩, hlast⟩ := ih h
      refine ⟨⟨j, List.mem_cons_of_mem i hj, hfails⟩, List.forall_mem_cons.mpr ⟨?_, hlast⟩⟩
      intro why' hwhy'
      cases hn.symm.trans hwhy'
    · next why' hwhy' hnone =>
      cases h
      refine ⟨⟨i, List.mem_cons_self, ⟨_, hwhy'⟩, rfl⟩, List.forall_mem_cons.mpr
        ⟨fun _ _ => Nat.le_refl _, fun j hj _ hj' => ?_⟩⟩
      obtain ⟨n, hn⟩ := ok_of_furthest?_eq_none hnone j hj
      cases hn.symm.trans hj'
    · next why' other hwhy' hother =>
      obtain ⟨⟨j, hj, hfails⟩, hlast⟩ := ih hother
      split at h
      · next hlt =>
        cases h
        exact ⟨⟨j, List.mem_cons_of_mem i hj, hfails⟩,
          List.forall_mem_cons.mpr ⟨fun _ _ => Nat.le_of_lt hlt, hlast⟩⟩
      · next hle =>
        -- The first one is as far as all others, so it is the one reported.
        cases h
        exact ⟨⟨i, List.mem_cons_self, ⟨_, hwhy'⟩, rfl⟩, List.forall_mem_cons.mpr
          ⟨fun _ _ => Nat.le_refl _,
            fun j hj why hj' => Nat.le_trans (hlast j hj why hj') (Nat.not_lt.mp hle)⟩⟩

/-! ### What is chosen -/

/-- How a choice comes out, told by what decides and not by the order of
the interpretations. -/
inductive Chosen (word : String) (index : Nat) (all : List Interpretation) :
    Except Failure (Node × Reader) → Prop
  | read {n : Node} {r : Reader} (only : longest all = [(n, r)]) :
      Chosen word index all (.ok (n, r))
  | tied {typeNames : List String} (several : 2 ≤ (longest all).length) :
      Chosen word index all (.error ⟨index, .ambiguous word typeNames⟩)
  | failed {why : Mismatch} {place : Nat} (none : longest all = [])
      (furthest : FurthestFailure all place) :
      Chosen word index all (.error ⟨place, .noInterpretation word why⟩)
  | unknown (empty : all = []) : Chosen word index all (.error ⟨index, .unknownKeyword word⟩)

/-- A choice comes out as what reads the most decides: one of them, several,
none, or no interpretation at all. -/
theorem chosen_choose (m : Model) (word : String) (index : Nat) (all : List Interpretation) :
    Chosen word index all (choose m word index all) := by
  unfold choose
  dsimp only
  cases hmax : ((successes all).map (·.2.position)).max? with
  | some length =>
    dsimp only
    rw [← longest_eq hmax]
    cases hlongest : longest all with
    | nil =>
      -- One of those that succeed is of the greatest length.
      obtain ⟨x, hx, hlength⟩ := List.mem_map.mp (List.max?_eq_some_iff.mp hmax).1
      have hmem : x ∈ longest all := by
        rw [longest_eq hmax]
        exact List.mem_filter.mpr ⟨hx, beq_iff_eq.mpr hlength⟩
      rw [hlongest] at hmem
      exact absurd hmem List.not_mem_nil
    | cons best others =>
      cases others with
      | nil => exact .read hlongest
      | cons second others =>
        refine .tied ?_
        rw [hlongest]
        exact Nat.le_add_left 2 others.length
  | none =>
    obtain ⟨hnone, hfail⟩ := longest_of_none hmax
    dsimp only
    cases hfurthest : furthest? all with
    | some found => exact .failed hnone (furthestFailure_of_furthest? hfurthest)
    | none =>
      refine .unknown (List.eq_nil_iff_forall_not_mem.mpr fun i hi => ?_)
      obtain ⟨n, hn⟩ := ok_of_furthest?_eq_none hfurthest i hi
      obtain ⟨why, hwhy⟩ := hfail i hi
      cases hn.symm.trans hwhy

/-- A fault without its message: its code and the index of its token. -/
def Failure.mark (f : Failure) : ErrorCode × Nat := (f.fault.code, f.index)

namespace Chosen

variable {x : Except Failure (Node × Reader)}

/-- How a choice may come out does not depend on the order. -/
theorem perm (hperm : all.Perm all') (h : Chosen word index all x) : Chosen word index all' x := by
  have hlongest := longest_perm hperm
  cases h with
  | read only => exact .read (List.singleton_perm.mp (only ▸ hlongest)).symm
  | tied several => exact .tied (hlongest.length_eq ▸ several)
  | failed none furthest =>
    exact .failed (List.nil_perm.mp (none ▸ hlongest)) (furthest.perm hperm)
  | unknown empty => exact .unknown (List.nil_perm.mp (empty ▸ hperm))

/-- A single interpretation that reads the most is chosen. -/
theorem eq_ok {best : Node × Reader} (h : Chosen word index all x)
    (only : longest all = [best]) : x = .ok best := by
  cases h with
  | read only' => rw [List.singleton_inj.mp (only'.symm.trans only)]
  | tied several =>
    rw [only] at several
    exact absurd several (Nat.not_succ_le_self 1)
  | failed none _ => cases none.symm.trans only
  | unknown empty =>
    subst empty
    cases only

/-- Several that read the most make the statement ambiguous. -/
theorem eq_ambiguous (h : Chosen word index all x) (several : 2 ≤ (longest all).length) :
    ∃ typeNames, x = .error ⟨index, .ambiguous word typeNames⟩ := by
  cases h with
  | read only =>
    rw [only] at several
    exact absurd several (Nat.not_succ_le_self 1)
  | tied _ => exact ⟨_, rfl⟩
  | failed none _ =>
    rw [none] at several
    exact absurd several (by decide)
  | unknown empty =>
    subst empty
    exact absurd several (by decide)

/-- If none succeeds, the fault is at the furthest place that one of them
came to. -/
theorem eq_noInterpretation (h : Chosen word index all x) (none : longest all = [])
    (hsome : all ≠ []) : ∃ place why, FurthestFailure all place
      ∧ x = .error ⟨place, .noInterpretation word why⟩ := by
  cases h with
  | read only => cases none.symm.trans only
  | tied several =>
    rw [none] at several
    exact absurd several (by decide)
  | failed _ furthest => exact ⟨_, _, furthest, rfl⟩
  | unknown empty => exact absurd empty hsome

/-- Without an interpretation the keyword is unknown. -/
theorem eq_unknown (h : Chosen word index all x) (empty : all = []) :
    x = .error ⟨index, .unknownKeyword word⟩ := by
  subst empty
  cases h with
  | read only => cases only
  | tied several => exact absurd several (Nat.not_succ_le_zero 1)
  | failed _ furthest =>
    obtain ⟨i, hi, _⟩ := furthest.fails
    exact absurd hi List.not_mem_nil
  | unknown _ => rfl

/-- What decides leaves only the message of a fault open. -/
theorem mark_eq {x' : Except Failure (Node × Reader)} (h : Chosen word index all x)
    (h' : Chosen word index all x') :
    x'.mapError Failure.mark = x.mapError Failure.mark := by
  cases h with
  | read only => rw [h'.eq_ok only]
  | tied several =>
    obtain ⟨_, rfl⟩ := h'.eq_ambiguous several
    rfl
  | failed none furthest =>
    obtain ⟨i, hi, _⟩ := furthest.fails
    obtain ⟨place', _, furthest', rfl⟩ := h'.eq_noInterpretation none (List.ne_nil_of_mem hi)
    rw [furthest.unique furthest']
    rfl
  | unknown empty => rw [h'.eq_unknown empty]

end Chosen

/-- A statement that is tried as the types of its keyword comes out the same
in whatever order they are tried. If one interpretation reads more tokens
than all others that succeed, its concept is the one read, and reading goes
on behind it. If several read the most tokens, the fault is at the keyword.
If none succeeds, it is at the last place at which one fails. -/
theorem choose_anyOrder (m : Model) (context : List Node) (word : String) (r : Reader)
    {types types' : List ConceptType} (h : types.Perm types') :
    let interpreted (types : List ConceptType) := types.map fun c => interpret m context c r
    let outcome (types : List ConceptType) := choose m word r.position (interpreted types)
    (outcome types').mapError Failure.mark = (outcome types).mapError Failure.mark
      ∧ (∀ n next, longest (interpreted types) = [(n, next)] → outcome types' = .ok (n, next))
      ∧ (2 ≤ (longest (interpreted types)).length →
        (outcome types').mapError Failure.mark = .error (.e0303, r.position))
      ∧ (types ≠ [] → longest (interpreted types) = [] →
        ∃ place, FurthestFailure (interpreted types) place
          ∧ (outcome types').mapError Failure.mark = .error (.e0302, place)) := by
  intro interpreted outcome
  have hchosen : Chosen word r.position (interpreted types) (outcome types) := chosen_choose m _ _ _
  -- Both outcomes are chosen from the same interpretations in the sense of `Chosen`.
  have hchosen' : Chosen word r.position (interpreted types) (outcome types') :=
    (chosen_choose m word r.position (interpreted types')).perm (h.map _).symm
  refine ⟨hchosen.mark_eq hchosen', fun n next only => hchosen'.eq_ok only, fun several => ?_,
    fun hsome none => ?_⟩
  · obtain ⟨_, hx⟩ := hchosen'.eq_ambiguous several
    rw [hx]
    rfl
  · obtain ⟨place, _, furthest, hx⟩ :=
      hchosen'.eq_noInterpretation none fun hnil => hsome (List.map_eq_nil_iff.mp hnil)
    rw [hx]
    exact ⟨place, furthest, rfl⟩

/-- A link from one place, and a link from one place to another one. -/
def linkTypes : List ConceptType :=
  [⟨0, "LinkInfo", some "Link", [], [⟨"From", .text, true, true, false⟩], none⟩,
    ⟨1, "LongLinkInfo", some "Link", [],
      [⟨"From", .text, true, true, false⟩, ⟨"To", .text, false, true, false⟩], none⟩]

/-- The tokens of `link a b;`. -/
def linkTokens : List Token :=
  [⟨.word, "link", 0, 4⟩, ⟨.word, "a", 5, 6⟩, ⟨.word, "b", 7, 8⟩, ⟨.special, ";", 8, 9⟩, .endAt 9]

/-- The longer link is read, also when it is tried first. -/
theorem choose_anyOrder_of_links :
    linkTypes.Perm linkTypes.reverse
      ∧ choose ⟨"1", linkTypes⟩ "link" 0
          (linkTypes.reverse.map fun c => interpret ⟨"1", linkTypes⟩ [] c (.ofTokens linkTokens))
        = .ok (.mk 1 [.text "a", .text "b"],
          ⟨(linkTokens.take 3).reverse, linkTokens.drop 3⟩) := by
  have hperm : linkTypes.Perm linkTypes.reverse := (List.reverse_perm linkTypes).symm
  exact ⟨hperm, (choose_anyOrder ⟨"1", linkTypes⟩ [] "link" (.ofTokens linkTokens)
    hperm).2.1 _ _ rfl⟩

end ConceptScript.Script
