import ConceptScript.Proofs.Cursor.Tracker
import ConceptScript.Proofs.Script.Parting

/-!
# `ConceptScript.Proofs.Cursor.Attempts`: attempts at members at a cut

Members are read at parallel readers, and a tracker follows what is tried
(`Watched`). As long as both readers do the same, the tracker keeps the
same. Where they part, all common tokens were read, and those hold every
token before the cursor. So whatever is tried past that place only makes
the type a possible one (`Tracker.withValid`), and so does the failure at the
end of the shorter stream.
-/

set_option autoImplicit false

namespace ConceptScript.Cursor.Tracker

open ConceptScript.Script
open ConceptScript.Model (TypeId)

variable {k : Tracker} {e e' : MemberEvent} {type : TypeId} {last : Token}
  {post w : List Token} {r r' : Reader}

/-- A type becomes a possible one, unless a later statement has started or
no token is before the cursor. -/
def withValid (k : Tracker) (type : TypeId) : Tracker :=
  match k.nextKeyword, k.lastBefore with
  | none, some _ => { k with valid := addOnce type k.valid }
  | _, _ => k

/-- A type is added once only. -/
theorem addOnce_addOnce (type : TypeId) (types : List TypeId) :
    addOnce type (addOnce type types) = addOnce type types := by
  have hmem : (addOnce type types).contains type = true := by
    unfold addOnce
    split
    · assumption
    · simp
  exact if_pos hmem

/-- A type that is possible does not become so again. -/
theorem withValid_withValid (k : Tracker) (type : TypeId) :
    (k.withValid type).withValid type = k.withValid type := by
  obtain ⟨target, lastBefore, keyword, next, context, lastRead, valid⟩ := k
  cases next with
  | some s => rfl
  | none =>
    cases lastBefore with
    | none => rfl
    | some i => exact congrArg _ (addOnce_addOnce type valid)

/-- That a type is possible does not change which token is before the cursor. -/
theorem withValid_lastBefore (k : Tracker) (type : TypeId) :
    (k.withValid type).lastBefore = k.lastBefore := by
  unfold withValid
  split <;> rfl

/-- Attempts that are alike do the same to a tracker. -/
theorem onMember_alike (h : e.Alike e') : k.onMember e' = k.onMember e := by
  rw [onMember, onMember, h.type, h.index, h.value, h.before]

/-- Attempts that are alike one by one do the same to a tracker. -/
theorem follow_alike {events events' : List MemberEvent}
    (h : List.Forall₂ MemberEvent.Alike events events') (k : Tracker) :
    k.follow (events'.map .member) = k.follow (events.map .member) := by
  induction h generalizing k with
  | nil => rfl
  | @cons e e' events events' halike _ ih =>
    show (k.onMember e').follow (events'.map .member) = (k.onMember e).follow (events.map .member)
    rw [onMember_alike halike, ih]

/-- An attempt that has read every token before the cursor, and more if it
went well. -/
theorem onMember_eq_withValid {bound : Nat} (hbound : ∀ i, k.lastBefore = some i → i < bound)
    (hread : bound ≤ e.reader.before.length)
    (hok : ∀ slot, e.value = .ok slot → bound < e.reader.before.length) :
    k.onMember e = k.withValid e.type := by
  unfold onMember withValid
  cases hnext : k.nextKeyword with
  | some s => rfl
  | none =>
    cases hlast : k.lastBefore with
    | none => rfl
    | some i =>
      have hi := hbound i hlast
      cases hbefore : e.reader.before with
      | nil =>
        rw [hbefore] at hread
        exact absurd hread (Nat.not_le.mpr (Nat.lt_of_le_of_lt (Nat.zero_le i) hi))
      | cons token earlier =>
        rw [hbefore, List.length_cons] at hread hok
        have hle : i ≤ earlier.length := by omega
        cases hvalue : e.value with
        | error why =>
          dsimp only
          rw [if_pos hle, hlast, hnext]
        | ok slot =>
          -- The token read last is not before the cursor, and is not kept.
          have hlt := hok slot hvalue
          dsimp only
          rw [if_neg (by omega : ¬ earlier.length ≤ i), if_pos hle, hlast, hnext]

/-- Attempts past a place, of which there is at least one, only make the
type a possible one. -/
theorem follow_past {bound : Nat} (hbound : ∀ i, k.lastBefore = some i → i < bound)
    (hw : bound = w.length + r'.before.length) {others : List MemberEvent} (hsome : others ≠ [])
    (hothers : ∀ e ∈ others, e.Past type r' w) :
    k.follow (others.map .member) = k.withValid type := by
  have hone : ∀ {k : Tracker} {e : MemberEvent}, (∀ i, k.lastBefore = some i → i < bound) →
      e.Past type r' w → k.onMember e = k.withValid type := by
    intro k e hbound he
    obtain ⟨htype, past, hreads, hok⟩ := he
    have hlength : e.reader.before.length = (w ++ past).length + r'.before.length :=
      hreads.position
    rw [List.length_append] at hlength
    rw [← htype]
    refine onMember_eq_withValid hbound (by omega) fun slot hslot => ?_
    have hpos := List.length_pos_iff.mpr (hok slot hslot)
    omega
  cases others with
  | nil => exact absurd rfl hsome
  | cons e others =>
    obtain ⟨he, hrest⟩ := List.forall_mem_cons.mp hothers
    show (k.onMember e).follow (others.map .member) = _
    rw [hone hbound he]
    -- Everything else finds the type possible again.
    clear he hsome hothers
    induction others with
    | nil => rfl
    | cons e others ih =>
      obtain ⟨he, hrest⟩ := List.forall_mem_cons.mp hrest
      show ((k.withValid type).onMember e).follow (others.map .member) = _
      rw [hone ((withValid_lastBefore k type).symm ▸ hbound) he, withValid_withValid]
      exact ih hrest

/-- A tracker keeps the same of members that are read at parallel readers,
if all tokens before the cursor are common to both. -/
theorem follow_watched {α : Type} {events events' : List MemberEvent}
    {x x' : Except Mismatch α × Reader} (hparallel : Parallel last post w r r')
    (hbound : ∀ i, k.lastBefore = some i → i < w.length + r.before.length)
    (h : Watched last post type w r r' events events' x x') :
    k.follow (events'.map .member) = k.follow (events.map .member) := by
  cases h with
  | same halike _ _ => exact follow_alike halike k
  | @parted shared shared' others failed why value s s' past halike hfailed hsome hothers _ _ _ _ =>
    have hshared := follow_alike halike k
    have hkeep : (k.follow (shared.map .member)).lastBefore = k.lastBefore := k.follow_lastBefore _
    have hbound' := hkeep.symm ▸ hbound
    rw [List.map_append, List.map_append, follow_append, follow_append, hshared]
    have hothers : (k.follow (shared.map .member)).follow (others.map .member)
        = (k.follow (shared.map .member)).withValid type :=
      follow_past hbound' (by rw [hparallel.before]) hsome hothers
    have hfailure : (k.follow (shared.map .member)).onMember failed
        = (k.follow (shared.map .member)).withValid failed.type := by
      obtain ⟨why', hvalue⟩ := hfailed.value
      have hlength : failed.reader.before.length = w.length + r.before.length :=
        hfailed.reads.position
      refine onMember_eq_withValid hbound' (Nat.le_of_eq hlength.symm) fun slot hslot => ?_
      cases hvalue.symm.trans hslot
    -- Both end up with the type as a possible one, and with nothing else.
    rw [hothers]
    show _ = (k.follow (shared.map .member)).onMember failed
    rw [hfailure, hfailed.type]

end ConceptScript.Cursor.Tracker
