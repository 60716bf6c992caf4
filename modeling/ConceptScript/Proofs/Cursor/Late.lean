import ConceptScript.Proofs.Cursor.Tracker
import ConceptScript.Proofs.Script.Marks
import ConceptScript.Proofs.Script.ParseStep
import ConceptScript.Proofs.Script.StreamCut

/-!
# `ConceptScript.Proofs.Cursor.Late`: reading beyond the cursor

A reader is `Late` when all its tokens are beyond the cursor. What is read
from there on changes nothing that a tracker keeps, except the next
keyword (`follow_parseFrom_late`). A brace stops too late to matter. The
start of a statement becomes the next keyword if there is none, and from
then on attempts at members are not kept. Only a start right at the cursor
is not after it; that is no word, so nothing is read from it.
-/

set_option autoImplicit false

namespace ConceptScript.Cursor

open ConceptScript.Script

/-- A reader with nothing ahead that the cursor has reached. -/
def Late (target : Nat) (r : Reader) : Prop := ∀ t ∈ r.rest, t.Beyond target

namespace Late

variable {target : Nat} {r r' : Reader}

/-- A reader that moves on from a late one is late. -/
theorem of_leadsTo (h : Late target r) (hleads : r.LeadsTo r') : Late target r' := by
  obtain ⟨read, hrest, _⟩ := hleads
  exact fun t ht => h t (hrest ▸ List.mem_append_right read ht)

/-- A reader that has read tokens from a late one on is late. -/
theorem of_reads {w : List Token} (h : Late target r) (hreads : r.Reads w r') : Late target r' :=
  h.of_leadsTo hreads.leadsTo

/-- The cursor has not reached the token at which a late reader is. -/
theorem current (h : Late target r) (hend : r.atEnd = false) : r.current.Beyond target :=
  h r.current (Reader.rest_eq_cons hend ▸ List.mem_cons_self)

end Late

namespace Tracker

/-- A tracker without its next keyword. -/
def withoutNext (k : Tracker) : Tracker := { k with nextKeyword := none }

/-- Trackers that are the same but for the next keyword agree in all else
that is told of a cursor. -/
theorem eq_of_withoutNext_eq {k k' : Tracker}
    (h : k.withoutNext = k'.withoutNext) :
    k.keyword = k'.keyword ∧ k.context = k'.context ∧ k.lastRead = k'.lastRead
      ∧ k.valid = k'.valid := by
  obtain ⟨_, _, _, _, _, _, _⟩ := k
  obtain ⟨_, _, _, _, _, _, _⟩ := k'
  cases h
  exact ⟨rfl, rfl, rfl, rfl⟩

variable {k : Tracker} {m : Model} {context : List Node} {r r' : Reader}

/-- Once a later statement has started, members are not kept. -/
theorem onMember_of_next (h : k.nextKeyword.isSome = true) (e : MemberEvent) :
    k.onMember e = k := by
  obtain ⟨s, hs⟩ := Option.isSome_iff_exists.mp h
  rw [onMember, hs]

/-- Once the next keyword is known, attempts change nothing. -/
theorem follow_members_of_next (h : k.nextKeyword.isSome = true) (events : List MemberEvent) :
    k.follow (events.map .member) = k := by
  induction events with
  | nil => rfl
  | cons e events ih =>
    show (k.onMember e).follow (events.map .member) = k
    rw [onMember_of_next h, ih]

/-- A brace that the cursor has not reached changes nothing. -/
theorem onBlock_of_beyond {brace : Token} (h : brace.Beyond k.target) (hlast : r.last? = some brace)
    (context : List Node) : k.onBlock r context = k := by
  rw [onBlock_eq k r context hlast, if_neg (Nat.not_le.mpr h.stop)]

/-- A token beyond the cursor becomes the next keyword, or changes nothing
and is no word. -/
theorem onStatement_of_beyond (h : r.current.Beyond k.target) :
    (k.onStatement r).withoutNext = k.withoutNext
      ∧ ((k.onStatement r).nextKeyword.isSome = true ∨ r.current.kind ≠ .word) := by
  rw [onStatement_eq]
  by_cases hlate : k.target < r.current.start
  · rw [if_pos hlate]
    refine ⟨rfl, .inl ?_⟩
    show (k.nextKeyword.or (some r.current)).isSome = true
    rw [Option.isSome_or, Option.isSome_some, Bool.or_true]
  · -- The token starts right at the cursor.
    have hword : r.current.kind ≠ .word := fun hword => hlate (h.word hword)
    rw [if_neg hlate, if_neg hword, if_neg (Nat.not_lt.mpr (Nat.le_of_lt h.stop))]
    exact ⟨rfl, .inr hword⟩

/-- Closing blocks after the cursor changes nothing. -/
theorem follow_closeBlocks_late (h : Late k.target r) (context : List Node) :
    k.follow (closeBlocks context r).1 = k := by
  induction context generalizing r with
  | nil =>
    rw [closeBlocks]
    split <;> rfl
  | cons n outer ih =>
    rw [closeBlocks]
    split
    · rfl
    · next r' hread =>
      obtain ⟨t, _, hreads⟩ := Reader.tryRead_eq_some_iff.mp hread
      have hbeyond : t.Beyond k.target := h t (hreads.rest ▸ List.mem_cons_self)
      show (k.onBlock r' outer).follow (closeBlocks outer r').1 = k
      rw [onBlock_of_beyond hbeyond (last?_of_reads hreads), ih (h.of_reads hreads)]

/-- The end of a statement after the cursor changes nothing. -/
theorem follow_endStatement_late (h : Late k.target r) (n : Node) (context : List Node) :
    k.follow (endStatement m n context r).1 = k := by
  unfold endStatement
  split
  · next r' hread =>
    obtain ⟨t, _, hreads⟩ := Reader.tryRead_eq_some_iff.mp hread
    have hbeyond : t.Beyond k.target := h t (hreads.rest ▸ List.mem_cons_self)
    show (k.onBlock r' (n :: context)).follow (closeBlocks (n :: context) r').1 = k
    rw [onBlock_of_beyond hbeyond (last?_of_reads hreads),
      follow_closeBlocks_late (h.of_reads hreads)]
  · split
    · next r' hread =>
      obtain ⟨t, _, hreads⟩ := Reader.tryRead_eq_some_iff.mp hread
      exact follow_closeBlocks_late (h.of_reads hreads) context
    · rfl

/-- A head is looked for: what starts it may become the next keyword. -/
theorem follow_readStatement_late (m : Model) (context : List Node) (h : Late k.target r)
    (hend : r.atEnd = false) :
    (k.follow (readStatement m context r).1).withoutNext = k.withoutNext := by
  obtain ⟨hstart, hnext⟩ := onStatement_of_beyond (h.current hend)
  unfold readStatement
  dsimp only
  split
  · exact hstart
  · split
    · exact hstart
    · next word hword =>
      obtain ⟨hkind, _⟩ := Token.word?_eq_some_iff.mp hword
      -- A word starts after the cursor, so there is a next keyword by now.
      show ((k.onStatement r).follow (List.map .member _)).withoutNext = _
      rw [follow_members_of_next (hnext.resolve_right (absurd hkind)), hstart]

/-- A statement was read, with or without its end. -/
theorem follow_statement_late (h : Late k.target r) (hend : r.atEnd = false) {n : Node}
    {events : List Event} {afterHead : Reader}
    (hread : readStatement m context r = (events, .ok (n, afterHead))) :
    Late k.target afterHead
      ∧ (k.follow (events ++ (endStatement m n context afterHead).1)).withoutNext
        = k.withoutNext := by
  obtain ⟨_, hreads⟩ := readStatement_reads (congrArg Prod.snd hread)
  have hlate : Late k.target afterHead := h.of_reads hreads
  refine ⟨hlate, ?_⟩
  have hstatement := follow_readStatement_late m context h hend
  rw [hread] at hstatement
  rw [follow_append, follow_endStatement_late ((k.follow_target events).symm ▸ hlate)]
  exact hstatement

/-- What is parsed after the cursor can change no more than the next keyword.
The first statement there sets it, and then attempts change nothing. -/
theorem follow_parseFrom_late (m : Model) (context : List Node) (h : Late k.target r) :
    (k.follow (parseFrom m context r).events).withoutNext = k.withoutNext := by
  -- A reader that is late stays late from statement to statement.
  fun_induction parseFrom m context r generalizing k with
  | case1 => rfl
  | case2 => rfl
  | case3 context r hend events failure hread =>
    have hstatement := follow_readStatement_late m context h (Bool.eq_false_iff.mpr hend)
    rw [hread] at hstatement
    exact hstatement
  | case4 context r hend events n afterHead hread closing failure hending =>
    obtain ⟨_, hstatement⟩ := follow_statement_late h (Bool.eq_false_iff.mpr hend) hread
    rw [hending] at hstatement
    exact hstatement
  | case5 =>
    rename_i context r hend events n afterHead hread closing context' next hending _ ih
    obtain ⟨hlate, hstatement⟩ := follow_statement_late h (Bool.eq_false_iff.mpr hend) hread
    have hlate' := hlate.of_leadsTo (leadsTo_of_endStatement (congrArg Prod.snd hending))
    rw [hending] at hstatement
    rw [follow_append, ih ((k.follow_target (events ++ closing)).symm ▸ hlate')]
    exact hstatement

/-- Closing blocks after the cursor, and what is parsed then, can change no
more than the next keyword. -/
theorem follow_closing_late (m : Model) (context : List Node) (h : Late k.target r) :
    (k.follow ((closeBlocks context r).1 ++ afterEnding m (closeBlocks context r).2)).withoutNext
      = k.withoutNext := by
  rw [follow_append, follow_closeBlocks_late h]
  cases hclose : (closeBlocks context r).2 with
  | error failure => rfl
  | ok next => exact follow_parseFrom_late m _ (h.of_leadsTo (leadsTo_of_closeBlocks hclose))

/-- What comes after the head of a statement that ends after the cursor can
change no more than the next keyword. -/
theorem follow_afterReading_late (m : Model) (context : List Node) (n : Node)
    (h : Late k.target r) :
    (k.follow (afterReading m context (.ok (n, r)))).withoutNext = k.withoutNext := by
  rw [afterReading, follow_append, follow_endStatement_late h]
  cases hend : (endStatement m n context r).2 with
  | error failure => rfl
  | ok next => exact follow_parseFrom_late m _ (h.of_leadsTo (leadsTo_of_endStatement hend))

end Tracker

end ConceptScript.Cursor
