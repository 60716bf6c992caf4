import ConceptScript.Proofs.Cursor.Attempts
import ConceptScript.Proofs.Cursor.Late
import ConceptScript.Proofs.Script.PartingHead

/-!
# `ConceptScript.Proofs.Cursor.CutStream`: a tracker on a stream cut short

Two streams have their tokens in common up to a place beyond the cursor.
Then the first one ends and the second one goes on. A tracker at parallel
readers of them ends up with the same, apart from the next keyword
(`agreeBelow`).

While both readers read the same there is nothing to show. The first stream
can end inside a statement. Then the two part at a place beyond the cursor,
and neither leaves anything behind that matters: what is left of the second
stream is `Late`, and in the first one no statement ends any more.
-/

set_option autoImplicit false

namespace ConceptScript.Script

open ConceptScript.Text

/-- What a reading can read ends no statement. -/
theorem Token.Readable.is_eq_false {t : Token} (h : t.Readable) (hplain : t.Plain) :
    t.is "\x7b" = false ∧ t.is ";" = false := by
  rcases h with hvalue | hdot
  · have hword : ∀ {text : String} {c : Char}, text.toList = [c] → isWordChar c = false →
        t.is text = false := by
      intro text c htext hc
      rw [← Bool.not_eq_true]
      intro his
      have hkind : t.kind = .word := by
        unfold is at his
        cases hk : t.kind <;> simp_all [TokenKind.isValue]
      have hchar := hplain.word hkind c (by rw [eq_of_is his, htext]; exact List.mem_cons_self)
      rw [hc] at hchar
      cases hchar
    exact ⟨hword rfl (by decide), hword rfl (by decide)⟩
  · exact ⟨is_eq_false_of_is hdot (by decide), is_eq_false_of_is hdot (by decide)⟩

end ConceptScript.Script

namespace ConceptScript.Cursor

open ConceptScript.Text
open ConceptScript.Script

variable {m : Model} {last : Token} {post w ahead : List Token} {r r' s s' : Reader} {k : Tracker}

/-- A tracker at parallel readers. What is not common to both is beyond its
cursor, and the tokens before the cursor are among those that are common. -/
structure Common (last : Token) (post : List Token) (k : Tracker) (w : List Token)
    (r r' : Reader) : Prop where
  parallel : Parallel last post w r r'
  plain : ∀ t ∈ w, t.Plain
  beyond : ∀ t ∈ post, t.Beyond k.target
  bound : ∀ i, k.lastBefore = some i → i < w.length + r.before.length

namespace Common

/-- Following events keeps a tracker in step with parallel readers: neither
its cursor nor the token before it changes. -/
theorem follow (h : Common last post k w r r') (events : List Event) :
    Common last post (k.follow events) w r r' :=
  ⟨h.parallel, h.plain, (k.follow_target events).symm ▸ h.beyond,
    (k.follow_lastBefore events).symm ▸ h.bound⟩

/-- A tracker stays in step when both readers go on by the same tokens. -/
theorem after (h : Common last post k w r r') {read : List Token} (hreads : r.Reads read s)
    (hparallel : Parallel last post ahead s s') : Common last post k ahead s s' := by
  have hsplit := h.parallel.split hreads hparallel
  refine ⟨hparallel, fun t ht => h.plain t (hsplit ▸ List.mem_append_right _ ht), h.beyond, ?_⟩
  intro i hi
  have hlt := h.bound i hi
  have hlength : s.before.length = read.length + r.before.length := hreads.position
  rw [hsplit, List.length_append] at hlt
  omega

/-- A tracker stays in step when both readers go on by one common token. -/
theorem advance {t : Token} (h : Common last post k (t :: w) r r') (ht : t.isEnd = false) :
    Common last post k w r.advance r'.advance := by
  obtain ⟨hreads, hparallel⟩ := h.parallel.advance ht
  exact h.after hreads hparallel

/-- What the first reader finds is a common token. -/
theorem of_is (h : Common last post k w r r') (hlast : last.isEnd = true) {text : String}
    (his : r.current.is text = true) :
    ∃ t ahead, w = t :: ahead ∧ r'.current.is text = true
      ∧ Common last post k ahead r.advance r'.advance := by
  cases w with
  | nil =>
    rw [h.parallel.current_nil, Token.is_eq_false_of_isEnd hlast] at his
    cases his
  | cons t ahead =>
    obtain ⟨hcurrent, hcurrent'⟩ := h.parallel.current
    rw [hcurrent] at his
    exact ⟨t, ahead, rfl, hcurrent'.symm ▸ his, h.advance (Token.isEnd_of_is his)⟩

/-- At the end of the shorter stream the other reader is late. -/
theorem late (h : Common last post k [] r r') : Late k.target r' := by
  rw [Late, h.parallel.rest']
  exact h.beyond

end Common

namespace Tracker

/-- Attempts at reading the same types do the same to a tracker at parallel
readers. Where the readers part, what the second one leaves is past the
cursor. -/
theorem follow_interpretations (hlast : last.isEnd = true) (context : List Node) {t : Token}
    (h : Common last post k (t :: w) r r') (types : List ConceptType) :
    k.follow (((types.map fun c => interpret m context c r').flatMap (·.events)).map .member) =
      k.follow (((types.map fun c => interpret m context c r).flatMap (·.events)).map
        .member) := by
  induction types generalizing k with
  | nil => rfl
  | cons c types ih =>
    have hone := follow_watched h.parallel h.bound
      (watched_interpret (m := m) hlast c context h.parallel)
    rw [List.map_cons, List.map_cons, List.flatMap_cons, List.flatMap_cons, List.map_append,
      List.map_append, follow_append, follow_append, hone]
    exact ih (h.follow _)

/-- A head is read at parallel readers. -/
theorem follow_readStatement (hlast : last.isEnd = true) (context : List Node) {t : Token}
    (h : Common last post k (t :: w) r r') :
    k.follow (readStatement m context r').1 = k.follow (readStatement m context r).1
      ∧ HeadOutcome last post w r r' (readStatement m context r).2
        (readStatement m context r').2 := by
  obtain ⟨hcurrent, hcurrent'⟩ := h.parallel.current
  have hstart : k.onStatement r' = k.onStatement r := by
    rw [onStatement_eq, onStatement_eq, hcurrent, hcurrent']
  unfold readStatement
  rw [hcurrent, hcurrent']
  dsimp only
  split
  · exact ⟨hstart, .failed⟩
  · split
    · exact ⟨hstart, .failed⟩
    · next word _ =>
      refine ⟨?_, headOutcome_choose hlast context word _ _ _ h.parallel⟩
      show (k.onStatement r').follow (List.map .member _)
        = (k.onStatement r).follow (List.map .member _)
      rw [hstart]
      exact follow_interpretations hlast context (h.follow [.statement r]) _

/-- Trackers agree after parallel readers with fewer than so many common
tokens ahead. -/
def AgreeBelow (m : Model) (last : Token) (post : List Token) (bound : Nat) : Prop :=
  ∀ (k : Tracker) (context : List Node) (w : List Token) (r r' : Reader),
    Common last post k w r r' → w.length < bound →
      (k.follow (parseFrom m context r).events).withoutNext
        = (k.follow (parseFrom m context r').events).withoutNext

/-- No brace closes a block at the first reader. -/
theorem follow_closing_of_not {bound : Nat} (hlast : last.isEnd = true)
    (hagree : AgreeBelow m last post bound) (context : List Node)
    (h : Common last post k w r r') (hw : w.length < bound) (hbrace : r.current.is "\x7d" = false) :
    (k.follow ((closeBlocks context r).1 ++ afterEnding m (closeBlocks context r).2)).withoutNext
      = (k.follow ((closeBlocks context r').1
          ++ afterEnding m (closeBlocks context r').2)).withoutNext := by
  rw [closeBlocks_of_not_closing hbrace]
  cases w with
  | nil =>
    have hend : r.atEnd = true := by
      rw [Reader.atEnd, h.parallel.current_nil]
      exact hlast
    show (k.follow (parseFrom m context r).events).withoutNext = _
    rw [parseFrom_events_of_atEnd hend, follow_closing_late m context h.late]
    rfl
  | cons t w =>
    obtain ⟨hcurrent, hcurrent'⟩ := h.parallel.current
    rw [closeBlocks_of_not_closing (hcurrent'.trans hcurrent.symm ▸ hbrace)]
    exact hagree k context (t :: w) r r' h hw

/-- A brace that both readers have just read does the same to a tracker. -/
theorem onBlock_common (h : Common last post k w r r') (context : List Node) :
    k.onBlock r' context = k.onBlock r context := by
  rw [onBlock, onBlock, Reader.last?, Reader.last?, h.parallel.before]

/-- Blocks are closed at parallel readers, and what follows is read. -/
theorem follow_closing {bound : Nat} (hlast : last.isEnd = true)
    (hagree : AgreeBelow m last post bound) (context : List Node)
    (h : Common last post k w r r') (hw : w.length < bound) :
    (k.follow ((closeBlocks context r).1 ++ afterEnding m (closeBlocks context r).2)).withoutNext
      = (k.follow ((closeBlocks context r').1
          ++ afterEnding m (closeBlocks context r').2)).withoutNext := by
  induction context generalizing k w r r' with
  | nil =>
    cases hbrace : r.current.is "\x7d" with
    | false => exact follow_closing_of_not hlast hagree [] h hw hbrace
    | true =>
      -- There is no block to close, so both stop here.
      obtain ⟨_, _, _, hbrace', _⟩ := h.of_is hlast hbrace
      rw [closeBlocks, closeBlocks, Reader.tryRead_of_is hbrace, Reader.tryRead_of_is hbrace']
      rfl
  | cons n outer ih =>
    cases hbrace : r.current.is "\x7d" with
    | false => exact follow_closing_of_not hlast hagree (n :: outer) h hw hbrace
    | true =>
      obtain ⟨t, ahead, rfl, hbrace', hnext⟩ := h.of_is hlast hbrace
      rw [closeBlocks, closeBlocks, Reader.tryRead_of_is hbrace, Reader.tryRead_of_is hbrace']
      show ((k.onBlock r.advance outer).follow ((closeBlocks outer r.advance).1
          ++ afterEnding m (closeBlocks outer r.advance).2)).withoutNext
        = ((k.onBlock r'.advance outer).follow ((closeBlocks outer r'.advance).1
          ++ afterEnding m (closeBlocks outer r'.advance).2)).withoutNext
      rw [onBlock_common hnext]
      exact ih (hnext.follow [.block r.advance outer false]) (Nat.lt_of_succ_lt hw)

/-- A head was read at parallel readers, and what follows it is read. -/
theorem follow_ending {bound : Nat} (hlast : last.isEnd = true)
    (hagree : AgreeBelow m last post bound) (context : List Node) (n : Node)
    (h : Common last post k w r r') (hw : w.length < bound) :
    (k.follow (afterReading m context (.ok (n, r)))).withoutNext
      = (k.follow (afterReading m context (.ok (n, r')))).withoutNext := by
  cases hopen : r.current.is "\x7b" with
  | true =>
    obtain ⟨t, ahead, rfl, hopen', hnext⟩ := h.of_is hlast hopen
    rw [afterReading, afterReading, endStatement_of_open context n hopen,
      endStatement_of_open context n hopen']
    show ((k.onBlock r.advance (n :: context)).follow ((closeBlocks (n :: context) r.advance).1
        ++ afterEnding m (closeBlocks (n :: context) r.advance).2)).withoutNext
      = ((k.onBlock r'.advance (n :: context)).follow ((closeBlocks (n :: context) r'.advance).1
        ++ afterEnding m (closeBlocks (n :: context) r'.advance).2)).withoutNext
    rw [onBlock_common hnext]
    exact follow_closing hlast hagree (n :: context)
      (hnext.follow [.block r.advance (n :: context) true]) (Nat.lt_of_succ_lt hw)
  | false =>
    cases hend : r.current.is ";" with
    | true =>
      obtain ⟨t, ahead, rfl, hend', hnext⟩ := h.of_is hlast hend
      have hopen' : r'.current.is "\x7b" = false := by
        rw [h.parallel.current.2, ← h.parallel.current.1, hopen]
      rw [afterReading, afterReading, endStatement_of_semicolon context n hopen hend,
        endStatement_of_semicolon context n hopen' hend']
      exact follow_closing hlast hagree context hnext (Nat.lt_of_succ_lt hw)
    | false =>
      rw [afterReading_of_no_end hopen hend]
      cases w with
      | nil =>
        -- The first stream ended after the head. The other one may go on.
        rw [follow_afterReading_late m context n h.late]
        rfl
      | cons t ahead =>
        obtain ⟨hcurrent, hcurrent'⟩ := h.parallel.current
        rw [hcurrent, ← hcurrent'] at hopen hend
        rw [afterReading_of_no_end hopen hend]

/-- Where a head in the shorter stream can only be read up to readable
tokens, nothing follows it. -/
theorem afterReading_of_parted (hlast : last.isEnd = true) (hplain : ∀ t ∈ w, t.Plain)
    (hreadable : ∀ t ∈ w, t.Readable) (context : List Node)
    {x : Except Failure (Node × Reader)} (hfirst : ∀ n s, x = .ok (n, s) →
      ∃ ahead, ahead <:+ w ∧ s.rest = ahead ++ [last]) : afterReading m context x = [] := by
  cases x with
  | error failure => rfl
  | ok next =>
    obtain ⟨n, s⟩ := next
    obtain ⟨ahead, hsuffix, hrest⟩ := hfirst n s rfl
    cases ahead with
    | nil =>
      have hcurrent := Reader.current_of_rest hrest
      exact afterReading_of_no_end (hcurrent.symm ▸ Token.is_eq_false_of_isEnd hlast _)
        (hcurrent.symm ▸ Token.is_eq_false_of_isEnd hlast _)
    | cons u ahead =>
      have hcurrent := Reader.current_of_rest hrest
      have hmem := hsuffix.subset List.mem_cons_self
      obtain ⟨hopen, hend⟩ := (hreadable u hmem).is_eq_false (hplain u hmem)
      exact afterReading_of_no_end (hcurrent.symm ▸ hopen) (hcurrent.symm ▸ hend)

/-- And in the longer stream what follows it is late. -/
theorem follow_afterReading_of_parted (hplain : ∀ t ∈ w, t.Plain)
    (hreadable : ∀ t ∈ w, t.Readable) (hbeyond : ∀ t ∈ post, t.Beyond k.target)
    (context : List Node) {x : Except Failure (Node × Reader)} (hsecond : ∀ n s, x = .ok (n, s) →
      ∃ ahead, ahead <:+ w ∧ (s.rest = ahead ++ post ∨ s.rest <:+ post)) :
    (k.follow (afterReading m context x)).withoutNext = k.withoutNext := by
  cases x with
  | error failure => rfl
  | ok next =>
    obtain ⟨n, s⟩ := next
    obtain ⟨ahead, hsuffix, hrest | hrest⟩ := hsecond n s rfl
    · cases ahead with
      | nil => exact follow_afterReading_late m context n (by rw [Late, hrest]; exact hbeyond)
      | cons u ahead =>
        have hcurrent := Reader.current_of_rest hrest
        have hmem := hsuffix.subset List.mem_cons_self
        obtain ⟨hopen, hend⟩ := (hreadable u hmem).is_eq_false (hplain u hmem)
        rw [afterReading_of_no_end (hcurrent.symm ▸ hopen) (hcurrent.symm ▸ hend)]
        rfl
    · exact follow_afterReading_late m context n fun t ht => hbeyond t (hrest.subset ht)

/-- Trackers agree after parallel readers. The induction is on the number
of common tokens ahead, of which every statement takes some. -/
theorem agreeBelow (m : Model) (hlast : last.isEnd = true) (post : List Token) (bound : Nat) :
    AgreeBelow m last post bound := by
  induction bound with
  | zero => exact fun _ _ _ _ _ _ hw => absurd hw (Nat.not_lt_zero _)
  | succ bound ih =>
    intro k context w r r' h hw
    cases w with
    | nil =>
      -- The first stream is at its end, and all of the second one is late.
      have hend : r.atEnd = true := by
        rw [Reader.atEnd, h.parallel.current_nil]
        exact hlast
      rw [parseFrom_events_of_atEnd hend, follow_parseFrom_late m context h.late]
      rfl
    | cons t w =>
      obtain ⟨hcurrent, hcurrent'⟩ := h.parallel.current
      have ht : t.isEnd = false := (h.plain t List.mem_cons_self).isEnd
      have hplain : ∀ u ∈ w, u.Plain := fun u hu => h.plain u (List.mem_cons_of_mem t hu)
      obtain ⟨hsame, houtcome⟩ := follow_readStatement (m := m) hlast context h
      have hnext := h.follow (readStatement m context r).1
      rw [parseFrom_events (r := r) (hcurrent.symm ▸ ht : r.current.isEnd = false),
        parseFrom_events (r := r') (hcurrent'.symm ▸ ht : r'.current.isEnd = false),
        follow_append, follow_append, hsame]
      generalize (readStatement m context r).2 = x at houtcome ⊢
      generalize (readStatement m context r').2 = x' at houtcome ⊢
      cases houtcome with
      | same hreads hsplit hparallel =>
        -- The head took a token at least, so fewer are ahead.
        refine follow_ending hlast ih context _ (hnext.after hreads hparallel) ?_
        rw [hsplit, List.length_cons, List.length_append] at hw
        omega
      | failed => rfl
      | parted hreadable hfirst hsecond =>
        -- What follows in either stream leaves no mark.
        rw [afterReading_of_parted hlast hplain hreadable context hfirst,
          follow_afterReading_of_parted hplain hreadable hnext.beyond context hsecond]
        rfl

end Tracker

end ConceptScript.Cursor
