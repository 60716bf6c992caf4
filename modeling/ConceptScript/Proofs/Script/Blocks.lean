import ConceptScript.Proofs.Script.Marks

/-!
# `ConceptScript.Proofs.Script.Blocks`: blocks and their braces

The parser keeps the concepts of the open blocks on a stack, and reports
the stack with every brace it reads. Here a block is told by its braces
alone. `closingOf` finds the brace that closes a block by counting, and a
block is open as long as there is none.

* `stackAfter_nil`: counting and keeping a stack give the same open blocks.
* `nested_parseFrom`: what the parser reports is the stack of the braces it
  has read, wherever a fault ends reading.
* `exists_statement_of_opening`: the concept of a block is the one of the
  statement that its opening brace ends.
* `exists_statement_of_getElem?`: each concept of a script was read in the
  blocks that are open where its statement starts.
-/

set_option autoImplicit false

namespace ConceptScript.Script

/-! ### Braces and blocks -/

/-- A brace of a block: `{` opens the block of a concept, `}` closes one. -/
inductive Brace where
  | opening (token : Token) (concept : Node)
  | closing (token : Token)

/-- The token that a brace is. -/
def Brace.token : Brace → Token
  | opening t _ => t
  | closing t => t

/-- The text of a brace. -/
def Brace.text : Brace → String
  | opening _ _ => "\x7b"
  | closing _ => "\x7d"

/-- The brace that an event reports. -/
def Event.toBrace? : Event → Option Brace
  | .block r (n :: _) true => r.last?.map (.opening · n)
  | .block r _ false => r.last?.map .closing
  | .block _ [] true | .statement _ | .member _ => none

/-- The braces of blocks that some events report, in order. -/
def readBraces (events : List Event) : List Brace := events.filterMap Event.toBrace?

/-- The brace that closes a block, of those after its opening brace: the
first that closes none of the blocks opened in between. The number is that
of the blocks opened in between and not closed yet. -/
def closingOf : Nat → List Brace → Option Token
  | _, [] => none
  | depth, .opening _ _ :: rest => closingOf (depth + 1) rest
  | 0, .closing t :: _ => some t
  | depth + 1, .closing _ :: rest => closingOf depth rest

/-- A block: the concept it belongs to and its braces. There is no closing
brace as long as none was read. -/
structure Block where
  concept : Node
  opening : Token
  closing : Option Token

/-- The blocks that some braces open, in order. -/
def blocksOf : List Brace → List Block
  | [] => []
  | .opening t n :: rest => ⟨n, t, closingOf 0 rest⟩ :: blocksOf rest
  | .closing _ :: rest => blocksOf rest

/-- The concepts of the blocks that are not closed, the innermost first. -/
def openConcepts (bs : List Brace) : List Node :=
  (((blocksOf bs).filter (·.closing.isNone)).map (·.concept)).reverse

/-- Whether a block encloses an offset: its opening brace stops at or before
the offset, and its closing brace, if it was read, after the offset. -/
def Block.encloses (offset : Nat) (b : Block) : Bool :=
  b.opening.stop ≤ offset && b.closing.all (offset < ·.stop)

/-- The brace that closes a block is among the braces. -/
theorem closing_mem_of_closingOf {depth : Nat} {bs : List Brace} {t : Token}
    (h : closingOf depth bs = some t) : .closing t ∈ bs := by
  induction bs generalizing depth with
  | nil => cases h
  | cons b rest ih =>
    cases b with
    | opening u n => exact List.mem_cons_of_mem _ (ih h)
    | closing u =>
      cases depth with
      | zero =>
        cases h
        exact List.mem_cons_self
      | succ depth => exact List.mem_cons_of_mem _ (ih h)

/-- The braces of a block are among those it was told by. -/
theorem mem_of_mem_blocksOf {bs : List Brace} {b : Block} (h : b ∈ blocksOf bs) :
    .opening b.opening b.concept ∈ bs ∧ ∀ t ∈ b.closing, .closing t ∈ bs := by
  induction bs with
  | nil => exact absurd h List.not_mem_nil
  | cons brace rest ih =>
    have hrest : b ∈ blocksOf rest → .opening b.opening b.concept ∈ brace :: rest
        ∧ ∀ t ∈ b.closing, .closing t ∈ brace :: rest := fun hmem =>
      ⟨List.mem_cons_of_mem _ (ih hmem).1, fun t ht => List.mem_cons_of_mem _ ((ih hmem).2 t ht)⟩
    cases brace with
    | opening t n =>
      rcases List.mem_cons.mp h with rfl | hmem
      · exact ⟨List.mem_cons_self,
          fun u hu => List.mem_cons_of_mem _ (closing_mem_of_closingOf hu)⟩
      · exact hrest hmem
    | closing t => exact hrest h

/-- The brace that closes a block stays the one when more braces follow. -/
theorem closingOf_append_of_some {depth : Nat} {bs : List Brace} {t : Token}
    (h : closingOf depth bs = some t) (bs' : List Brace) :
    closingOf depth (bs ++ bs') = some t := by
  induction bs generalizing depth with
  | nil => cases h
  | cons b rest ih =>
    cases b with
    | opening u n => exact ih h
    | closing u =>
      cases depth with
      | zero => exact h
      | succ depth => exact ih h

/-- A block that some braces leave open can only be closed by later ones. -/
theorem closing_mem_of_closingOf_append {depth : Nat} {bs bs' : List Brace} {t : Token}
    (h : closingOf depth bs = none) (h' : closingOf depth (bs ++ bs') = some t) :
    .closing t ∈ bs' := by
  induction bs generalizing depth with
  | nil => exact closing_mem_of_closingOf h'
  | cons b rest ih =>
    cases b with
    | opening u n => exact ih h h'
    | closing u =>
      cases depth with
      | zero => cases h
      | succ depth => exact ih h h'

/-! ### Counting and keeping a stack -/

/-- The concepts of the open blocks as a stack, the innermost on top. -/
def stackAfter : List Node → List Brace → List Node
  | stack, [] => stack
  | stack, .opening _ n :: rest => stackAfter (n :: stack) rest
  | stack, .closing _ :: rest => stackAfter stack.tail rest

/-- How many of some braces close blocks that were opened before them. -/
def surplus : List Brace → Nat
  | [] => 0
  | .opening _ _ :: rest => surplus rest - 1
  | .closing _ :: rest => surplus rest + 1

/-- A block stays open just if no more blocks are closed than were opened in
it. -/
theorem closingOf_eq_none_iff {depth : Nat} {bs : List Brace} :
    closingOf depth bs = none ↔ surplus bs ≤ depth := by
  induction bs generalizing depth with
  | nil => simp [closingOf, surplus]
  | cons b rest ih =>
    cases b with
    | opening t n =>
      rw [closingOf, surplus, ih]
      omega
    | closing t =>
      cases depth with
      | zero => simp [closingOf, surplus]
      | succ depth =>
        rw [closingOf, surplus, ih]
        omega

/-- Braces after others change the stack that these leave. -/
theorem stackAfter_append (stack : List Node) (bs bs' : List Brace) :
    stackAfter stack (bs ++ bs') = stackAfter (stackAfter stack bs) bs' := by
  induction bs generalizing stack with
  | nil => rfl
  | cons b rest ih => cases b <;> exact ih _

/-- On top are the blocks opened by the braces and not closed. Of those
below, as many are gone as braces close blocks from before. -/
theorem stackAfter_eq (stack : List Node) (bs : List Brace) :
    stackAfter stack bs = openConcepts bs ++ stack.drop (surplus bs) := by
  induction bs generalizing stack with
  | nil => rfl
  | cons b rest ih =>
    cases b with
    | opening t n =>
      rw [stackAfter, ih, surplus, openConcepts, openConcepts, blocksOf]
      cases hclosing : closingOf 0 rest with
      | none =>
        -- All that closes after it closes blocks opened after it.
        have hsurplus : surplus rest = 0 := Nat.le_zero.mp (closingOf_eq_none_iff.mp hclosing)
        simp [hsurplus]
      | some u =>
        have hsurplus : surplus rest ≠ 0 := fun hzero => by
          rw [closingOf_eq_none_iff.mpr (Nat.le_of_eq hzero)] at hclosing
          cases hclosing
        obtain ⟨k, hk⟩ := Nat.exists_eq_succ_of_ne_zero hsurplus
        simp [hk]
    | closing t => rw [stackAfter, ih, surplus, List.drop_tail, openConcepts, openConcepts, blocksOf]

/-- From no open blocks on, a stack holds those that counting finds open. -/
theorem stackAfter_nil (bs : List Brace) : stackAfter [] bs = openConcepts bs := by
  rw [stackAfter_eq, List.drop_nil, List.append_nil]

/-! ### What the parser reports -/

/-- Events that report every brace with the concepts of the blocks open
after it, from those open before the events to those open after them. -/
inductive Nested : List Node → List Event → List Node → Prop
  | nil {context : List Node} : Nested context [] context
  | statement {context context' : List Node} {r : Reader} {events : List Event}
      (tail : Nested context events context') : Nested context (.statement r :: events) context'
  | member {context context' : List Node} {e : MemberEvent} {events : List Event}
      (tail : Nested context events context') : Nested context (.member e :: events) context'
  | opening {context context' : List Node} {n : Node} {r : Reader} {t : Token}
      {events : List Event} (last : r.last? = some t) (isOpening : t.is "\x7b" = true)
      (tail : Nested (n :: context) events context') :
      Nested context (.block r (n :: context) true :: events) context'
  | closing {context context' : List Node} {n : Node} {r : Reader} {t : Token}
      {events : List Event} (last : r.last? = some t) (isClosing : t.is "\x7d" = true)
      (tail : Nested context events context') :
      Nested (n :: context) (.block r context false :: events) context'

/-- The braces of events after others come after the braces of these. -/
theorem readBraces_append (events events' : List Event) :
    readBraces (events ++ events') = readBraces events ++ readBraces events' :=
  List.filterMap_append

/-- An event that reports a brace puts it in front. -/
theorem readBraces_cons {e : Event} {b : Brace} (h : e.toBrace? = some b) (events : List Event) :
    readBraces (e :: events) = b :: readBraces events := List.filterMap_cons_some h

/-- An event about a block that opens reports the brace just read, with the
concept of the block. -/
theorem toBrace?_opening {r : Reader} {t : Token} (h : r.last? = some t) (n : Node)
    (outer : List Node) : (Event.block r (n :: outer) true).toBrace? = some (.opening t n) := by
  rw [Event.toBrace?, h]
  rfl

/-- An event about a block that closes reports the brace just read. -/
theorem toBrace?_closing {r : Reader} {t : Token} (h : r.last? = some t) (context : List Node) :
    (Event.block r context false).toBrace? = some (.closing t) := by
  rw [Event.toBrace?, h]
  rfl

namespace Nested

variable {context context' context'' : List Node} {events events' : List Event}

/-- Events that nest one after the other nest in a row. -/
theorem append (h : Nested context events context') (h' : Nested context' events' context'') :
    Nested context (events ++ events') context'' := by
  induction h with
  | nil => exact h'
  | statement _ ih => exact .statement (ih h')
  | member _ ih => exact .member (ih h')
  | opening last isOpening _ ih => exact .opening last isOpening (ih h')
  | closing last isClosing _ ih => exact .closing last isClosing (ih h')

/-- Events that nest can be parted anywhere, with the open blocks at that
place. -/
theorem of_append (h : Nested context (events ++ events') context'') :
    ∃ context', Nested context events context' ∧ Nested context' events' context'' := by
  induction events generalizing context with
  | nil => exact ⟨context, .nil, h⟩
  | cons e events ih =>
    cases h with
    | statement tail =>
      obtain ⟨middle, hfirst, hsecond⟩ := ih tail
      exact ⟨middle, .statement hfirst, hsecond⟩
    | member tail =>
      obtain ⟨middle, hfirst, hsecond⟩ := ih tail
      exact ⟨middle, .member hfirst, hsecond⟩
    | opening last isOpening tail =>
      obtain ⟨middle, hfirst, hsecond⟩ := ih tail
      exact ⟨middle, .opening last isOpening hfirst, hsecond⟩
    | closing last isClosing tail =>
      obtain ⟨middle, hfirst, hsecond⟩ := ih tail
      exact ⟨middle, .closing last isClosing hfirst, hsecond⟩

/-- What is reported is the stack of the braces that were read. -/
theorem eq_stackAfter (h : Nested context events context') :
    context' = stackAfter context (readBraces events) := by
  induction h with
  | nil => rfl
  | statement _ ih => exact ih
  | member _ ih => exact ih
  | opening last _ _ ih =>
    rw [readBraces_cons (toBrace?_opening last _ _)]
    exact ih
  | closing last _ _ ih =>
    rw [readBraces_cons (toBrace?_closing last _)]
    exact ih

/-- A brace that opens a block is a `{`, and one that closes a block a `}`. -/
theorem is_of_mem_readBraces (h : Nested context events context') {b : Brace}
    (hb : b ∈ readBraces events) : b.token.is b.text = true := by
  induction h with
  | nil => exact absurd hb List.not_mem_nil
  | statement _ ih => exact ih hb
  | member _ ih => exact ih hb
  | opening last isOpening _ ih =>
    rw [readBraces_cons (toBrace?_opening last _ _)] at hb
    rcases List.mem_cons.mp hb with rfl | hb
    · exact isOpening
    · exact ih hb
  | closing last isClosing _ ih =>
    rw [readBraces_cons (toBrace?_closing last _)] at hb
    rcases List.mem_cons.mp hb with rfl | hb
    · exact isClosing
    · exact ih hb

/-- A brace is reported with the blocks that are open after it. -/
theorem block {r : Reader} {snapshot : List Node} {opening : Bool}
    (h : Nested context [.block r snapshot opening] context') :
    context' = snapshot ∧ ∃ b, (Event.block r snapshot opening).toBrace? = some b
      ∧ r.last? = some b.token := by
  cases h with
  | opening last _ tail =>
    cases tail
    exact ⟨rfl, _, toBrace?_opening last _ _, last⟩
  | closing last _ tail =>
    cases tail
    exact ⟨rfl, _, toBrace?_closing last _, last⟩

end Nested

/-- The open blocks after some events of the parser, and the reader that
goes on from there if reading does. -/
def NestedTo (context : List Node) (events : List Event) :
    Except Failure (List Node × Reader) → Prop
  | .ok (context', _) => Nested context events context'
  | .error _ => ∃ context', Nested context events context'

/-- Attempts at members leave the open blocks as they are. -/
theorem nested_members (context : List Node) (events : List MemberEvent) :
    Nested context (events.map .member) context := by
  induction events with
  | nil => exact .nil
  | cons e rest ih => exact .member ih

/-- The events of a head: its start, and the members that were tried. -/
theorem readStatement_events (m : Model) (context : List Node) (r : Reader) :
    ∃ attempts : List MemberEvent,
      (readStatement m context r).1 = .statement r :: attempts.map .member := by
  unfold readStatement
  dsimp only
  split
  · exact ⟨[], rfl⟩
  · split
    · exact ⟨[], rfl⟩
    · exact ⟨_, rfl⟩

/-- Reading a statement leaves the open blocks as they are. -/
theorem nested_readStatement (m : Model) (context : List Node) (r : Reader) :
    Nested context (readStatement m context r).1 context := by
  obtain ⟨attempts, hevents⟩ := readStatement_events m context r
  rw [hevents]
  exact .statement (nested_members context attempts)

/-- What nests from where some events lead nests after these events. -/
theorem NestedTo.after {context context' : List Node} {first events : List Event}
    {result : Except Failure (List Node × Reader)} (hfirst : Nested context first context')
    (h : NestedTo context' events result) : NestedTo context (first ++ events) result := by
  cases result with
  | ok next => exact hfirst.append h
  | error failure =>
    obtain ⟨context'', h⟩ := h
    exact ⟨context'', hfirst.append h⟩

/-- Closing blocks reports each brace with the blocks that are left open. -/
theorem nestedTo_closeBlocks (context : List Node) (r : Reader) :
    NestedTo context (closeBlocks context r).1 (closeBlocks context r).2 := by
  induction context generalizing r with
  | nil =>
    rw [closeBlocks]
    split
    · exact .nil
    · exact ⟨[], .nil⟩
  | cons n outer ih =>
    rw [closeBlocks]
    split
    · exact .nil
    · next r' hread =>
      obtain ⟨t, hclosing, hreads⟩ := Reader.tryRead_eq_some_iff.mp hread
      exact NestedTo.after (.closing (last?_of_reads hreads) hclosing .nil) (ih r')

/-- The end of a statement opens the block of its concept, or none. -/
theorem nestedTo_endStatement (m : Model) (n : Node) (context : List Node) (r : Reader) :
    NestedTo context (endStatement m n context r).1 (endStatement m n context r).2 := by
  unfold endStatement
  split
  · next r' hread =>
    obtain ⟨t, hopening, hreads⟩ := Reader.tryRead_eq_some_iff.mp hread
    exact NestedTo.after (.opening (last?_of_reads hreads) hopening .nil)
      (nestedTo_closeBlocks (n :: context) r')
  · split
    · next r' _ => exact nestedTo_closeBlocks context r'
    · exact ⟨context, .nil⟩

/-- A statement that was read reports the blocks up to its end. -/
theorem nestedTo_statement {m : Model} {context : List Node} {r afterHead : Reader} {n : Node}
    {events closing : List Event} {result : Except Failure (List Node × Reader)}
    (hread : readStatement m context r = (events, .ok (n, afterHead)))
    (hending : endStatement m n context afterHead = (closing, result)) :
    NestedTo context (events ++ closing) result := by
  have hhead := nested_readStatement m context r
  have hend := nestedTo_endStatement m n context afterHead
  rw [hread] at hhead
  rw [hending] at hend
  exact NestedTo.after hhead hend

/-- A parse reports the blocks that are open by its braces. -/
theorem nested_parseFrom (m : Model) (context : List Node) (r : Reader) :
    ∃ context', Nested context (parseFrom m context r).events context' := by
  fun_induction parseFrom m context r with
  | case1 r hend => exact ⟨[], .nil⟩
  | case2 r hend node outer => exact ⟨_, .nil⟩
  | case3 context r hend events failure hread =>
    have hhead := nested_readStatement m context r
    rw [hread] at hhead
    exact ⟨context, hhead⟩
  | case4 context r hend events n afterHead hread closing failure hending =>
    exact nestedTo_statement hread hending
  | case5 =>
    rename_i context r hend events n afterHead hread closing context' next hending _ ih
    have hstatement : Nested context (events ++ closing) context' :=
      nestedTo_statement hread hending
    obtain ⟨context'', ih⟩ := ih
    exact ⟨context'', hstatement.append ih⟩

/-- A brace is a mark. -/
theorem mark?_of_toBrace? {e : Event} {b : Brace} (h : e.toBrace? = some b) :
    e.mark? = some b.token := by
  unfold Event.toBrace? at h
  split at h
  · obtain ⟨t, hlast, rfl⟩ := Option.map_eq_some_iff.mp h
    exact hlast
  · obtain ⟨t, hlast, rfl⟩ := Option.map_eq_some_iff.mp h
    exact hlast
  · cases h
  · cases h
  · cases h

/-- A brace that opens a block was reported with the concept of the block
on top of those around it. -/
theorem exists_event_of_opening {events : List Event} {t : Token} {n : Node}
    (h : .opening t n ∈ readBraces events) :
    ∃ r outer, .block r (n :: outer) true ∈ events ∧ r.last? = some t := by
  obtain ⟨e, he, hbrace⟩ := List.mem_filterMap.mp h
  unfold Event.toBrace? at hbrace
  split at hbrace
  · next r n' outer =>
    obtain ⟨t', hlast, heq⟩ := Option.map_eq_some_iff.mp hbrace
    cases heq
    exact ⟨r, outer, he, hlast⟩
  · obtain ⟨t', _, heq⟩ := Option.map_eq_some_iff.mp hbrace
    cases heq
  · cases hbrace
  · cases hbrace
  · cases hbrace

/-- The braces of blocks are some of the marks of a script, in their order. -/
theorem token_readBraces_sublist (events : List Event) :
    ((readBraces events).map Brace.token).Sublist (marks events) := by
  induction events with
  | nil => exact List.nil_sublist _
  | cons e rest ih =>
    cases hbrace : e.toBrace? with
    | none =>
      rw [readBraces, List.filterMap_cons_none hbrace]
      refine ih.trans ?_
      rw [marks, marks, List.filterMap_cons]
      split
      · exact List.Sublist.refl _
      · exact List.sublist_cons_self _ _
    | some b =>
      have hmarks : marks (e :: rest) = b.token :: marks rest :=
        List.filterMap_cons_some (mark?_of_toBrace? hbrace)
      rw [readBraces_cons hbrace, hmarks]
      exact ih.cons_cons b.token

/-! ### The statements of blocks -/

/-- Closing blocks opens none. -/
theorem opening_eq_false_of_mem_closeBlocks {context snapshot : List Node} {r r' : Reader}
    {opening : Bool} (h : .block r' snapshot opening ∈ (closeBlocks context r).1) :
    opening = false := by
  induction context generalizing r with
  | nil =>
    rw [closeBlocks] at h
    split at h <;> cases h
  | cons n outer ih =>
    rw [closeBlocks] at h
    split at h
    · cases h
    · rcases List.mem_cons.mp h with heq | hmem
      · cases heq
        rfl
      · exact ih hmem

/-- The end of a statement opens at most the block of its concept. -/
theorem tryRead_of_mem_endStatement {m : Model} {n n' : Node} {context outer : List Node}
    {r r' : Reader} (h : .block r' (n' :: outer) true ∈ (endStatement m n context r).1) :
    n' = n ∧ outer = context ∧ r.tryRead "\x7b" = some r' := by
  unfold endStatement at h
  split at h
  · next r'' hread =>
    rcases List.mem_cons.mp h with heq | hmem
    · cases heq
      exact ⟨rfl, rfl, hread⟩
    · cases opening_eq_false_of_mem_closeBlocks hmem
  · split at h
    · cases opening_eq_false_of_mem_closeBlocks h
    · cases h

/-- Reading a statement neither opens nor closes a block. -/
theorem block_not_mem_readStatement (m : Model) (context snapshot : List Node) (r r' : Reader)
    (opening : Bool) : .block r' snapshot opening ∉ (readStatement m context r).1 := by
  obtain ⟨attempts, hevents⟩ := readStatement_events m context r
  rw [hevents]
  simp

/-- Reading a statement shows its start. -/
theorem statement_mem_readStatement (m : Model) (context : List Node) (r : Reader) :
    .statement r ∈ (readStatement m context r).1 := by
  obtain ⟨attempts, hevents⟩ := readStatement_events m context r
  rw [hevents]
  exact List.mem_cons_self

/-- The block that one statement opens is that of its concept. -/
theorem readStatement_of_opening {m : Model} {context outer : List Node} {r r' afterHead : Reader}
    {n n' : Node} (hread : (readStatement m context r).2 = .ok (n', afterHead))
    (h : .block r' (n :: outer) true ∈
      (readStatement m context r).1 ++ (endStatement m n' context afterHead).1) :
    (readStatement m outer r).2 = .ok (n, afterHead) ∧ afterHead.tryRead "\x7b" = some r' := by
  rcases List.mem_append.mp h with hmem | hmem
  · exact absurd hmem (block_not_mem_readStatement m context _ r _ true)
  · obtain ⟨rfl, rfl, htry⟩ := tryRead_of_mem_endStatement hmem
    exact ⟨hread, htry⟩

/-- A block that is opened is the one of a statement: its brace comes
directly after the head of the statement, which is of the concept. -/
theorem exists_statement_of_opening {m : Model} {context outer : List Node} {r r' : Reader}
    {n : Node} (h : .block r' (n :: outer) true ∈ (parseFrom m context r).events) :
    ∃ s next, .statement s ∈ (parseFrom m context r).events
      ∧ (readStatement m outer s).2 = .ok (n, next) ∧ next.tryRead "\x7b" = some r' := by
  fun_induction parseFrom m context r with
  | case1 r hend => cases h
  | case2 r hend node outer => cases h
  | case3 context r hend events failure hread =>
    -- The statement was not read, so no block was opened.
    have hevents : (readStatement m context r).1 = events := congrArg Prod.fst hread
    refine absurd h ?_
    rw [← hevents]
    exact block_not_mem_readStatement m context _ r _ true
  | case4 context r hend events n' afterHead hread closing failure hending =>
    have hevents : (readStatement m context r).1 = events := congrArg Prod.fst hread
    have hclosing : (endStatement m n' context afterHead).1 = closing := congrArg Prod.fst hending
    rw [← hevents, ← hclosing] at h ⊢
    obtain ⟨hok, htry⟩ := readStatement_of_opening (congrArg Prod.snd hread) h
    exact ⟨r, afterHead, List.mem_append_left _ (statement_mem_readStatement m context r), hok,
      htry⟩
  | case5 =>
    rename_i context r hend events n' afterHead hread closing context' next hending parsed ih
    have hevents : (readStatement m context r).1 = events := congrArg Prod.fst hread
    have hclosing : (endStatement m n' context afterHead).1 = closing := congrArg Prod.fst hending
    -- The block was opened by this statement, or by a later one.
    rcases List.mem_append.mp h with hmem | hmem
    · rw [← hevents, ← hclosing] at hmem
      obtain ⟨hok, htry⟩ := readStatement_of_opening (congrArg Prod.snd hread) hmem
      refine ⟨r, afterHead, ?_, hok, htry⟩
      rw [← hevents]
      exact List.mem_append_left _
        (List.mem_append_left _ (statement_mem_readStatement m context r))
    · obtain ⟨s, after, hstatement, hok, htry⟩ := ih hmem
      exact ⟨s, after, List.mem_append_right _ hstatement, hok, htry⟩

/-! ### The concepts of a script -/

/-- The starts among events after others come after the starts among these. -/
theorem starts_append (events events' : List Event) :
    starts (events ++ events') = starts events ++ starts events' := List.filterMap_append

/-- Reading a statement shows one start: its first token. -/
theorem starts_readStatement (m : Model) (context : List Node) (r : Reader) :
    starts (readStatement m context r).1 = [r.current] := by
  obtain ⟨attempts, hevents⟩ := readStatement_events m context r
  have hmembers : starts (attempts.map .member) = [] := by
    rw [starts, List.filterMap_map, List.filterMap_eq_nil_iff]
    exact fun _ _ => rfl
  rw [hevents]
  show r.current :: starts (attempts.map .member) = _
  rw [hmembers]

/-- Closing blocks shows no start. -/
theorem starts_closeBlocks (context : List Node) (r : Reader) :
    starts (closeBlocks context r).1 = [] := by
  induction context generalizing r with
  | nil =>
    rw [closeBlocks]
    split <;> rfl
  | cons n outer ih =>
    rw [closeBlocks]
    split
    · rfl
    · exact ih _

/-- The end of a statement shows no start. -/
theorem starts_endStatement (m : Model) (n : Node) (context : List Node) (r : Reader) :
    starts (endStatement m n context r).1 = [] := by
  unfold endStatement
  split
  · exact starts_closeBlocks (n :: context) _
  · split
    · exact starts_closeBlocks context _
    · rfl

/-- The blocks that are left open were open before. -/
theorem mem_of_closeBlocks {context context' : List Node} {r r' : Reader}
    (h : (closeBlocks context r).2 = .ok (context', r')) : ∀ n ∈ context', n ∈ context := by
  induction context generalizing r with
  | nil =>
    rw [closeBlocks] at h
    split at h
    · cases h
      exact fun _ hn => hn
    · cases h
  | cons n outer ih =>
    rw [closeBlocks] at h
    split at h
    · cases h
      exact fun _ hn => hn
    · exact fun n' hn' => List.mem_cons_of_mem n (ih h n' hn')

/-- After a statement no other block is open than before it and its own. -/
theorem mem_of_endStatement {m : Model} {n : Node} {context context' : List Node} {r r' : Reader}
    (h : (endStatement m n context r).2 = .ok (context', r')) :
    ∀ n' ∈ context', n' = n ∨ n' ∈ context := by
  unfold endStatement at h
  split at h
  · exact fun n' hn' => List.mem_cons.mp (mem_of_closeBlocks h n' hn')
  · split at h
    · exact fun n' hn' => .inr (mem_of_closeBlocks h n' hn')
    · cases h

/-- Each concept of a script is the head that was read where its statement
starts, in the blocks that are open there. These are blocks of concepts
whose statements came before, or were open from the start. -/
theorem exists_statement_of_getElem? {m : Model} {context : List Node} {r : Reader}
    {nodes : List Node} (h : (parseFrom m context r).result = .ok nodes) {i : Nat} {n : Node}
    (hi : nodes[i]? = some n) :
    ∃ before s after next, (parseFrom m context r).events = before ++ .statement s :: after
      ∧ r.LeadsTo s ∧ (starts before).length = i
      ∧ (∀ outer ∈ stackAfter context (readBraces before), outer ∈ context ∨ outer ∈ nodes.take i)
      ∧ (readStatement m (stackAfter context (readBraces before)) s).2 = .ok (n, next) := by
  fun_induction parseFrom m context r generalizing nodes i with
  | case1 r hend =>
    cases h
    cases hi
  | case2 r hend node outer => cases h
  | case3 context r hend events failure hread => cases h
  | case4 context r hend events n' afterHead hread closing failure hending => cases h
  | case5 =>
    rename_i context r hend events n' afterHead hread closing context' next hending parsed ih
    have hevents : (readStatement m context r).1 = events := congrArg Prod.fst hread
    have hclosing : (endStatement m n' context afterHead).1 = closing := congrArg Prod.fst hending
    cases hparsed : parsed.result with
    | error failure =>
      rw [hparsed] at h
      cases h
    | ok others =>
      rw [hparsed] at h
      cases h
      cases i with
      | zero =>
        -- The statement at the reader itself, with nothing before it.
        cases hi
        obtain ⟨attempts, hhead⟩ := readStatement_events m context r
        rw [hevents] at hhead
        refine ⟨[], r, attempts.map .member ++ closing ++ parsed.events, afterHead, ?_, .refl r, rfl,
          fun _ houter => .inl houter, congrArg Prod.snd hread⟩
        rw [hhead, List.cons_append, List.cons_append, List.nil_append]
      | succ i =>
        obtain ⟨before, s, after, next', hafter, hleads, hstarts, hmem, hok⟩ := ih hparsed hi
        obtain ⟨w, hhead⟩ := readStatement_reads (congrArg Prod.snd hread)
        have hleads' : r.LeadsTo s :=
          (hhead.leadsTo.trans (leadsTo_of_endStatement (congrArg Prod.snd hending))).trans hleads
        have hnested : Nested context (events ++ closing) context' :=
          nestedTo_statement hread hending
        have hstack : stackAfter context (readBraces (events ++ closing ++ before))
            = stackAfter context' (readBraces before) := by
          rw [readBraces_append, stackAfter_append, ← hnested.eq_stackAfter]
        refine ⟨events ++ closing ++ before, s, after, next', ?_, hleads', ?_,
          fun outer houter => ?_, hstack ▸ hok⟩
        · show events ++ closing ++ parsed.events = _
          rw [hafter, List.append_assoc _ before]
        · rw [starts_append, starts_append, ← hevents, starts_readStatement, ← hclosing,
            starts_endStatement, List.append_nil, List.length_append, hstarts]
          exact Nat.add_comm 1 i
        · -- A block open before the rest is from before the statement, or its own.
          rw [List.take_succ_cons, List.mem_cons]
          rcases hmem outer (hstack ▸ houter) with hopen | hothers
          · rcases mem_of_endStatement (congrArg Prod.snd hending) outer hopen with rfl | hopen
            · exact .inr (.inl rfl)
            · exact .inl hopen
          · exact .inr (.inr hothers)

end ConceptScript.Script
