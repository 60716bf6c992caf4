import ConceptScript.Script.Parse
import ConceptScript.Proofs.Script.Reads

/-!
# `ConceptScript.Proofs.Script.Marks`: the tokens that events are about

A statement starts at a token, and a brace opens or closes a block. These
are the marks that reading a script leaves behind, in the order of the
events. A statement is tried as several types from the same place, but its
start is marked once, and reading never goes back behind it. So the marks
are some of the tokens of the script, each once and in their order:
`marks_parse_sublist`. This holds wherever a fault ends reading.
-/

set_option autoImplicit false

namespace ConceptScript.Script

variable {m : Model} {context context' : List Node} {r r' : Reader} {n : Node}

/-! ### Marks -/

/-- The token at which a statement starts. -/
def Event.start? : Event → Option Token
  | .statement r => some r.current
  | .member _ => none
  | .block _ _ _ => none

/-- The brace that opens or closes a block. -/
def Event.brace? : Event → Option Token
  | .statement _ => none
  | .member _ => none
  | .block r _ _ => r.last?

/-- The start of a statement or the brace of a block. -/
def Event.mark? (e : Event) : Option Token := e.start? <|> e.brace?

/-- The tokens at which statements start. -/
def starts (events : List Event) : List Token := events.filterMap Event.start?

/-- The braces that open or close blocks. -/
def braces (events : List Event) : List Token := events.filterMap Event.brace?

/-- The starts of statements and the braces of blocks. -/
def marks (events : List Event) : List Token := events.filterMap Event.mark?

/-- The marks of events after others come after the marks of these. -/
theorem marks_append (events events' : List Event) :
    marks (events ++ events') = marks events ++ marks events' := List.filterMap_append

/-- The start of a statement is a mark. -/
theorem mem_marks_of_mem_starts {events : List Event} {t : Token} (h : t ∈ starts events) :
    t ∈ marks events := by
  obtain ⟨e, he, hstart⟩ := List.mem_filterMap.mp h
  refine List.mem_filterMap.mpr ⟨e, he, ?_⟩
  rw [Event.mark?, hstart]
  rfl

/-- The brace of a block is a mark. -/
theorem mem_marks_of_mem_braces {events : List Event} {t : Token} (h : t ∈ braces events) :
    t ∈ marks events := by
  obtain ⟨e, he, hbrace⟩ := List.mem_filterMap.mp h
  refine List.mem_filterMap.mpr ⟨e, he, ?_⟩
  cases e with
  | statement r => cases hbrace
  | member e => cases hbrace
  | block r context opening => exact hbrace

/-! ### What statements and braces read -/

/-- Reading a statement as a type moves forward. -/
theorem leadsTo_interpret (m : Model) (context : List Node) (c : ConceptType) (r : Reader) :
    r.LeadsTo (interpret m context c r).reader := by
  unfold interpret
  split
  · exact .refl r
  · next r' hkeyword =>
    obtain ⟨t, _, hreads⟩ := Reader.tryReadKeyword_eq_some_iff.mp hkeyword
    exact hreads.leadsTo.trans (leadsTo_readMembers m c context.head? false 0 c.members r')

/-- A head that was read starts with the token at which it was looked for. -/
theorem readStatement_reads (h : (readStatement m context r).2 = .ok (n, r')) :
    ∃ w, r.Reads (r.current :: w) r' := by
  have hlt := readStatement_rest_length_lt h
  have hleads : r.LeadsTo r' := by
    unfold readStatement at h
    dsimp only at h
    split at h
    · cases h
    · split at h
      · cases h
      · obtain ⟨i, hi, _, hreader⟩ := mem_successes (choose_mem_successes h)
        obtain ⟨c, _, rfl⟩ := List.mem_map.mp hi
        exact hreader ▸ leadsTo_interpret m context c r
  obtain ⟨w, hreads⟩ := hleads.exists_reads
  cases w with
  | nil =>
    -- A head takes at least one token.
    cases hreads.eq_of_nil
    exact absurd hlt (Nat.lt_irrefl _)
  | cons t w =>
    have ht := Reader.current_of_reads hreads
    subst ht
    exact ⟨w, hreads⟩

/-- The token that was read last is the one just read. -/
theorem last?_of_reads {t : Token} (h : r.Reads [t] r') : r'.last? = some t := by
  rw [Reader.last?, h.before]
  rfl

/-- Events whose marks are tokens that were read: up to where reading goes
on, or anywhere ahead if it does not. -/
def MarksRead {α : Type} (r : Reader) (events : List Event) :
    Except Failure (α × Reader) → Prop
  | .ok (_, r') => ∃ w, r.Reads w r' ∧ (marks events).Sublist w
  | .error _ => (marks events).Sublist r.rest

/-- A mark that is the next token, and then marks that are read from there
on, are read. -/
theorem MarksRead.cons {α : Type} {t : Token} {e : Event} {events : List Event}
    {result : Except Failure (α × Reader)} (hmark : e.mark? = some t) (hreads : r.Reads [t] r')
    (h : MarksRead r' events result) : MarksRead r (e :: events) result := by
  have hmarks : marks (e :: events) = t :: marks events := List.filterMap_cons_some hmark
  cases result with
  | ok next =>
    obtain ⟨w, hreads', hsub⟩ := h
    refine ⟨t :: w, Reader.reads_append.mpr ⟨r', hreads, hreads'⟩, ?_⟩
    rw [hmarks]
    exact hsub.cons_cons t
  | error failure =>
    show (marks (e :: events)).Sublist r.rest
    rw [hmarks, hreads.rest]
    exact List.Sublist.cons_cons t h

/-- Marks that are read one stretch after the other are read in a row. -/
theorem MarksRead.append {α β : Type} {events events' : List Event} {a : α}
    {result : Except Failure (β × Reader)} (h : MarksRead r events (.ok (a, r')))
    (h' : MarksRead r' events' result) : MarksRead r (events ++ events') result := by
  obtain ⟨w, hreads, hsub⟩ := h
  cases result with
  | ok next =>
    obtain ⟨w', hreads', hsub'⟩ := h'
    refine ⟨w ++ w', Reader.reads_append.mpr ⟨r', hreads, hreads'⟩, ?_⟩
    rw [marks_append]
    exact hsub.append hsub'
  | error failure =>
    show (marks (events ++ events')).Sublist r.rest
    rw [marks_append, hreads.rest]
    exact hsub.append h'

/-- Attempts at members mark nothing. -/
theorem marks_members (events : List MemberEvent) : marks (events.map .member) = [] := by
  rw [marks, List.filterMap_map, List.filterMap_eq_nil_iff]
  exact fun _ _ => rfl

/-- However many types a head is tried as, its start is the only mark. -/
theorem marks_readStatement (m : Model) (context : List Node) (r : Reader) :
    marks (readStatement m context r).1 = [r.current] := by
  unfold readStatement
  dsimp only
  split
  · rfl
  · split
    · rfl
    · next word _ =>
      show r.current :: marks (List.map .member _) = _
      rw [marks_members]

/-- Reading a statement marks its first token, which is read. -/
theorem marksRead_readStatement (m : Model) (context : List Node) (hend : r.atEnd = false) :
    MarksRead r (readStatement m context r).1 (readStatement m context r).2 := by
  cases hresult : (readStatement m context r).2 with
  | error failure =>
    show (marks (readStatement m context r).1).Sublist r.rest
    rw [marks_readStatement, Reader.rest_eq_cons hend]
    exact List.singleton_sublist.mpr List.mem_cons_self
  | ok next =>
    obtain ⟨w, hreads⟩ := readStatement_reads hresult
    refine ⟨_, hreads, ?_⟩
    rw [marks_readStatement]
    exact List.singleton_sublist.mpr List.mem_cons_self

/-- Closing blocks marks the braces that are read. -/
theorem marksRead_closeBlocks (context : List Node) (r : Reader) :
    MarksRead r (closeBlocks context r).1 (closeBlocks context r).2 := by
  induction context generalizing r with
  | nil =>
    rw [closeBlocks]
    split
    · exact ⟨[], .nil r, List.Sublist.refl _⟩
    · exact List.nil_sublist _
  | cons n outer ih =>
    rw [closeBlocks]
    split
    · exact ⟨[], .nil r, List.Sublist.refl _⟩
    · next r' hread =>
      obtain ⟨t, _, hreads⟩ := Reader.tryRead_eq_some_iff.mp hread
      exact MarksRead.cons (last?_of_reads hreads) hreads (ih r')

/-- The end of a statement marks the brace that opens a block, and those that
close blocks. -/
theorem marksRead_endStatement (m : Model) (n : Node) (context : List Node) (r : Reader) :
    MarksRead r (endStatement m n context r).1 (endStatement m n context r).2 := by
  unfold endStatement
  split
  · next r' hread =>
    obtain ⟨t, _, hreads⟩ := Reader.tryRead_eq_some_iff.mp hread
    exact MarksRead.cons (last?_of_reads hreads) hreads (marksRead_closeBlocks (n :: context) r')
  · split
    · next r' hread =>
      obtain ⟨t, _, hreads⟩ := Reader.tryRead_eq_some_iff.mp hread
      -- A semicolon is read without an event.
      have hsemicolon : MarksRead r [] (.ok ((), r')) :=
        ⟨[t], hreads, List.nil_sublist _⟩
      exact hsemicolon.append (marksRead_closeBlocks context r')
    · exact List.nil_sublist _

/-- The marks of a parse are some of its tokens, in their order. -/
theorem marks_parseFrom_sublist (m : Model) (context : List Node) (r : Reader) :
    (marks (parseFrom m context r).events).Sublist r.rest := by
  -- Each statement reads the tokens that it marks, and the next one goes on
  -- after them.
  fun_induction parseFrom m context r with
  | case1 r hend => exact List.nil_sublist _
  | case2 r hend node outer => exact List.nil_sublist _
  | case3 context r hend events failure hread =>
    have hmarks := marksRead_readStatement m context (Bool.eq_false_iff.mpr hend)
    rw [hread] at hmarks
    exact hmarks
  | case4 context r hend events n afterHead hread closing failure hending =>
    have hmarks := marksRead_readStatement m context (Bool.eq_false_iff.mpr hend)
    have hmarks' := marksRead_endStatement m n context afterHead
    rw [hread] at hmarks
    rw [hending] at hmarks'
    exact hmarks.append hmarks'
  | case5 =>
    rename_i context r hend events n afterHead hread closing context' next hending _ ih
    have hmarks := marksRead_readStatement m context (Bool.eq_false_iff.mpr hend)
    have hmarks' := marksRead_endStatement m n context afterHead
    rw [hread] at hmarks
    rw [hending] at hmarks'
    obtain ⟨w, hreads, hsub⟩ := hmarks.append hmarks'
    rw [marks_append, hreads.rest]
    exact hsub.append ih

/-- The marks of a script are some of its tokens, in their order. -/
theorem marks_parse_sublist (m : Model) (tokens : List Token) :
    (marks (parse m tokens).events).Sublist tokens :=
  marks_parseFrom_sublist m [] (.ofTokens tokens)

/-- Closing blocks moves forward. -/
theorem leadsTo_of_closeBlocks (h : (closeBlocks context r).2 = .ok (context', r')) :
    r.LeadsTo r' := by
  have hmarks := marksRead_closeBlocks context r
  rw [h] at hmarks
  obtain ⟨_, hreads, _⟩ := hmarks
  exact hreads.leadsTo

/-- The end of a statement moves forward. -/
theorem leadsTo_of_endStatement (h : (endStatement m n context r).2 = .ok (context', r')) :
    r.LeadsTo r' := by
  have hmarks := marksRead_endStatement m n context r
  rw [h] at hmarks
  obtain ⟨_, hreads, _⟩ := hmarks
  exact hreads.leadsTo

end ConceptScript.Script
