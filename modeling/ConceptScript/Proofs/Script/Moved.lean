import ConceptScript.Proofs.Script.ParseStep
import ConceptScript.Proofs.Text.LineEnds

/-!
# `ConceptScript.Proofs.Script.Moved`: reading does not look at offsets

Tokens carry the offsets at which they stand. Reading goes by their kinds
and values alone, so tokens at other offsets are read alike: what comes
out has its tokens moved, and is the same otherwise.

`moved` is defined for everything that holds tokens. For each function
that reads there is one equation, which says that it can be done before
moving or after. `Reading.Moves` is that equation for readings, and
`parse_moved` is the last of them. Messages name tokens by their values,
so they stay (`Fault.message_moved`).
-/

set_option autoImplicit false

namespace ConceptScript.Script

open ConceptScript.Text
open ConceptScript.Model (TypeId Member)

variable (s : Moving)

/-! ### Tokens and readers -/

/-- A token with its offsets moved. -/
def Token.moved (t : Token) : Token := { t with start := s.move t.start, stop := s.move t.stop }

namespace Token

variable (t : Token)

/-- A moved token is of the same kind. -/
@[simp] theorem moved_kind : (t.moved s).kind = t.kind := rfl

/-- A moved token has the same value. -/
@[simp] theorem moved_value : (t.moved s).value = t.value := rfl

/-- A moved token ends the script just if the token does. -/
@[simp] theorem moved_isEnd : (t.moved s).isEnd = t.isEnd := rfl

/-- A moved token is a certain special token just if the token is. -/
@[simp] theorem moved_is (text : String) : (t.moved s).is text = t.is text := rfl

/-- A moved token is the same word, or none. -/
@[simp] theorem moved_word? : (t.moved s).word? = t.word? := rfl

/-- The end of a script is moved to the moved offset. -/
@[simp] theorem moved_endAt (offset : Nat) : (endAt offset).moved s = endAt (s.move offset) := rfl

end Token

/-- A reader on moved tokens. -/
def Reader.moved (r : Reader) : Reader := ⟨r.before.map (·.moved s), r.rest.map (·.moved s)⟩

namespace Reader

variable (r : Reader)

/-- A moved reader is at the moved token. -/
@[simp] theorem moved_current : (r.moved s).current = r.current.moved s := by
  cases hrest : r.rest with
  | nil => simp [current, moved, hrest, s.zero]
  | cons t rest => simp [current, moved, hrest]

/-- A moved reader is at the end of its script just if the reader is. -/
@[simp] theorem moved_atEnd : (r.moved s).atEnd = r.atEnd := by simp [atEnd]

/-- A moved reader has read as many tokens. -/
@[simp] theorem moved_position : (r.moved s).position = r.position := by simp [position, moved]

/-- A moved reader has last read the moved token. -/
@[simp] theorem moved_last? : (r.moved s).last? = r.last?.map (·.moved s) := by
  simp [last?, moved]

/-- To go on and be moved is to be moved and go on. -/
@[simp] theorem moved_advance : (r.moved s).advance = r.advance.moved s := by
  cases hrest : r.rest with
  | nil => simp [advance, moved, hrest]
  | cons t rest =>
    simp only [advance, moved, hrest, List.map_cons, Token.moved_isEnd]
    split <;> simp [hrest]

/-- A moved reader reads the special tokens that the reader does. -/
@[simp] theorem moved_tryRead (text : String) :
    (r.moved s).tryRead text = (r.tryRead text).map (·.moved s) := by
  simp only [tryRead, moved_current, Token.moved_is, moved_advance]
  split <;> rfl

/-- A moved reader reads the keywords that the reader does. -/
@[simp] theorem moved_tryReadKeyword (keyword : String) :
    (r.moved s).tryReadKeyword keyword = (r.tryReadKeyword keyword).map (·.moved s) := by
  simp only [tryReadKeyword, moved_current, Token.moved_kind, Token.moved_value, moved_advance]
  split <;> rfl

end Reader

/-! ### Faults -/

/-- A mismatch with the token that it names moved. -/
def Mismatch.moved : Mismatch → Mismatch
  | .expectedText found => .expectedText (found.moved s)
  | why => why

/-- The message of a mismatch names tokens by what they are, so it is the
same. -/
@[simp] theorem Mismatch.message_moved (why : Mismatch) : (why.moved s).message = why.message := by
  cases why <;> rfl

/-- A fault with the token that it names moved. -/
def Fault.moved : Fault → Fault
  | .expectedTerminator concept found => .expectedTerminator concept (found.moved s)
  | .expectedConceptKeyword found => .expectedConceptKeyword (found.moved s)
  | .noInterpretation keyword why => .noInterpretation keyword (why.moved s)
  | fault => fault

/-- The code of a moved fault is the same. -/
@[simp] theorem Fault.code_moved (fault : Fault) : (fault.moved s).code = fault.code := by
  cases fault <;> rfl

/-- The message of a moved fault is the same. -/
@[simp] theorem Fault.message_moved (fault : Fault) : (fault.moved s).message = fault.message := by
  cases fault with
  | noInterpretation keyword why =>
    exact congrArg ("Cannot parse " ++ keyword ++ ": " ++ ·) (why.message_moved s)
  | _ => rfl

/-- A failure on moved tokens. Tokens keep their indices. -/
def Failure.moved (f : Failure) : Failure := { f with fault := f.fault.moved s }

/-! ### Readings -/

/-- Changing the failure of a result leaves a value as it is. -/
@[simp] theorem mapError_ok {ε α : Type} (f : ε → ε) (a : α) :
    (Except.ok a : Except ε α).mapError f = .ok a := rfl

/-- Changing the failure of a result changes its failure. -/
@[simp] theorem mapError_error {ε α : Type} (f : ε → ε) (e : ε) :
    (Except.error e : Except ε α).mapError f = .error (f e) := rfl

namespace Reading

variable {α β γ δ : Type} {f : α → β} {g : γ → δ} {p : Reading α} {p' : Reading β}

/-- What comes of a reading, moved. The value is taken to another one. -/
def movedOutcome (f : α → β) (x : Except Mismatch α × Reader) : Except Mismatch β × Reader :=
  ((x.1.map f).mapError (·.moved s), x.2.moved s)

/-- What was read well is moved by taking the value to another one and moving
the reader. -/
theorem movedOutcome_ok (f : α → β) (a : α) (r : Reader) :
    movedOutcome s f (.ok a, r) = (.ok (f a), r.moved s) := rfl

/-- The second reading reads moved tokens as the first one reads tokens. -/
def Moves (f : α → β) (p : Reading α) (p' : Reading β) : Prop :=
  ∀ r : Reader, p' (r.moved s) = movedOutcome s f (p r)

/-- Reading nothing moves. -/
theorem moves_pure (a : α) : Moves s f (pure a : Reading α) (pure (f a) : Reading β) :=
  fun _ => rfl

/-- A failure moves with the token that it names. -/
theorem moves_fail (why : Mismatch) :
    Moves s f (fail why : Reading α) (fail (why.moved s) : Reading β) := fun _ => rfl

/-- Reading a text gives the moved token. -/
theorem moves_textToken : Moves s (Token.moved s) textToken textToken := by
  intro r
  simp only [textToken, Reader.readText, Reader.moved_current, Token.moved_kind,
    Reader.moved_advance]
  split <;> rfl

/-- Reading a dot moves, if the failure names no token. -/
theorem moves_dot {why : Mismatch} (h : why.moved s = why) : Moves s id (dot why) (dot why) := by
  intro r
  simp only [dot, Reader.moved_tryRead]
  cases r.tryRead "." with
  | some r' => rfl
  | none => simp [movedOutcome, Except.map, h]

/-- The same of a dot that is read where one is needed. -/
theorem moves_dotIf (needed : Bool) {why : Mismatch} (h : why.moved s = why) :
    Moves s id (dotIf needed why) (dotIf needed why) := by
  unfold dotIf
  split
  · exact moves_dot s h
  · exact moves_pure s ()

variable {s} in
/-- Readings that move can be put after one another. -/
theorem Moves.bind {q : α → Reading γ} {q' : β → Reading δ} (hp : Moves s f p p')
    (hq : ∀ a, Moves s g (q a) (q' (f a))) : Moves s g (p >>= q) (p' >>= q') := by
  intro r
  show andThen p' q' (r.moved s) = movedOutcome s g (andThen p q r)
  unfold andThen
  rw [hp r]
  cases p r with
  | mk value r' =>
    cases value with
    | error why => rfl
    | ok a => exact hq a r'

end Reading

open Reading

variable {s}

/-- Reading a key moves, if reading references does. -/
theorem moves_readKey {reference : TypeId → Reading Node}
    (h : ∀ type, Moves s id (reference type) (reference type)) (typeName : String)
    (member : Member) :
    Moves s id (readKey reference typeName member) (readKey reference typeName member) := by
  unfold readKey
  split
  · exact (moves_textToken s).bind fun t => moves_pure s (Slot.text t.value)
  · exact (moves_textToken s).bind fun t => moves_pure s (Slot.text t.value)
  · exact (h _).bind fun node => moves_pure s (Slot.node node)
  · exact moves_fail s _

/-- Reading keys moves, if reading references does. Induction on the members. -/
theorem moves_readKeys {reference : TypeId → Reading Node}
    (h : ∀ type, Moves s id (reference type) (reference type)) (typeName : String) (later : Bool)
    (members : List Member) :
    Moves s id (readKeys reference typeName later members)
      (readKeys reference typeName later members) := by
  induction members generalizing later with
  | nil => exact moves_pure s _
  | cons member rest ih =>
    unfold readKeys
    split
    · refine (moves_dotIf s _ rfl).bind fun _ => (moves_readKey h typeName member).bind fun slot => ?_
      exact (ih true).bind fun slots => moves_pure s (slot :: slots)
    · exact (ih later).bind fun slots => moves_pure s (Slot.empty :: slots)

variable (m : Model)

/-- Reading a reference moves, at any depth. What it gives has no offsets in
it, so it is the same. -/
theorem moves_readReferenceWithin (depth : Nat) (type : TypeId) :
    Moves s id (readReferenceWithin m depth type) (readReferenceWithin m depth type) := by
  induction depth generalizing type with
  | zero => exact moves_fail s _
  | succ depth ih =>
    exact (moves_readKeys ih _ _ _).bind fun slots => moves_pure s (Node.mk type slots)

/-- Reading a value moves. -/
theorem moves_readValue (c : ConceptType) (member : Member) (parent : Option Node) :
    Moves s id (readValue m c member parent) (readValue m c member parent) := by
  unfold readValue
  split
  · exact (moves_textToken s).bind fun t => moves_pure s (Slot.text t.value, false)
  · refine (moves_textToken s).bind fun t => ?_
    rw [Token.moved_value]
    split
    · exact moves_pure s _
    · exact moves_fail s _
  · split
    · exact moves_pure s _
    · exact moves_fail s _
  · split
    · exact moves_pure s _
    · exact (moves_readReferenceWithin m _ _).bind fun node =>
        moves_pure s (Slot.node node, member.isKey)

/-- Reading a member moves. -/
theorem moves_readMember (c : ConceptType) (member : Member) (parent : Option Node)
    (afterReference : Bool) :
    Moves s id (readMember m c member parent afterReference)
      (readMember m c member parent afterReference) :=
  (moves_dotIf s _ rfl).bind fun _ => moves_readValue m c member parent

/-! ### Statements -/

/-- An attempt to read a member on moved tokens. -/
def MemberEvent.moved (s : Moving) (e : MemberEvent) : MemberEvent :=
  { e with reader := e.reader.moved s, value := e.value.mapError (·.moved s) }

/-- What came of reading members of moved tokens. -/
def MembersRead.moved (s : Moving) (x : MembersRead) : MembersRead :=
  ⟨x.events.map (·.moved s), x.result.mapError (·.moved s), x.reader.moved s⟩

/-- An interpretation of moved tokens. -/
def Interpretation.moved (s : Moving) (i : Interpretation) : Interpretation :=
  ⟨i.events.map (·.moved s), i.result.mapError (·.moved s), i.reader.moved s⟩

/-- What can be watched on moved tokens. -/
def Event.moved (s : Moving) : Event → Event
  | .statement r => .statement (r.moved s)
  | .member e => .member (e.moved s)
  | .block r context opening => .block (r.moved s) context opening

/-- What a part of a statement comes to on moved tokens. -/
def movedResult {α : Type} (s : Moving) (x : Except Failure (α × Reader)) :
    Except Failure (α × Reader) :=
  (x.map (Prod.map id (·.moved s))).mapError (·.moved s)

/-- Changing the value and the failure of a result can be done in any order. -/
theorem map_mapError {ε α β : Type} (x : Except ε α) (f : α → β) (g : ε → ε) :
    (x.mapError g).map f = (x.map f).mapError g := by
  cases x <;> rfl

/-- Reading members of moved tokens shows and comes to the same, moved.
Induction on the members. -/
theorem readMembers_moved (c : ConceptType) (parent : Option Node) (afterReference : Bool)
    (index : Nat) (members : List Member) (r : Reader) :
    readMembers m c parent afterReference index members (r.moved s)
      = (readMembers m c parent afterReference index members r).moved s := by
  induction members generalizing afterReference index r with
  | nil => rfl
  | cons member rest ih =>
    unfold readMembers
    split
    · dsimp only
      rw [moves_readMember]
      cases readMember m c member
          (if c.parentMember?.map (·.2) = some index then parent else none) afterReference r with
      | mk value r' =>
        cases value with
        | error why => rfl
        | ok read =>
          obtain ⟨slot, after⟩ := read
          rw [movedOutcome_ok]
          dsimp only [id]
          rw [ih, MembersRead.moved, MembersRead.moved, map_mapError]
          rfl
    · dsimp only
      rw [ih, MembersRead.moved, MembersRead.moved, map_mapError]

/-- A statement of moved tokens read as a type is the statement read as the
type, moved. -/
theorem interpret_moved (context : List Node) (c : ConceptType) (r : Reader) :
    interpret m context c (r.moved s) = (interpret m context c r).moved s := by
  simp only [interpret, Reader.moved_tryReadKeyword]
  cases r.tryReadKeyword c.shownName with
  | none => rfl
  | some r' =>
    simp only [Option.map_some, readMembers_moved, Interpretation.moved, MembersRead.moved,
      map_mapError]

/-- The same interpretations succeed on moved tokens. -/
theorem successes_moved (all : List Interpretation) :
    successes (all.map (·.moved s)) = (successes all).map (Prod.map id (·.moved s)) := by
  induction all with
  | nil => rfl
  | cons i rest ih =>
    rw [List.map_cons, successes, successes, ih]
    cases hresult : i.result with
    | ok node => simp [Interpretation.moved, hresult]
    | error why => simp [Interpretation.moved, hresult]

/-- The same failure is the furthest on moved tokens, since places are
counted in tokens. -/
theorem furthest?_moved (all : List Interpretation) :
    furthest? (all.map (·.moved s)) = (furthest? all).map (Prod.map (·.moved s) id) := by
  induction all with
  | nil => rfl
  | cons i rest ih =>
    rw [List.map_cons, furthest?, furthest?, ih]
    cases hresult : i.result with
    | ok node => simp [Interpretation.moved, hresult]
    | error why =>
      cases furthest? rest with
      | none => simp [Interpretation.moved, hresult]
      | some other =>
        simp only [Interpretation.moved, hresult, mapError_error, Option.map_some, Prod.map_snd,
          id_eq, Reader.moved_position]
        split <;> rfl

/-- How many tokens were read does not change by moving them. -/
theorem positions_moved (read : List (Node × Reader)) :
    (read.map (Prod.map id (·.moved s))).map (·.2.position) = read.map (·.2.position) := by
  rw [List.map_map]
  refine List.map_congr_left fun x _ => ?_
  simp

/-- The choice between moved interpretations is the moved choice. -/
theorem choose_moved (word : String) (index : Nat) (all : List Interpretation) :
    choose m word index (all.map (·.moved s)) = movedResult s (choose m word index all) := by
  unfold choose
  dsimp only
  rw [successes_moved, positions_moved, furthest?_moved]
  cases ((successes all).map (·.2.position)).max? with
  | none =>
    cases furthest? all with
    | none => rfl
    | some found => rfl
  | some longest =>
    -- The longest ones are the same ones, moved.
    have hfilter : ((successes all).map (Prod.map id (·.moved s))).filter (·.2.position == longest)
        = ((successes all).filter (·.2.position == longest)).map (Prod.map id (·.moved s)) := by
      rw [List.filter_map]
      congr 1
      refine List.filter_congr fun x _ => ?_
      simp
    dsimp only
    rw [hfilter]
    cases (successes all).filter (·.2.position == longest) with
    | nil => rfl
    | cons first others =>
      cases others with
      | nil => rfl
      | cons second others => simp [movedResult, Except.map, Failure.moved, Fault.moved]

/-- Reading a statement of moved tokens shows and comes to the same, moved. -/
theorem readStatement_moved (context : List Node) (r : Reader) :
    readStatement m context (r.moved s)
      = ((readStatement m context r).1.map (·.moved s),
        movedResult s (readStatement m context r).2) := by
  unfold readStatement
  simp only [Reader.moved_current, Token.moved_is, Token.moved_word?, Reader.moved_position]
  split
  · rfl
  · cases r.current.word? with
    | none => rfl
    | some word =>
      have hall : interpretations m context word (r.moved s)
          = (interpretations m context word r).map (·.moved s) := by
        rw [interpretations, interpretations, List.map_map]
        exact List.map_congr_left fun c _ => interpret_moved m context c r
      have hevents : (((interpretations m context word r).map (·.moved s)).flatMap (·.events)).map
          Event.member
          = (((interpretations m context word r).flatMap (·.events)).map Event.member).map
            (·.moved s) := by
        rw [List.flatMap_map, List.map_map, List.map_flatMap, List.map_flatMap]
        simp [Interpretation.moved, Event.moved, Function.comp_def]
      dsimp only
      rw [hall, choose_moved, hevents]
      rfl

/-- Closing blocks shows and comes to the same, moved. -/
theorem closeBlocks_moved (context : List Node) (r : Reader) :
    closeBlocks context (r.moved s)
      = ((closeBlocks context r).1.map (·.moved s), movedResult s (closeBlocks context r).2) := by
  induction context generalizing r with
  | nil =>
    simp only [closeBlocks, Reader.moved_tryRead, Reader.moved_position]
    cases r.tryRead "\x7d" <;> rfl
  | cons node outer ih =>
    simp only [closeBlocks, Reader.moved_tryRead]
    cases r.tryRead "\x7d" with
    | none => rfl
    | some r' =>
      simp only [Option.map_some, ih]
      rfl

/-- The end of a statement shows and comes to the same, moved. -/
theorem endStatement_moved (node : Node) (context : List Node) (r : Reader) :
    endStatement m node context (r.moved s)
      = ((endStatement m node context r).1.map (·.moved s),
        movedResult s (endStatement m node context r).2) := by
  simp only [endStatement, Reader.moved_tryRead, Reader.moved_position, Reader.moved_current]
  cases r.tryRead "\x7b" with
  | some r' =>
    simp only [Option.map_some, closeBlocks_moved]
    rfl
  | none =>
    simp only [Option.map_none]
    cases r.tryRead ";" with
    | some r' => simp only [Option.map_some, closeBlocks_moved]
    | none => rfl

/-- What was found in a script of moved tokens. -/
def Parse.moved (s : Moving) (p : Parse) : Parse :=
  ⟨p.events.map (·.moved s), p.result.mapError (·.moved s)⟩

/-- A parse of moved tokens is the moved parse. Induction along the parse,
one statement at a time. -/
theorem parseFrom_moved (context : List Node) (r : Reader) :
    parseFrom m context (r.moved s) = (parseFrom m context r).moved s := by
  fun_induction parseFrom m context r with
  | case1 r hend => rw [parseFrom, if_pos (by simpa using hend)]; rfl
  | case2 r hend node outer =>
    rw [parseFrom, if_pos (by simpa using hend), Reader.moved_position]
    rfl
  | case3 context r hend events failure hs =>
    have hread := readStatement_moved (s := s) m context r
    rw [hs] at hread
    exact parseFrom_of_head_error (by simpa using hend) hread
  | case4 context r hend events node afterHead hs closing failure he =>
    have hread := readStatement_moved (s := s) m context r
    have hending := endStatement_moved (s := s) m node context afterHead
    rw [hs] at hread
    rw [he] at hending
    rw [parseFrom_of_ending_error (by simpa using hend) hread hending, Parse.moved, List.map_append]
    rfl
  | case5 context r hend events node afterHead hs closing context' next he others ih =>
    have hread := readStatement_moved (s := s) m context r
    have hending := endStatement_moved (s := s) m node context afterHead
    rw [hs] at hread
    rw [he] at hending
    rw [parseFrom_of_ok (by simpa using hend) hread hending]
    dsimp only [id]
    rw [ih, Parse.moved, Parse.moved, map_mapError, List.map_append, List.map_append]

/-- Moved tokens are parsed as the tokens are. -/
theorem parse_moved (tokens : List Token) :
    parse m (tokens.map (·.moved s)) = (parse m tokens).moved s :=
  parseFrom_moved m [] (.ofTokens tokens)

end ConceptScript.Script
