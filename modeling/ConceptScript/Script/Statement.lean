import ConceptScript.Script.Interpretation

/-!
# `ConceptScript.Script.Statement`: one statement of a script

A statement starts with a keyword. It is read as every type with that
keyword, each time from the same place. The interpretation that reads the
most tokens is the right one, if it is the only one that long. If all
fail, the one that got furthest is reported, the first of those if there
are several.

A statement ends with `;`, or with `{` which opens a block. Every `}`
that follows closes the innermost open block.
-/

set_option autoImplicit false

namespace ConceptScript.Script

open ConceptScript.Text

/-- A fault at a token, given by its index. -/
structure Failure where
  index : Nat
  fault : Fault
  deriving DecidableEq, Repr

/-- What can be watched while a script is read. Concepts of open blocks
are listed from the innermost out. -/
inductive Event where
  /-- A statement is about to be read. -/
  | statement (reader : Reader)
  /-- An attempt to read a member was made. -/
  | member (event : MemberEvent)
  /-- A block was opened or closed; the blocks are those open now. -/
  | block (reader : Reader) (context : List Node) (opening : Bool)

/-- The interpretations that succeeded. -/
def successes : List Interpretation → List (Node × Reader)
  | [] => []
  | i :: rest =>
    match i.result with
    | .ok node => (node, i.reader) :: successes rest
    | .error _ => successes rest

/-- The failed interpretation that read the most tokens, the first of
those if there are several: why and where it failed. -/
def furthest? : List Interpretation → Option (Mismatch × Nat)
  | [] => none
  | i :: rest =>
    match i.result, furthest? rest with
    | .ok _, other => other
    | .error why, none => some (why, i.reader.position)
    | .error why, some other =>
      if i.reader.position < other.2 then some other else some (why, i.reader.position)

/-- The one successful interpretation that reads the most tokens. The
word is the keyword and stands at the index. -/
def choose (m : Model) (word : String) (index : Nat) (all : List Interpretation) :
    Except Failure (Node × Reader) :=
  let read := successes all
  match (read.map (·.2.position)).max? with
  | some longest =>
    match read.filter (·.2.position == longest) with
    | [best] => .ok best
    | tied =>
      .error ⟨index, .ambiguous word (tied.map fun (node, _) => (m.typeAt node.type).typeName)⟩
  | none =>
    match furthest? all with
    | some (why, place) => .error ⟨place, .noInterpretation word why⟩
    | none => .error ⟨index, .unknownKeyword word⟩

/-- The interpretations of the statement at a reader, one for each type
with the given keyword. -/
def interpretations (m : Model) (context : List Node) (word : String) (r : Reader) :
    List Interpretation :=
  (m.byKeyword word).map fun c => interpret m context c r

/-- Reads the keyword and the members of a statement. -/
def readStatement (m : Model) (context : List Node) (r : Reader) :
    List Event × Except Failure (Node × Reader) :=
  let started := Event.statement r
  if r.current.is "\x7d" then ([started], .error ⟨r.position, .strayBrace⟩)
  else match r.current.word? with
    | none => ([started], .error ⟨r.position, .expectedConceptKeyword r.current⟩)
    | some word =>
      let all := interpretations m context word r
      (started :: (all.flatMap (·.events)).map .member, choose m word r.position all)

/-- Closes a block for every `}` that comes next. -/
def closeBlocks : List Node → Reader → List Event × Except Failure (List Node × Reader)
  | [], r =>
    match r.tryRead "\x7d" with
    | none => ([], .ok ([], r))
    | some _ => ([], .error ⟨r.position, .strayBrace⟩)
  | node :: outer, r =>
    match r.tryRead "\x7d" with
    | none => ([], .ok (node :: outer, r))
    | some r' =>
      let (events, result) := closeBlocks outer r'
      (.block r' outer false :: events, result)

/-- Reads the end of a statement and of the blocks that end with it. -/
def endStatement (m : Model) (node : Node) (context : List Node) (r : Reader) :
    List Event × Except Failure (List Node × Reader) :=
  match r.tryRead "\x7b" with
  | some r' =>
    let (events, result) := closeBlocks (node :: context) r'
    (.block r' (node :: context) true :: events, result)
  | none =>
    match r.tryRead ";" with
    | some r' => closeBlocks context r'
    | none => ([], .error ⟨r.position, .expectedTerminator (node.describe m) r.current⟩)

/-- What succeeded is the result of one of the interpretations, with its
reader. -/
theorem mem_successes {all : List Interpretation} {node : Node} {r : Reader}
    (h : (node, r) ∈ successes all) :
    ∃ i ∈ all, i.result = .ok node ∧ i.reader = r := by
  induction all with
  | nil => cases h
  | cons i rest ih =>
    unfold successes at h
    split at h
    · next n hn =>
      rcases List.mem_cons.mp h with h | h
      · cases h
        exact ⟨i, by simp, hn, rfl⟩
      · obtain ⟨j, hj, hres⟩ := ih h
        exact ⟨j, by simp [hj], hres⟩
    · obtain ⟨j, hj, hres⟩ := ih h
      exact ⟨j, by simp [hj], hres⟩

/-- What is chosen is one of the interpretations that succeeded. -/
theorem choose_mem_successes {m : Model} {word : String} {index : Nat}
    {all : List Interpretation} {best : Node × Reader} (h : choose m word index all = .ok best) :
    best ∈ successes all := by
  unfold choose at h
  dsimp only at h
  split at h
  · split at h
    · next one hone =>
      cases h
      exact (List.mem_filter.mp (hone ▸ List.mem_singleton_self best)).1
    · cases h
  · split at h <;> cases h

/-- A statement has at least its keyword. -/
theorem readStatement_rest_length_lt {m : Model} {context : List Node} {r r' : Reader}
    {node : Node} (h : (readStatement m context r).2 = .ok (node, r')) :
    r'.rest.length < r.rest.length := by
  unfold readStatement at h
  dsimp only at h
  split at h
  · cases h
  · split at h
    · cases h
    · next word hword =>
      obtain ⟨i, hi, hres, hreader⟩ := mem_successes (choose_mem_successes h)
      obtain ⟨c, _, rfl⟩ := List.mem_map.mp hi
      exact hreader ▸ interpret_rest_length_lt hres

/-- Closing blocks does not go back. -/
theorem closeBlocks_rest_length_le {context context' : List Node} {r r' : Reader}
    (h : (closeBlocks context r).2 = .ok (context', r')) : r'.rest.length ≤ r.rest.length := by
  induction context generalizing r with
  | nil =>
    unfold closeBlocks at h
    split at h
    · cases h
      simp
    · cases h
  | cons node outer ih =>
    unfold closeBlocks at h
    split at h
    · cases h
      simp
    · next r'' hr'' =>
      have := ih h
      have := Reader.tryRead_rest_length_lt hr''
      omega

/-- The end of a statement does not go back, whether it opens a block or ends
with a semicolon. -/
theorem endStatement_rest_length_le {m : Model} {node : Node} {context context' : List Node}
    {r r' : Reader} (h : (endStatement m node context r).2 = .ok (context', r')) :
    r'.rest.length ≤ r.rest.length := by
  unfold endStatement at h
  split at h
  · next r'' hr'' =>
    have := closeBlocks_rest_length_le h
    have := Reader.tryRead_rest_length_lt hr''
    omega
  · split at h
    · next r'' hr'' =>
      have := closeBlocks_rest_length_le h
      have := Reader.tryRead_rest_length_lt hr''
      omega
    · cases h

end ConceptScript.Script
