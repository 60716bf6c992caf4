import ConceptScript.Proofs.Script.ParseStep
import ConceptScript.Proofs.Script.Recognize

/-!
# `ConceptScript.Proofs.Script.Derivation`: scripts are parsed by the grammar

The parser keeps the concepts of the open blocks on a stack and closes as
many of them as braces follow. The grammar nests statements instead. The
two meet in `Remaining`, which reads a script from the left one head or
one brace at a time:

* `parseFrom_eq_ok_iff`: the parser succeeds on what `Remaining` describes.
* `remaining_iff_statements`: what `Remaining` describes outside of all
  blocks are statements of the grammar.

So a script is parsed exactly when the grammar derives it, into the heads
of its statements (`parse_eq_ok_iff`).
-/

set_option autoImplicit false

namespace ConceptScript.Script

open ConceptScript.Model (TypeId Member)

variable {m : Model} {last : Token}

/-! ### Phrases hold no end of the script -/

/-- No dot that is needed ends the script. The lemmas down to `Members.isEnd`
say the same of all that a head is made of. -/
theorem DotIf.isEnd {needed : Bool} {words : List Token} (h : DotIf needed words) :
    ∀ t ∈ words, t.isEnd = false := by
  cases h with
  | none => exact fun _ ht => absurd ht List.not_mem_nil
  | dot isDot => exact List.forall_mem_singleton.mpr (Token.isEnd_of_is isDot)

mutual

/-- No token of a reference ends the script. -/
theorem Reference.isEnd {type : TypeId} {words : List Token} {n : Node} :
    Reference m type words n → ∀ t ∈ words, t.isEnd = false
  | .keys keys => keys.isEnd

/-- No token of keys ends the script. -/
theorem Keys.isEnd {later : Bool} {members : List Member} {words : List Token}
    {slots : List Slot} : Keys m later members words slots → ∀ t ∈ words, t.isEnd = false
  | .nil => fun _ ht => absurd ht List.not_mem_nil
  | .other _ tail => tail.isEnd
  | .key _ dot value tail => List.forall_mem_append.mpr
      ⟨List.forall_mem_append.mpr ⟨dot.isEnd, value.isEnd⟩, tail.isEnd⟩

/-- No token of the value of a key ends the script. -/
theorem KeyValue.isEnd {member : Member} {words : List Token} {slot : Slot} :
    KeyValue m member words slot → ∀ t ∈ words, t.isEnd = false
  | .text _ isValue => List.forall_mem_singleton.mpr (Token.isEnd_of_isValue isValue)
  | .reference _ reference => reference.isEnd

end

/-- No token of the value of a member ends the script. -/
theorem MemberValue.isEnd {member : Member} {parent : Option Node} {words : List Token}
    {slot : Slot} {isReference : Bool} (h : MemberValue m member parent words slot isReference) :
    ∀ t ∈ words, t.isEnd = false := by
  cases h with
  | text _ isValue => exact List.forall_mem_singleton.mpr (Token.isEnd_of_isValue isValue)
  | choice _ isValue _ => exact List.forall_mem_singleton.mpr (Token.isEnd_of_isValue isValue)
  | anyConcept _ _ => exact fun _ ht => absurd ht List.not_mem_nil
  | nested _ _ _ => exact fun _ ht => absurd ht List.not_mem_nil
  | reference _ _ reference => exact reference.isEnd

/-- No token of the members of a head ends the script. -/
theorem Members.isEnd {c : ConceptType} {context : List Node} {afterReference : Bool}
    {index : Nat} {members : List Member} {words : List Token} {slots : List Slot}
    (h : Members m c context afterReference index members words slots) :
    ∀ t ∈ words, t.isEnd = false := by
  induction h with
  | nil => exact fun _ ht => absurd ht List.not_mem_nil
  | unparsable _ _ ih => exact ih
  | parsable _ dot value _ ih =>
    exact List.forall_mem_append.mpr
      ⟨List.forall_mem_append.mpr ⟨dot.isEnd, value.isEnd⟩, ih⟩

/-- A head is a stretch at the front of the tokens, without an end of the
script in it. -/
theorem Head.exists_words {context : List Node} {tokens rest : List Token} {n : Node}
    (h : Head m context tokens n rest) :
    ∃ words, tokens = words ++ rest ∧ ∀ t ∈ words, t.isEnd = false := by
  cases h with
  | longest isWord _ _ head _ =>
    cases head with
    | mk _ _ members =>
      exact ⟨_, rfl, List.forall_mem_cons.mpr ⟨Token.isEnd_of_word isWord, members.isEnd⟩⟩

/-- A head starts with a word, which is no brace. -/
theorem Head.exists_first {context : List Node} {tokens rest : List Token} {n : Node}
    (h : Head m context tokens n rest) :
    ∃ t others, tokens = t :: others ∧ t.kind = .word ∧ t.is "\x7d" = false := by
  cases h with
  | longest isWord notClosing _ _ _ => exact ⟨_, _, rfl, isWord, notClosing⟩

/-- Some tokens start with at most one head. -/
theorem Head.unique (hm : m.Accepted) {context : List Node} {tokens rest rest' : List Token}
    {n n' : Node} (h : Head m context tokens n rest) (h' : Head m context tokens n' rest') :
    n = n' ∧ rest = rest' := by
  obtain ⟨words, hwords, _⟩ := h.exists_words
  obtain ⟨words', hwords', _⟩ := h'.exists_words
  -- A reader at the tokens reads only one of the two.
  have hread : (readStatement m context ⟨[], tokens⟩).2 = .ok (n, ⟨words.reverse, rest⟩) :=
    (readStatement_eq_ok_iff hm).mpr ⟨⟨words, hwords, by simp⟩, h⟩
  have hread' : (readStatement m context ⟨[], tokens⟩).2 = .ok (n', ⟨words'.reverse, rest'⟩) :=
    (readStatement_eq_ok_iff hm).mpr ⟨⟨words', hwords', by simp⟩, h'⟩
  have hsame := Except.ok.inj (hread.symm.trans hread')
  exact ⟨congrArg Prod.fst hsame, congrArg (·.2.rest) hsame⟩

/-! ### A script from the left -/

/-- What is still to be read in the blocks of some concepts, the innermost
first: heads and the ends of statements one by one. -/
inductive Remaining (m : Model) (last : Token) : List Node → List Token → List Node → Prop
  | done : Remaining m last [] [last] []
  | close {n : Node} {outer nodes : List Node} {u : Token} {rest : List Token}
      (closing : u.is "\x7d" = true) (tail : Remaining m last outer rest nodes) :
      Remaining m last (n :: outer) (u :: rest) nodes
  | single {context nodes : List Node} {tokens rest : List Token} {n : Node} {t : Token}
      (head : Head m context tokens n (t :: rest)) (semicolon : t.is ";" = true)
      (tail : Remaining m last context rest nodes) : Remaining m last context tokens (n :: nodes)
  | block {context nodes : List Node} {tokens rest : List Token} {n : Node} {t : Token}
      (head : Head m context tokens n (t :: rest)) (opening : t.is "\x7b" = true)
      (tail : Remaining m last (n :: context) rest nodes) :
      Remaining m last context tokens (n :: nodes)

/-- What remains reaches to the end of the script. -/
theorem Remaining.exists_body {context nodes : List Node} {tokens : List Token}
    (h : Remaining m last context tokens nodes) : ∃ body, tokens = body ++ [last] := by
  have happend : ∀ (words : List Token) {rest : List Token}, (∃ body, rest = body ++ [last]) →
      ∃ body, words ++ rest = body ++ [last] := by
    rintro words rest ⟨body, rfl⟩
    exact ⟨words ++ body, (List.append_assoc _ _ _).symm⟩
  induction h with
  | done => exact ⟨[], rfl⟩
  | @close _ _ _ u _ _ _ ih => exact happend [u] ih
  | @single _ _ _ _ _ t head _ _ ih =>
    obtain ⟨words, rfl, _⟩ := head.exists_words
    exact happend words (happend [t] ih)
  | @block _ _ _ _ _ t head _ _ ih =>
    obtain ⟨words, rfl, _⟩ := head.exists_words
    exact happend words (happend [t] ih)

mutual

/-- What remains after a statement remains with the statement in front of it. -/
theorem Statement.remaining {context nodes nodes' : List Node} {tokens rest : List Token} :
    Statement m context tokens nodes rest → Remaining m last context rest nodes' →
      Remaining m last context tokens (nodes ++ nodes')
  | .single head semicolon, tail => .single head semicolon tail
  | .block head opening statements closing, tail =>
    .block head opening (statements.remaining (.close closing tail))

/-- What remains after some statements remains with these in front of it. -/
theorem Statements.remaining {context nodes nodes' : List Node} {tokens rest : List Token} :
    Statements m context tokens nodes rest → Remaining m last context rest nodes' →
      Remaining m last context tokens (nodes ++ nodes')
  | .nil, tail => tail
  | .cons first others, tail =>
    (List.append_assoc _ _ _).symm ▸ first.remaining (others.remaining tail)

end

/-- Statements to the end of the script, in the blocks of some concepts:
those of the innermost block, its brace, and so on outwards. -/
def Unwound (m : Model) (last : Token) : List Node → List Token → List Node → Prop
  | [], tokens, nodes => Statements m [] tokens nodes [last]
  | n :: outer, tokens, nodes => ∃ inner u rest others,
      Statements m (n :: outer) tokens inner (u :: rest) ∧ u.is "\x7d" = true
        ∧ Unwound m last outer rest others ∧ nodes = inner ++ others

/-- A statement in front of statements to the end of the script is one of
them. -/
theorem Unwound.cons {context nodes nodes' : List Node} {tokens middle : List Token}
    (first : Statement m context tokens nodes middle)
    (h : Unwound m last context middle nodes') :
    Unwound m last context tokens (nodes ++ nodes') := by
  cases context with
  | nil => exact Statements.cons first h
  | cons n outer =>
    obtain ⟨inner, u, rest, others, hinner, hclosing, hothers, rfl⟩ := h
    exact ⟨nodes ++ inner, u, rest, others, Statements.cons first hinner, hclosing, hothers,
      (List.append_assoc _ _ _).symm⟩

/-- What is read head by head is statements to the end of the script. The
induction is on what remains, and a block is put together when its brace is
met. -/
theorem Remaining.unwound {context nodes : List Node} {tokens : List Token}
    (h : Remaining m last context tokens nodes) : Unwound m last context tokens nodes := by
  induction h with
  | done => exact Statements.nil
  | close closing _ ih => exact ⟨[], _, _, _, .nil, closing, ih, rfl⟩
  | single head semicolon _ ih => exact Unwound.cons (.single head semicolon) ih
  | block head opening _ ih =>
    -- The statements up to the next brace are those of this block.
    obtain ⟨inner, u, rest, others, hinner, hclosing, hothers, rfl⟩ := ih
    exact Unwound.cons (.block head opening hinner hclosing) hothers

/-- Outside of all blocks statements remain. -/
theorem remaining_iff_statements {tokens : List Token} {nodes : List Node} :
    Remaining m last [] tokens nodes ↔ Statements m [] tokens nodes [last] := by
  constructor
  · exact Remaining.unwound
  · intro h
    exact List.append_nil nodes ▸ h.remaining .done

/-! ### The parser -/

/-- Tokens of which only the last one ends the script. -/
def EndsOnce (last : Token) (tokens : List Token) : Prop :=
  ∃ body, tokens = body ++ [last] ∧ ∀ t ∈ body, t.isEnd = false

/-- A script ends once also after some of its tokens were read. -/
theorem EndsOnce.of_reads {r r' : Reader} {words : List Token} (hlast : last.isEnd = true)
    (hreads : r.Reads words r') (hwords : ∀ t ∈ words, t.isEnd = false)
    (h : EndsOnce last r.rest) : EndsOnce last r'.rest := by
  rw [hreads.rest] at h
  clear hreads
  induction words with
  | nil => exact h
  | cons t words ih =>
    obtain ⟨body, hbody, hends⟩ := h
    obtain ⟨ht, hwords⟩ := List.forall_mem_cons.mp hwords
    refine ih hwords ?_
    cases body with
    | nil =>
      rw [(List.cons.inj hbody).1, hlast] at ht
      cases ht
    | cons b body =>
      exact ⟨body, (List.cons.inj hbody).2, (List.forall_mem_cons.mp hends).2⟩

/-- A reader at the end of a script has only the end ahead. -/
theorem EndsOnce.rest_of_atEnd {r : Reader} (h : EndsOnce last r.rest) (hend : r.atEnd = true) :
    r.rest = [last] := by
  obtain ⟨body, hbody, hends⟩ := h
  cases body with
  | nil => exact hbody
  | cons b body =>
    rw [Reader.atEnd, Reader.current_of_rest hbody, hends b List.mem_cons_self] at hend
    cases hend

/-- The end of a statement and what remains after it. -/
inductive Ending (m : Model) (last : Token) (n : Node) (context : List Node) :
    List Token → List Node → Prop
  | single {t : Token} {rest : List Token} {nodes : List Node} (semicolon : t.is ";" = true)
      (tail : Remaining m last context rest nodes) : Ending m last n context (t :: rest) nodes
  | block {t : Token} {rest : List Token} {nodes : List Node} (opening : t.is "\x7b" = true)
      (tail : Remaining m last (n :: context) rest nodes) :
      Ending m last n context (t :: rest) nodes

/-- Where a head stands, that head remains and the end of its statement. -/
theorem remaining_iff_of_head (hm : m.Accepted) (hlast : last.isEnd = true)
    {context nodes : List Node} {tokens rest : List Token} {n : Node}
    (head : Head m context tokens n rest) :
    Remaining m last context tokens nodes ↔
      ∃ others, nodes = n :: others ∧ Ending m last n context rest others := by
  constructor
  · intro h
    -- A head starts with a word that is no brace, so only a head can come first.
    cases h with
    | done =>
      obtain ⟨t, others, ht, hword, _⟩ := head.exists_first
      cases ht
      rw [Token.isEnd_of_word hword] at hlast
      cases hlast
    | close closing _ =>
      obtain ⟨t, others, ht, _, hnot⟩ := head.exists_first
      cases ht
      rw [closing] at hnot
      cases hnot
    | single head' semicolon tail =>
      obtain ⟨rfl, rfl⟩ := head.unique hm head'
      exact ⟨_, rfl, .single semicolon tail⟩
    | block head' opening tail =>
      obtain ⟨rfl, rfl⟩ := head.unique hm head'
      exact ⟨_, rfl, .block opening tail⟩
  · rintro ⟨others, rfl, hending⟩
    cases hending with
    | single semicolon tail => exact .single head semicolon tail
    | block opening tail => exact .block head opening tail

/-- At a closing brace the innermost block closes. -/
theorem remaining_iff_of_closing {context nodes : List Node} {t : Token} {rest : List Token}
    (hlast : last.isEnd = true) (h : t.is "\x7d" = true) :
    Remaining m last context (t :: rest) nodes ↔
      ∃ n outer, context = n :: outer ∧ Remaining m last outer rest nodes := by
  constructor
  · intro hremaining
    cases hremaining with
    | done =>
      rw [Token.isEnd_of_is h] at hlast
      cases hlast
    | close _ tail => exact ⟨_, _, rfl, tail⟩
    | single head _ _ =>
      -- A head does not start with a brace.
      obtain ⟨_, _, ht, _, hnot⟩ := head.exists_first
      cases ht
      rw [h] at hnot
      cases hnot
    | block head _ _ =>
      obtain ⟨_, _, ht, _, hnot⟩ := head.exists_first
      cases ht
      rw [h] at hnot
      cases hnot
  · rintro ⟨n, outer, rfl, tail⟩
    exact .close h tail

/-- What a step of the parser that went well leaves behind: fewer tokens of
the same script, a place that is not at a brace, and the same nodes to
come. -/
structure Continues (m : Model) (last : Token) (r : Reader) (remaining : List Node → Prop)
    (context : List Node) (r' : Reader) : Prop where
  endsOnce : EndsOnce last r.rest → EndsOnce last r'.rest
  notClosing : r'.current.is "\x7d" = false
  iff : ∀ nodes, remaining nodes ↔ Remaining m last context r'.rest nodes

/-- What a step of the parser is to do with what remains at a reader: go on
to the rest of it, or fail where there is no way on. -/
def Pursues (m : Model) (last : Token) (r : Reader) (remaining : List Node → Prop) :
    Except Failure (List Node × Reader) → Prop
  | .ok (context, r') => Continues m last r remaining context r'
  | .error _ => ∀ nodes, ¬ remaining nodes

/-- A token that can only be read in one way may be read first. -/
theorem Pursues.after {r r' : Reader} {t : Token} {remaining remaining' : List Node → Prop}
    {result : Except Failure (List Node × Reader)} (hlast : last.isEnd = true)
    (ht : t.isEnd = false) (hreads : r.Reads [t] r')
    (hiff : ∀ nodes, remaining nodes ↔ remaining' nodes)
    (h : Pursues m last r' remaining' result) : Pursues m last r remaining result := by
  cases result with
  | ok next =>
    have hnext : Continues m last r' remaining' next.1 next.2 := h
    exact ⟨fun hends => hnext.endsOnce
        (hends.of_reads hlast hreads (List.forall_mem_singleton.mpr ht)),
      hnext.notClosing, fun nodes => (hiff nodes).trans (hnext.iff nodes)⟩
  | error failure =>
    have hnone : ∀ nodes, ¬ remaining' nodes := h
    exact fun nodes hremaining => hnone nodes ((hiff nodes).mp hremaining)

/-- Closing blocks goes on to what remains after the braces. -/
theorem pursues_closeBlocks (hlast : last.isEnd = true) (context : List Node) (r : Reader) :
    Pursues m last r (Remaining m last context r.rest) (closeBlocks context r).2 := by
  induction context generalizing r with
  | nil =>
    rw [closeBlocks]
    cases hread : r.tryRead "\x7d" with
    | none => exact ⟨id, Reader.tryRead_eq_none_iff.mp hread, fun _ => .rfl⟩
    | some r' =>
      -- A brace with no block to close.
      obtain ⟨t, ht, hreads⟩ := Reader.tryRead_eq_some_iff.mp hread
      intro nodes hremaining
      rw [hreads.rest] at hremaining
      obtain ⟨n, outer, hcontext, _⟩ := (remaining_iff_of_closing hlast ht).mp hremaining
      cases hcontext
  | cons n outer ih =>
    rw [closeBlocks]
    cases hread : r.tryRead "\x7d" with
    | none => exact ⟨id, Reader.tryRead_eq_none_iff.mp hread, fun _ => .rfl⟩
    | some r' =>
      obtain ⟨t, ht, hreads⟩ := Reader.tryRead_eq_some_iff.mp hread
      refine Pursues.after hlast (Token.isEnd_of_is ht) hreads (fun nodes => ?_) (ih r')
      rw [hreads.rest]
      constructor
      · intro hremaining
        obtain ⟨_, _, hcontext, tail⟩ := (remaining_iff_of_closing hlast ht).mp hremaining
        cases hcontext
        exact tail
      · exact .close ht

/-- The end of a statement is read as the grammar has it: a semicolon, or the
brace of a block. -/
theorem pursues_endStatement (hlast : last.isEnd = true) (n : Node) (context : List Node)
    (r : Reader) :
    Pursues m last r (Ending m last n context r.rest) (endStatement m n context r).2 := by
  unfold endStatement
  cases hopen : r.tryRead "\x7b" with
  | some r' =>
    -- With an opening brace the grammar leaves a block only.
    obtain ⟨t, ht, hreads⟩ := Reader.tryRead_eq_some_iff.mp hopen
    refine Pursues.after hlast (Token.isEnd_of_is ht) hreads (fun nodes => ?_)
      (pursues_closeBlocks hlast (n :: context) r')
    rw [hreads.rest]
    constructor
    · intro hending
      cases hending with
      | single semicolon _ =>
        rw [Token.is_eq_false_of_is ht (by decide)] at semicolon
        cases semicolon
      | block _ tail => exact tail
    · exact .block ht
  | none =>
    cases hsemicolon : r.tryRead ";" with
    | some r' =>
      -- With a semicolon it leaves a single statement only.
      obtain ⟨t, ht, hreads⟩ := Reader.tryRead_eq_some_iff.mp hsemicolon
      refine Pursues.after hlast (Token.isEnd_of_is ht) hreads (fun nodes => ?_)
        (pursues_closeBlocks hlast context r')
      rw [hreads.rest]
      constructor
      · intro hending
        cases hending with
        | single _ tail => exact tail
        | block opening _ =>
          rw [Token.is_eq_false_of_is ht (by decide)] at opening
          cases opening
      · exact .single ht
    | none =>
      -- With neither of them there is no way on.
      intro nodes hending
      rw [Reader.tryRead_eq_none_iff] at hopen hsemicolon
      generalize hrest : r.rest = tokens at hending
      cases hending with
      | single semicolon _ =>
        rw [Reader.current_of_rest hrest, semicolon] at hsemicolon
        cases hsemicolon
      | block opening _ =>
        rw [Reader.current_of_rest hrest, opening] at hopen
        cases hopen

/-- At the end of the script nothing remains, and no block may be open. -/
theorem remaining_last_iff (hlast : last.isEnd = true) {context nodes : List Node} :
    Remaining m last context [last] nodes ↔ context = [] ∧ nodes = [] := by
  have hnoHead : ∀ {n rest}, ¬ Head m context [last] n rest := by
    intro n rest head
    obtain ⟨t, _, ht, hword, _⟩ := head.exists_first
    cases ht
    rw [Token.isEnd_of_word hword] at hlast
    cases hlast
  constructor
  · intro h
    cases h with
    | done => exact ⟨rfl, rfl⟩
    | close closing _ =>
      rw [Token.isEnd_of_is closing] at hlast
      cases hlast
    | single head _ _ => exact absurd head hnoHead
    | block head _ _ => exact absurd head hnoHead
  · rintro ⟨rfl, rfl⟩
    exact .done

/-- Where no statement can be read and no block closes, nothing remains
but the end of the script. -/
theorem not_remaining_of_error (hm : m.Accepted) {context nodes : List Node} {r : Reader}
    (hend : ¬ r.atEnd = true) (hlast : last.isEnd = true)
    (hclosing : r.current.is "\x7d" = true → context = []) {failure : Failure}
    (hread : (readStatement m context r).2 = .error failure) :
    ¬ Remaining m last context r.rest nodes := by
  -- A head would have been read.
  have hnoHead : ∀ {n rest}, ¬ Head m context r.rest n rest := by
    intro n rest head
    obtain ⟨words, hwords, _⟩ := head.exists_words
    have hok : (readStatement m context r).2 = .ok (n, ⟨words.reverse ++ r.before, rest⟩) :=
      (readStatement_eq_ok_iff hm).mpr ⟨⟨words, hwords, rfl⟩, head⟩
    cases hread.symm.trans hok
  intro h
  generalize htokens : r.rest = tokens at h
  cases h with
  | done =>
    rw [Reader.atEnd, Reader.current_of_rest htokens] at hend
    exact hend hlast
  | close closing _ => cases hclosing (Reader.current_of_rest htokens ▸ closing)
  | single head _ _ => exact hnoHead (htokens ▸ head)
  | block head _ _ => exact hnoHead (htokens ▸ head)

/-- The parser succeeds on what remains, and on nothing else. -/
theorem parseFrom_eq_ok_iff (hm : m.Accepted) (hlast : last.isEnd = true) {context : List Node}
    {r : Reader} {nodes : List Node} (hends : EndsOnce last r.rest)
    (hclosing : r.current.is "\x7d" = true → context = []) :
    (parseFrom m context r).result = .ok nodes ↔ Remaining m last context r.rest nodes := by
  -- The parser stops at the end outside of all blocks, at the end inside of
  -- one, at a head, or after a head, or it goes on with the next statement.
  fun_induction parseFrom m context r generalizing nodes with
  | case1 r hend =>
    rw [hends.rest_of_atEnd hend, remaining_last_iff hlast, Except.ok.injEq]
    exact ⟨fun h => ⟨rfl, h.symm⟩, fun h => h.2.symm⟩
  | case2 r hend node outer =>
    rw [hends.rest_of_atEnd hend, remaining_last_iff hlast]
    exact ⟨fun h => (by cases h), fun h => (by cases h.1)⟩
  | case3 context r hend events failure hread =>
    refine ⟨fun h => (by cases h), fun h => ?_⟩
    exact absurd h (not_remaining_of_error hm hend hlast hclosing (congrArg Prod.snd hread))
  | case4 context r hend events n afterMembers hread closing failure hending =>
    obtain ⟨_, head⟩ := (readStatement_eq_ok_iff hm).mp (congrArg Prod.snd hread)
    have hpursues := pursues_endStatement (m := m) hlast n context afterMembers
    rw [hending] at hpursues
    refine ⟨fun h => (by cases h), fun h => ?_⟩
    obtain ⟨others, _, hothers⟩ := (remaining_iff_of_head hm hlast head).mp h
    exact absurd hothers (hpursues others)
  | case5 =>
    rename_i context r hend events n afterMembers hread closing context' next hending parsed ih
    obtain ⟨⟨words, hrest, hbefore⟩, head⟩ :=
      (readStatement_eq_ok_iff hm).mp (congrArg Prod.snd hread)
    obtain ⟨words', hwords', hnoEnd⟩ := head.exists_words
    -- The reader has read the words of the head.
    cases List.append_cancel_right (hrest.symm.trans hwords')
    have hpursues := pursues_endStatement (m := m) hlast n context afterMembers
    rw [hending] at hpursues
    have hcontinues : Continues m last afterMembers _ context' next := hpursues
    have hends' := hcontinues.endsOnce (hends.of_reads hlast ⟨hrest, hbefore⟩ hnoEnd)
    -- After a statement the reader is at no brace, as the induction asks for.
    have hparsed : ∀ others, (parseFrom m context' next).result = .ok others ↔
        Ending m last n context afterMembers.rest others := fun others =>
      (ih hends' fun h => absurd h (Bool.eq_false_iff.mp hcontinues.notClosing)).trans
        (hcontinues.iff others).symm
    rw [remaining_iff_of_head hm hlast head, map_eq_ok_iff]
    constructor
    · rintro ⟨others, hothers, rfl⟩
      exact ⟨others, rfl, (hparsed others).mp hothers⟩
    · rintro ⟨others, rfl, hothers⟩
      exact ⟨others, (hparsed others).mpr hothers, rfl⟩

/-- A script is parsed exactly when the grammar derives it, and into the
heads of its statements in order. The script is any tokens with one end,
which comes last. -/
theorem parse_eq_ok_iff (hm : m.Accepted) {body : List Token}
    (hbody : ∀ t ∈ body, t.isEnd = false) (hlast : last.isEnd = true) (nodes : List Node) :
    (parse m (body ++ [last])).result = .ok nodes ↔ WholeScript m (body ++ [last]) nodes := by
  rw [parse, parseFrom_eq_ok_iff hm hlast ⟨body, rfl, hbody⟩ fun _ => rfl]
  show Remaining m last [] (body ++ [last]) nodes ↔ _
  rw [remaining_iff_statements]
  constructor
  · intro h
    exact .mk h hlast
  · intro h
    cases h with
    | mk hstatements _ =>
      -- The end of the script is the one that was given.
      obtain ⟨body', hbody'⟩ := (remaining_iff_statements.mpr hstatements).exists_body
      obtain ⟨_, hsame⟩ := List.append_inj' hbody' rfl
      cases hsame
      exact hstatements

/-- A model of modules that hold entities. -/
def moduleModel : Model :=
  ⟨"1", [⟨0, "ModuleInfo", some "Module", [], [⟨"Name", .text, true, true, false⟩], none⟩,
    ⟨1, "EntityInfo", some "Entity", [],
      [⟨"Module", .concept 0, true, true, false⟩, ⟨"Name", .text, true, true, false⟩], none⟩]⟩

/-- The model of modules and entities is accepted: it is what its declaration
is resolved to. -/
theorem accepted_moduleModel : moduleModel.Accepted :=
  ⟨⟨"1", [⟨"ModuleInfo", some "Module", [], none, [⟨"Name", .text, true, true, false⟩]⟩,
    ⟨"EntityInfo", some "Entity", [], none,
      [⟨"Module", .concept "ModuleInfo", true, true, false⟩,
        ⟨"Name", .text, true, true, false⟩]⟩]⟩, rfl⟩

/-- The tokens of `module A { entity B; } entity A.C;` without their end. -/
def moduleTokens : List Token :=
  [⟨.word, "module", 0, 6⟩, ⟨.word, "A", 7, 8⟩, ⟨.special, "\x7b", 9, 10⟩,
    ⟨.word, "entity", 11, 17⟩, ⟨.word, "B", 18, 19⟩, ⟨.special, ";", 19, 20⟩,
    ⟨.special, "\x7d", 21, 22⟩, ⟨.word, "entity", 23, 29⟩, ⟨.word, "A", 30, 31⟩,
    ⟨.special, ".", 31, 32⟩, ⟨.word, "C", 32, 33⟩, ⟨.special, ";", 33, 34⟩]

/-- One entity is nested in its module, the other refers to it. -/
theorem script_nested_and_referring :
    WholeScript moduleModel (moduleTokens ++ [.endAt 34])
      [.mk 0 [.text "A"], .mk 1 [.node (.mk 0 [.text "A"]), .text "B"],
        .mk 1 [.node (.mk 0 [.text "A"]), .text "C"]] := by
  refine (parse_eq_ok_iff accepted_moduleModel (by decide) rfl _).mp ?_
  rw [parse, parseFrom_of_ok rfl rfl rfl, parseFrom_of_ok rfl rfl rfl,
    parseFrom_of_ok rfl rfl rfl, parseFrom_of_atEnd rfl]
  rfl

end ConceptScript.Script
