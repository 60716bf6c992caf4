import ConceptScript.Script.Statement

/-!
# `ConceptScript.Script.Parse`: the concepts of a script

A script is a list of statements. The statements in the block of a
concept follow it, so the concepts come out in the order in which their
statements start. The first fault ends reading. A block that is still
open at the end of the script is a fault.
-/

set_option autoImplicit false

namespace ConceptScript.Script

/-- What was found in a script: the events in order, and the concepts in
the order of their statements or the fault that ended reading. -/
structure Parse where
  events : List Event
  result : Except Failure (List Node)

/-- Reads the statements that follow, in the blocks of some concepts, the
innermost first. -/
def parseFrom (m : Model) (context : List Node) (r : Reader) : Parse :=
  if r.atEnd then
    match context with
    | [] => ⟨[], .ok []⟩
    | node :: _ => ⟨[], .error ⟨r.position, .unclosedBlock (node.describe m)⟩⟩
  else
    match _hs : readStatement m context r with
    | (events, .error failure) => ⟨events, .error failure⟩
    | (events, .ok (node, afterMembers)) =>
      match _he : endStatement m node context afterMembers with
      | (closing, .error failure) => ⟨events ++ closing, .error failure⟩
      | (closing, .ok (context', next)) =>
        let others := parseFrom m context' next
        ⟨events ++ closing ++ others.events, others.result.map (node :: ·)⟩
termination_by r.rest.length
decreasing_by
  have := readStatement_rest_length_lt (congrArg Prod.snd _hs)
  have := endStatement_rest_length_le (congrArg Prod.snd _he)
  omega

/-- Reads a script given by its tokens. -/
def parse (m : Model) (tokens : List Token) : Parse := parseFrom m [] (.ofTokens tokens)

/-- The syntax error for a failure on the tokens of a text. -/
def Failure.inText (f : Failure) (text : List Char) (tokens : List Token) : SyntaxError :=
  let token := tokens.getD f.index (.endAt 0)
  .inText text f.fault token.start token.stop

end ConceptScript.Script
