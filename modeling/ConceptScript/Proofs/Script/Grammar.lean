import ConceptScript.Model.Ancestors
import ConceptScript.Script.Node
import ConceptScript.Script.Token

/-!
# `ConceptScript.Proofs.Script.Grammar`: the grammar of scripts

The grammar is given by rules, without a reader and without a stack of
open blocks:

```text
WholeScript    = Statement* end
Statement(ctx) = Head(ctx) ";"
               | Head(ctx) "{" Statement(ctx + node)* "}"
Head(ctx)      = the one longest of the heads as types with the keyword
```

A head as one type (`HeadAs`) is the keyword and then the parsable
members. Relations on the tokens of a phrase say what the phrase means.
`Head`, `Statement` and `Statements` also speak of the tokens that follow,
since which head is the longest depends on them.
-/

set_option autoImplicit false

namespace ConceptScript.Script

open ConceptScript.Text
open ConceptScript.Model (TypeId Member)

/-- The tokens of a dot that may be needed: one dot, or none. -/
inductive DotIf : Bool → List Token → Prop
  | none : DotIf false []
  | dot {t : Token} (isDot : t.is "." = true) : DotIf true [t]

mutual

/-- A reference to a concept of a type: its keys. -/
inductive Reference (m : Model) : TypeId → List Token → Node → Prop
  | keys {type : TypeId} {words : List Token} {slots : List Slot}
      (keys : Keys m false (m.typeAt type).members words slots) :
      Reference m type words (.mk type slots)

/-- The keys among some members, separated by dots. The other members are
left empty. The flag tells whether a key stands before them. -/
inductive Keys (m : Model) : Bool → List Member → List Token → List Slot → Prop
  | nil {later : Bool} : Keys m later [] [] []
  | other {later : Bool} {member : Member} {rest : List Member} {words : List Token}
      {slots : List Slot} (notKey : member.isKey = false) (tail : Keys m later rest words slots) :
      Keys m later (member :: rest) words (.empty :: slots)
  | key {later : Bool} {member : Member} {rest : List Member} {dots own words : List Token}
      {slot : Slot} {slots : List Slot} (isKey : member.isKey = true) (dot : DotIf later dots)
      (value : KeyValue m member own slot) (tail : Keys m true rest words slots) :
      Keys m later (member :: rest) (dots ++ own ++ words) (slot :: slots)

/-- One key: a value, or a reference where the key is a concept. -/
inductive KeyValue (m : Model) : Member → List Token → Slot → Prop
  | text {member : Member} {t : Token} (plain : member.value.isConcept = false)
      (isValue : t.kind.isValue = true) : KeyValue m member [t] (.text t.value)
  | reference {member : Member} {target : TypeId} {own : List Token} {n : Node}
      (isConcept : member.value = .concept target) (reference : Reference m target own n) :
      KeyValue m member own (.node n)

end

/-- The concept that a member may be filled from: the innermost of the
context, for the parent member of a type. -/
def nestedFor (c : ConceptType) (context : List Node) (index : Nat) : Option Node :=
  if c.parentMember?.map (·.2) = some index then context.head? else none

/-- The value of a member, told which concept it may be filled from. The
flag tells whether the value is a key given by a reference. -/
inductive MemberValue (m : Model) (member : Member) (parent : Option Node) :
    List Token → Slot → Bool → Prop
  | text {t : Token} (isText : member.value = .text) (isValue : t.kind.isValue = true) :
      MemberValue m member parent [t] (.text t.value) false
  | choice {t : Token} {values : List String} {value : String}
      (isChoice : member.value = .choice values) (isValue : t.kind.isValue = true)
      (listed : values.find? (sameIgnoringAsciiCase · t.value) = some value) :
      MemberValue m member parent [t] (.text value) false
  | anyConcept {n : Node} (isAny : member.value = .anyConcept) (nested : parent = some n) :
      MemberValue m member parent [] (.node n) false
  | nested {n : Node} {target : TypeId} (isConcept : member.value = .concept target)
      (nested : parent = some n) (fits : m.isAssignable n.type target = true) :
      MemberValue m member parent [] (.node n) false
  | reference {n : Node} {target : TypeId} {own : List Token}
      (isConcept : member.value = .concept target)
      (notNested : ∀ n, parent = some n → m.isAssignable n.type target = false)
      (reference : Reference m target own n) :
      MemberValue m member parent own (.node n) member.isKey

/-- The members of a type from an index on. The flag tells whether a key
given by a reference stands directly before them: then a key that is no
concept needs a dot. -/
inductive Members (m : Model) (c : ConceptType) (context : List Node) :
    Bool → Nat → List Member → List Token → List Slot → Prop
  | nil {afterReference : Bool} {index : Nat} : Members m c context afterReference index [] [] []
  | unparsable {afterReference : Bool} {index : Nat} {member : Member} {rest : List Member}
      {words : List Token} {slots : List Slot} (unparsable : member.isParsable = false)
      (tail : Members m c context afterReference (index + 1) rest words slots) :
      Members m c context afterReference index (member :: rest) words (.empty :: slots)
  | parsable {afterReference isReference : Bool} {index : Nat} {member : Member}
      {rest : List Member} {dots own words : List Token} {slot : Slot} {slots : List Slot}
      (parsable : member.isParsable = true)
      (dot : DotIf (afterReference && member.isKey && !member.value.isConcept) dots)
      (value : MemberValue m member (nestedFor c context index) own slot isReference)
      (tail : Members m c context isReference (index + 1) rest words slots) :
      Members m c context afterReference index (member :: rest) (dots ++ own ++ words)
        (slot :: slots)

/-- The head of a statement read as one type: the keyword, then the
members. -/
inductive HeadAs (m : Model) (context : List Node) (c : ConceptType) : List Token → Node → Prop
  | mk {t : Token} {words : List Token} {slots : List Slot} (isWord : t.kind = .word)
      (keyword : sameIgnoringAsciiCase t.value c.shownName = true)
      (members : Members m c context false 0 c.members words slots) :
      HeadAs m context c (t :: words) (.mk c.id slots)

/-- The head of the statement that some tokens start with, and the tokens
after it. Of the types with the first word as keyword one gives the head,
and the heads as the others are shorter. A closing brace starts no
statement. -/
inductive Head (m : Model) (context : List Node) : List Token → Node → List Token → Prop
  | longest {c : ConceptType} {t : Token} {words rest : List Token} {n : Node}
      (isWord : t.kind = .word) (notClosing : t.is "\x7d" = false)
      (mem : c ∈ m.byKeyword t.value) (head : HeadAs m context c (t :: words) n)
      (others : ∀ c' ∈ m.byKeyword t.value, ∀ words' rest' n',
        words' ++ rest' = t :: words ++ rest → HeadAs m context c' words' n' →
          words'.length < (t :: words).length ∨ c' = c) :
      Head m context (t :: words ++ rest) n rest

mutual

/-- The statement that some tokens start with, the concepts in it, and the
tokens after it. -/
inductive Statement (m : Model) : List Node → List Token → List Node → List Token → Prop
  | single {context : List Node} {tokens rest : List Token} {n : Node} {t : Token}
      (head : Head m context tokens n (t :: rest)) (semicolon : t.is ";" = true) :
      Statement m context tokens [n] rest
  | block {context nodes : List Node} {tokens body rest : List Token} {n : Node} {t u : Token}
      (head : Head m context tokens n (t :: body)) (opening : t.is "\x7b" = true)
      (statements : Statements m (n :: context) body nodes (u :: rest))
      (closing : u.is "\x7d" = true) :
      Statement m context tokens (n :: nodes) rest

/-- Any number of statements one after another. -/
inductive Statements (m : Model) : List Node → List Token → List Node → List Token → Prop
  | nil {context : List Node} {tokens : List Token} : Statements m context tokens [] tokens
  | cons {context nodes nodes' : List Node} {tokens middle rest : List Token}
      (first : Statement m context tokens nodes middle)
      (others : Statements m context middle nodes' rest) :
      Statements m context tokens (nodes ++ nodes') rest

end

/-- A script and the concepts in it, in the order in which their
statements start. -/
inductive WholeScript (m : Model) : List Token → List Node → Prop
  | mk {tokens : List Token} {nodes : List Node} {last : Token}
      (statements : Statements m [] tokens nodes [last]) (isEnd : last.isEnd = true) :
      WholeScript m tokens nodes

end ConceptScript.Script
