import ConceptScript.Script.Reader

/-!
# `ConceptScript.Script.Reading`: steps that read

A reading takes a reader, gives a value or a mismatch, and says where the
reader then is. After a mismatch the reader stands where reading stopped:
that place decides which of several failed interpretations is reported.

What holds of the parts of a reading and is kept by putting readings after
one another is `Kept`. Every reading here moves forward on the same tokens:
`Advancing` says so, and `kept_advancing` that it is of this sort.
-/

set_option autoImplicit false

namespace ConceptScript.Script

/-- A step that reads a value from a stream of tokens. -/
def Reading (α : Type) := Reader → Except Mismatch α × Reader

namespace Reading

/-- Reads nothing. -/
def value {α : Type} (a : α) : Reading α := fun r => (.ok a, r)

/-- Reads one thing, then another that may depend on the first. -/
def andThen {α β : Type} (first : Reading α) (next : α → Reading β) : Reading β := fun r =>
  match first r with
  | (.ok a, r') => next a r'
  | (.error why, r') => (.error why, r')

instance : Monad Reading where
  pure := value
  bind := andThen

/-- Fails where the reader stands. -/
def fail {α : Type} (why : Mismatch) : Reading α := fun r => (.error why, r)

/-- Reads a word, a quoted string or an external text. -/
def textToken : Reading Token := Reader.readText

/-- Reads a dot. -/
def dot (why : Mismatch) : Reading Unit := fun r =>
  match r.tryRead "." with
  | some r' => (.ok (), r')
  | none => (.error why, r)

/-- Reads a dot where one is needed. -/
def dotIf (needed : Bool) (why : Mismatch) : Reading Unit :=
  if needed then dot why else pure ()

/-- A reading that only moves forward. -/
def Advancing {α : Type} (p : Reading α) : Prop := ∀ r : Reader, r.LeadsTo (p r).2

/-- Reading nothing stays where it is. -/
theorem advancing_pure {α : Type} (a : α) : Advancing (pure a : Reading α) := fun r => .refl r

/-- A failure stays where the reader stands. -/
theorem advancing_fail {α : Type} (why : Mismatch) : Advancing (fail why : Reading α) :=
  fun r => .refl r

/-- Reading a text moves forward. -/
theorem advancing_textToken : Advancing textToken := fun r => r.leadsTo_readText

/-- Reading a dot moves forward, and stays where there is none. -/
theorem advancing_dot (why : Mismatch) : Advancing (dot why) := by
  intro r
  unfold dot
  split
  · next r' h => exact Reader.leadsTo_of_tryRead h
  · exact .refl r

/-- Two readings one after the other move forward. If the first one fails,
the reader stays where it then is. -/
theorem Advancing.bind {α β : Type} {p : Reading α} {q : α → Reading β} (hp : Advancing p)
    (hq : ∀ a, Advancing (q a)) : Advancing (p >>= q) := by
  intro r
  show r.LeadsTo (andThen p q r).2
  have hr := hp r
  unfold andThen
  split
  · next a r' h =>
    rw [h] at hr
    exact hr.trans (hq a r')
  · next why r' h =>
    rw [h] at hr
    exact hr

/-- A property of all readings that are put together from these parts. A
part does not fail for want of a keyword, which only a statement has. -/
structure Kept (P : (α : Type) → Reading α → Prop) : Prop where
  pure {α : Type} (a : α) : P α (pure a)
  fail {α : Type} {why : Mismatch} (h : ∀ keyword, why ≠ .expectedKeyword keyword) :
    P α (fail why)
  textToken : P Token textToken
  dot {why : Mismatch} (h : ∀ keyword, why ≠ .expectedKeyword keyword) : P Unit (dot why)
  bind {α β : Type} {p : Reading α} {q : α → Reading β} (hp : P α p) (hq : ∀ a, P β (q a)) :
    P β (p >>= q)

/-- What is kept is kept when the value that was read is changed. -/
theorem Kept.map {P : (α : Type) → Reading α → Prop} (hP : Kept P) {α β : Type} {p : Reading α}
    (hp : P α p) (f : α → β) : P β (p >>= fun a => Pure.pure (f a)) :=
  hP.bind hp fun _ => hP.pure _

/-- What is kept holds of a dot that is read only where one is needed. -/
theorem Kept.dotIf {P : (α : Type) → Reading α → Prop} (hP : Kept P) (needed : Bool)
    {why : Mismatch} (h : ∀ keyword, why ≠ .expectedKeyword keyword) :
    P Unit (dotIf needed why) := by
  unfold Reading.dotIf
  split
  · exact hP.dot h
  · exact hP.pure ()

/-- Moving forward is kept by putting readings together. -/
theorem kept_advancing : Kept fun _ p => Advancing p where
  pure := advancing_pure
  fail _ := advancing_fail _
  textToken := advancing_textToken
  dot _ := advancing_dot _
  bind := Advancing.bind

end Reading

end ConceptScript.Script
