import ClassTable.Token
import ClassTable.Text.Blank
import ClassTable.Handle
import ClassTable.Name.Signature

/-!
# Type references

A reference is a type as it is named in source: a run of tokens, and the handle of the type once
it has been found. The tokens never change. The handle is written at most once: resolving a
reference that already has one changes nothing (`Reference.resolve`).

What a reference looks up is read off its text. The name of the element type is everything before
the first angle or square bracket, without blanks and with slashes for dots (`elementName`); the
square brackets outside type arguments are the dimensions of the array around it (`dimensions`).
-/

namespace ClassTable

/-- A type named in source, with the type it was found to be. -/
structure Reference where
  /-- The tokens that name the type. -/
  tokens : List Token
  /-- The type, once it is known. -/
  resolved : Option TypeHandle := none
  deriving DecidableEq

namespace Reference

/-- Records the type, and tells whether there was none before. -/
def resolve (r : Reference) (type : TypeHandle) : Bool × Reference :=
  match r.resolved with
  | some _ => (false, r)
  | none => (true, { r with resolved := some type })

/-- The source text: the tokens' values without anything between them. -/
def text (r : Reference) : String := String.join (r.tokens.map Token.value)

/-- The least span that covers every token; the dummy span if there is none. -/
def span (r : Reference) : Span :=
  match r.tokens.map Token.span with
  | [] => .dummy
  | first :: others => others.foldl Span.merge first

/-- Whether the character opens type arguments or an array dimension. -/
def opensSuffix (c : Char) : Bool := c == '<' || c == '['

/-- The slash-separated name of the element type. -/
def elementName (r : Reference) : String :=
  let base := r.text.toList.takeWhile fun c => !opensSuffix c
  Signature.slashed (String.ofList (base.filter fun c => !Text.isBlank c))

/-- Number of opening square brackets outside angle brackets, `depth` of which are already open.
A closing angle bracket without an opening one is passed over. -/
def bracketsFrom (depth : Nat) : List Char → Nat
  | [] => 0
  | '<' :: rest => bracketsFrom (depth + 1) rest
  | '>' :: rest => bracketsFrom (depth - 1) rest
  | '[' :: rest => (if depth = 0 then 1 else 0) + bracketsFrom depth rest
  | _ :: rest => bracketsFrom depth rest

/-- Number of array dimensions around the element type. -/
def dimensions (r : Reference) : Nat := bracketsFrom 0 r.text.toList

@[simp] theorem resolve_tokens (r : Reference) (type : TypeHandle) :
    (r.resolve type).2.tokens = r.tokens := by
  unfold resolve
  split <;> rfl

/-- The first handle stays. -/
@[simp] theorem resolve_resolved (r : Reference) (type : TypeHandle) :
    (r.resolve type).2.resolved = some (r.resolved.getD type) := by
  unfold resolve
  split <;> simp_all

end Reference

/-- An annotation at a declaration. Its arguments are not kept. -/
structure AnnotationUse where
  /-- The annotation type, as named in source. -/
  type : Reference
  deriving DecidableEq

end ClassTable
