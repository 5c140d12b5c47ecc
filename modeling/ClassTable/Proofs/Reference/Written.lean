import ClassTable.Reference
import ClassTable.Proofs.Name.Brackets

/-!
# Types as they are written

The grammar of the types that source text can name:

* a type is a path, followed by any number of pairs of square brackets;
* a path is one segment or more, with dots between them;
* a segment is a name, and type arguments between angle brackets may follow it;
* there is one type argument or more, with commas between them;
* a type argument is a type or a wildcard, and a wildcard may be bounded by a type.

A reference spells a type if its tokens, one after the other, are the text of the type, blanks
left aside (`Reference.Spells`). So the text can be cut into tokens anywhere, and blanks can stand
anywhere.
-/

namespace ClassTable

/-- The text without its blanks. -/
def Text.squeeze (text : List Char) : List Char := text.filter fun c => !isBlank c

/-- Whether names are made of such characters: neither blanks nor what types are put together
with. -/
def isNamePart (c : Char) : Bool :=
  !Text.isBlank c && !Signature.delimiters.contains c && c != '.' && c != '?'

theorem isNamePart_iff {c : Char} : isNamePart c = true ↔
    Text.isBlank c = false ∧ c ∉ Signature.delimiters ∧ c ≠ '.' ∧ c ≠ '?' := by
  simp [isNamePart, and_assoc]

/-- A name as it is written. -/
structure Identifier where
  /-- Its characters. -/
  chars : List Char
  /-- There is something to read. -/
  nonempty : chars ≠ []
  /-- Nothing in it can be mistaken for what comes after it. -/
  plain : chars.all isNamePart = true

/-- The name as a text. -/
def Identifier.name (n : Identifier) : String := String.ofList n.chars

/-- On which side a wildcard is bounded. -/
inductive WildcardBound where
  | upper
  | lower

/-- The keyword that introduces a bound. -/
def WildcardBound.keyword : WildcardBound → List Char
  | upper => ['e', 'x', 't', 'e', 'n', 'd', 's']
  | lower => ['s', 'u', 'p', 'e', 'r']

mutual

/-- A type. -/
inductive WrittenType where
  | mk (path : WrittenPath) (dimensions : Nat)

/-- Segments with dots between them. -/
inductive WrittenPath where
  | last (segment : WrittenSegment)
  | dot (segment : WrittenSegment) (rest : WrittenPath)

/-- A name, with type arguments or without. -/
inductive WrittenSegment where
  | plain (name : Identifier)
  | generic (name : Identifier) (arguments : WrittenArguments)

/-- Type arguments with commas between them. -/
inductive WrittenArguments where
  | last (argument : WrittenArgument)
  | comma (argument : WrittenArgument) (rest : WrittenArguments)

/-- A type argument. -/
inductive WrittenArgument where
  | type (type : WrittenType)
  | wildcard
  | bounded (bound : WildcardBound) (type : WrittenType)

end

/-! ## Texts -/

/-- Pairs of square brackets. -/
def bracketPairs (n : Nat) : List Char := (List.replicate n ['[', ']']).flatten

mutual

/-- The text of a type. -/
def WrittenType.text : WrittenType → List Char
  | .mk path dimensions => path.text ++ bracketPairs dimensions

/-- The text of a path. -/
def WrittenPath.text : WrittenPath → List Char
  | .last segment => segment.text
  | .dot segment rest => segment.text ++ '.' :: rest.text

/-- The text of a segment. -/
def WrittenSegment.text : WrittenSegment → List Char
  | .plain name => name.chars
  | .generic name arguments => name.chars ++ '<' :: arguments.text ++ ['>']

/-- The text of type arguments. -/
def WrittenArguments.text : WrittenArguments → List Char
  | .last argument => argument.text
  | .comma argument rest => argument.text ++ ',' :: rest.text

/-- The text of a type argument. -/
def WrittenArgument.text : WrittenArgument → List Char
  | .type type => type.text
  | .wildcard => ['?']
  | .bounded bound type => '?' :: bound.keyword ++ type.text

end

/-- The dimensions of the array that a type is. -/
def WrittenType.dimensions : WrittenType → Nat
  | .mk _ dimensions => dimensions

/-- The tokens of the reference are the text of the type, cut anywhere and with blanks anywhere. -/
def Reference.Spells (r : Reference) (t : WrittenType) : Prop :=
  Text.squeeze r.text.toList = t.text

instance (r : Reference) (t : WrittenType) : Decidable (r.Spells t) :=
  inferInstanceAs (Decidable (_ = _))

/-- The type `Map<String[], ? extends List<int[]>>.Entry[][]`. -/
def sampleWritten : WrittenType :=
  .mk (.dot (.generic ⟨['M', 'a', 'p'], by decide, by decide⟩ (.comma string (.last lists)))
    (.last (.plain ⟨['E', 'n', 't', 'r', 'y'], by decide, by decide⟩))) 2
where
  string : WrittenArgument :=
    .type (.mk (.last (.plain ⟨['S', 't', 'r', 'i', 'n', 'g'], by decide, by decide⟩)) 1)
  int : WrittenArgument :=
    .type (.mk (.last (.plain ⟨['i', 'n', 't'], by decide, by decide⟩)) 1)
  lists : WrittenArgument :=
    .bounded .upper (.mk (.last (.generic ⟨['L', 'i', 's', 't'], by decide, by decide⟩
      (.last int))) 0)

/-- The same type in tokens that end and start where no lexical unit does. -/
def sampleSpelling : Reference :=
  { tokens := [⟨"Map<St", .dummy⟩, ⟨"ring[", .dummy⟩, ⟨"], ? ", .dummy⟩,
      ⟨"extends List<int[", .dummy⟩, ⟨"]>>", .dummy⟩, ⟨" . Entry [", .dummy⟩, ⟨"][ ]", .dummy⟩] }

theorem sampleSpelling_spells : sampleSpelling.Spells sampleWritten := by decide

/-! ## Brackets match -/

open Signature

theorem balanced_plain {text : List Char} (h : ∀ c ∈ text, Signature.plain c) :
    Balanced text := by
  by_cases hne : text = []
  · rw [hne]
    exact balanced_nil
  · exact (closed_word hne h).balanced

theorem balanced_bracketPairs (n : Nat) : Balanced (bracketPairs n) := by
  refine balanced_plain fun c hc => ?_
  simp only [bracketPairs, List.mem_flatten, List.mem_replicate] at hc
  obtain ⟨_, ⟨_, rfl⟩, hc⟩ := hc
  rcases List.mem_pair.mp hc with rfl | rfl <;> simp [Signature.plain]

theorem Identifier.undelimited (n : Identifier) {c : Char} (h : c ∈ n.chars) :
    c ∉ delimiters :=
  (isNamePart_iff.mp (List.all_eq_true.mp n.plain c h)).2.1

theorem Identifier.closed (n : Identifier) : Closed n.chars := by
  refine closed_word n.nonempty fun c hc => ?_
  have hplain := n.undelimited hc
  simp only [delimiters, List.mem_cons, not_or] at hplain
  exact ⟨hplain.1, hplain.2.1, hplain.2.2.1⟩

theorem WildcardBound.balanced (b : WildcardBound) : Balanced b.keyword := by
  cases b <;> exact balanced_plain (by simp [keyword, Signature.plain])

/-- A separator outside brackets. -/
theorem balanced_separated {xs ys : List Char} (hxs : Balanced xs) (hys : Balanced ys) {c : Char}
    (hc : weight c = 0) : Balanced (xs ++ c :: ys) := by
  have hsep : Balanced [c] := ⟨by simp [hc], by simp [Above]⟩
  simpa using (hxs.append hsep).append hys

mutual

theorem WrittenType.balanced : (t : WrittenType) → Balanced t.text
  | .mk path dimensions => path.balanced.append (balanced_bracketPairs dimensions)

theorem WrittenPath.balanced : (path : WrittenPath) → Balanced path.text
  | .last segment => segment.balanced
  | .dot segment rest => balanced_separated segment.balanced rest.balanced rfl

theorem WrittenSegment.balanced : (segment : WrittenSegment) → Balanced segment.text
  | .plain name => name.closed.balanced
  | .generic name arguments => (name.closed.apply arguments.balanced).balanced

theorem WrittenArguments.balanced : (arguments : WrittenArguments) → Balanced arguments.text
  | .last argument => argument.balanced
  | .comma argument rest => balanced_separated argument.balanced rest.balanced rfl

theorem WrittenArgument.balanced : (argument : WrittenArgument) → Balanced argument.text
  | .type type => type.balanced
  | .wildcard => ⟨rfl, by decide, trivial⟩
  | .bounded bound type =>
    balanced_separated balanced_nil (bound.balanced.append type.balanced) rfl

end

end ClassTable
