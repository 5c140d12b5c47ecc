import ClassTable.Proofs.Reference.Written
import ClassTable.Proofs.Name.Decoding

/-!
# Names of element types

The name that a reference looks up is what stands before the first bracket, angle or square. So
what is read of a path is read up to the first segment that has type arguments, and what comes
after them is not read at all (`elementChars_path`).

In most types only the last segment has type arguments, and then the name is the whole path. In
`Outer<String>.Inner` it is `Outer`: a member of a generic type that is reached through the type
and its arguments is looked up by the name of a type around it.
-/

namespace ClassTable

/-! ## Paths -/

/-- The name of a segment. -/
def WrittenSegment.name : WrittenSegment → Identifier
  | .plain name => name
  | .generic name _ => name

/-- Whether type arguments follow the name. -/
def WrittenSegment.isGeneric : WrittenSegment → Bool
  | .plain _ => false
  | .generic _ _ => true

/-- The names of all segments. -/
def WrittenPath.names : WrittenPath → List Identifier
  | .last segment => [segment.name]
  | .dot segment rest => segment.name :: rest.names

/-- The names of the segments up to the first that has type arguments. -/
def WrittenPath.leading : WrittenPath → List Identifier
  | .last segment => [segment.name]
  | .dot segment rest =>
    if segment.isGeneric then [segment.name] else segment.name :: rest.leading

/-- Whether no segment but the last has type arguments. -/
def WrittenPath.argumentsLast : WrittenPath → Bool
  | .last _ => true
  | .dot segment rest => !segment.isGeneric && rest.argumentsLast

/-- The path of the element type. -/
def WrittenType.path : WrittenType → WrittenPath
  | .mk path _ => path

/-- Names with slashes between them. -/
def slashSeparated (names : List Identifier) : String := "/".intercalate (names.map Identifier.name)

theorem toList_slashSeparated (names : List Identifier) :
    (slashSeparated names).toList = ['/'].intercalate (names.map Identifier.chars) := by
  have hname : String.toList ∘ Identifier.name = Identifier.chars :=
    funext fun n => String.toList_ofList
  rw [slashSeparated, String.toList_intercalate, List.map_map, hname]
  rfl

theorem WrittenPath.leading_ne_nil (path : WrittenPath) : path.leading ≠ [] := by
  cases path with
  | last segment => simp [leading]
  | dot segment rest =>
      rw [leading]
      split <;> simp

theorem WrittenPath.names_ne_nil (path : WrittenPath) : path.names ≠ [] := by
  cases path <;> simp [names]

/-- One name more in front. -/
theorem intercalate_names_cons (n : Identifier) {names : List Identifier} (h : names ≠ []) :
    ['/'].intercalate ((n :: names).map Identifier.chars) =
      n.chars ++ '/' :: ['/'].intercalate (names.map Identifier.chars) := by
  rw [List.map_cons, List.intercalate_cons_of_ne_nil (by simpa using h), List.append_assoc]
  rfl

/-- The leading names are all names only if nothing comes after type arguments: any segment that
is left out leaves a slash out. -/
theorem slashSeparated_leading_iff (path : WrittenPath) :
    slashSeparated path.leading = slashSeparated path.names ↔ path.argumentsLast = true := by
  rw [← String.toList_inj, toList_slashSeparated, toList_slashSeparated]
  cases path with
  | last segment => simp [WrittenPath.leading, WrittenPath.names, WrittenPath.argumentsLast]
  | dot segment rest =>
      have hrest := slashSeparated_leading_iff rest
      rw [← String.toList_inj, toList_slashSeparated, toList_slashSeparated] at hrest
      rw [WrittenPath.names, intercalate_names_cons segment.name rest.names_ne_nil,
        WrittenPath.argumentsLast, WrittenPath.leading]
      cases segment.isGeneric with
      | true => simp [List.intercalate_singleton]
      | false =>
          rw [if_neg Bool.false_ne_true, intercalate_names_cons segment.name rest.leading_ne_nil]
          simpa using hrest

namespace Reference

/-! ## Reading -/

/-- What a text without blanks is looked up by. -/
def elementChars (text : List Char) : List Char :=
  (text.takeWhile fun c => !opensSuffix c).map fun c => if c = '.' then '/' else c

/-- No bracket is blank, so it does not matter when blanks are dropped. -/
theorem toList_elementName (r : Reference) :
    r.elementName.toList = elementChars (Text.squeeze r.text.toList) := by
  have hstop : (fun c => !!Text.isBlank c || !opensSuffix c) = fun c => !opensSuffix c := by
    funext c
    cases hopens : opensSuffix c with
    | false => simp
    | true =>
        rw [opensSuffix, Bool.or_eq_true, beq_iff_eq, beq_iff_eq] at hopens
        rcases hopens with rfl | rfl <;> decide
  rw [elementName, Signature.toList_slashed, String.toList_ofList, elementChars, Text.squeeze,
    List.takeWhile_filter, hstop]

/-- No name opens a suffix. -/
theorem opensSuffix_namePart {c : Char} (h : isNamePart c = true) : opensSuffix c = false := by
  have hplain := (isNamePart_iff.mp h).2.1
  simp only [Signature.delimiters, List.mem_cons, not_or] at hplain
  simp [opensSuffix, hplain.1, hplain.2.2.2.1]

/-- There are no dots in a name. -/
theorem map_name {name : List Char} (h : ∀ c ∈ name, isNamePart c = true) :
    (name.map fun c => if c = '.' then '/' else c) = name :=
  (List.map_congr_left fun c hc => if_neg (isNamePart_iff.mp (h c hc)).2.2.1).trans
    (List.map_id' name)

/-- Nothing stops the reading before the first bracket. -/
theorem elementChars_append {text : List Char} (h : ∀ c ∈ text, opensSuffix c = false)
    (rest : List Char) : elementChars (text ++ rest) =
      (text.map fun c => if c = '.' then '/' else c) ++ elementChars rest := by
  have hread : ∀ c ∈ text, (!opensSuffix c) = true := fun c hc => by rw [h c hc]; rfl
  rw [elementChars, List.takeWhile_append_of_pos hread, List.map_append, elementChars]

/-- Names are read whole and as they are. -/
theorem elementChars_name (n : Identifier) (rest : List Char) :
    elementChars (n.chars ++ rest) = n.chars ++ elementChars rest := by
  have hname := List.all_eq_true.mp n.plain
  rw [elementChars_append (fun c hc => opensSuffix_namePart (hname c hc)), map_name hname]

/-- Of a segment only the name is read, and its arguments stop the reading. -/
theorem elementChars_segment (segment : WrittenSegment) (rest : List Char) :
    elementChars (segment.text ++ rest) =
      segment.name.chars ++ if segment.isGeneric then [] else elementChars rest := by
  cases segment with
  | plain name => exact elementChars_name name rest
  | generic name arguments =>
      rw [WrittenSegment.text, List.append_assoc, List.append_assoc, elementChars_name]
      rfl

/-- **A path is read up to its first type arguments.** -/
theorem elementChars_path (path : WrittenPath) {rest : List Char} (h : elementChars rest = []) :
    elementChars (path.text ++ rest) = ['/'].intercalate (path.leading.map Identifier.chars) := by
  cases path with
  | last segment =>
      rw [WrittenPath.text, elementChars_segment, h, ite_self, List.append_nil,
        WrittenPath.leading, List.map_singleton, List.intercalate_singleton]
  | dot segment tail =>
      have htail := elementChars_path tail h
      have hdot : elementChars ('.' :: (tail.text ++ rest)) =
          '/' :: elementChars (tail.text ++ rest) := rfl
      rw [WrittenPath.text, List.append_assoc, elementChars_segment, List.cons_append, hdot, htail,
        WrittenPath.leading]
      cases segment.isGeneric with
      | true =>
          rw [if_pos rfl, if_pos rfl, List.append_nil, List.map_singleton,
            List.intercalate_singleton]
      | false =>
          rw [if_neg Bool.false_ne_true, if_neg Bool.false_ne_true,
            intercalate_names_cons segment.name tail.leading_ne_nil]

theorem elementChars_bracketPairs (n : Nat) : elementChars (bracketPairs n) = [] := by
  cases n with
  | zero => rfl
  | succ n => rfl

/--
**The name is the path, up to the first type arguments.**

If the tokens of a reference spell a type, however the text is cut into tokens and wherever blanks
stand, the name it looks up is made of the names of the segments up to the first one with type
arguments, with slashes between them. That is the name of the whole path exactly if no segment but
the last has type arguments.
-/
theorem elementName_of_spells {r : Reference} {t : WrittenType} (h : r.Spells t) :
    r.elementName = slashSeparated t.path.leading ∧
    (r.elementName = slashSeparated t.path.names ↔ t.path.argumentsLast = true) := by
  have hname : r.elementName = slashSeparated t.path.leading := by
    obtain ⟨path, dimensions⟩ := t
    rw [← String.toList_inj, toList_elementName, show _ = _ from h, WrittenType.text,
      elementChars_path path (elementChars_bracketPairs dimensions), toList_slashSeparated]
    rfl
  exact ⟨hname, hname ▸ slashSeparated_leading_iff t.path⟩

/-- The entries of a map are looked up by the name of the map. -/
theorem sample_elementName :
    sampleSpelling.Spells sampleWritten ∧ sampleSpelling.elementName = "Map" ∧
      slashSeparated sampleWritten.path.names = "Map/Entry" :=
  have hname := (elementName_of_spells sampleSpelling_spells).1
  ⟨sampleSpelling_spells, hname.trans (by decide), by decide⟩

end Reference

end ClassTable
