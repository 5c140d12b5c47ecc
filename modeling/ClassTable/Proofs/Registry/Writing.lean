import ClassTable.Proofs.Program.Readable
import ClassTable.Proofs.Registry.Terms
import Mathlib.Algebra.GroupWithZero.Nat

/-!
# Writing terms

A term can be written out once it is said how its declared types are written. A catalog writes them
all by their ids, and that is `TypeTerm.text`. A program has signatures for them. There is a third way
in between (`TypeTerm.write`): signatures for the declared types that are reached through elements and
arguments, and ids for those in the generic type of a specialization, for which whoever writes has to
ask the catalog.

So there are two sorts of declared types in a term, `openIds` and `genericIds`. What is written depends
on how the types of either sort are written, and on nothing else (`TypeTerm.write_congr`). Number signs
tell the sorts apart, where no name has one: each id brings one number sign (`TypeTerm.signs_write`).
-/

namespace ClassTable

/-- How a catalog writes a declared type: by its id. -/
def idMark (id : TypeId) : String := "decl#" ++ toString id.index

/-- Number of number signs. -/
def signs (text : String) : Nat := text.toList.count '#'

theorem signs_append (a b : String) : signs (a ++ b) = signs a + signs b := by
  rw [signs, String.toList_append, List.count_append]
  rfl

theorem signs_eq_zero {text : String} : signs text = 0 ↔ '#' ∉ text.toList := List.count_eq_zero

theorem count_intercalate {sep ch : Char} (h : sep ≠ ch) (parts : List (List Char)) :
    ([sep].intercalate parts).count ch = (parts.map (List.count ch)).sum := by
  induction parts with
  | nil => rfl
  | cons part rest ih =>
      by_cases hrest : rest = []
      · simp [hrest, List.intercalate_singleton]
      · rw [List.intercalate_cons_of_ne_nil hrest, List.count_append, List.count_append, ih,
          List.count_singleton, if_neg (by simpa using h), Nat.add_zero, List.map_cons,
          List.sum_cons]

theorem signs_intercalate (texts : List String) :
    signs (",".intercalate texts) = (texts.map signs).sum := by
  rw [signs, String.toList_intercalate]
  refine (count_intercalate (by decide) _).trans ?_
  rw [List.map_map]
  rfl

theorem signs_keyword (type : Primitive) : signs type.keyword = 0 := by
  cases type <;> decide

theorem signs_idMark (id : TypeId) : signs (idMark id) = 1 := by
  have hdigits : signs (toString id.index) = 0 := by
    rw [signs_eq_zero, Nat.toString_eq_repr, Nat.toList_repr]
    intro hmem
    cases Nat.isDigit_of_mem_toDigits (by decide) (by decide) hmem
  rw [idMark, signs_append, hdigits]
  rfl

namespace TypeTerm

/-! ## The declared types in a term -/

mutual

/-- The declared types that are reached through elements and arguments. -/
def openIds : TypeTerm → List TypeId
  | .primitive _ => []
  | .declared id => [id]
  | .named _ => []
  | .specialized _ arguments => openIdsOf arguments
  | .array element => element.openIds

/-- Those of some terms. -/
def openIdsOf : List TypeTerm → List TypeId
  | [] => []
  | t :: ts => t.openIds ++ openIdsOf ts

end

mutual

/-- The declared types in the generic types of specializations. -/
def genericIds : TypeTerm → List TypeId
  | .primitive _ => []
  | .declared _ => []
  | .named _ => []
  | .specialized generic arguments =>
    generic.openIds ++ generic.genericIds ++ genericIdsOf arguments
  | .array element => element.genericIds

/-- Those of some terms. -/
def genericIdsOf : List TypeTerm → List TypeId
  | [] => []
  | t :: ts => t.genericIds ++ genericIdsOf ts

end

theorem openIdsOf_eq_flatMap (ts : List TypeTerm) : openIdsOf ts = ts.flatMap openIds := by
  induction ts with
  | nil => rfl
  | cons t ts ih => rw [openIdsOf, ih, List.flatMap_cons]

theorem genericIdsOf_eq_flatMap (ts : List TypeTerm) :
    genericIdsOf ts = ts.flatMap genericIds := by
  induction ts with
  | nil => rfl
  | cons t ts ih => rw [genericIdsOf, ih, List.flatMap_cons]

/-! ## Three ways to write a term -/

mutual

/-- A term written out, with its declared types written by `word`, but by `mark` in the generic types
of specializations. -/
def write (mark word : TypeId → String) : TypeTerm → String
  | .primitive type => type.keyword
  | .declared id => word id
  | .named signature => signature
  | .specialized generic arguments =>
    generic.write mark mark ++ "<" ++ ",".intercalate (writeAll mark word arguments) ++ ">"
  | .array element => element.write mark word ++ "[]"

/-- Some terms written out. -/
def writeAll (mark word : TypeId → String) : List TypeTerm → List String
  | [] => []
  | t :: ts => t.write mark word :: writeAll mark word ts

end

theorem writeAll_eq_map (mark word : TypeId → String) (ts : List TypeTerm) :
    writeAll mark word ts = ts.map (write mark word) := by
  induction ts with
  | nil => rfl
  | cons t ts ih => rw [writeAll, ih, List.map_cons]

/-- **Only the declared types matter.** -/
theorem write_congr {mark mark' word word' : TypeId → String} (t : TypeTerm)
    (hmark : ∀ id ∈ t.genericIds, mark id = mark' id)
    (hword : ∀ id ∈ t.openIds, word id = word' id) : t.write mark word = t.write mark' word' := by
  induction t using TypeTerm.induction generalizing word word' with
  | primitive _ | named _ => rfl
  | declared id => exact hword id (List.mem_singleton_self id)
  | specialized generic arguments ihgeneric iharguments =>
      rw [genericIds, genericIdsOf_eq_flatMap] at hmark
      rw [openIds, openIdsOf_eq_flatMap] at hword
      have hgeneric : generic.write mark mark = generic.write mark' mark' :=
        ihgeneric (fun id hid => hmark id (by simp [hid])) (fun id hid => hmark id (by simp [hid]))
      have harguments : arguments.map (write mark word) = arguments.map (write mark' word') :=
        List.map_congr_left fun t ht => iharguments t ht
          (fun id hid => hmark id
            (List.mem_append_right _ (List.mem_flatMap.mpr ⟨t, ht, hid⟩)))
          (fun id hid => hword id (List.mem_flatMap.mpr ⟨t, ht, hid⟩))
      rw [write, write, writeAll_eq_map, writeAll_eq_map, hgeneric, harguments]
  | array element ih => rw [write, write, ih hmark hword]

/-- A catalog writes all declared types by their ids. -/
theorem text_eq_write (t : TypeTerm) : t.text = t.write idMark idMark := by
  induction t using TypeTerm.induction with
  | primitive _ | declared _ | named _ => rfl
  | specialized generic arguments ihgeneric iharguments =>
      rw [text, write, texts_eq_map, writeAll_eq_map, ihgeneric, List.map_congr_left iharguments]
  | array element ih => rw [text, write, ih]

end TypeTerm

/-! ## Counting number signs -/

namespace Inventory

variable {inv : Inventory} {log : List Call}

/-- There is a type of the term. -/
def Locates (inv : Inventory) (t : TypeTerm) : Prop := ∃ type, inv.locate t = some type

theorem locates_of_locateAll {ts : List TypeTerm} {types : List TypeHandle}
    (h : inv.locateAll ts = some types) : ∀ t ∈ ts, inv.Locates t := by
  induction locateAll_iff.mp h with
  | nil => simp
  | cons ht hts ih => exact List.forall_mem_cons.mpr ⟨⟨_, ht⟩, ih (locateAll_iff.mpr hts)⟩

theorem Locates.generic {generic : TypeTerm} {arguments : List TypeTerm}
    (h : inv.Locates (.specialized generic arguments)) :
    inv.Locates generic ∧ ∀ t ∈ arguments, inv.Locates t := by
  obtain ⟨type, htype⟩ := h
  rw [locate] at htype
  split at htype
  · rename_i g types hg htypes
    exact ⟨⟨_, hg⟩, locates_of_locateAll htypes⟩
  · cases htype

theorem Locates.element {element : TypeTerm} (h : inv.Locates (.array element)) :
    inv.Locates element := by
  obtain ⟨type, htype⟩ := h
  rw [locate] at htype
  split at htype
  · rename_i part hpart
    exact ⟨part, hpart⟩
  · cases htype

theorem Locates.registered (hrecorded : Recorded log inv) {signature : String}
    (h : inv.Locates (.named signature)) : signature ∈ registeredSignatures log := by
  obtain ⟨type, htype⟩ := h
  obtain ⟨i, hi, _⟩ := Option.map_eq_some_iff.mp htype
  exact hrecorded.mem_registeredSignatures hi

/-- If the number signs in each of some texts come from two sorts of ids, so do those in all. -/
theorem sum_signs {ts : List TypeTerm} {text : TypeTerm → String}
    {openWord genericWord : TypeId → String}
    (h : ∀ t ∈ ts, signs (text t) = (t.openIds.map fun id => signs (openWord id)).sum +
      (t.genericIds.map fun id => signs (genericWord id)).sum) :
    ((ts.map text).map signs).sum =
      ((TypeTerm.openIdsOf ts).map fun id => signs (openWord id)).sum +
        ((TypeTerm.genericIdsOf ts).map fun id => signs (genericWord id)).sum := by
  induction ts with
  | nil => rfl
  | cons t ts ih =>
      obtain ⟨ht, hts⟩ := List.forall_mem_cons.mp h
      rw [List.map_cons, List.map_cons, List.sum_cons, ht, ih hts, TypeTerm.openIdsOf,
        TypeTerm.genericIdsOf, List.map_append, List.map_append, List.sum_append, List.sum_append]
      omega

/-- **Number signs come from declared types only,** if none was registered. -/
theorem Locates.signs_write (hrecorded : Recorded log inv)
    (hplain : ∀ signature ∈ registeredSignatures log, signs signature = 0)
    (mark word : TypeId → String) {t : TypeTerm} (h : inv.Locates t) :
    signs (t.write mark word) =
      (t.openIds.map fun id => signs (word id)).sum +
        (t.genericIds.map fun id => signs (mark id)).sum := by
  induction t using TypeTerm.induction generalizing word with
  | primitive type => exact signs_keyword type
  | declared id => simp [TypeTerm.write, TypeTerm.openIds, TypeTerm.genericIds]
  | named signature =>
      simpa [TypeTerm.write, TypeTerm.openIds, TypeTerm.genericIds] using
        hplain signature (h.registered hrecorded)
  | specialized generic arguments ihgeneric iharguments =>
      obtain ⟨hgeneric, harguments⟩ := h.generic
      have hbrackets : signs "<" = 0 ∧ signs ">" = 0 := by decide
      -- all ids in the generic type are written by `mark`, whichever way they are reached
      rw [TypeTerm.write, signs_append, signs_append, signs_append, signs_intercalate,
        TypeTerm.writeAll_eq_map, sum_signs fun t ht => iharguments t ht word (harguments t ht),
        ihgeneric mark hgeneric, hbrackets.1, hbrackets.2, TypeTerm.openIds, TypeTerm.genericIds]
      simp only [List.map_append, List.sum_append]
      omega
  | array element ih =>
      rw [TypeTerm.write, signs_append, ih word h.element]
      rfl

end Inventory

end ClassTable
