/-!
# Slash-separated paths

A qualified name is looked up as a path of segments separated by slashes. A path can be read as a
head, itself a path, followed by the segments after it; `splits` lists these readings, the
shortest head first. Neither heads nor segments need be non-empty.
-/

namespace ClassTable.Path

/-- The text cut at every slash. There is always at least one segment. -/
def segmentsOf : List Char → List (List Char)
  | [] => [[]]
  | c :: rest =>
    if c = '/' then [] :: segmentsOf rest
    else
      match segmentsOf rest with
      | [] => [[c]]
      | first :: others => (c :: first) :: others

/-- The ways to cut the text in two at a slash, the earliest slash first. -/
def cutsOf : List Char → List (List Char × List Char)
  | [] => []
  | c :: rest =>
    let later := (cutsOf rest).map fun cut => (c :: cut.1, cut.2)
    if c = '/' then ([], rest) :: later else later

/-- The readings of a path as a head and the segments after it, the shortest head first. -/
def splits (path : String) : List (String × List String) :=
  (cutsOf path.toList).map fun cut => (String.ofList cut.1, (segmentsOf cut.2).map String.ofList)

/-- Nothing is lost by a cut but the slash. -/
theorem eq_of_mem_cutsOf {text : List Char} {cut : List Char × List Char} (h : cut ∈ cutsOf text) :
    cut.1 ++ '/' :: cut.2 = text := by
  induction text generalizing cut with
  | nil => simp [cutsOf] at h
  | cons c rest ih =>
    have later : cut ∈ (cutsOf rest).map (fun cut => (c :: cut.1, cut.2)) →
        cut.1 ++ '/' :: cut.2 = c :: rest := by
      intro h
      obtain ⟨inner, hinner, rfl⟩ := List.mem_map.1 h
      simp [← ih hinner]
    by_cases hc : c = '/'
    · simp only [cutsOf, hc, if_true, List.mem_cons] at h
      rcases h with rfl | h
      · simp [hc]
      · exact later (hc ▸ h)
    · simp only [cutsOf, if_neg hc] at h
      exact later h

end ClassTable.Path
