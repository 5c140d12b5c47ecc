import ClassTable.Proofs.Reference.Written

/-!
# Dimensions

Dimensions are counted in one pass that knows nothing of the grammar. All it remembers is how many
angle brackets are open, and it counts a square bracket only if none is.

That is enough for types, as brackets match in them. Where brackets match the pass ends as deep as
it started (`depthAfter_eq`), so that every segment starts outside angle brackets, and square
brackets between angle brackets are not counted, however deep they are (`bracketsFrom_inside`). For
the same reason the pass never has to take a bracket off a depth of zero.
-/

namespace ClassTable

namespace Reference

open Signature

/-- The depth at which the count of brackets goes on after some text. -/
def depthAfter : Nat → List Char → Nat
  | depth, [] => depth
  | depth, '<' :: rest => depthAfter (depth + 1) rest
  | depth, '>' :: rest => depthAfter (depth - 1) rest
  | depth, _ :: rest => depthAfter depth rest

/-- The count goes on from where it stopped. -/
theorem bracketsFrom_append (depth : Nat) (xs ys : List Char) :
    bracketsFrom depth (xs ++ ys) =
      bracketsFrom depth xs + bracketsFrom (depthAfter depth xs) ys := by
  fun_induction bracketsFrom depth xs with
  | case1 depth => simp [depthAfter]
  | case2 depth rest ih => simpa [bracketsFrom, depthAfter] using ih
  | case3 depth rest ih => simpa [bracketsFrom, depthAfter] using ih
  | case4 depth rest ih => simp [bracketsFrom, depthAfter, ih, Nat.add_assoc]
  | case5 depth c rest hopen hclose hsquare ih =>
      simpa [bracketsFrom, depthAfter, hopen, hclose, hsquare] using ih

/-! ## Blanks -/

theorem count_squeeze (depth : Nat) (text : List Char) :
    bracketsFrom depth (Text.squeeze text) = bracketsFrom depth text ∧
      depthAfter depth (Text.squeeze text) = depthAfter depth text := by
  unfold Text.squeeze
  fun_induction bracketsFrom depth text with
  | case1 depth => exact ⟨rfl, rfl⟩
  | case2 depth rest ih | case3 depth rest ih =>
      rw [List.filter_cons_of_pos (by decide)]
      simpa [bracketsFrom, depthAfter] using ih
  | case4 depth rest ih =>
      rw [List.filter_cons_of_pos (by decide)]
      simpa [bracketsFrom, depthAfter] using ih
  | case5 depth c rest hopen hclose hsquare ih =>
      rw [List.filter_cons]
      split <;> simpa [bracketsFrom, depthAfter, hopen, hclose, hsquare] using ih

/-! ## Where brackets match -/

/-- A text that ends at a depth that is not negative starts at one. -/
theorem nonneg_of_above {k : Int} {text : List Char} (h : Above (fun _ => 0) k text)
    (hend : 0 ≤ k + depth text) : 0 ≤ k := by
  cases text with
  | nil => simpa using hend
  | cons c rest => exact h.1

/-- **The pass knows the depth,** if it starts at least as deep as the brackets need it to. -/
theorem depthAfter_eq {k : Int} {text : List Char} (h : Above (fun _ => 0) k text)
    (hend : 0 ≤ k + depth text) {d : Nat} (hd : k ≤ d) :
    (depthAfter d text : Int) = d + depth text := by
  fun_induction depthAfter d text generalizing k with
  | case1 d => simp
  | case2 d rest ih =>
      have hrest : Above (fun _ => 0) (k + 1) rest := h.2
      rw [depth_cons, weight_open] at hend ⊢
      rw [ih hrest (by omega) (by omega)]
      omega
  | case3 d rest ih =>
      have hrest : Above (fun _ => 0) (k + -1) rest := h.2
      rw [depth_cons, weight_close] at hend ⊢
      -- the bracket that is closed here is open, so there is something to take off
      have hopen := nonneg_of_above hrest (by omega)
      rw [ih hrest (by omega) (by omega)]
      omega
  | case4 d c rest hopen hclose ih =>
      have hweight : weight c = 0 := by rw [weight, if_neg hopen, if_neg hclose]
      have hrest : Above (fun _ => 0) (k + 0) rest := hweight ▸ h.2
      rw [depth_cons, hweight] at hend ⊢
      rw [ih hrest (by omega) (by omega)]
      omega

/-- **Inside angle brackets nothing is counted,** as long as they are not closed. -/
theorem bracketsFrom_inside {k : Int} {text : List Char} (h : Above (fun _ => 0) k text)
    (hend : 0 ≤ k + depth text) {d : Nat} (hd : k < d) : bracketsFrom d text = 0 := by
  fun_induction bracketsFrom d text generalizing k with
  | case1 d => rfl
  | case2 d rest ih =>
      have hrest : Above (fun _ => 0) (k + 1) rest := h.2
      rw [depth_cons, weight_open] at hend
      exact ih hrest (by omega) (by omega)
  | case3 d rest ih =>
      have hrest : Above (fun _ => 0) (k + -1) rest := h.2
      rw [depth_cons, weight_close] at hend
      have hopen := nonneg_of_above hrest (by omega)
      exact ih hrest (by omega) (by omega)
  | case4 d rest ih =>
      have hrest : Above (fun _ => 0) (k + 0) rest := h.2
      have hstart : 0 ≤ k := h.1
      rw [depth_cons, show weight '[' = 0 from rfl] at hend
      rw [if_neg (by omega), ih hrest (by omega) (by omega)]
  | case5 d c rest hopen hclose _ ih =>
      have hweight : weight c = 0 := by rw [weight, if_neg hopen, if_neg hclose]
      have hrest : Above (fun _ => 0) (k + 0) rest := hweight ▸ h.2
      rw [depth_cons, hweight] at hend
      exact ih hrest (by omega) (by omega)

theorem depthAfter_balanced {text : List Char} (h : Balanced text) (d : Nat) :
    depthAfter d text = d := by
  have hd := depthAfter_eq h.above (by rw [h.level]; decide) (Int.natCast_nonneg d)
  rw [h.level] at hd
  omega

/-- What stands between angle brackets is passed over. -/
theorem bracketsFrom_between {arguments : List Char} (h : Balanced arguments)
    (rest : List Char) :
    bracketsFrom 0 ('<' :: arguments ++ '>' :: rest) = bracketsFrom 0 rest := by
  have hinside : bracketsFrom 1 arguments = 0 :=
    bracketsFrom_inside h.above (by rw [h.level]; decide) (by decide)
  rw [List.cons_append, bracketsFrom, bracketsFrom_append, hinside, depthAfter_balanced h,
    bracketsFrom, Nat.zero_add]

/-- In a text in which a bracket is closed, it was open. -/
theorem depthAfter_pos {before after : List Char} (h : Balanced (before ++ '>' :: after)) :
    0 < depthAfter 0 before := by
  obtain ⟨hbefore, hafter⟩ := above_append.mp h.above
  have hlevel := h.level
  rw [depth_append, depth_cons, weight_close] at hlevel
  have hrest : Above (fun _ => 0) (0 + depth before + -1) after := hafter.2
  have hopen := nonneg_of_above hrest (by omega)
  have hdepth := depthAfter_eq (d := 0) hbefore (by omega) (Int.le_refl 0)
  omega

/-! ## Types -/

/-- Where no square bracket is opened nothing is counted. -/
theorem bracketsFrom_eq_zero {text : List Char} (h : '[' ∉ text) (d : Nat) :
    bracketsFrom d text = 0 := by
  fun_induction bracketsFrom d text with
  | case1 d => rfl
  | case2 d rest ih | case3 d rest ih => exact ih (List.not_mem_of_not_mem_cons h)
  | case4 d rest ih => exact absurd List.mem_cons_self h
  | case5 d c rest _ _ _ ih => exact ih (List.not_mem_of_not_mem_cons h)

theorem bracketsFrom_name (n : Identifier) (rest : List Char) :
    bracketsFrom 0 (n.chars ++ rest) = bracketsFrom 0 rest := by
  have hsquare : '[' ∉ n.chars := fun hmem => n.undelimited hmem (by decide)
  rw [bracketsFrom_append, bracketsFrom_eq_zero hsquare, depthAfter_balanced n.closed.balanced,
    Nat.zero_add]

theorem bracketsFrom_segment (segment : WrittenSegment) : bracketsFrom 0 segment.text = 0 := by
  cases segment with
  | plain name =>
      have hname := bracketsFrom_name name []
      rwa [List.append_nil] at hname
  | generic name arguments =>
      have hbetween := bracketsFrom_between arguments.balanced []
      rw [WrittenSegment.text, List.append_assoc, bracketsFrom_name, hbetween]
      rfl

/-- Whatever segments a path has, square brackets come after it. -/
theorem bracketsFrom_path (path : WrittenPath) : bracketsFrom 0 path.text = 0 := by
  cases path with
  | last segment => exact bracketsFrom_segment segment
  | dot segment rest =>
      rw [WrittenPath.text, bracketsFrom_append, bracketsFrom_segment,
        depthAfter_balanced segment.balanced, Nat.zero_add]
      exact bracketsFrom_path rest

theorem bracketsFrom_bracketPairs (n : Nat) : bracketsFrom 0 (bracketPairs n) = n := by
  induction n with
  | zero => rfl
  | succ n ih =>
      have hpairs : bracketPairs (n + 1) = '[' :: ']' :: bracketPairs n := by
        simp [bracketPairs, List.replicate_succ]
      rw [hpairs, bracketsFrom, if_pos rfl, bracketsFrom, ih, Nat.add_comm]
      all_goals decide

/--
**The dimensions of a type are the pairs of brackets after it.**

If the tokens of a reference spell a type, however the text is cut into tokens and wherever blanks
stand, the pass counts exactly the pairs of square brackets at the end of the type, and none of
those in type arguments. Whenever it comes to a closing angle bracket one is open: it goes on at a
depth that is less by one, so it has nothing to pass over.
-/
theorem dimensions_of_spells {r : Reference} {t : WrittenType} (h : r.Spells t) :
    r.dimensions = t.dimensions ∧
    ∀ before after, r.text.toList = before ++ '>' :: after →
      0 < depthAfter 0 before ∧
        r.dimensions = bracketsFrom 0 before + bracketsFrom (depthAfter 0 before - 1) after := by
  refine ⟨?_, fun before after htext => ⟨?_, ?_⟩⟩
  · obtain ⟨path, dimensions⟩ := t
    rw [Reference.dimensions, ← (count_squeeze 0 r.text.toList).1, show _ = _ from h,
      WrittenType.text, bracketsFrom_append, bracketsFrom_path, depthAfter_balanced path.balanced,
      bracketsFrom_bracketPairs, Nat.zero_add]
    rfl
  · -- blanks do not change the depth, and without them brackets match
    have hbalanced := t.balanced
    rw [← show _ = _ from h, htext, Text.squeeze, List.filter_append,
      List.filter_cons_of_pos (by decide)] at hbalanced
    rw [← (count_squeeze 0 before).2]
    exact depthAfter_pos hbalanced
  · rw [Reference.dimensions, htext, bracketsFrom_append, bracketsFrom]

/-- Brackets in both arguments, and a path that goes on after them. -/
theorem sample_dimensions :
    sampleSpelling.Spells sampleWritten ∧ sampleSpelling.dimensions = 2 :=
  ⟨sampleSpelling_spells, (dimensions_of_spells sampleSpelling_spells).1⟩

end Reference

end ClassTable
