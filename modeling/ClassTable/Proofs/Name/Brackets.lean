import Mathlib.Data.List.Basic

/-!
# Reading composite signatures

The signature of a specialization puts the signatures of its arguments between angle brackets,
with commas between them, and arguments can be composite themselves. It can be taken apart again
because brackets match. In the signature of a type every comma stands between brackets
(`Closed`), so that a comma outside brackets can only be one that separates arguments, and the
bracket that matches the last one can only be the one that opens the list of arguments.

Depth is counted from the left. That every character is deep enough is said by recursion
on the text (`Above`), and so it can be checked part by part.
-/

namespace ClassTable.Signature

/-! ## Depth -/

/-- What a character adds to the depth of those after it. -/
def weight (ch : Char) : Int := if ch = '<' then 1 else if ch = '>' then -1 else 0

/-- Number of brackets that the text opens and does not close. -/
def depth : List Char → Int
  | [] => 0
  | ch :: rest => weight ch + depth rest

@[simp] theorem depth_nil : depth [] = 0 := rfl

@[simp] theorem depth_cons (ch : Char) (rest : List Char) :
    depth (ch :: rest) = weight ch + depth rest := rfl

@[simp] theorem depth_append (xs ys : List Char) : depth (xs ++ ys) = depth xs + depth ys := by
  induction xs with
  | nil => simp
  | cons ch xs ih => rw [List.cons_append, depth_cons, depth_cons, ih, Int.add_assoc]

@[simp] theorem weight_open : weight '<' = 1 := rfl

@[simp] theorem weight_close : weight '>' = -1 := rfl


/-- Reading on at depth `k`, every character is as deep as it has to be. -/
def Above (low : Char → Int) (k : Int) : List Char → Prop
  | [] => True
  | ch :: rest => low ch ≤ k ∧ Above low (k + weight ch) rest

theorem above_append {low : Char → Int} {k : Int} {xs ys : List Char} :
    Above low k (xs ++ ys) ↔ Above low k xs ∧ Above low (k + depth xs) ys := by
  induction xs generalizing k with
  | nil => simp [Above]
  | cons ch xs ih =>
      rw [List.cons_append, Above, Above, ih, depth_cons, Int.add_assoc, and_assoc]

/-- A text may be deeper. -/
theorem Above.mono {low low' : Char → Int} {k k' : Int} {text : List Char}
    (h : Above low k text) (hk : k ≤ k') (hlow : ∀ ch, low' ch + k ≤ low ch + k') :
    Above low' k' text := by
  induction text generalizing k k' with
  | nil => trivial
  | cons ch text ih =>
      have hch := hlow ch
      refine ⟨by have := h.1; omega, ih h.2 (by omega) fun other => ?_⟩
      have hother := hlow other
      omega

/-- A character in the middle of a text is as deep as it has to be. -/
theorem Above.at {low : Char → Int} {xs ys : List Char} {ch : Char}
    (h : Above low 0 (xs ++ ch :: ys)) : low ch ≤ depth xs := by
  have hch := (above_append.mp h).2.1
  omega

/-! ## Closed texts -/

/-- Commas have to stand between brackets, all else may stand outside. -/
def inside (ch : Char) : Int := if ch = ',' then 1 else 0

/-- Brackets match. -/
structure Balanced (text : List Char) : Prop where
  /-- All brackets are closed. -/
  level : depth text = 0
  /-- No bracket is closed before it is opened. -/
  above : Above (fun _ => 0) 0 text

/-- What the text of a type looks like. -/
structure Closed (text : List Char) : Prop where
  /-- There is something to read. -/
  nonempty : text ≠ []
  /-- All brackets are closed. -/
  level : depth text = 0
  /-- Commas stand between brackets. -/
  above : Above inside 0 text

theorem inside_nonneg (ch : Char) : 0 ≤ inside ch := by
  unfold inside
  split <;> decide

theorem Closed.balanced {text : List Char} (h : Closed text) : Balanced text :=
  ⟨h.level, h.above.mono (Int.le_refl 0) fun ch => by have := inside_nonneg ch; omega⟩

theorem balanced_nil : Balanced [] := ⟨rfl, trivial⟩

theorem Balanced.append {xs ys : List Char} (hxs : Balanced xs) (hys : Balanced ys) :
    Balanced (xs ++ ys) where
  level := by rw [depth_append, hxs.level, hys.level]; rfl
  above := above_append.mpr ⟨hxs.above, by rw [hxs.level]; exact hys.above⟩

/-- A character that plays no part in composite signatures. -/
def plain (ch : Char) : Prop := ch ≠ '<' ∧ ch ≠ '>' ∧ ch ≠ ','

theorem above_plain {k : Int} (hk : 0 ≤ k) {text : List Char} (h : ∀ ch ∈ text, plain ch) :
    depth text = 0 ∧ Above inside k text := by
  induction text with
  | nil => exact ⟨rfl, trivial⟩
  | cons ch text ih =>
      obtain ⟨hopen, hclose, hcomma⟩ := h ch List.mem_cons_self
      have hweight : weight ch = 0 := by rw [weight, if_neg hopen, if_neg hclose]
      obtain ⟨hlevel, habove⟩ := ih fun other hother => h other (List.mem_cons_of_mem ch hother)
      refine ⟨by rw [depth_cons, hweight, hlevel]; rfl, ?_, by rwa [hweight, Int.add_zero]⟩
      rwa [inside, if_neg hcomma]

/-- Words are closed. -/
theorem closed_word {text : List Char} (hne : text ≠ []) (h : ∀ ch ∈ text, plain ch) :
    Closed text :=
  ⟨hne, (above_plain (Int.le_refl 0) h).1, (above_plain (Int.le_refl 0) h).2⟩

/-- Dimensions are added to closed texts. -/
theorem Closed.append_plain {text suffix : List Char} (h : Closed text)
    (hsuffix : ∀ ch ∈ suffix, plain ch) : Closed (text ++ suffix) := by
  obtain ⟨hlevel, habove⟩ := above_plain (Int.le_refl 0) hsuffix
  refine ⟨by simp [h.nonempty], by rw [depth_append, h.level, hlevel]; rfl, ?_⟩
  exact above_append.mpr ⟨h.above, by rwa [h.level]⟩

/-- Between brackets anything goes that is balanced. -/
theorem Closed.apply {text arguments : List Char} (h : Closed text)
    (harguments : Balanced arguments) : Closed (text ++ '<' :: arguments ++ ['>']) := by
  refine ⟨by simp, ?_, ?_⟩
  · simp [h.level, harguments.level]
  · rw [List.append_assoc, above_append, h.level, List.cons_append]
    refine ⟨h.above, by decide, above_append.mpr ⟨?_, ?_⟩⟩
    · refine harguments.above.mono (by decide) fun ch => ?_
      simp only [inside, weight_open]
      split <;> omega
    · rw [harguments.level]
      exact ⟨by decide, trivial⟩

theorem balanced_join {texts : List (List Char)} (h : ∀ text ∈ texts, Balanced text) :
    Balanced ([','].intercalate texts) := by
  have hcomma : Balanced [','] := ⟨rfl, by decide, trivial⟩
  induction texts with
  | nil => exact balanced_nil
  | cons text texts ih =>
      have hrest := ih fun other hother => h other (List.mem_cons_of_mem text hother)
      have htext := h text List.mem_cons_self
      cases texts with
      | nil => simpa using htext
      | cons next texts =>
          rw [List.intercalate_cons_cons]
          exact (htext.append hcomma).append hrest

/-! ## Taking texts apart -/

/-- An opening bracket in front of a balanced text is not inside another. -/
theorem Balanced.ne_append_open {xs ys between : List Char} (hxs : Balanced xs)
    (hys : Balanced ys) : xs ≠ between ++ '<' :: ys := by
  intro h
  subst h
  have hlevel := hxs.level
  have hdepth := hxs.above.at
  simp only [depth_append, depth_cons, weight_open, hys.level] at hlevel
  omega

/-- **The bracket that opens a balanced text** can be told from all brackets in the text. -/
theorem cut_at_open {xs ys as bs : List Char} (has : Balanced as) (hbs : Balanced bs)
    (h : xs ++ '<' :: as = ys ++ '<' :: bs) : xs = ys ∧ as = bs := by
  have hcut : ∀ {zs xs ys as bs : List Char}, Balanced as → Balanced bs → ys = xs ++ zs →
      '<' :: as = zs ++ '<' :: bs → xs = ys ∧ as = bs := by
    intro zs xs ys as bs has hbs hys hrest
    cases zs with
    | nil => exact ⟨by simpa using hys.symm, (List.cons.inj hrest).2⟩
    | cons ch zs => exact absurd (List.cons.inj hrest).2 (has.ne_append_open hbs)
  rcases List.append_eq_append_iff.mp h with ⟨zs, hys, hrest⟩ | ⟨zs, hxs, hrest⟩
  · exact hcut has hbs hys hrest
  · obtain ⟨hsame, hsame'⟩ := hcut hbs has hxs hrest
    exact ⟨hsame.symm, hsame'.symm⟩

/-- A comma after a closed text is not part of another. -/
theorem Closed.ne_append_comma {xs ys rest : List Char} (hxs : Closed xs) (hys : Closed ys) :
    ys ≠ xs ++ ',' :: rest := by
  intro h
  subst h
  have hdepth := hys.above.at
  rw [hxs.level] at hdepth
  exact absurd hdepth (by decide)

/-- The first of the texts that commas separate. -/
theorem cut_at_comma {xs ys as bs : List Char} (hxs : Closed xs) (hys : Closed ys)
    (h : xs ++ ',' :: as = ys ++ ',' :: bs) : xs = ys ∧ as = bs := by
  have hcut : ∀ {zs xs ys as bs : List Char}, Closed xs → Closed ys → ys = xs ++ zs →
      ',' :: as = zs ++ ',' :: bs → xs = ys ∧ as = bs := by
    intro zs xs ys as bs hxs hys heq hrest
    cases zs with
    | nil => exact ⟨by simpa using heq.symm, (List.cons.inj hrest).2⟩
    | cons ch zs =>
        rw [← (List.cons.inj hrest).1] at heq
        exact absurd heq (hxs.ne_append_comma hys)
  rcases List.append_eq_append_iff.mp h with ⟨zs, heq, hrest⟩ | ⟨zs, heq, hrest⟩
  · exact hcut hxs hys heq hrest
  · obtain ⟨hsame, hsame'⟩ := hcut hys hxs heq hrest
    exact ⟨hsame.symm, hsame'.symm⟩

/-- **A list of arguments** can be read off what is written between the brackets. -/
theorem join_inj {xs ys : List (List Char)} (hxs : ∀ x ∈ xs, Closed x) (hys : ∀ y ∈ ys, Closed y)
    (h : [','].intercalate xs = [','].intercalate ys) : xs = ys := by
  -- the text of a list, with the first argument split off
  have hhead : ∀ (x : List Char) (rest : List (List Char)),
      [','].intercalate (x :: rest) = x ∧ rest = [] ∨
      [','].intercalate (x :: rest) = x ++ ',' :: [','].intercalate rest ∧ rest ≠ [] := by
    intro x rest
    cases rest with
    | nil => exact Or.inl ⟨by simp, rfl⟩
    | cons next rest => exact Or.inr ⟨by simp, by simp⟩
  have hnil : ∀ {x : List Char} {rest : List (List Char)}, Closed x →
      [','].intercalate (x :: rest) ≠ [] := by
    intro x rest hx
    rcases hhead x rest with ⟨heq, _⟩ | ⟨heq, _⟩
    · rw [heq]
      exact hx.nonempty
    · rw [heq]
      simp
  induction xs generalizing ys with
  | nil =>
      cases ys with
      | nil => rfl
      | cons y ys => exact absurd h.symm (hnil (hys y List.mem_cons_self))
  | cons x xs ih =>
      have hx := hxs x List.mem_cons_self
      cases ys with
      | nil => exact absurd h (hnil hx)
      | cons y ys =>
          have hy := hys y List.mem_cons_self
          have hrest := ih (fun z hz => hxs z (List.mem_cons_of_mem x hz))
            (fun z hz => hys z (List.mem_cons_of_mem y hz))
          rcases hhead x xs with ⟨hxeq, rfl⟩ | ⟨hxeq, _⟩ <;>
            rcases hhead y ys with ⟨hyeq, rfl⟩ | ⟨hyeq, _⟩ <;> rw [hxeq, hyeq] at h
          · rw [h]
          · exact absurd h (hy.ne_append_comma hx)
          · exact absurd h.symm (hx.ne_append_comma hy)
          · obtain ⟨hsame, hjoin⟩ := cut_at_comma hx hy h
            rw [hsame, hrest hjoin]

/-- **A specialization** can be read off its text. -/
theorem apply_inj {base base' : List Char} {arguments arguments' : List (List Char)}
    (harguments : ∀ text ∈ arguments, Closed text)
    (harguments' : ∀ text ∈ arguments', Closed text)
    (h : base ++ '<' :: [','].intercalate arguments ++ ['>'] =
      base' ++ '<' :: [','].intercalate arguments' ++ ['>']) :
    base = base' ∧ arguments = arguments' := by
  obtain ⟨hbase, hjoin⟩ := cut_at_open (balanced_join fun text ht => (harguments text ht).balanced)
    (balanced_join fun text ht => (harguments' text ht).balanced) (List.append_cancel_right h)
  exact ⟨hbase, join_inj harguments harguments' hjoin⟩

/-! ## Texts -/

/-- The characters that composite signatures are put together with. -/
def delimiters : List Char := ['<', '>', ',', '[', ']']

/-- The text can be the signature of a type that is not composite. -/
structure Word (text : String) : Prop where
  /-- There is something to read. -/
  nonempty : text ≠ ""
  /-- Nothing in it looks like a part of a composite signature. -/
  undelimited : ∀ ch ∈ text.toList, ch ∉ delimiters

theorem Word.closed {text : String} (h : Word text) : Closed text.toList := by
  refine closed_word (fun hnil => h.nonempty (String.toList_eq_nil_iff.mp hnil)) fun ch hch => ?_
  have hnot := h.undelimited ch hch
  simp only [delimiters, List.mem_cons, not_or] at hnot
  exact ⟨hnot.1, hnot.2.1, hnot.2.2.1⟩

theorem Word.ne_array {text element : String} (h : Word text) : text ≠ element ++ "[]" := by
  intro heq
  subst heq
  exact h.undelimited ']' (by simp) (by decide)

theorem Word.ne_apply {text front : String} (h : Word text) : text ≠ front ++ ">" := by
  intro heq
  subst heq
  exact h.undelimited '>' (by simp) (by decide)

/-- The text of an array is closed if that of its elements is. -/
theorem Closed.array {element : String} (h : Closed element.toList) :
    Closed (element ++ "[]").toList := by
  rw [String.toList_append]
  exact h.append_plain (by simp [plain])

theorem array_ne_apply (element front : String) : element ++ "[]" ≠ front ++ ">" := by
  intro heq
  have hlast := congrArg (fun text : String => text.toList.getLast?) heq
  simp [String.toList_append] at hlast

theorem toList_apply (base : String) (arguments : List String) :
    (base ++ "<" ++ ",".intercalate arguments ++ ">").toList =
      base.toList ++ '<' :: [','].intercalate (arguments.map String.toList) ++ ['>'] := by
  simp [String.toList_append, String.toList_intercalate]

end ClassTable.Signature
