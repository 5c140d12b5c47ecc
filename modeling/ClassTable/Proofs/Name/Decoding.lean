import ClassTable.Name.Signature

/-!
# Reading a signature back

Three schemes share one space of strings, and nothing in a signature says which
of them made it. As long as names are *plain* (no slash, no dollar sign, no digit
in front), the string still tells everything:

* the name of a top-level type is what follows the last slash, and there is no
  dollar sign in it;
* in every other signature the last dollar sign comes after the last slash, and
  separates the signature of the outer type from the rest;
* the rest starts with a digit exactly if the type was declared in code, and then
  the ordinal is the longest run of digits.

Packages are not restricted at all, and neither is the outer signature.
-/

namespace ClassTable

/-- A name that no separator and no ordinal can be mistaken for a part of. -/
structure PlainName (name : String) : Prop where
  /-- Not a path. -/
  no_slash : '/' ∉ name.toList
  /-- Not a member type's signature. -/
  no_dollar : '$' ∉ name.toList
  /-- Not an ordinal. -/
  no_digit : ∀ c ∈ name.toList.head?, c.isDigit = false

instance (name : String) : Decidable (PlainName name) :=
  decidable_of_iff
    ('/' ∉ name.toList ∧ '$' ∉ name.toList ∧ name.toList.head?.all (!·.isDigit) = true)
    ⟨fun h => ⟨h.1, h.2.1, by simpa [Option.all_eq_true] using h.2.2⟩,
      fun h => ⟨h.no_slash, h.no_dollar, by simpa [Option.all_eq_true] using h.no_digit⟩⟩

namespace Signature

/-! ## Cutting at a separator -/

/-- A text is cut at the last separator in only one way. -/
theorem cut_last_inj {sep : Char} {xs ys a b : List Char} (ha : sep ∉ a) (hb : sep ∉ b)
    (h : xs ++ sep :: a = ys ++ sep :: b) : xs = ys ∧ a = b := by
  rcases List.append_eq_append_iff.mp h with ⟨as, hys, hrest⟩ | ⟨as, hxs, hrest⟩
  · cases as with
    | nil =>
        simp only [List.nil_append, List.cons.injEq, true_and] at hrest
        exact ⟨by rw [hys, List.append_nil], hrest⟩
    | cons c as =>
        simp only [List.cons_append, List.cons.injEq] at hrest
        exact absurd (by rw [hrest.2]; simp) ha
  · cases as with
    | nil =>
        simp only [List.nil_append, List.cons.injEq, true_and] at hrest
        exact ⟨by rw [hxs, List.append_nil], hrest.symm⟩
    | cons c as =>
        simp only [List.cons_append, List.cons.injEq] at hrest
        exact absurd (by rw [hrest.2]; simp) hb

/-- If the last of two different separators is `l` on one side and `r` on the other, the texts
differ. -/
theorem cut_last_ne {l r : Char} (hlr : l ≠ r) {xs ys a b : List Char} (ha : r ∉ a) (hb : l ∉ b) :
    xs ++ l :: a ≠ ys ++ r :: b := by
  intro h
  rcases List.append_eq_append_iff.mp h with ⟨as, _, hrest⟩ | ⟨as, _, hrest⟩
  · cases as with
    | nil => exact hlr (List.cons.inj hrest).1
    | cons c as => exact ha (by rw [(List.cons.inj hrest).2]; simp)
  · cases as with
    | nil => exact hlr (List.cons.inj hrest).1.symm
    | cons c as => exact hb (by rw [(List.cons.inj hrest).2]; simp)

/-- A number can be told from what follows it, if that does not go on with a digit. -/
theorem digits_append_inj {m n : Nat} {a b : List Char}
    (ha : ∀ c ∈ a.head?, c.isDigit = false) (hb : ∀ c ∈ b.head?, c.isDigit = false)
    (h : Nat.toDigits 10 m ++ a = Nat.toDigits 10 n ++ b) : m = n ∧ a = b := by
  have hdigits : ∀ k : Nat, ∀ c ∈ Nat.toDigits 10 k, c.isDigit = true := fun k c hc =>
    Nat.isDigit_of_mem_toDigits (by decide) (by decide) hc
  have htake : ∀ x : List Char, (∀ c ∈ x.head?, c.isDigit = false) →
      x.takeWhile Char.isDigit = [] := by
    intro x hx
    cases x with
    | nil => rfl
    | cons c x => simp [hx c rfl]
  -- the longest run of digits in front is the number
  have hmn : Nat.toDigits 10 m = Nat.toDigits 10 n := by
    have := congrArg (List.takeWhile Char.isDigit) h
    rwa [List.takeWhile_append_of_pos (hdigits m), List.takeWhile_append_of_pos (hdigits n),
      htake a ha, htake b hb, List.append_nil, List.append_nil] at this
  refine ⟨?_, List.append_cancel_left (hmn ▸ h)⟩
  rw [← Nat.ofDigitChars_ten_toDigits (n := m), hmn, Nat.ofDigitChars_ten_toDigits]

/-! ## The three schemes -/

theorem toList_slashed (name : String) :
    (slashed name).toList = name.toList.map fun c => if c = '.' then '/' else c := by
  simp [slashed]

theorem slashed_eq_empty_iff {name : String} : slashed name = "" ↔ name = "" := by
  rw [← String.toList_inj, ← String.toList_inj, toList_slashed]
  simp

/-- A signature in code is that of a member type whose name starts with the ordinal. -/
theorem inCode_eq_inType (owner : String) (ordinal : UInt32) (name : String) :
    inCode owner ordinal name = inType owner (toString ordinal.toNat ++ name) := by
  simp [inCode, inType, String.append_assoc]

theorem toList_inPackage {package : String} (h : package ≠ "") (name : String) :
    (inPackage package name).toList = (slashed package).toList ++ '/' :: name.toList := by
  simp [inPackage, h]

/-- An ordinal in front adds no separators. -/
theorem not_mem_ordinal {c : Char} (hc : c.isDigit = false) {name : String}
    (h : c ∉ name.toList) (n : Nat) : c ∉ (toString n ++ name).toList := by
  simp only [Nat.toString_eq_repr, String.toList_append, Nat.toList_repr, List.mem_append]
  intro hor
  rcases hor with hd | hd
  · have hdigit : c.isDigit = true := Nat.isDigit_of_mem_toDigits (by decide) (by decide) hd
    rw [hc] at hdigit
    exact Bool.noConfusion hdigit
  · exact h hd

theorem inPackage_congr {p q : String} (h : slashed p = slashed q) (name : String) :
    inPackage p name = inPackage q name := by
  by_cases hp : p = ""
  · have hq : q = "" := slashed_eq_empty_iff.mp (h ▸ slashed_eq_empty_iff.mpr hp)
    rw [hp, hq]
  · have hq : q ≠ "" := fun hq => hp (slashed_eq_empty_iff.mp (h ▸ slashed_eq_empty_iff.mpr hq))
    simp only [inPackage, if_neg hp, if_neg hq, h]

/-- **Top-level types.** The package and the name can be read off. -/
theorem inPackage_inj {p q m n : String} (hm : '/' ∉ m.toList) (hn : '/' ∉ n.toList)
    (h : inPackage p m = inPackage q n) : slashed p = slashed q ∧ m = n := by
  by_cases hp : p = ""
  · by_cases hq : q = ""
    · subst hp; subst hq; exact ⟨rfl, h⟩
    · -- what is left of the one is a plain name, and the other has a slash
      exfalso
      subst hp
      refine hm ?_
      rw [← inPackage_unnamed m, h, toList_inPackage hq]
      simp
  · by_cases hq : q = ""
    · exfalso
      subst hq
      refine hn ?_
      rw [← inPackage_unnamed n, ← h, toList_inPackage hp]
      simp
    · have hlist := congrArg String.toList h
      rw [toList_inPackage hp, toList_inPackage hq] at hlist
      obtain ⟨h1, h2⟩ := cut_last_inj hm hn hlist
      exact ⟨String.toList_inj.mp h1, String.toList_inj.mp h2⟩

/-- **Member types.** The outer signature and the name can be read off. -/
theorem inType_inj {a b m n : String} (hm : '$' ∉ m.toList) (hn : '$' ∉ n.toList)
    (h : inType a m = inType b n) : a = b ∧ m = n := by
  have hlist := congrArg String.toList h
  rw [toList_inType, toList_inType] at hlist
  obtain ⟨h1, h2⟩ := cut_last_inj hm hn hlist
  exact ⟨String.toList_inj.mp h1, String.toList_inj.mp h2⟩

/-- **Types in code.** The owner's signature, the ordinal and the name can be read off. -/
theorem inCode_inj {a b m n : String} {i j : UInt32} (hm : PlainName m) (hn : PlainName n)
    (h : inCode a i m = inCode b j n) : a = b ∧ i = j ∧ m = n := by
  rw [inCode_eq_inType, inCode_eq_inType] at h
  obtain ⟨hab, htail⟩ := inType_inj (not_mem_ordinal (by decide) hm.no_dollar _)
    (not_mem_ordinal (by decide) hn.no_dollar _) h
  have hlist := congrArg String.toList htail
  simp only [Nat.toString_eq_repr, String.toList_append, Nat.toList_repr] at hlist
  obtain ⟨hij, hmn⟩ := digits_append_inj hm.no_digit hn.no_digit hlist
  exact ⟨hab, UInt32.toNat_inj.mp hij, String.toList_inj.mp hmn⟩

/-- A top-level type never has the signature of a type inside another. -/
theorem inPackage_ne_inType {p m a n : String} (hm : '$' ∉ m.toList) (hn : '/' ∉ n.toList) :
    inPackage p m ≠ inType a n := by
  intro h
  have hlist := congrArg String.toList h
  rw [toList_inType] at hlist
  by_cases hp : p = ""
  · subst hp
    rw [inPackage_unnamed] at hlist
    exact hm (by rw [hlist]; simp)
  · rw [toList_inPackage hp] at hlist
    exact cut_last_ne (by decide) hm hn hlist

theorem inPackage_ne_inCode {p m a n : String} {i : UInt32} (hm : '$' ∉ m.toList)
    (hn : '/' ∉ n.toList) : inPackage p m ≠ inCode a i n := by
  rw [inCode_eq_inType]
  exact inPackage_ne_inType hm (not_mem_ordinal (by decide) hn _)

/-- A member type never has the signature of a type in code. -/
theorem inType_ne_inCode {a m b n : String} {i : UInt32} (hm : PlainName m)
    (hn : '$' ∉ n.toList) : inType a m ≠ inCode b i n := by
  intro h
  rw [inCode_eq_inType] at h
  obtain ⟨_, htail⟩ := inType_inj hm.no_dollar (not_mem_ordinal (by decide) hn _) h
  have hlist := congrArg String.toList htail
  simp only [Nat.toString_eq_repr, String.toList_append, Nat.toList_repr] at hlist
  -- the ordinal has a first digit, and a plain name does not start with one
  cases hd : Nat.toDigits 10 i.toNat with
  | nil => exact Nat.toDigits_ne_nil hd
  | cons c digits =>
      have hc : c.isDigit = true :=
        Nat.isDigit_of_mem_toDigits (b := 10) (n := i.toNat) (by decide) (by decide)
          (by rw [hd]; simp)
      have hfalse := hm.no_digit c (by rw [hlist, hd]; rfl)
      rw [hc] at hfalse
      exact Bool.noConfusion hfalse

end Signature

end ClassTable
