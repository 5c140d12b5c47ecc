import ClassTable.Modifier
import Mathlib.Data.Nat.Bitwise

/-!
# Modifier words and modifier sets

There are two ways to ask whether a declaration has a modifier: look for the keyword among its
words, or look at the bit in the set made of them. Both are used side by side, so they had better
agree.

The set is made by a fold that never clears a bit. What carries this file is one statement about all
its bits (`testBit_flags`): a bit is set exactly if it is the bit of a modifier whose keyword is
there. That bits and keywords tell modifiers apart makes of it an answer for each modifier, and that
a word is determined by its bits makes of it that equal sets have the same keywords. The other laws
only rephrase which keywords are there.
-/

namespace ClassTable

namespace Modifier

theorem position_inj {x y : Modifier} (h : x.position.toNat = y.position.toNat) : x = y := by
  revert h
  cases x <;> cases y <;> decide

theorem keyword_of_ofKeyword? {word : String} {x : Modifier} (h : ofKeyword? word = some x) :
    x.keyword = word := by
  simpa using List.find?_some h

theorem toNat_bit (x : Modifier) : x.bit.toNat = 2 ^ x.position.toNat := by
  cases x <;> rfl

/-- A modifier has one bit. -/
theorem testBit_bit (x : Modifier) (k : Nat) :
    x.bit.toNat.testBit k = decide (x.position.toNat = k) := by
  rw [toNat_bit, Nat.testBit_two_pow]

end Modifier

namespace ModifierSet

/-- Sets with the same bits are the same. -/
theorem ext_testBit {s t : ModifierSet}
    (h : ∀ k, s.bits.toNat.testBit k = t.bits.toNat.testBit k) : s = t := by
  cases s
  cases t
  rw [mk.injEq, ← UInt16.toNat_inj]
  exact Nat.eq_of_testBit_eq h

theorem contains_eq_testBit (s : ModifierSet) (x : Modifier) :
    s.contains x = s.bits.toNat.testBit x.position.toNat := by
  have hzero : s.bits &&& x.bit = 0 ↔ s.bits.toNat.testBit x.position.toNat = false := by
    rw [← UInt16.toNat_inj, UInt16.toNat_and, Modifier.toNat_bit, Nat.and_two_pow]
    simp
  rw [contains, Bool.eq_iff_iff, bne_iff_ne, Ne, hzero, Bool.not_eq_false]

theorem testBit_insert (s : ModifierSet) (x : Modifier) (k : Nat) :
    (s.insert x).bits.toNat.testBit k = true ↔
      x.position.toNat = k ∨ s.bits.toNat.testBit k = true := by
  rw [insert, UInt16.toNat_or, Nat.testBit_or, Modifier.testBit_bit, Bool.or_eq_true,
    decide_eq_true_eq, or_comm]

theorem testBit_union (s t : ModifierSet) (k : Nat) :
    (s.union t).bits.toNat.testBit k = (s.bits.toNat.testBit k || t.bits.toNat.testBit k) := by
  rw [union, UInt16.toNat_or, Nat.testBit_or]

/-- Inserting modifiers one after the other sets their bits, and clears none. -/
theorem testBit_foldl_insert (s : ModifierSet) (xs : List Modifier) (k : Nat) :
    (xs.foldl insert s).bits.toNat.testBit k = true ↔
      (∃ x ∈ xs, x.position.toNat = k) ∨ s.bits.toNat.testBit k = true := by
  induction xs generalizing s with
  | nil => simp
  | cons x xs ih =>
      rw [List.foldl_cons, ih, testBit_insert]
      simp only [List.mem_cons, or_and_right, exists_or, exists_eq_left, or_assoc, or_left_comm]

end ModifierSet

namespace Modifiers

theorem contains_iff {m : Modifiers} {word : String} : m.contains word = true ↔ word ∈ m.words := by
  rw [contains, List.contains_iff_mem]

theorem mem_filterMap_ofKeyword? {words : List String} {x : Modifier} :
    x ∈ words.filterMap Modifier.ofKeyword? ↔ x.keyword ∈ words := by
  refine ⟨fun h => ?_, fun h => ?_⟩
  · obtain ⟨word, hword, hx⟩ := List.mem_filterMap.mp h
    rwa [Modifier.keyword_of_ofKeyword? hx]
  · exact List.mem_filterMap.mpr ⟨x.keyword, h, Modifier.ofKeyword?_keyword x⟩

/-- **Which bits are set:** those of the modifiers whose keywords were written. -/
theorem testBit_flags (m : Modifiers) (k : Nat) :
    m.flags.bits.toNat.testBit k = true ↔
      ∃ x : Modifier, m.contains x.keyword = true ∧ x.position.toNat = k := by
  have hempty : ModifierSet.empty.bits.toNat.testBit k = false := Nat.zero_testBit k
  rw [flags, ModifierSet.testBit_foldl_insert, hempty]
  simp only [mem_filterMap_ofKeyword?, contains_iff, Bool.false_eq_true, or_false]

/-- **The set and the words agree on each modifier.** -/
theorem contains_flags (m : Modifiers) (x : Modifier) :
    m.flags.contains x = m.contains x.keyword := by
  rw [ModifierSet.contains_eq_testBit, Bool.eq_iff_iff, testBit_flags]
  refine ⟨?_, fun h => ⟨x, h, rfl⟩⟩
  rintro ⟨y, hy, hposition⟩
  rwa [← Modifier.position_inj hposition]

/-- Sets are the same if the same keywords were written, and only then. -/
theorem flags_eq_iff {m n : Modifiers} :
    m.flags = n.flags ↔ ∀ x : Modifier, m.contains x.keyword = n.contains x.keyword := by
  refine ⟨fun h x => ?_, fun h => ModifierSet.ext_testBit fun k => ?_⟩
  · rw [← contains_flags, ← contains_flags, h]
  · rw [Bool.eq_iff_iff, testBit_flags, testBit_flags]
    simp only [h]

theorem flags_append (words more : List String) :
    flags ⟨words ++ more⟩ = (flags ⟨words⟩).union (flags ⟨more⟩) := by
  refine ModifierSet.ext_testBit fun k => ?_
  rw [Bool.eq_iff_iff, ModifierSet.testBit_union, Bool.or_eq_true, testBit_flags, testBit_flags,
    testBit_flags]
  simp only [contains_iff, List.mem_append, or_and_right, exists_or]

/-- The order of the words does not matter. -/
theorem flags_perm {words other : List String} (h : words.Perm other) :
    flags ⟨words⟩ = flags ⟨other⟩ := by
  refine flags_eq_iff.mpr fun x => ?_
  rw [Bool.eq_iff_iff, contains_iff, contains_iff]
  exact h.mem_iff

/-- A word adds nothing if it is there already or is no keyword. -/
theorem flags_cons_idle {word : String} {words : List String}
    (h : word ∈ words ∨ ∀ x : Modifier, word ≠ x.keyword) :
    flags ⟨word :: words⟩ = flags ⟨words⟩ := by
  refine flags_eq_iff.mpr fun x => ?_
  rw [Bool.eq_iff_iff, contains_iff, contains_iff]
  refine ⟨fun hmem => ?_, List.mem_cons_of_mem word⟩
  rcases List.mem_cons.mp hmem with hword | hmem
  · rcases h with hknown | hunknown
    · rwa [hword]
    · exact absurd hword.symm (hunknown x)
  · exact hmem

/--
**A set of modifiers says what the words say.**

A modifier is in the set of some tokens exactly if its keyword is among their words; so the
questions that are asked of the words could be asked of the set. No bit of the set belongs to
nothing. Hence two sets are the same exactly if the same keywords were written. The set of two runs
of tokens is the union of their sets. It does not depend on the order of the tokens, and a token
that repeats a word or is no keyword changes nothing, wherever it stands.
-/
theorem flags_agree_with_words (tokens : List Token) :
    (∀ x : Modifier, (ofTokens tokens).flags.contains x = (ofTokens tokens).contains x.keyword) ∧
    ((ofTokens tokens).isStatic = (ofTokens tokens).flags.contains .static ∧
      (ofTokens tokens).isAbstract = (ofTokens tokens).flags.contains .abstract) ∧
    (∀ k, (ofTokens tokens).flags.bits.toNat.testBit k = true →
      ∃ x : Modifier, x.position.toNat = k ∧ (ofTokens tokens).contains x.keyword = true) ∧
    (∀ other, (ofTokens tokens).flags = (ofTokens other).flags ↔
      ∀ x : Modifier, (ofTokens tokens).contains x.keyword = (ofTokens other).contains x.keyword) ∧
    (∀ other, (ofTokens (tokens ++ other)).flags =
      (ofTokens tokens).flags.union (ofTokens other).flags) ∧
    (∀ other, other.Perm tokens → (ofTokens other).flags = (ofTokens tokens).flags) ∧
    ∀ before after token, tokens = before ++ after →
      (token.value ∈ (ofTokens tokens).words ∨ ∀ x : Modifier, token.value ≠ x.keyword) →
      (ofTokens (before ++ token :: after)).flags = (ofTokens tokens).flags := by
  refine ⟨contains_flags _, ⟨?_, ?_⟩, fun k hk => ?_, fun other => flags_eq_iff, fun other => ?_,
    fun other hperm => flags_perm (hperm.map Token.value), ?_⟩
  · exact (contains_flags _ .static).symm
  · exact (contains_flags _ .abstract).symm
  · obtain ⟨x, hx, hposition⟩ := (testBit_flags _ k).mp hk
    exact ⟨x, hposition, hx⟩
  · rw [ofTokens, List.map_append]
    exact flags_append _ _
  · intro before after token hsplit hidle
    have hfront : (before ++ token :: after).Perm (token :: tokens) := by
      rw [hsplit]
      exact List.perm_middle
    calc (ofTokens (before ++ token :: after)).flags
        = (ofTokens (token :: tokens)).flags := flags_perm (hfront.map Token.value)
      _ = (ofTokens tokens).flags := flags_cons_idle hidle

/-- Two keywords, of the bits three and four. -/
def sampleTokens : List Token := [⟨"static", .dummy⟩, ⟨"final", .dummy⟩]

/-- The other way around, with a keyword twice, and with a word that is no keyword. -/
theorem sample_flags : (ofTokens sampleTokens).flags = ⟨24⟩ ∧
    (∃ x : Modifier, x.position.toNat = 4 ∧
      (ofTokens sampleTokens).contains x.keyword = true) ∧
    (ofTokens [⟨"final", .dummy⟩, ⟨"static", .dummy⟩]).flags = ⟨24⟩ ∧
    (ofTokens [⟨"static", .dummy⟩, ⟨"static", .dummy⟩, ⟨"final", .dummy⟩]).flags = ⟨24⟩ ∧
    (ofTokens [⟨"static", .dummy⟩, ⟨"bogus", .dummy⟩, ⟨"final", .dummy⟩]).flags = ⟨24⟩ := by
  have hset : (ofTokens sampleTokens).flags = ⟨24⟩ := by decide
  obtain ⟨_, _, hbits, _, _, hperm, hidle⟩ := flags_agree_with_words sampleTokens
  have hunknown : ∀ x : Modifier, "bogus" ≠ x.keyword := fun x => by cases x <;> decide
  refine ⟨hset, hbits 4 (by rw [hset]; decide), ?_, ?_, ?_⟩
  · exact (hperm _ (List.Perm.swap _ _ _)).trans hset
  · exact (hidle [] sampleTokens ⟨"static", .dummy⟩ rfl (Or.inl (by decide))).trans hset
  · exact (hidle [⟨"static", .dummy⟩] [⟨"final", .dummy⟩] ⟨"bogus", .dummy⟩ rfl
      (Or.inr hunknown)).trans hset

end Modifiers

end ClassTable
