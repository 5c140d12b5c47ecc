import ClassTable.Program.Resolution
import ClassTable.Proofs.Registry.Interning

/-!
# Array types

Wrapping an element type in dimensions asks for one array type after the other. What this
does to a catalog is modest: new array types come at the end, and everything known before
stays known under the same number (`GrowsByArrays`).

In a sound catalog making arrays and taking them apart are inverse to each other, at any
depth: the array types over an element type form a tower, the top of the tower is what
`wrap` answers, and unwrapping it leads back to the element type.
-/

namespace ClassTable

/-! ## Growth by arrays -/

/-- `c'` is `c` with more array types. -/
structure Catalog.GrowsByArrays (c c' : Catalog) : Prop where
  /-- The names are the same. -/
  names : c'.coreNames = c.coreNames
  /-- Types stay as they are. -/
  get : ∀ i e, c.inventory.get? i = some e → c'.inventory.get? i = some e
  /-- Keys keep their numbers. -/
  find : ∀ key i, c.inventory.findKey? key = some i → c'.inventory.findKey? key = some i
  /-- Only keys of arrays are new. -/
  added : ∀ key i, c'.inventory.findKey? key = some i → c.inventory.findKey? key = some i ∨
    ∃ element, key = .array element

namespace Catalog

theorem growsByArrays_refl (c : Catalog) : c.GrowsByArrays c :=
  ⟨rfl, fun _ _ h => h, fun _ _ h => h, fun _ _ h => Or.inl h⟩

theorem growsByArrays_trans {a b c : Catalog} (hab : a.GrowsByArrays b) (hbc : b.GrowsByArrays c) :
    a.GrowsByArrays c where
  names := hbc.names.trans hab.names
  get := fun i e h => hbc.get i e (hab.get i e h)
  find := fun key i h => hbc.find key i (hab.find key i h)
  added := by
    intro key i h
    rcases hbc.added key i h with hb | harray
    · exact hab.added key i hb
    · exact Or.inr harray

theorem growsByArrays_push {c : Catalog} {e : Entry} {element : TypeHandle}
    (hkey : e.key = .array element) (hnew : c.inventory.findKey? e.key = none) :
    c.GrowsByArrays { c with inventory := (c.inventory.push e).2 } where
  names := rfl
  get := fun _ _ h => Inventory.get?_push_of_get? h
  find := by
    intro key i h
    have hne : e.key ≠ key := fun heq => by
      rw [heq, h] at hnew
      exact absurd hnew (by simp)
    rw [Inventory.findKey?_push_of_ne _ hne, h]
  added := by
    intro key i h
    by_cases heq : e.key = key
    · exact Or.inr ⟨element, by rw [← heq, hkey]⟩
    · rw [Inventory.findKey?_push_of_ne _ heq] at h
      exact Or.inl h

/-- A key that is not of an array has the same number, if any. -/
theorem GrowsByArrays.findKey?_eq {c c' : Catalog} (h : c.GrowsByArrays c') {key : TypeKey}
    (hkey : ∀ element, key ≠ .array element) :
    c'.inventory.findKey? key = c.inventory.findKey? key := by
  cases hc : c.inventory.findKey? key with
  | some i => exact h.find key i hc
  | none =>
      cases hc' : c'.inventory.findKey? key with
      | none => rfl
      | some i =>
          rcases h.added key i hc' with hold | ⟨element, harray⟩
          · rw [hc] at hold
            exact absurd hold (by simp)
          · exact absurd harray (hkey element)

/-- What asking for an array type does. -/
theorem arrayOf_spec {c : Catalog} (hs : c.inventory.Sound) {element : TypeHandle}
    (hne : element ≠ .void) :
    ∃ i c', Registry.arrayOf c element = (some i, c') ∧ c'.inventory.Sound ∧ c.GrowsByArrays c' ∧
      c'.inventory.findKey? (.array element) = some i ∧
      ∀ key j, c'.inventory.findKey? key = some j →
        c.inventory.findKey? key = some j ∨ key = .array element := by
  have hanswer : Registry.arrayOf c element = ((c.inventory.answer (.arrayOf element)).1,
      { c with inventory := (c.inventory.answer (.arrayOf element)).2 }) := rfl
  have hsound := Inventory.sound_answer hs (.arrayOf element)
  rcases Inventory.answer_cases hs (.arrayOf element) with
    ⟨i, hi, hcase⟩ | ⟨hnone, hcase⟩ | ⟨e, hmakes, hnew, hcase⟩
  · rw [hcase] at hanswer
    exact ⟨i, c, hanswer, hs, growsByArrays_refl c, hi, fun key j h => Or.inl h⟩
  · -- only arrays of `void` are refused
    exact absurd (congrArg Prod.fst hcase) (by simp [Inventory.answer, Inventory.arrayOf, hne])
  · rw [hcase] at hanswer hsound
    have hkey := hmakes.key
    have hfresh : c.inventory.findKey? e.key = none := by rw [hkey]; exact hnew
    refine ⟨_, _, hanswer, hsound, growsByArrays_push hkey hfresh, ?_, ?_⟩
    · rw [← show e.key = .array element from hkey]
      exact Inventory.findKey?_push_self ..
    · intro key j h
      rw [Inventory.findKey?_push] at h
      split at h
      · rename_i heq
        exact Or.inr (by rw [← heq, hkey]; rfl)
      · exact Or.inl h

end Catalog

/-! ## Towers of arrays -/

namespace Inventory

/-- The element type of an array type. -/
def elementOf (inv : Inventory) : TypeHandle → Option TypeHandle
  | .canonical i => inv.element? i
  | .declared _ => none

/-- What is left of a type when dimensions are taken off. -/
def unwrap (inv : Inventory) : Nat → TypeHandle → Option TypeHandle
  | 0, type => some type
  | dims + 1, type => (inv.elementOf type).bind (inv.unwrap dims)

/-- The array type with that many dimensions over a type, if it is there. -/
def tower? (inv : Inventory) : Nat → TypeHandle → Option TypeHandle
  | 0, type => some type
  | dims + 1, type =>
    (inv.findKey? (.array type)).bind fun i => inv.tower? dims (.canonical i)

theorem unwrap_succ_last (inv : Inventory) (dims : Nat) (type : TypeHandle) :
    inv.unwrap (dims + 1) type = (inv.unwrap dims type).bind inv.elementOf := by
  induction dims generalizing type with
  | zero => simp [unwrap, Option.bind_some]
  | succ dims ih =>
      rw [unwrap]
      cases h : inv.elementOf type with
      | none => simp [unwrap, h]
      | some element =>
          rw [Option.bind_some, ih]
          simp [unwrap, h]

theorem elementOf_eq_some_iff {inv : Inventory} (h : inv.Sound) {type element : TypeHandle} :
    inv.elementOf type = some element ↔
      ∃ i, type = .canonical i ∧ inv.findKey? (.array element) = some i := by
  refine ⟨?_, ?_⟩
  · intro helement
    cases type with
    | declared id => exact absurd helement (by simp [elementOf])
    | canonical i =>
        obtain ⟨e, he, hkey⟩ := element?_eq_some_iff.mp helement
        exact ⟨i, rfl, hkey ▸ h.find_of_get i e he⟩
  · intro hex
    obtain ⟨i, rfl, hfind⟩ := hex
    exact element?_eq_some_iff.mpr (h.get_of_find _ i hfind)

/-- **Unwrapping undoes wrapping,** and nothing else. -/
theorem unwrap_eq_some_iff {inv : Inventory} (h : inv.Sound) {dims : Nat}
    {type base : TypeHandle} :
    inv.unwrap dims type = some base ↔ inv.tower? dims base = some type := by
  -- towers are built from the inside and unwrapped from the outside
  induction dims generalizing base with
  | zero => simp [unwrap, tower?, eq_comm]
  | succ dims ih =>
      rw [unwrap_succ_last, tower?, Option.bind_eq_some_iff, Option.bind_eq_some_iff]
      refine ⟨?_, ?_⟩
      · intro hex
        obtain ⟨inner, hinner, helement⟩ := hex
        obtain ⟨i, rfl, hfind⟩ := (elementOf_eq_some_iff h).mp helement
        exact ⟨i, hfind, ih.mp hinner⟩
      · intro hex
        obtain ⟨i, hfind, htower⟩ := hex
        exact ⟨.canonical i, ih.mpr htower, (elementOf_eq_some_iff h).mpr ⟨i, rfl, hfind⟩⟩

/-- A tower stands as long as keys keep their numbers. -/
theorem tower?_mono {inv inv' : Inventory}
    (h : ∀ key i, inv.findKey? key = some i → inv'.findKey? key = some i) {dims : Nat}
    {base type : TypeHandle} (htower : inv.tower? dims base = some type) :
    inv'.tower? dims base = some type := by
  induction dims generalizing base with
  | zero => exact htower
  | succ dims ih =>
      obtain ⟨i, hfind, hrest⟩ := Option.bind_eq_some_iff.mp htower
      rw [tower?, h _ i hfind, Option.bind_some]
      exact ih hrest

end Inventory

namespace Resolution

/-- There is no array of `void`, and asking for one leaves no trace. -/
theorem wrap_void (c : Catalog) {dims : Nat} (h : 0 < dims) : wrap c dims .void = (none, c) := by
  cases dims with
  | zero => exact absurd h (Nat.lt_irrefl 0)
  | succ dims => rfl

/-- **What wrapping does.** It answers with the top of the tower, and adds what was missing of
the tower and nothing else. -/
theorem wrap_spec {c : Catalog} (hs : c.inventory.Sound) {dims : Nat} {base : TypeHandle}
    (h : ¬ (0 < dims ∧ base = .void)) :
    ∃ type c', wrap c dims base = (some type, c') ∧ c'.inventory.Sound ∧ c.GrowsByArrays c' ∧
      c'.inventory.tower? dims base = some type ∧
      ∀ key j, c'.inventory.findKey? key = some j → c.inventory.findKey? key = some j ∨
        ∃ n layer, n < dims ∧ c'.inventory.tower? n base = some layer ∧ key = .array layer := by
  induction dims generalizing c base with
  | zero =>
      exact ⟨base, c, rfl, hs, c.growsByArrays_refl, rfl, fun _ _ hkey => Or.inl hkey⟩
  | succ dims ih =>
      have hne : base ≠ .void := fun heq => h ⟨Nat.succ_pos dims, heq⟩
      obtain ⟨i, mid, harray, hmid, hgrow, hfind, honly⟩ := Catalog.arrayOf_spec hs hne
      -- an array type is not primitive, so the next dimension can be added to it
      have hnot : ¬ (0 < dims ∧ TypeHandle.canonical i = .void) := by
        intro hex
        obtain ⟨_, hvoid⟩ := hex
        have hbounds := hmid.find_bounds hfind
        cases hvoid
        exact absurd hbounds.1 (by decide)
      obtain ⟨type, c', hwrap, hc', hgrow', htower, honly'⟩ := ih hmid hnot
      have hfind' := hgrow'.find _ i hfind
      refine ⟨type, c', ?_, hc', Catalog.growsByArrays_trans hgrow hgrow', ?_, ?_⟩
      · rw [wrap, harray]
        exact hwrap
      · rw [Inventory.tower?, hfind', Option.bind_some, htower]
      · intro key j hkey
        rcases honly' key j hkey with hold | ⟨n, layer, hn, hlayer, rfl⟩
        · rcases honly key j hold with hold | rfl
          · exact Or.inl hold
          · exact Or.inr ⟨0, base, Nat.succ_pos dims, rfl, rfl⟩
        · refine Or.inr ⟨n + 1, layer, Nat.succ_lt_succ hn, ?_, rfl⟩
          rw [Inventory.tower?, hfind', Option.bind_some, hlayer]

end Resolution

end ClassTable
