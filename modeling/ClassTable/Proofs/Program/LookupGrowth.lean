import ClassTable.Proofs.Registry.Arrays
import ClassTable.Proofs.Store

/-!
# Lookup does not see arrays

While a pass runs, the catalog grows by array types. No name means anything else because of
it. A name leads to a catalog type only by a signature that was registered, and registered
types stay as they are.

The one place where composite types could come in is a path of names, whose head is turned
back into a signature. But a head is found by name, so it is never composite, and the bound
on nesting, which grows with the catalog, does not matter.
-/

namespace ClassTable

open Inventory

/-- A type that some name leads to. -/
def Catalog.Named (c : Catalog) : TypeHandle → Prop
  | .declared _ => True
  | .canonical i => ∃ name, c.inventory.find? name = some i

/-- A type found by name is primitive, or was registered under that name. -/
theorem Inventory.find?_cases {inv : Inventory} (hs : inv.Sound) {name : String} {i : TypeIndex}
    (h : inv.find? name = some i) :
    (∃ primitive : Primitive, i = primitive.index) ∨
      ∃ e, inv.get? i = some e ∧ e.key = .named name := by
  unfold find? at h
  split at h
  · cases h
    exact Or.inl ⟨_, rfl⟩
  · exact Or.inr (hs.get_of_find _ _ h)

/-- A type found by name is not composite. -/
theorem Inventory.not_composite {inv : Inventory} (hs : inv.Sound) {name : String} {i : TypeIndex}
    (h : inv.find? name = some i) : inv.element? i = none ∧ inv.specialization? i = none := by
  rcases find?_cases hs h with ⟨primitive, rfl⟩ | ⟨e, he, hkey⟩
  · simp [element?, specialization?, get?_of_isPrimitive inv (TypeIndex.isPrimitive_index _)]
  · simp [element?, specialization?, he, hkey]

namespace Program

/-- A type found by name is written as the program or the registry has it. -/
theorem readableSignature_named {p : Program} {c : Catalog} (hs : c.inventory.Sound)
    {i : TypeIndex} (h : c.Named (.canonical i)) :
    p.readableSignature c (.canonical i) = c.inventory.signature? i := by
  obtain ⟨name, hname⟩ := h
  obtain ⟨helement, hspecialization⟩ := not_composite hs hname
  have helement' : Registry.element? c i = none := helement
  have hspecialization' : Registry.specialization? c i = none := hspecialization
  simp only [readableSignature, signatureWithin, helement', hspecialization']
  rfl

variable {p : Program} {c c' : Catalog}

theorem find?_grows (h : c.GrowsByArrays c') (name : String) :
    Registry.find? c' name = Registry.find? c name := by
  show c'.inventory.find? name = c.inventory.find? name
  unfold find?
  rw [h.findKey?_eq (by simp)]

theorem lookupGlobal_grows (h : c.GrowsByArrays c') (signature : String) :
    p.lookupGlobal c' signature = p.lookupGlobal c signature := by
  rw [lookupGlobal, lookupGlobal, find?_grows h]

theorem lookupWhole_grows (h : c.GrowsByArrays c') (context : TypeId) (name : String) :
    p.lookupWhole c' context name = p.lookupWhole c context name := by
  have hglobal : p.lookupGlobal c' = p.lookupGlobal c := funext (lookupGlobal_grows h)
  have hpackage : Registry.implicitPackage? c' = Registry.implicitPackage? c :=
    congrArg (fun names : CoreNames => some names.implicitPackage) h.names
  have hnames : ∀ e, globalNames c' e name = globalNames c e name := by
    intro e
    rw [globalNames, globalNames, hpackage]
  simp only [lookupWhole, hglobal, hnames]

/-- What a signature leads to is found by name. -/
theorem named_of_lookupGlobal {signature : String} {type : TypeHandle}
    (h : p.lookupGlobal c signature = some type) : c.Named type := by
  unfold lookupGlobal at h
  split at h
  · cases h
    exact trivial
  · obtain ⟨i, hi, rfl⟩ := Option.map_eq_some_iff.mp h
    exact ⟨signature, hi⟩

theorem named_of_lookupWhole {context : TypeId} {name : String} {type : TypeHandle}
    (h : p.lookupWhole c context name = .ok (some type)) : c.Named type := by
  unfold lookupWhole at h
  split at h
  · rename_i primitive hprimitive
    cases h
    exact ⟨name, by simp [find?, hprimitive]⟩
  · obtain ⟨e, _, h⟩ := bind_eq_ok.mp h
    split at h
    · cases h
      exact trivial
    · obtain ⟨signature, _, hsignature⟩ := List.exists_of_findSome?_eq_some (Except.ok.inj h)
      exact named_of_lookupGlobal hsignature

theorem readableSignature_grows (hs : c.inventory.Sound) (hs' : c'.inventory.Sound)
    (h : c.GrowsByArrays c') {type : TypeHandle} (hnamed : c.Named type) :
    p.readableSignature c' type = p.readableSignature c type := by
  cases type with
  | declared id => rfl
  | canonical i =>
      -- a name leads to the same type in both, and there both have the same text
      have hnamed' : c'.Named (.canonical i) :=
        hnamed.imp fun name hname => (find?_grows h name).trans hname
      rw [readableSignature_named hs hnamed, readableSignature_named hs' hnamed']
      obtain ⟨name, hname⟩ := hnamed
      rcases find?_cases hs hname with ⟨primitive, rfl⟩ | ⟨e, he, _⟩
      · simp [Inventory.signature?, TypeIndex.primitiveName?, Primitive.ofIndex?_index]
      · simp [Inventory.signature?, he, h.get i e he]

theorem lookupNested_grows (hs : c.inventory.Sound) (hs' : c'.inventory.Sound)
    (h : c.GrowsByArrays c') {outer : TypeHandle} (hnamed : c.Named outer) (names : List String) :
    p.lookupNested c' outer names = p.lookupNested c outer names := by
  rw [lookupNested, lookupNested, readableSignature_grows hs hs' h hnamed]
  congr 1
  funext signature
  exact lookupGlobal_grows h _

theorem lookupSplit_grows (hs : c.inventory.Sound) (hs' : c'.inventory.Sound)
    (h : c.GrowsByArrays c') (context : TypeId) (splits : List (String × List String)) :
    p.lookupSplit c' context splits = p.lookupSplit c context splits := by
  induction splits with
  | nil => rfl
  | cons split later ih =>
      rw [lookupSplit, lookupSplit, lookupWhole_grows h, ih]
      cases hwhole : p.lookupWhole c context split.1 with
      | error fault => rfl
      | ok found =>
          cases found with
          | none => rfl
          | some outer =>
              have hnamed := named_of_lookupWhole hwhole
              simp only [bind, Except.bind, Option.bind_some, lookupNested_grows hs hs' h hnamed]

/-- **A name means the same in a catalog with more array types.** -/
theorem lookupName_grows (hs : c.inventory.Sound) (hs' : c'.inventory.Sound)
    (h : c.GrowsByArrays c') (context : TypeId) (name : String) :
    p.lookupName c' context name = p.lookupName c context name := by
  simp only [lookupName, lookupWhole_grows h, lookupSplit_grows hs hs' h]

end Program

end ClassTable
