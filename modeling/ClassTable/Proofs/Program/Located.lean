import ClassTable.Proofs.Program.LookupGrowth
import ClassTable.Proofs.Program.Scoping
import ClassTable.Proofs.Registry.Composites
import ClassTable.Proofs.Registry.Origins

/-!
# What names lead to

There are many ways for a name to be found: as a keyword, as a member type of some enclosing
type, in a package, as it is written, or at the end of a path. All but the first end in a
signature that is asked for, of the index of the program first and of the registry only if the
index has no such type. So whichever way it was, the type that a name leads to is the owner of
its signature (`Located`).
-/

namespace ClassTable

namespace Program

/-- The type owns its signature: a declared type is the first that has it, and no declared type
has the signature of a canonical type that is not primitive. -/
def Located (p : Program) (inv : Inventory) : TypeHandle → Prop
  | .declared id => ∃ signature, p.FirstSigned signature id
  | .canonical i => i.isPrimitive = true ∨ ∃ signature,
      inv.findKey? (.named signature) = some i ∧ ∀ id, p.signature? id ≠ some signature

variable {p : Program} {c : Catalog}

/-! ## The ways to find a type -/

theorem located_primitive (inv : Inventory) (primitive : Primitive) :
    p.Located inv (.canonical primitive.index) := Or.inl (TypeIndex.isPrimitive_index primitive)

/-- By a full signature. -/
theorem located_lookupGlobal (hp : p.Reachable) {signature : String} {type : TypeHandle}
    (h : p.lookupGlobal c signature = some type) : p.Located c.inventory type := by
  unfold lookupGlobal at h
  cases hlookup : p.lookup signature with
  | some id =>
      rw [hlookup] at h
      cases h
      exact ⟨signature, (indexed_reachable hp signature id).mp hlookup⟩
  | none =>
      rw [hlookup] at h
      obtain ⟨i, hi, rfl⟩ := Option.map_eq_some_iff.mp h
      have hfind : c.inventory.find? signature = some i := hi
      unfold Inventory.find? at hfind
      split at hfind
      · cases hfind
        exact located_primitive _ _
      · exact Or.inr ⟨signature, hfind, (lookup_eq_none_iff (indexed_reachable hp)).mp hlookup⟩

/-- By a name that is not taken apart. -/
theorem located_lookupWhole (hp : p.Reachable) {context : TypeId} {name : String}
    {type : TypeHandle} (h : p.lookupWhole c context name = .ok (some type)) :
    p.Located c.inventory type := by
  unfold lookupWhole at h
  split at h
  · cases h
    exact located_primitive _ _
  · obtain ⟨e, _, h⟩ := bind_eq_ok.mp h
    -- first as a member of an enclosing type, then as a signature in one of the packages
    split at h
    · rename_i id hmember
      cases h
      obtain ⟨d, _, hlookup⟩ := List.exists_of_findSome?_eq_some hmember
      exact ⟨_, (indexed_reachable hp _ id).mp hlookup⟩
    · obtain ⟨signature, _, hsignature⟩ := List.exists_of_findSome?_eq_some (Except.ok.inj h)
      exact located_lookupGlobal hp hsignature

/-- By a path. -/
theorem located_lookupSplit (hp : p.Reachable) {context : TypeId}
    {splits : List (String × List String)} {type : TypeHandle}
    (h : p.lookupSplit c context splits = .ok (some type)) : p.Located c.inventory type := by
  induction splits with
  | nil => cases h
  | cons split later ih =>
      obtain ⟨outer, _, h⟩ := bind_eq_ok.mp h
      split at h
      · rename_i found hfound
        cases h
        obtain ⟨head, _, hnested⟩ := Option.bind_eq_some_iff.mp hfound
        obtain ⟨signature, _, hglobal⟩ := Option.bind_eq_some_iff.mp hnested
        exact located_lookupGlobal hp hglobal
      · exact ih h

/-- **A type found by name owns its signature.** -/
theorem located_lookupName (hp : p.Reachable) {context : TypeId} {name : String}
    {type : TypeHandle} (h : p.lookupName c context name = .ok (some type)) :
    p.Located c.inventory type := by
  unfold lookupName at h
  split at h
  · cases h
  · obtain ⟨found, hfound, h⟩ := bind_eq_ok.mp h
    cases found with
    | some whole =>
        cases h
        exact located_lookupWhole hp hfound
    | none => exact located_lookupSplit hp h

/-! ## What it means to own a signature -/

/-- A type that owns its signature is there. -/
theorem Located.live {inv : Inventory} (hs : inv.Sound) {type : TypeHandle}
    (h : p.Located inv type) : p.Live inv type := by
  cases type with
  | declared id =>
      obtain ⟨signature, hsignature, _⟩ := h
      obtain ⟨d, hd, _⟩ := Option.map_eq_some_iff.mp hsignature
      exact Store.size_of_get? hd
  | canonical i =>
      refine h.imp_right fun hnamed => ?_
      obtain ⟨signature, hfind, _⟩ := hnamed
      obtain ⟨e, he, _⟩ := hs.get_of_find _ _ hfind
      rw [he]
      rfl

/-- The declared type that a name leads to, by the table and by the index. -/
structure FirstDeclared (p : Program) (id : TypeId) : Prop where
  /-- It is there, and its signature leads to it. -/
  indexed : ∃ d, p.types.get? id = some d ∧ p.lookup d.signature = some id
  /-- No older type has the signature. -/
  first : ∀ d j other, p.types.get? id = some d → p.types.get? j = some other →
    other.signature = d.signature → id.index ≤ j.index

/-- A type that was registered under a signature that no declared type has. -/
structure Registered (p : Program) (log : List Call) (inv : Inventory) (i : TypeIndex)
    (signature : String) : Prop where
  /-- It was registered. -/
  call : ∃ call ∈ log, ∃ kind arity, call.request = .register signature kind arity ∧
    call.answer = some i
  /-- It has the signature under which it was registered. -/
  written : inv.signature? i = some signature
  /-- It is not a specialization. -/
  no_specialization : inv.specialization? i = none
  /-- It is not an array type. -/
  no_array : inv.element? i = none
  /-- No declared type has its signature. -/
  foreign : ∀ j d, p.types.get? j = some d → d.signature ≠ signature

theorem FirstSigned.firstDeclared (hp : p.Reachable) {signature : String} {id : TypeId}
    (h : p.FirstSigned signature id) : p.FirstDeclared id := by
  obtain ⟨d, hd, rfl⟩ := Option.map_eq_some_iff.mp h.1
  refine ⟨⟨d, hd, (indexed_reachable hp _ id).mpr h⟩, fun d' j other hd' hother hsame => ?_⟩
  rw [hd] at hd'
  cases hd'
  exact h.2 j (by rw [signature?, hother, Option.map_some, hsame])

theorem registered_of_find {names : CoreNames} {log : List Call}
    (hrun : Catalog.Run names log c) {i : TypeIndex} {signature : String}
    (hfind : c.inventory.findKey? (.named signature) = some i)
    (hforeign : ∀ id, p.signature? id ≠ some signature) :
    p.Registered log c.inventory i signature := by
  obtain ⟨e, he, hkey⟩ := (traced_run hrun).recorded.sound.get_of_find _ _ hfind
  obtain ⟨hsame, call, hcall, hrequest, hanswer⟩ := registered_of_named hrun he hkey
  refine ⟨⟨call, hcall, _, _, hrequest, hanswer⟩, ?_, ?_, ?_, fun j d hd heq => ?_⟩
  · rw [Inventory.signature?_of_get? he, hsame]
  · simp [Inventory.specialization?, he, hkey]
  · simp [Inventory.element?, he, hkey]
  · exact hforeign j (by rw [signature?, hd, Option.map_some, heq])

end Program

end ClassTable
