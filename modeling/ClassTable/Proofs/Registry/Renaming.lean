import ClassTable.Proofs.Registry.Terms

/-!
# Renaming types

Two catalogs may know the same types under different numbers. A renaming is a permutation of the
numbers that takes one catalog to the other: each type of the first is there in the second under
its new number, with the same signature, kind and arity, and with a key in which the numbers are
new too. Numbers without a type are not renamed, so there are as many types in both.

Requests cannot tell such catalogs from each other. What is asked of the first is asked of the
second with the new numbers, and the answers differ in the numbers only (`Renaming.answer`); the
catalogs that come of it are the same up to the same renaming, as a new type gets the same number
in both. So what holds of one request holds of any number of them.
-/

namespace ClassTable

/-! ## What is renamed -/

/-- The type with its new number. -/
def TypeHandle.rename (f : TypeIndex → TypeIndex) : TypeHandle → TypeHandle
  | .canonical i => .canonical (f i)
  | .declared id => .declared id

/-- The key with new numbers. -/
def TypeKey.rename (f : TypeIndex → TypeIndex) : TypeKey → TypeKey
  | .named signature => .named signature
  | .specialized generic arguments =>
    .specialized (f generic) (arguments.map (TypeHandle.rename f))
  | .array element => .array (element.rename f)

/-- The entry with a key with new numbers. -/
def Entry.rename (f : TypeIndex → TypeIndex) (e : Entry) : Entry := { e with key := e.key.rename f }

/-- The request with new numbers. -/
def Request.rename (f : TypeIndex → TypeIndex) : Request → Request
  | .register signature kind arity => .register signature kind arity
  | .specialize generic arguments => .specialize (f generic) (arguments.map (TypeHandle.rename f))
  | .arrayOf element => .arrayOf (element.rename f)

/-- The error with new numbers. -/
def RegistryError.rename (f : TypeIndex → TypeIndex) : RegistryError → RegistryError
  | .unknownType i => .unknownType (f i)
  | .arityMismatch signature expected found => .arityMismatch signature expected found

/-- The outcome of a specialization with new numbers. -/
def renameOutcome (f : TypeIndex → TypeIndex) :
    Except RegistryError TypeIndex → Except RegistryError TypeIndex
  | .ok i => .ok (f i)
  | .error cause => .error (cause.rename f)

theorem TypeHandle.rename_inj {f : TypeIndex → TypeIndex} (hf : Function.Injective f) :
    Function.Injective (TypeHandle.rename f) := by
  intro a b h
  cases a with
  | canonical i =>
      cases b with
      | canonical j => rw [hf (TypeHandle.canonical.inj h)]
      | declared id => cases h
  | declared id =>
      cases b with
      | canonical j => cases h
      | declared id' => exact h

theorem TypeKey.rename_inj {f : TypeIndex → TypeIndex} (hf : Function.Injective f) :
    Function.Injective (TypeKey.rename f) := by
  intro a b h
  cases a with
  | named signature => cases b <;> cases h; rfl
  | specialized generic arguments =>
      cases b with
      | specialized generic' arguments' =>
          obtain ⟨hgeneric, harguments⟩ := TypeKey.specialized.inj h
          rw [hf hgeneric, List.map_injective_iff.mpr (TypeHandle.rename_inj hf) harguments]
      | named | array => cases h
  | array element =>
      cases b with
      | array element' => rw [TypeHandle.rename_inj hf (TypeKey.array.inj h)]
      | named | specialized => cases h

theorem Request.key_rename (f : TypeIndex → TypeIndex) (q : Request) :
    (q.rename f).key = q.key.rename f := by
  cases q <;> rfl

namespace Inventory

/-- The type that a request would add if its key were new, unless it is refused. -/
def make? (inv : Inventory) : Request → Option Entry
  | .register signature kind arity => some ⟨.named signature, signature, kind, arity⟩
  | .specialize generic arguments =>
    (inv.get? generic).bind fun base =>
      if base.arity = arguments.length then some (inv.specialization generic base arguments)
      else none
  | .arrayOf element => if element = .void then none else some (inv.arrayEntry element)

/-- What a request does, in terms of its key and of the type that it would add. -/
theorem answer_eq_make? {inv : Inventory} (hs : inv.Sound) (q : Request) :
    inv.answer q =
      match inv.findKey? q.key, inv.make? q with
      | some i, _ => (some i, inv)
      | none, some e => (some inv.next, (inv.push e).2)
      | none, none => (none, inv) := by
  cases q with
  | register signature kind arity =>
      simp only [answer, register, intern, make?, Request.key]
      cases inv.findKey? (.named signature) <;> rfl
  | specialize generic arguments =>
      simp only [answer, specialize, make?, Request.key]
      cases inv.findKey? (.specialized generic arguments) with
      | some i => rfl
      | none =>
          cases inv.get? generic with
          | none => rfl
          | some base =>
              simp only [Option.bind_some]
              split <;> rfl
  | arrayOf element =>
      by_cases hvoid : element = .void
      · subst hvoid
        simp [answer, arrayOf, make?, Request.key, hs.no_void]
      · simp only [answer, arrayOf, intern, arrayEntry, make?, Request.key, if_neg hvoid]
        cases inv.findKey? (.array element) <;> rfl

theorem key_of_make? {inv : Inventory} {q : Request} {e : Entry} (h : inv.make? q = some e) :
    e.key = q.key ∧ e.key ≠ .array .void := by
  cases q with
  | register signature kind arity =>
      cases h
      exact ⟨rfl, TypeKey.noConfusion⟩
  | specialize generic arguments =>
      obtain ⟨base, _, h⟩ := Option.bind_eq_some_iff.mp h
      split at h
      · cases h
        exact ⟨rfl, TypeKey.noConfusion⟩
      · cases h
  | arrayOf element =>
      simp only [make?] at h
      split at h
      · cases h
      · rename_i hvoid
        cases h
        exact ⟨rfl, fun heq => hvoid (TypeKey.array.inj heq)⟩

theorem next_unknown (inv : Inventory) : inv.get? inv.next = none := by
  cases he : inv.get? inv.next with
  | none => rfl
  | some e => exact absurd (get?_eq_some he).2 (Nat.lt_irrefl _)

/-- `f` takes the types of `inv` to those of `inv'`. -/
structure Renaming (f : TypeIndex → TypeIndex) (inv inv' : Inventory) : Prop where
  /-- Different numbers have different new numbers, and every number is new for one. -/
  bijective : Function.Bijective f
  /-- The entries and the index say the same. -/
  sound : inv.Sound
  /-- So they do under the new numbers. -/
  sound' : inv'.Sound
  /-- The next type gets the same number in both. -/
  next : inv'.next = inv.next
  /-- Numbers without a type are not renamed. -/
  fixed : ∀ i, inv.get? i = none → f i = i
  /-- Types are there under their new numbers, and no others are there. -/
  get : ∀ i, inv'.get? (f i) = (inv.get? i).map (Entry.rename f)

namespace Renaming

variable {f : TypeIndex → TypeIndex} {inv inv' : Inventory}

/-- A key has its number in one if the renamed key has the new number in the other. -/
theorem find (h : Renaming f inv inv') (key : TypeKey) :
    inv'.findKey? (key.rename f) = (inv.findKey? key).map f := by
  cases hkey : inv.findKey? key with
  | some i =>
      obtain ⟨e, he, rfl⟩ := h.sound.get_of_find key i hkey
      have hget := h.get i
      rw [he, Option.map_some] at hget
      exact h.sound'.find_of_get _ _ hget
  | none =>
      cases hkey' : inv'.findKey? (key.rename f) with
      | none => rfl
      | some j =>
          -- the type that has this key is the new name of one that has the other
          obtain ⟨e', he', hsame⟩ := h.sound'.get_of_find _ j hkey'
          obtain ⟨i, rfl⟩ := h.bijective.2 j
          obtain ⟨e, he, rfl⟩ := Option.map_eq_some_iff.mp ((h.get i).symm.trans he')
          have hfind := h.sound.find_of_get i e he
          rw [TypeKey.rename_inj h.bijective.1 hsame, hkey] at hfind
          cases hfind

theorem fixed_primitive (h : Renaming f inv inv') {i : TypeIndex} (hi : i.isPrimitive = true) :
    f i = i := h.fixed i (get?_of_isPrimitive inv hi)

theorem rename_void (h : Renaming f inv inv') : TypeHandle.void.rename f = .void :=
  congrArg TypeHandle.canonical (h.fixed_primitive rfl)

/-- A type is written in the same way under its new number. -/
theorem label (h : Renaming f inv inv') (type : TypeHandle) :
    inv'.label (type.rename f) = inv.label type := by
  cases type with
  | declared id => rfl
  | canonical i =>
      have hget := h.get i
      cases he : inv.get? i with
      | some e =>
          rw [he, Option.map_some] at hget
          rw [TypeHandle.rename, label_of_get? hget, label_of_get? he]
          rfl
      | none =>
          rw [he, h.fixed i he, Option.map_none] at hget
          simp only [TypeHandle.rename, h.fixed i he, Inventory.label, hget, he]

theorem make? (h : Renaming f inv inv') (q : Request) :
    inv'.make? (q.rename f) = (inv.make? q).map (Entry.rename f) := by
  cases q with
  | register signature kind arity => rfl
  | specialize generic arguments =>
      have hlabels : (arguments.map (TypeHandle.rename f)).map inv'.label =
          arguments.map inv.label := by
        rw [List.map_map]
        exact List.map_congr_left fun type _ => h.label type
      simp only [Request.rename, Inventory.make?, h.get, List.length_map]
      cases inv.get? generic with
      | none => rfl
      | some base =>
          simp only [Option.map_some, Option.bind_some, Entry.rename, specialization, hlabels]
          split <;> rfl
  | arrayOf element =>
      have hvoid : element.rename f = .void ↔ element = .void :=
        ⟨fun heq => TypeHandle.rename_inj h.bijective.1 (heq.trans h.rename_void.symm),
          fun heq => heq ▸ h.rename_void⟩
      simp only [Request.rename, Inventory.make?, hvoid]
      split
      · rfl
      · simp only [Option.map_some, Entry.rename, arrayEntry, h.label, TypeKey.rename]

theorem push (h : Renaming f inv inv') {e : Entry} (hnew : inv.findKey? e.key = none)
    (hvoid : e.key ≠ .array .void) :
    Renaming f (inv.push e).2 (inv'.push (e.rename f)).2 := by
  -- the number that is next has no type yet, so it is the same in both
  have hfixed : f inv.next = inv.next := h.fixed _ inv.next_unknown
  refine ⟨h.bijective, sound_push h.sound hnew hvoid, sound_push h.sound' ?_ ?_, ?_, ?_, ?_⟩
  · rw [show (e.rename f).key = e.key.rename f from rfl, h.find, hnew, Option.map_none]
  · intro heq
    refine hvoid (TypeKey.rename_inj h.bijective.1 (heq.trans ?_))
    rw [TypeKey.rename, h.rename_void]
  · have hsize := congrArg TypeIndex.raw h.next
    simp only [Inventory.next] at hsize
    simp only [Inventory.next, size_push, TypeIndex.mk.injEq]
    omega
  · intro i hi
    rw [get?_push] at hi
    split at hi
    · cases hi
    · exact h.fixed i hi
  · intro i
    rw [get?_push, get?_push, h.next]
    by_cases hi : i = inv.next
    · rw [hi, hfixed, if_pos rfl, if_pos rfl, Option.map_some]
    · rw [if_neg hi, if_neg fun heq => hi (h.bijective.1 (heq.trans hfixed.symm)), h.get]

/-- **Renamed requests have renamed answers,** and what comes of them is renamed alike. -/
theorem answer (h : Renaming f inv inv') (q : Request) :
    (inv'.answer (q.rename f)).1 = (inv.answer q).1.map f ∧
      Renaming f (inv.answer q).2 (inv'.answer (q.rename f)).2 := by
  rw [answer_eq_make? h.sound, answer_eq_make? h.sound', Request.key_rename, h.find, h.make?]
  cases hfind : inv.findKey? q.key with
  | some i => exact ⟨rfl, h⟩
  | none =>
      cases hmake : inv.make? q with
      | none => exact ⟨rfl, h⟩
      | some e =>
          obtain ⟨hkey, hvoid⟩ := key_of_make? hmake
          refine ⟨?_, h.push (hkey ▸ hfind) hvoid⟩
          simp only [Option.map_some, Option.map_none, h.next, h.fixed _ inv.next_unknown]

/-! ## What can be asked -/

theorem find? (h : Renaming f inv inv') (signature : String) :
    inv'.find? signature = (inv.find? signature).map f := by
  unfold Inventory.find?
  cases Primitive.ofKeyword? signature with
  | some primitive =>
      simp only [Option.map_some, h.fixed_primitive (TypeIndex.isPrimitive_index primitive)]
  | none => exact h.find (.named signature)

theorem kind? (h : Renaming f inv inv') (i : TypeIndex) : inv'.kind? (f i) = inv.kind? i := by
  rw [Inventory.kind?, Inventory.kind?, h.get, Option.map_map]
  rfl

theorem signature? (h : Renaming f inv inv') (i : TypeIndex) :
    inv'.signature? (f i) = inv.signature? i := by
  have hget := h.get i
  cases he : inv.get? i with
  | some e =>
      rw [he, Option.map_some] at hget
      rw [signature?_of_get? hget, signature?_of_get? he]
      rfl
  | none =>
      rw [he, h.fixed i he, Option.map_none] at hget
      rw [h.fixed i he, Inventory.signature?, Inventory.signature?, hget, he]

theorem specialization? (h : Renaming f inv inv') (i : TypeIndex) :
    inv'.specialization? (f i) = (inv.specialization? i).map fun x =>
      (f x.1, x.2.map (TypeHandle.rename f)) := by
  rw [Inventory.specialization?, Inventory.specialization?, h.get]
  cases inv.get? i with
  | none => rfl
  | some e =>
      simp only [Option.map_some, Entry.rename]
      cases e.key <;> rfl

theorem element? (h : Renaming f inv inv') (i : TypeIndex) :
    inv'.element? (f i) = (inv.element? i).map (TypeHandle.rename f) := by
  rw [Inventory.element?, Inventory.element?, h.get]
  cases inv.get? i with
  | none => rfl
  | some e =>
      simp only [Option.map_some, Entry.rename]
      cases e.key <;> rfl

theorem specialize (h : Renaming f inv inv') (generic : TypeIndex) (arguments : List TypeHandle) :
    (inv'.specialize (f generic) (arguments.map (TypeHandle.rename f))).1 =
      renameOutcome f (inv.specialize generic arguments).1 := by
  have hfind := h.find (.specialized generic arguments)
  rw [TypeKey.rename] at hfind
  rw [Inventory.specialize, Inventory.specialize, hfind, h.get, List.length_map]
  cases inv.findKey? (.specialized generic arguments) with
  | some i => rfl
  | none =>
      cases inv.get? generic with
      | none => rfl
      | some base =>
          simp only [Option.map_none, Option.map_some, Entry.rename]
          split
          · simp only [Inventory.push, renameOutcome, h.next, h.fixed _ inv.next_unknown]
          · rfl

end Renaming

end Inventory

/-! ## Catalogs that cannot be told apart -/

/-- Whatever is asked of `c`, with the new numbers `c'` gives the same answer. -/
structure Alike (f : TypeIndex → TypeIndex) (c c' : Catalog) : Prop where
  /-- Finding types by signature. -/
  find : ∀ signature, Registry.find? c' signature = (Registry.find? c signature).map f
  /-- Telling what sort of type it is. -/
  kind : ∀ i, Registry.kind? c' (f i) = Registry.kind? c i
  /-- Writing signatures. -/
  signature : ∀ i, Registry.signature? c' (f i) = Registry.signature? c i
  /-- Taking specializations apart. -/
  specialization : ∀ i, Registry.specialization? c' (f i) =
    (Registry.specialization? c i).map fun x => (f x.1, x.2.map (TypeHandle.rename f))
  /-- Taking array types apart. -/
  element : ∀ i, Registry.element? c' (f i) = (Registry.element? c i).map (TypeHandle.rename f)
  /-- Specializing generic types. -/
  specialize : ∀ generic arguments,
    (Registry.specialize c' (f generic) (arguments.map (TypeHandle.rename f))).1 =
      renameOutcome f (Registry.specialize c generic arguments).1
  /-- Making array types. -/
  arrayOf : ∀ element, (Registry.arrayOf c' (element.rename f)).1 =
    (Registry.arrayOf c element).1.map f

/-- The catalog after some more requests. -/
def Catalog.afterRequests (c : Catalog) (requests : List Request) : Catalog :=
  requests.foldl (fun c q => (c.answer q).2) c

namespace Inventory.Renaming

variable {f : TypeIndex → TypeIndex} {c c' : Catalog}

theorem alike (h : Renaming f c.inventory c'.inventory) : Alike f c c' where
  find := h.find?
  kind := h.kind?
  signature := h.signature?
  specialization := h.specialization?
  element := h.element?
  specialize := h.specialize
  arrayOf := fun element => (h.answer (.arrayOf element)).1

/-- **A renaming goes through any number of requests.** -/
theorem afterRequests (h : Renaming f c.inventory c'.inventory) (requests : List Request) :
    Renaming f (c.afterRequests requests).inventory
      (c'.afterRequests (requests.map (Request.rename f))).inventory := by
  induction requests generalizing c c' with
  | nil => exact h
  | cons q requests ih =>
      refine ih ?_
      simp only [Catalog.answer_eq]
      exact (h.answer q).2

end Inventory.Renaming

end ClassTable
