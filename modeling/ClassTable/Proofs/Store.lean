import ClassTable.Store

/-!
# Tables seen through functions

Most facts about a table need only a part of each element: the owner of a member,
the signature of a type. `Store.map` looks at a table through a function, and an
operation that does not touch the part leaves the whole view as it was. That is
how one lemma about an operation serves every property that does not depend on
what the operation changes.
-/

namespace ClassTable

/-- A computation of two stages succeeds exactly if both do. -/
theorem bind_eq_ok {ε α β : Type} {x : Except ε α} {f : α → Except ε β} {b : β} :
    (x >>= f) = .ok b ↔ ∃ a, x = .ok a ∧ f a = .ok b := by
  cases x with
  | error e => simp [bind, Except.bind]
  | ok a => simp [bind, Except.bind]

theorem map_eq_ok {ε α β : Type} {x : Except ε α} {f : α → β} {b : β} :
    x.map f = .ok b ↔ ∃ a, x = .ok a ∧ f a = b := by
  cases x with
  | error e => simp [Except.map]
  | ok a => simp [Except.map]

theorem map_eq_error {ε α β : Type} {x : Except ε α} {f : α → β} {e : ε} :
    x.map f = .error e ↔ x = .error e := by
  cases x with
  | error e => simp [Except.map]
  | ok a => simp [Except.map]

theorem exists_map_eq_ok {ε α β : Type} {x : Except ε α} {f : α → β} :
    (∃ b, x.map f = .ok b) ↔ ∃ a, x = .ok a := by
  cases x with
  | error e => simp [Except.map]
  | ok a => simp [Except.map]

namespace Store

variable {e : Entity} {α β γ : Type}

/-- The table with every element seen through `f`. -/
def map (s : Store e α) (f : α → β) : Store e β := ⟨s.items.map f⟩

@[simp] theorem size_map (s : Store e α) (f : α → β) : (s.map f).size = s.size := by
  simp [map, size]

@[simp] theorem get?_map (s : Store e α) (f : α → β) (id : EntityId e) :
    (s.map f).get? id = (s.get? id).map f := by
  simp [map, get?]

theorem get?_map_empty (f : α → β) (id : EntityId e) :
    ((⟨#[]⟩ : Store e α).map f).get? id = none := by
  rw [get?_map, get?_empty, Option.map_none]

theorem get_map (s : Store e α) (f : α → β) (id : EntityId e) :
    (s.map f).get id = (s.get id).map f := by
  unfold get
  rw [get?_map, size_map]
  cases s.get? id <;> rfl

@[simp] theorem map_map (s : Store e α) (f : α → β) (g : β → γ) :
    (s.map f).map g = s.map fun x => g (f x) := by
  simp [map, Function.comp_def]

theorem map_push (s : Store e α) (x : α) (f : α → β) :
    (⟨s.items.push x⟩ : Store e α).map f = ⟨(s.map f).items.push (f x)⟩ := by
  simp [map]

@[simp] theorem size_push (s : Store e α) (x : α) :
    (⟨s.items.push x⟩ : Store e α).size = s.size + 1 := by
  simp [size]

theorem get?_push (s : Store e α) (x : α) (id : EntityId e) :
    (⟨s.items.push x⟩ : Store e α).get? id = if id.index = s.size then some x else s.get? id :=
  Array.getElem?_push

theorem size_of_get? {s : Store e α} {id : EntityId e} {x : α} (h : s.get? id = some x) :
    id.index < s.size := by
  rcases Nat.lt_or_ge id.index s.size with hlt | hge
  · exact hlt
  · rw [get?_eq_none_iff.mpr hge] at h
    exact absurd h (by simp)

theorem get?_of_lt {s : Store e α} {id : EntityId e} (h : id.index < s.size) :
    ∃ x, s.get? id = some x := by
  cases hg : s.get? id with
  | none => exact absurd (get?_eq_none_iff.mp hg) (Nat.not_le.mpr h)
  | some x => exact ⟨x, rfl⟩

theorem mem_ids {s : Store e α} {id : EntityId e} : id ∈ s.ids ↔ id.index < s.size := by
  simp only [ids, List.mem_map, List.mem_range]
  refine ⟨?_, ?_⟩
  · intro hex
    obtain ⟨i, hi, rfl⟩ := hex
    exact hi
  · intro hi
    exact ⟨id.index, hi, rfl⟩

/-- Two tables with one view have their elements at the same ids. -/
theorem get?_of_map_eq {s t : Store e α} {f : α → β} (h : t.map f = s.map f) {id : EntityId e}
    {x : α} (hx : s.get? id = some x) : ∃ y, t.get? id = some y ∧ f y = f x := by
  have hget := congrArg (Store.get? · id) h
  simp only [get?_map, hx, Option.map_some] at hget
  exact Option.map_eq_some_iff.mp hget

/-- Tables are equal if they agree at every id. -/
theorem ext_get? {s t : Store e α} (h : ∀ id, s.get? id = t.get? id) : s = t := by
  cases s
  cases t
  congr 1
  exact Array.ext_getElem? fun i => h ⟨i⟩

/-- A change that the view does not show. -/
theorem map_modify_eq {f : α → α} {g : α → β} (h : ∀ x, g (f x) = g x) (s : Store e α)
    (id : EntityId e) : (s.modify id f).map g = s.map g := by
  refine ext_get? fun other => ?_
  rw [get?_map, get?_map, get?_modify]
  split
  · cases s.get? other with
    | none => rfl
    | some x => simp [h]
  · rfl

end Store

theorem map_modify_eq_map {α β : Type} {f : α → α} {g : α → β} (h : ∀ x, g (f x) = g x)
    (xs : Array α) (i : Nat) : (xs.modify i f).map g = xs.map g := by
  apply Array.ext_getElem?
  intro j
  rw [Array.getElem?_map, Array.getElem?_map, Array.getElem?_modify]
  split
  · cases xs[j]? with
    | none => rfl
    | some x => simp [h]
  · rfl

end ClassTable
