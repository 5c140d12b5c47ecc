import ClassTable.Proofs.Registry.Growth

/-!
# What composite types are made of

A catalog takes the arguments of a specialization and the element of an array as they come, and
never asks whether there are such types. If they were there each time, then every type is made
of older ones, and its signature is put together from theirs (`Program.Composed`): the labels of
the components were written down when the type was made, and they would be the same today.
-/

namespace ClassTable

/-- The handles that become part of the type that a request makes. -/
def Request.parts : Request → List TypeHandle
  | .register _ _ _ => []
  | .specialize _ arguments => arguments
  | .arrayOf element => [element]

/-- The types that were passed were there when the call was made. -/
def Call.Supplied (p : Program) (call : Call) : Prop :=
  ∀ type ∈ call.request.parts, p.Live call.before type

theorem TypeIndex.primitive_of_isPrimitive {i : TypeIndex} (h : i.isPrimitive = true) :
    ∃ primitive : Primitive, i = primitive.index := by
  obtain ⟨raw⟩ := i
  have hlt : raw < 9 := of_decide_eq_true h
  match raw, hlt with
  | 0, _ => exact ⟨.void, rfl⟩
  | 1, _ => exact ⟨.boolean, rfl⟩
  | 2, _ => exact ⟨.byte, rfl⟩
  | 3, _ => exact ⟨.char, rfl⟩
  | 4, _ => exact ⟨.short, rfl⟩
  | 5, _ => exact ⟨.int, rfl⟩
  | 6, _ => exact ⟨.long, rfl⟩
  | 7, _ => exact ⟨.float, rfl⟩
  | 8, _ => exact ⟨.double, rfl⟩

/-- Registered types have no keyword. -/
theorem TypeIndex.primitiveName?_eq_none {i : TypeIndex}
    (h : TypeIndex.firstRegistered ≤ i.raw) : i.primitiveName? = none := by
  have hnone : Primitive.all[i.raw]? = none :=
    List.getElem?_eq_none (Nat.le_trans (by decide) h)
  rw [primitiveName?, Primitive.ofIndex?, hnone]
  rfl

namespace Inventory

theorem label_primitive (inv : Inventory) (primitive : Primitive) :
    inv.label (.canonical primitive.index) = primitive.keyword := by
  simp [label, TypeIndex.primitiveName?, Primitive.ofIndex?_index]

theorem label_of_get? {inv : Inventory} {i : TypeIndex} {e : Entry} (h : inv.get? i = some e) :
    inv.label (.canonical i) = e.signature := by
  simp [label, TypeIndex.primitiveName?_eq_none (get?_eq_some h).1, h]

theorem signature?_primitive (inv : Inventory) (primitive : Primitive) :
    inv.signature? primitive.index = some primitive.keyword := by
  simp [signature?, TypeIndex.primitiveName?, Primitive.ofIndex?_index]

/-- The registry's own text of a type that is there is its label. -/
theorem signature?_of_get? {inv : Inventory} {i : TypeIndex} {e : Entry}
    (h : inv.get? i = some e) : inv.signature? i = some e.signature := by
  rw [signature?, TypeIndex.primitiveName?_eq_none (get?_eq_some h).1, h]
  rfl

theorem signature?_eq_label {inv : Inventory} {i : TypeIndex}
    (h : i.isPrimitive = true ∨ (inv.get? i).isSome = true) :
    inv.signature? i = some (inv.label (.canonical i)) := by
  rcases h with hprimitive | hknown
  · obtain ⟨primitive, rfl⟩ := TypeIndex.primitive_of_isPrimitive hprimitive
    rw [signature?_primitive, label_primitive]
  · obtain ⟨e, he⟩ := Option.isSome_iff_exists.mp hknown
    rw [signature?_of_get? he, label_of_get? he]

/-- A key is never given the number of a primitive type. -/
theorem Sound.find_ne_primitive {inv : Inventory} (hs : inv.Sound) {key : TypeKey}
    {type : Primitive} : inv.findKey? key ≠ some type.index := by
  intro h
  obtain ⟨e, he, _⟩ := hs.get_of_find _ _ h
  rw [get?_of_isPrimitive inv (TypeIndex.isPrimitive_index type)] at he
  cases he

end Inventory

namespace Program

/-! ## Parts -/

/-- The type can be a part of the type `i`: it is there, and it was there before. -/
structure Part (p : Program) (inv : Inventory) (i : TypeIndex) (type : TypeHandle) : Prop where
  /-- It is there. -/
  live : p.Live inv type
  /-- It is older. -/
  older : ∀ j, type = .canonical j → j.raw < i.raw

/-- How the type `i` was made. -/
inductive MadeOf (p : Program) (inv : Inventory) (i : TypeIndex) : Entry → Prop where
  | named (signature : String) (kind : Kind) (arity : Nat) :
      MadeOf p inv i ⟨.named signature, signature, kind, arity⟩
  | specialized {generic : TypeIndex} {arguments : List TypeHandle} {base : Entry} :
      inv.get? generic = some base → generic.raw < i.raw →
      (∀ type ∈ arguments, p.Part inv i type) →
      MadeOf p inv i (inv.specialization generic base arguments)
  | array {element : TypeHandle} :
      p.Part inv i element → MadeOf p inv i (inv.arrayEntry element)

/-- Every type is made of older types, and its signature of theirs. -/
def Composed (p : Program) (inv : Inventory) : Prop :=
  ∀ i e, inv.get? i = some e → p.MadeOf inv i e

variable {p : Program} {inv inv' : Inventory} {i : TypeIndex} {type : TypeHandle}

theorem Live.mono (hget : ∀ i e, inv.get? i = some e → inv'.get? i = some e)
    (h : p.Live inv type) : p.Live inv' type := by
  cases type with
  | declared id => exact h
  | canonical j =>
      refine h.imp_right fun hknown => ?_
      obtain ⟨e, he⟩ := Option.isSome_iff_exists.mp hknown
      rw [hget j e he]
      rfl

/-- A type that is there keeps its label. -/
theorem Live.label (hget : ∀ i e, inv.get? i = some e → inv'.get? i = some e)
    (h : p.Live inv type) : inv'.label type = inv.label type := by
  cases type with
  | declared id => rfl
  | canonical j =>
      rcases h with hprimitive | hknown
      · obtain ⟨primitive, rfl⟩ := TypeIndex.primitive_of_isPrimitive hprimitive
        rw [Inventory.label_primitive, Inventory.label_primitive]
      · obtain ⟨e, he⟩ := Option.isSome_iff_exists.mp hknown
        rw [Inventory.label_of_get? he, Inventory.label_of_get? (hget j e he)]

theorem MadeOf.mono (hget : ∀ i e, inv.get? i = some e → inv'.get? i = some e) {e : Entry}
    (h : p.MadeOf inv i e) : p.MadeOf inv' i e := by
  have hpart : ∀ {type}, p.Part inv i type → p.Part inv' i type :=
    fun hpart => ⟨hpart.live.mono hget, hpart.older⟩
  cases h with
  | named signature kind arity => exact .named signature kind arity
  | @specialized generic arguments base hbase holder hparts =>
      have hsame : inv.specialization generic base arguments =
          inv'.specialization generic base arguments := by
        have hlabels : arguments.map inv.label = arguments.map inv'.label :=
          List.map_congr_left fun type htype => ((hparts type htype).live.label hget).symm
        rw [Inventory.specialization, Inventory.specialization, hlabels]
      rw [hsame]
      exact .specialized (hget _ _ hbase) holder fun type htype => hpart (hparts type htype)
  | @array element helement =>
      have hsame : inv.arrayEntry element = inv'.arrayEntry element := by
        rw [Inventory.arrayEntry, Inventory.arrayEntry, helement.live.label hget]
      rw [hsame]
      exact .array (hpart helement)

/-- What is there can be part of the next type. -/
theorem Live.part (h : p.Live inv type) : p.Part inv inv.next type := by
  refine ⟨h, fun j hj => ?_⟩
  subst hj
  rcases h with hprimitive | hknown
  · have hlt : j.raw < 9 := of_decide_eq_true hprimitive
    have hnext : 16 ≤ inv.next.raw := Nat.le_add_right 16 inv.size
    omega
  · obtain ⟨e, he⟩ := Option.isSome_iff_exists.mp hknown
    exact (Inventory.get?_eq_some he).2

theorem madeOf_of_makes {q : Request} {e : Entry} (h : inv.Makes q e)
    (hparts : ∀ type ∈ q.parts, p.Live inv type) : p.MadeOf inv inv.next e := by
  cases h with
  | named signature kind arity => exact .named signature kind arity
  | specialized hbase _ =>
      exact .specialized hbase (Inventory.get?_eq_some hbase).2
        fun type htype => (hparts type htype).part
  | @array element _ => exact .array (hparts element (List.mem_singleton_self element)).part

/-! ## Runs -/

theorem composed_empty (p : Program) : p.Composed {} :=
  fun i e h => absurd h (by simp [Inventory.get?])

/-- **A request makes a type of types that are there.** -/
theorem composed_answer (hs : inv.Sound) (h : p.Composed inv) {q : Request}
    (hparts : ∀ type ∈ q.parts, p.Live inv type) : p.Composed (inv.answer q).2 := by
  rcases Inventory.keeps_or_pushes hs q with hkept | ⟨e, hmakes, _, hpushed⟩
  · rwa [hkept]
  · rw [hpushed]
    have hget : ∀ i known, inv.get? i = some known → (inv.push e).2.get? i = some known :=
      fun _ _ hknown => Inventory.get?_push_of_get? hknown
    intro i known hknown
    rw [Inventory.get?_push] at hknown
    split at hknown
    · rename_i hi
      cases hknown
      subst hi
      exact (madeOf_of_makes hmakes hparts).mono hget
    · exact (h i known hknown).mono hget

/-- **If all calls passed types that were there,** all types are made of older ones. -/
theorem composed_run {names : CoreNames} {log : List Call} {c : Catalog}
    (h : Catalog.Run names log c) (hcalls : ∀ call ∈ log, call.Supplied p) :
    p.Composed c.inventory := by
  refine (h.log_induction (P := fun log inv =>
    inv.Sound ∧ ((∀ call ∈ log, call.Supplied p) → p.Composed inv))
    ⟨Inventory.sound_empty, fun _ => p.composed_empty⟩ ?_).2 hcalls
  intro log inv q ih
  refine ⟨Inventory.sound_answer ih.1 q, fun hall => ?_⟩
  have hbefore := ih.2 fun call hcall => hall call (List.mem_append_left _ hcall)
  have hcall := hall _ (List.mem_append_right log (List.mem_singleton_self _))
  exact composed_answer ih.1 hbefore hcall

end Program

end ClassTable
