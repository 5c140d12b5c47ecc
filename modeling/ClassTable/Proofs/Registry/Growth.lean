import ClassTable.Proofs.Registry.Arrays
import Mathlib.Logic.Relation

/-!
# Catalogs only grow

Whatever a catalog is asked, types stay as they are and keep their numbers, and the types that
every program relies on are the same (`Catalog.Grows`). So what was known about a type is known
of every later catalog (`Catalog.Later`): its kind, its signature, and that asking for its key
again gives its number and adds nothing.
-/

namespace ClassTable

namespace Catalog

/-- `c'` is `c` after some more requests. -/
def Later : Catalog → Catalog → Prop :=
  Relation.ReflTransGen fun c c' => ∃ q, c' = (c.answer q).2

theorem later_refl (c : Catalog) : c.Later c := Relation.ReflTransGen.refl

theorem Later.trans {a b c : Catalog} (hab : a.Later b) (hbc : b.Later c) : a.Later c :=
  Relation.ReflTransGen.trans hab hbc

theorem later_answer (c : Catalog) (q : Request) : c.Later (c.answer q).2 :=
  Relation.ReflTransGen.single ⟨q, rfl⟩

theorem reachable_later {c c' : Catalog} (h : c.Reachable) (hl : c.Later c') : c'.Reachable := by
  obtain ⟨names, log, hrun⟩ := h
  induction hl with
  | refl => exact ⟨names, log, hrun⟩
  | tail _ hstep ih =>
      obtain ⟨q, rfl⟩ := hstep
      obtain ⟨names', log', hrun'⟩ := ih
      exact ⟨names', _, hrun'.call q⟩

/-- What was known in `c` is known in `c'`. -/
structure Grows (c c' : Catalog) : Prop where
  /-- The root object is the same. -/
  rootObject : c'.rootObject = c.rootObject
  /-- The base of enumerations is the same. -/
  enumBase : c'.enumBase = c.enumBase
  /-- Types stay as they are. -/
  get : ∀ i e, c.inventory.get? i = some e → c'.inventory.get? i = some e
  /-- Keys keep their numbers. -/
  find : ∀ key i, c.inventory.findKey? key = some i → c'.inventory.findKey? key = some i

theorem grows_refl (c : Catalog) : c.Grows c := ⟨rfl, rfl, fun _ _ h => h, fun _ _ h => h⟩

theorem Grows.trans {a b c : Catalog} (hab : a.Grows b) (hbc : b.Grows c) : a.Grows c where
  rootObject := hbc.rootObject.trans hab.rootObject
  enumBase := hbc.enumBase.trans hab.enumBase
  get := fun i e h => hbc.get i e (hab.get i e h)
  find := fun key i h => hbc.find key i (hab.find key i h)

/-- **No request takes anything away.** -/
theorem grows_answer {c : Catalog} (hs : c.inventory.Sound) (q : Request) :
    c.Grows (c.answer q).2 := by
  rw [answer_eq]
  rcases Inventory.keeps_or_pushes hs q with hkept | ⟨e, hmakes, hnew, hpushed⟩
  · rw [hkept]
    exact c.grows_refl
  · rw [hpushed]
    refine ⟨rfl, rfl, fun _ _ h => Inventory.get?_push_of_get? h, fun key i h => ?_⟩
    -- a key with a number is not the new one
    have hne : e.key ≠ key := by
      intro heq
      rw [← hmakes.key, heq, h] at hnew
      exact absurd hnew (by simp)
    rw [Inventory.findKey?_push_of_ne _ hne, h]

theorem grows_later {c c' : Catalog} (hs : c.inventory.Sound) (h : c.Later c') :
    c.Grows c' ∧ c'.inventory.Sound := by
  induction h with
  | refl => exact ⟨c.grows_refl, hs⟩
  | tail _ hstep ih =>
      obtain ⟨q, rfl⟩ := hstep
      obtain ⟨hgrows, hsound⟩ := ih
      refine ⟨hgrows.trans (grows_answer hsound q), ?_⟩
      rw [answer_eq]
      exact Inventory.sound_answer hsound q

end Catalog

/-- The type is there: declared in the program, primitive, or known to the inventory. -/
def Program.Live (p : Program) (inv : Inventory) : TypeHandle → Prop
  | .declared id => id.index < p.types.size
  | .canonical i => i.isPrimitive = true ∨ (inv.get? i).isSome = true

/-- A catalog leaves specializing to its inventory. -/
theorem Catalog.specialize_eq (c : Catalog) (generic : TypeIndex) (arguments : List TypeHandle) :
    Registry.specialize c generic arguments =
      ((c.inventory.specialize generic arguments).1,
        { c with inventory := (c.inventory.specialize generic arguments).2 }) := rfl

/-- Asking for a known specialization. -/
theorem Inventory.specialize_known {inv : Inventory} {generic i : TypeIndex}
    {arguments : List TypeHandle} (h : inv.findKey? (.specialized generic arguments) = some i) :
    inv.specialize generic arguments = (.ok i, inv) := by
  rw [specialize, h]

namespace Catalog

variable {c c' : Catalog} {generic i : TypeIndex} {arguments : List TypeHandle}

/-- **What specializing can do.** The specialization is there, or it is refused, or it is the next
new type. -/
theorem specialize_outcome (c : Catalog) (generic : TypeIndex) (arguments : List TypeHandle) :
    (∃ i, c.inventory.findKey? (.specialized generic arguments) = some i ∧
      Registry.specialize c generic arguments = (.ok i, c)) ∨
    (∃ cause, Registry.specialize c generic arguments = (.error cause, c)) ∨
    ∃ base, c.inventory.findKey? (.specialized generic arguments) = none ∧
      Registry.specialize c generic arguments = (.ok c.inventory.next, { c with inventory :=
        (c.inventory.push (c.inventory.specialization generic base arguments)).2 }) := by
  rw [c.specialize_eq]
  cases hfind : c.inventory.findKey? (.specialized generic arguments) with
  | some i => exact Or.inl ⟨i, rfl, by rw [Inventory.specialize_known hfind]⟩
  | none =>
      cases hbase : c.inventory.get? generic with
      | none =>
          refine Or.inr (Or.inl ⟨.unknownType generic, ?_⟩)
          simp only [Inventory.specialize, hfind, hbase]
      | some base =>
          by_cases harity : base.arity = arguments.length
          · refine Or.inr (Or.inr ⟨base, rfl, ?_⟩)
            simp only [Inventory.specialize, hfind, hbase, if_pos harity]
            rfl
          · refine Or.inr (Or.inl
              ⟨.arityMismatch base.signature base.arity arguments.length, ?_⟩)
            simp only [Inventory.specialize, hfind, hbase, if_neg harity]

/-- A specialization that was given is known afterwards. -/
theorem find_of_specialize (h : Registry.specialize c generic arguments = (.ok i, c')) :
    c'.inventory.findKey? (.specialized generic arguments) = some i := by
  rcases c.specialize_outcome generic arguments with
    ⟨j, hfind, hcase⟩ | ⟨_, hcase⟩ | ⟨base, _, hcase⟩
  · rw [hcase] at h
    cases h
    exact hfind
  · rw [hcase] at h
    cases h
  · rw [hcase] at h
    cases h
    exact Inventory.findKey?_push_self c.inventory
      (c.inventory.specialization generic base arguments)

/-- Types stay as they are, whatever the answer is. -/
theorem grows_specialize (hs : c.inventory.Sound) {answer : Except RegistryError TypeIndex}
    (h : Registry.specialize c generic arguments = (answer, c')) : c.Grows c' := by
  have hanswer := grows_answer hs (.specialize generic arguments)
  simp only [Catalog.answer, h] at hanswer
  exact hanswer

end Catalog

end ClassTable
