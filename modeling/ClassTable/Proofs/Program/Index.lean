import ClassTable.Proofs.Program.Signatures
import Mathlib.Logic.Relation

/-!
# The index by signature

Any name can be declared, in any scope, so signatures can clash: two types of one package may have
the same name, and a name with a dollar sign in it may read like a member type or like a type in
code. The index makes no difference between these. It keeps the first type of each signature, and
it is asked for nothing else.

That it is exact is an invariant of single steps (`Indexed`). What a step adds to it comes from
`lookup_declares`: an entry is made only where there was none, so an answer, once given, is given
for good (`lookup_steps`).
-/

namespace ClassTable

namespace Program

theorem reachable_of_steps {p q : Program} (hp : p.Reachable)
    (h : Relation.ReflTransGen Step p q) : q.Reachable := by
  induction h with
  | refl => exact hp
  | tail _ hs ih => exact ih.tail hs

/-- An answer is not changed by the next step, not even by a declaration of that signature. -/
theorem lookup_step {p q : Program} (h : Step p q) {s : String} {id : TypeId}
    (hid : p.lookup s = some id) : q.lookup s = some id := by
  rcases step_types h with hsame | ⟨_, _, hdeclares⟩
  · rw [lookup, hsame.index]
    exact hid
  · rw [lookup_declares hdeclares, hid]
    exact if_neg fun hnew => Option.some_ne_none id hnew.2

theorem lookup_steps {p q : Program} (h : Relation.ReflTransGen Step p q) {s : String}
    {id : TypeId} (hid : p.lookup s = some id) : q.lookup s = some id := by
  induction h with
  | refl => exact hid
  | tail _ hs ih => exact lookup_step hs ih

/--
**The index is exact.**

In every reachable program, whatever its packages and names are, and for every text: looking the
text up gives a type exactly if that is the first of all types that have it as their signature,
and gives nothing exactly if no type has it. A type that was found is found in every later
program, whatever is declared in between, and so is the first of its signature there too.
-/
theorem lookup_exact {p : Program} (h : p.Reachable) (s : String) :
    (∀ id, p.lookup s = some id ↔ p.FirstSigned s id) ∧
    (p.lookup s = none ↔ ∀ id, p.signature? id ≠ some s) ∧
    ∀ id, p.lookup s = some id → ∀ q, Relation.ReflTransGen Step p q →
      q.lookup s = some id ∧ q.FirstSigned s id := by
  have hindexed := indexed_reachable h
  refine ⟨hindexed s, lookup_eq_none_iff hindexed, fun id hid q hsteps => ?_⟩
  have hstill := lookup_steps hsteps hid
  exact ⟨hstill, (indexed_reachable (reachable_of_steps h hsteps) s id).mp hstill⟩

/-! ## A clash -/

/-- A class `A` with a member class `1B`, both without a package, and a method in `A`. -/
def unclashed : Program where
  types := ⟨#[
    { Declaration.ofHead "A" (.package "") (classNamed "A") with methods := #[⟨0⟩] },
    .ofHead "A$1B" (.type ⟨0⟩) (classNamed "1B")]⟩
  methods := ⟨#[{ owner := ⟨0⟩, returnType := written "void" }]⟩
  bySignature := (Std.TreeMap.empty.insertIfNew "A" ⟨0⟩).insertIfNew "A$1B" ⟨1⟩

/-- Then a class `A$1B` without a package, and a class `B` in the method. -/
def clashed : Program where
  types := ⟨#[
    { Declaration.ofHead "A" (.package "") (classNamed "A") with
      localTypes := 1
      methods := #[⟨0⟩] },
    .ofHead "A$1B" (.type ⟨0⟩) (classNamed "1B"),
    .ofHead "A$1B" (.package "") (classNamed "A$1B"),
    .ofHead "A$1B" (.code (.method ⟨0⟩)) (classNamed "B")]⟩
  methods := unclashed.methods
  bySignature := (unclashed.bySignature.insertIfNew "A$1B" ⟨2⟩).insertIfNew "A$1B" ⟨3⟩

theorem unclashed_reachable : Reachable unclashed := by
  have houter := Reachable.init.tail
    (@Step.declare _ _ (.package "") (classNamed "A") ⟨0⟩ rfl)
  have hmember := houter.tail (@Step.declare _ _ (.type ⟨0⟩) (classNamed "1B") ⟨1⟩ rfl)
  exact hmember.tail
    (@Step.addMethod _ _ { owner := ⟨0⟩, returnType := written "void" } ⟨0⟩ rfl)

theorem clashed_steps : Relation.ReflTransGen Step unclashed clashed := by
  have htop := Relation.ReflTransGen.refl.tail
    (@Step.declare unclashed _ (.package "") (classNamed "A$1B") ⟨2⟩ rfl)
  exact htop.tail (@Step.declare _ _ (.code (.method ⟨0⟩)) (classNamed "B") ⟨3⟩ rfl)

/-- Three types have the signature, each in its own way, and the member class is the first. -/
theorem clashed_lookup :
    clashed.signature? ⟨2⟩ = some "A$1B" ∧ clashed.signature? ⟨3⟩ = some "A$1B" ∧
      clashed.lookup "A$1B" = some ⟨1⟩ := by
  have hexact := lookup_exact unclashed_reachable "A$1B"
  have hfirst : unclashed.FirstSigned "A$1B" ⟨1⟩ := by
    refine ⟨rfl, fun j hj => ?_⟩
    obtain ⟨_ | j⟩ := j
    · exact absurd hj (by decide)
    · exact Nat.succ_le_succ (Nat.zero_le j)
  exact ⟨rfl, rfl, (hexact.2.2 ⟨1⟩ ((hexact.1 ⟨1⟩).mpr hfirst) clashed clashed_steps).1⟩

end Program

end ClassTable
