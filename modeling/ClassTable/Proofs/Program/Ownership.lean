import ClassTable.Proofs.Program.History

/-!
# Who owns which member

A member knows its owner, and the owner lists its members. That these agree is what lets
a walk over the types reach every member, and reach it at its owner.

All sorts of members behave alike, so everything here is about one of them. A step adds a
type with an empty list, or adds one member at the end of its owner's list, or changes
nothing of this (`step_rosters`).
-/

namespace ClassTable

namespace Program

/-- Lists and owners agree. -/
structure Rostered {e : Entity} (lists : Store .type (Array (EntityId e)))
    (owners : Store e TypeId) : Prop where
  /-- What a type lists, it owns. -/
  owned : ∀ t l id, lists.get? t = some l → id ∈ l → owners.get? id = some t
  /-- What a type owns, it lists. -/
  listed : ∀ id t, owners.get? id = some t → ∃ l, lists.get? t = some l ∧ id ∈ l
  /-- Lists are in the order of attachment. -/
  increasing : ∀ t l, lists.get? t = some l → l.toList.Pairwise fun a b => a.index < b.index

/-- Lists and owners agree for every sort of members. -/
def AllRostered (p : Program) : Prop := ∀ e, Rostered (p.lists e) (p.owners e)

/-- Owners are types of the program. -/
theorem owner_lt {p : Program} (h : p.AllRostered) {e : Entity} {id : EntityId e} {o : TypeId}
    (ho : (p.owners e).get? id = some o) : o.index < p.types.size := by
  obtain ⟨l, hl, _⟩ := (h e).listed id o ho
  have hlt := Store.size_of_get? hl
  rwa [lists, Store.size_map] at hlt

/-- What a step can do to one sort of members. -/
inductive RosterStep (e : Entity) (p q : Program) : Prop where
  | same : q.lists e = p.lists e → q.owners e = p.owners e → RosterStep e p q
  | declare : q.lists e = ⟨(p.lists e).items.push #[]⟩ → q.owners e = p.owners e →
      RosterStep e p q
  | attach (o : TypeId) : o.index < (p.lists e).size →
      q.lists e = (p.lists e).modify o (·.push ⟨(p.owners e).size⟩) →
      q.owners e = ⟨(p.owners e).items.push o⟩ → RosterStep e p q

/-- **What a step does to one sort of members.** -/
theorem step_rosters {p q : Program} (h : Step p q) (e : Entity) : RosterStep e p q := by
  cases step_cases h with
  | declare hd => exact .declare (hd.lists e) (hd.owners e)
  | @member new o f ha =>
      by_cases he : e = new
      · subst he
        have hknown : o.index < (p.lists e).size := by
          rw [lists, Store.size_map]
          exact ha.known
        exact .attach o hknown (lists_attach ha.types ha.listed) ha.owner
      · exact .same (lists_modify ha.types (ha.unlisted e he)) (ha.owners e he)
  | reference ha => exact .same (lists_modify ha.types (ha.unlisted e)) (ha.owners e)
  | handles ho =>
      refine .same ?_ ?_
      · rw [← lists_outline, ho, lists_outline]
      · rw [← owners_outline, ho, owners_outline]

/-! ## Lists and owners always agree -/

theorem rostered_init (e : Entity) : Rostered ((∅ : Program).lists e) ((∅ : Program).owners e) where
  owned := fun t l id hl => absurd hl (by rw [lists, Store.get?_map, get?_types_empty]; simp)
  listed := fun id t hid => by
    have hnone : ((∅ : Program).owners e).get? id = none := by
      cases e <;> first | exact Store.get?_empty id | exact Store.get?_map_empty _ id
    rw [hnone] at hid
    exact absurd hid (by simp)
  increasing := fun t l hl => absurd hl (by rw [lists, Store.get?_map, get?_types_empty]; simp)

theorem rostered_declare {e : Entity} {lists : Store .type (Array (EntityId e))}
    {owners : Store e TypeId} (h : Rostered lists owners) :
    Rostered ⟨lists.items.push #[]⟩ owners where
  owned := by
    intro t l id hl hid
    rw [Store.get?_push] at hl
    split at hl
    · cases hl
      exact absurd hid (by simp)
    · exact h.owned t l id hl hid
  listed := by
    intro id t hid
    obtain ⟨l, hl, hmem⟩ := h.listed id t hid
    have hlt := Store.size_of_get? hl
    refine ⟨l, ?_, hmem⟩
    rw [Store.get?_push, if_neg (by omega), hl]
  increasing := by
    intro t l hl
    rw [Store.get?_push] at hl
    split at hl
    · cases hl
      simp
    · exact h.increasing t l hl

theorem rostered_attach {e : Entity} {lists : Store .type (Array (EntityId e))}
    {owners : Store e TypeId} (h : Rostered lists owners) {o : TypeId}
    (ho : o.index < lists.size) :
    Rostered (lists.modify o (·.push ⟨owners.size⟩)) ⟨owners.items.push o⟩ := by
  have hget : ∀ t l, (lists.modify o (·.push ⟨owners.size⟩)).get? t = some l →
      ∃ old, lists.get? t = some old ∧ l = if o = t then old.push ⟨owners.size⟩ else old := by
    intro t l hl
    rw [Store.get?_modify] at hl
    split at hl
    · rename_i hot
      obtain ⟨old, hold, rfl⟩ := Option.map_eq_some_iff.mp hl
      exact ⟨old, hold, (if_pos hot).symm⟩
    · rename_i hot
      exact ⟨l, hl, (if_neg hot).symm⟩
  have hold : ∀ t l id, lists.get? t = some l → id ∈ l → id.index < owners.size :=
    fun t l id hl hid => Store.size_of_get? (h.owned t l id hl hid)
  refine ⟨?_, ?_, ?_⟩
  · intro t l id hl hid
    obtain ⟨old, hlist, rfl⟩ := hget t l hl
    rw [Store.get?_push]
    by_cases hmem : id ∈ old
    · -- listed before, so not the new one
      have hlt := hold t old id hlist hmem
      rw [if_neg (by omega)]
      exact h.owned t old id hlist hmem
    · split at hid
      · rename_i hot
        rcases Array.mem_push.mp hid with hin | hnew
        · exact absurd hin hmem
        · rw [if_pos (by rw [hnew]), hot]
      · exact absurd hid hmem
  · intro id t hid
    rw [Store.get?_push] at hid
    split at hid
    · rename_i hnew
      cases hid
      obtain ⟨old, hlist⟩ := Store.get?_of_lt ho
      refine ⟨old.push ⟨owners.size⟩, ?_, ?_⟩
      · rw [Store.get?_modify, if_pos rfl, hlist]
        rfl
      · rw [show id = ⟨owners.size⟩ from EntityId.ext hnew]
        exact Array.mem_push_self
    · obtain ⟨l, hl, hmem⟩ := h.listed id t hid
      refine ⟨if o = t then l.push ⟨owners.size⟩ else l, ?_, ?_⟩
      · rw [Store.get?_modify, hl]
        split <;> rfl
      · split
        · exact Array.mem_push_of_mem _ hmem
        · exact hmem
  · intro t l hl
    obtain ⟨old, hlist, rfl⟩ := hget t l hl
    have hincreasing := h.increasing t old hlist
    split
    · -- the new member has the largest id so far
      rw [Array.toList_push, List.pairwise_append]
      refine ⟨hincreasing, List.pairwise_singleton .., fun a ha b hb => ?_⟩
      rw [List.mem_singleton.mp hb]
      exact hold t old a hlist (Array.mem_toList_iff.mp ha)
    · exact hincreasing

theorem rostered_step {p q : Program} {e : Entity} (h : Rostered (p.lists e) (p.owners e))
    (hs : Step p q) : Rostered (q.lists e) (q.owners e) := by
  cases step_rosters hs e with
  | same hlists howners => rwa [hlists, howners]
  | declare hlists howners =>
      rw [hlists, howners]
      exact rostered_declare h
  | attach o ho hlists howners =>
      rw [hlists, howners]
      exact rostered_attach h ho

/-- **In every reachable program, types list what they own.** -/
theorem rostered_reachable {p : Program} (h : Reachable p) : p.AllRostered := by
  intro e
  induction h with
  | init => exact rostered_init e
  | tail _ hs ih => exact rostered_step ih hs

end Program

end ClassTable
