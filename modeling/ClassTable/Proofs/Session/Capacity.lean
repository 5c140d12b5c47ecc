import ClassTable.Registry.Capacity
import ClassTable.Proofs.Session.Operations

/-!
# When the numbers run out

Registry types have thirty-two bit numbers. A catalog counts on without a limit, and what is said of
its runs is said as if there were always a number left. Here is what becomes of it where there is
not.

The check has its place where a type is added, and a pass adds types in the middle of its work. But
types are only added, so it makes no difference when one looks: if the catalog that an operation
leaves has a number for every type, none was missing on the way; if not, there was a request on the
way that could not be met (`settle_later`). Hence a run that is checked after every operation goes
through exactly if the catalog that it ends with has numbers enough, and then it is the run without
any check (`runChecked_eq`).
-/

namespace ClassTable

namespace Inventory

variable {inv : Inventory} {e : Entry}

theorem settle_eq_ok {α : Type} {result : α} (h : inv.WithinCapacity) :
    inv.settle result = .ok result := if_pos h

theorem settle_eq_error {α : Type} {result : α} (h : ¬ inv.WithinCapacity) :
    inv.settle result = .error (.indexOverflow (maxIndex + 1)) := if_neg h

/-- **Where a type is added, it is the same to check before and after.** -/
theorem add_eq_settle (h : inv.WithinCapacity) (e : Entry) :
    inv.add e = (inv.push e).2.settle (inv.push e) := by
  have hsize : inv.size ≤ capacity := h
  have hnext : inv.next.raw = TypeIndex.firstRegistered + inv.size := rfl
  have hfirst : TypeIndex.firstRegistered = 16 := rfl
  have hcapacity : capacity = 4294967280 := rfl
  have hmax : maxIndex = 4294967295 := rfl
  by_cases hroom : inv.size < capacity
  · have hgrown : (inv.push e).2.WithinCapacity := by
      rw [WithinCapacity, size_push]
      exact hroom
    rw [settle_eq_ok hgrown, add, freshIndex, if_pos (by omega)]
    rfl
  · have hgrown : ¬ (inv.push e).2.WithinCapacity := by
      rw [WithinCapacity, size_push]
      omega
    rw [settle_eq_error hgrown, add, freshIndex, if_neg (by omega)]
    -- the number that is missing is the first one after the last
    rw [show inv.next.raw = maxIndex + 1 by omega]
    rfl

end Inventory

namespace Catalog

variable {c mid c' : Catalog}

theorem Later.size_le (hs : c.inventory.Sound) (h : c.Later c') :
    c.inventory.size ≤ c'.inventory.size := by
  induction h with
  | refl => exact Nat.le_refl _
  | @tail mid c' hmid hstep ih =>
      obtain ⟨q, rfl⟩ := hstep
      refine Nat.le_trans ih ?_
      rw [answer_eq]
      rcases Inventory.keeps_or_pushes (grows_later hs hmid).2 q with hkept | ⟨e, _, _, hpushed⟩
      · rw [hkept]
      · rw [hpushed, Inventory.size_push]
        exact Nat.le_succ _

theorem Later.withinCapacity (hs : c.inventory.Sound) (h : c.Later c')
    (hc' : c'.inventory.WithinCapacity) : c.inventory.WithinCapacity :=
  Nat.le_trans (h.size_le hs) hc'

/-- The request cannot be met: it is for a new key, and all numbers are given out. -/
def Unmet (c : Catalog) (q : Request) : Prop :=
  ∃ e, c.inventory.Makes q e ∧ c.inventory.findKey? q.key = none ∧
    c.inventory.add e = .error (.indexOverflow (maxIndex + 1))

/-- **The first number that is missing** is missed by a request. -/
theorem exists_unmet (hs : c.inventory.Sound) (hroom : c.inventory.WithinCapacity)
    (h : c.Later c') (hover : ¬ c'.inventory.WithinCapacity) :
    ∃ mid q, c.Later mid ∧ (mid.answer q).2.Later c' ∧ mid.inventory.WithinCapacity ∧
      mid.Unmet q := by
  induction h with
  | refl => exact absurd hroom hover
  | @tail mid c' hmid hstep ih =>
      obtain ⟨q, rfl⟩ := hstep
      by_cases hfits : mid.inventory.WithinCapacity
      · refine ⟨mid, q, hmid, later_refl _, hfits, ?_⟩
        rw [answer_eq] at hover
        rcases Inventory.keeps_or_pushes (grows_later hs hmid).2 q with
          hkept | ⟨e, hmakes, hnew, hpushed⟩
        · rw [hkept] at hover
          exact absurd hfits hover
        · rw [hpushed] at hover
          refine ⟨e, hmakes, hnew, ?_⟩
          rw [Inventory.add_eq_settle hfits, Inventory.settle_eq_error hover]
      · obtain ⟨first, q', hfirst, hrest, hwithin, hunmet⟩ := ih hfits
        exact ⟨first, q', hfirst, hrest.trans (later_answer mid q), hwithin, hunmet⟩

/-- **Looking once is enough.** If there are numbers enough at the end of some requests, there were
at any time; and if not, one of the requests could not be met. -/
theorem settle_later (hs : c.inventory.Sound) (hroom : c.inventory.WithinCapacity)
    (h : c.Later c') {α : Type} (result : α) :
    (c'.inventory.settle result = .ok result ∧
      ∀ mid, c.Later mid → mid.Later c' → mid.inventory.WithinCapacity) ∨
    (c'.inventory.settle result = .error (.indexOverflow (maxIndex + 1)) ∧
      ∃ mid q, c.Later mid ∧ (mid.answer q).2.Later c' ∧ mid.inventory.WithinCapacity ∧
        mid.Unmet q) := by
  by_cases hfits : c'.inventory.WithinCapacity
  · refine Or.inl ⟨Inventory.settle_eq_ok hfits, fun mid hmid hrest => ?_⟩
    exact hrest.withinCapacity (grows_later hs hmid).2 hfits
  · exact Or.inr ⟨Inventory.settle_eq_error hfits, exists_unmet hs hroom h hfits⟩

/-- **How long the numbers last:** for as many keys as there are numbers. -/
theorem withinCapacity_iff {names : CoreNames} {log : List Call} (h : Run names log c) :
    c.inventory.WithinCapacity ↔ (internedKeys log).card ≤ Inventory.capacity := by
  rw [Inventory.WithinCapacity, (traced_run h).recorded.counted]

/-- As long as there is a number left, a request goes through, whatever it is. -/
theorem settle_answer {names : CoreNames} {log : List Call} (h : Run names log c)
    (hkeys : (internedKeys log).card < Inventory.capacity) (q : Request) :
    (c.answer q).2.inventory.settle (c.answer q) = .ok (c.answer q) := by
  have hrecorded := (traced_run h).recorded
  have hsize : c.inventory.size < Inventory.capacity := hrecorded.counted ▸ hkeys
  refine Inventory.settle_eq_ok ?_
  rw [answer_eq, Inventory.WithinCapacity]
  rcases Inventory.keeps_or_pushes hrecorded.sound q with hkept | ⟨e, _, _, hpushed⟩
  · rw [hkept]
    exact Nat.le_of_lt hsize
  · rw [hpushed, Inventory.size_push]
    exact hsize

/-- All numbers given so far are thirty-two bit numbers then. -/
theorem answer_le_maxIndex {names : CoreNames} {log : List Call} (h : Run names log c)
    (hkeys : (internedKeys log).card ≤ Inventory.capacity) {call : Call} (hcall : call ∈ log)
    {i : TypeIndex} (hi : call.answer = some i) : i.raw ≤ maxIndex := by
  have hrecorded := (traced_run h).recorded
  have hfind := (hrecorded.known call.request.key i).mpr ⟨call, hcall, rfl, hi⟩
  have hlt : i.raw < 16 + c.inventory.size := (hrecorded.sound.find_bounds hfind).2
  have hsize : c.inventory.size ≤ 4294967280 := (withinCapacity_iff h).mpr hkeys
  show i.raw ≤ 4294967295
  omega

end Catalog

namespace Session

/-- The session after an operation, unless that needed a number that is not there. -/
def performChecked (s : Session Catalog) (op : Operation) : Except Fault (Session Catalog) :=
  (s.perform op).registry.inventory.settle (s.perform op)

/-- The session after a sequence of operations, as long as there are numbers. -/
def runChecked (s : Session Catalog) (ops : List Operation) : Except Fault (Session Catalog) :=
  ops.foldlM performChecked s

/--
**A checked run is the run, until the numbers run out.**

Start with any reachable catalog that has numbers for its types. If every operation is checked, the
run goes through exactly if there are numbers for all types that are there at the end, and leads to
the same session as without any check. So whatever is said of runs is said of checked runs.
-/
theorem runChecked_eq {s : Session Catalog} (hc : s.registry.Reachable)
    (hroom : s.registry.inventory.WithinCapacity) (ops : List Operation) :
    s.runChecked ops = (s.run ops).registry.inventory.settle (s.run ops) := by
  induction ops generalizing s with
  | nil => exact (Inventory.settle_eq_ok hroom).symm
  | cons op ops ih =>
      have hop := (advances_perform s op).registry
      have hnext : (s.perform op).registry.Reachable := Catalog.reachable_later hc hop
      rw [run_cons, runChecked, List.foldlM_cons, performChecked]
      by_cases hfits : (s.perform op).registry.inventory.WithinCapacity
      · rw [Inventory.settle_eq_ok hfits]
        exact ih hnext hfits
      · -- there are not fewer types at the end
        have hend : ¬ ((s.perform op).run ops).registry.inventory.WithinCapacity := fun h =>
          hfits ((advances_run (s.perform op) ops).registry.withinCapacity
            (Catalog.sound_reachable hnext) h)
        rw [Inventory.settle_eq_error hfits, Inventory.settle_eq_error hend]
        rfl

end Session

end ClassTable
