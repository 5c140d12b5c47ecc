import ClassTable.Program.Site
import ClassTable.Proofs.Store

/-!
# Reading and writing at a site

A site is an address, and it behaves like one: a change at a site shows there, and
at no other site. Sites in different tables, and in different lists of one element,
have nothing to do with each other; two sites in one list are told apart by their
positions.
-/

namespace ClassTable

theorem modify_congr {α : Type} {f g : α → α} {xs : Array α} {i : Nat}
    (h : ∀ x, xs[i]? = some x → f x = g x) : xs.modify i f = xs.modify i g := by
  apply Array.ext_getElem?
  intro j
  rw [Array.getElem?_modify, Array.getElem?_modify]
  split
  · rename_i hij
    subst hij
    cases hx : xs[i]? with
    | none => rfl
    | some x => simp [h x hx]
  · rfl

namespace Store

variable {e : Entity} {α β : Type}

theorem modify_congr {f g : α → α} {s : Store e α} {id : EntityId e}
    (h : ∀ x, s.get id = .ok x → f x = g x) : s.modify id f = s.modify id g := by
  refine ext_get? fun other => ?_
  rw [get?_modify, get?_modify]
  split
  · rename_i hid
    subst hid
    cases hx : s.get? id with
    | none => rfl
    | some x => simp [h x (get_eq_ok_iff.mpr hx)]
  · rfl

theorem get_modify (s : Store e α) (id : EntityId e) (f : α → α) :
    (s.modify id f).get id = (s.get id).map f := by
  unfold get
  rw [get?_modify, if_pos rfl, size_modify]
  cases s.get? id <;> rfl

/-- A part that the change leaves alone, wherever it was made. -/
theorem get_modify_map {f : α → α} {g : α → β} {s : Store e α} {id other : EntityId e}
    (h : id = other → ∀ x, g (f x) = g x) :
    ((s.modify id f).get other).map g = (s.get other).map g := by
  by_cases hid : id = other
  · subst hid
    rw [get_modify]
    cases s.get id with
    | error fault => rfl
    | ok x => simp [Except.map, h rfl]
  · have hget : (s.modify id f).get? other = s.get? other := by rw [get?_modify, if_neg hid]
    unfold get
    rw [hget, size_modify]

end Store

namespace Program

/-- **A change shows where it was made.** -/
theorem reference?_modifyReference_self (p : Program) (site : Site) (f : Reference → Reference) :
    (p.modifyReference site f).reference? site = (p.reference? site).map (Option.map f) := by
  have hmap : ∀ {α β γ : Type} (x : Except Fault α) (g : α → β) (k : β → γ),
      (x.map g).map k = x.map fun a => k (g a) := by
    intro α β γ x g k
    cases x <;> rfl
  cases site <;> simp only [modifyReference, reference?, Store.get_modify, hmap]
  case fieldType | methodReturn => rfl
  case extendsItem | implementsItem | constructorThrows | methodThrows =>
    congr 1
    funext x
    rw [Array.getElem?_modify, if_pos rfl]
  case constructorParameter | methodParameter | annotationItem =>
    congr 1
    funext x
    rw [Array.getElem?_modify, if_pos rfl, Option.map_map, Option.map_map]
    rfl

/-- **A change shows nowhere else.** -/
theorem reference?_modifyReference_ne (p : Program) {site other : Site} (h : site ≠ other)
    (f : Reference → Reference) :
    (p.modifyReference site f).reference? other = p.reference? other := by
  cases site <;> cases other <;> try rfl
  -- what is left are two sites in one table; only those in one list can meet
  all_goals refine Store.get_modify_map fun hid x => ?_
  all_goals try rfl
  case fieldType.fieldType | methodReturn.methodReturn => exact absurd (by rw [hid]) h
  all_goals
    rename_i i _ j
    have hij : i ≠ j := fun hij => h (by rw [hid, hij])
    simp only [Array.getElem?_modify, if_neg hij]

/-- Only what the change does to the reference at the site matters. -/
theorem modifyReference_congr {p : Program} {site : Site} {r : Reference}
    {f g : Reference → Reference} (h : p.reference? site = .ok (some r)) (hfg : f r = g r) :
    p.modifyReference site f = p.modifyReference site g := by
  cases site <;> simp only [modifyReference, Program.mk.injEq, and_true, true_and]
  all_goals
    refine Store.modify_congr fun d hd => ?_
    simp only [reference?, hd, Except.map, Except.ok.injEq] at h
  case fieldType | methodReturn =>
    cases h
    rw [hfg]
  case extendsItem | implementsItem | constructorThrows | methodThrows =>
    congr 1
    refine modify_congr fun x hx => ?_
    rw [h] at hx
    cases hx
    exact hfg
  case constructorParameter | methodParameter =>
    congr 1
    refine modify_congr fun x hx => ?_
    rw [hx] at h
    cases h
    simp only [Parameter.mapType, hfg]
  case annotationItem =>
    congr 1
    refine modify_congr fun x hx => ?_
    rw [hx] at h
    cases h
    simp only [AnnotationUse.mapType, hfg]

end Program

end ClassTable
