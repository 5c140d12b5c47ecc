import ClassTable.Proofs.Program.Census
import ClassTable.Proofs.Program.Handles

/-!
# Where references come from

A reference that a program carries was attached to it, and what is attached to a type or to a
member does not disturb what was there. So each operation brings the references that it is given
and no others: a declaration brings none, an attached reference itself, and a member those that
it mentions.
-/

namespace ClassTable

namespace Store

variable {e : Entity} {α β : Type}

theorem mem_flatMap_items {s : Store e α} {f : α → List β} {y : β} :
    y ∈ s.items.toList.flatMap f ↔ ∃ id x, s.get? id = some x ∧ y ∈ f x := by
  rw [List.mem_flatMap]
  refine ⟨?_, ?_⟩
  · intro hex
    obtain ⟨x, hx, hy⟩ := hex
    obtain ⟨i, hi, rfl⟩ := Array.mem_iff_getElem.mp (Array.mem_toList_iff.mp hx)
    exact ⟨⟨i⟩, _, Array.getElem?_eq_getElem hi, hy⟩
  · intro hex
    obtain ⟨id, x, hx, hy⟩ := hex
    exact ⟨x, Array.mem_toList_iff.mpr (Array.mem_of_getElem? hx), hy⟩

/-- A new element comes with what belongs to it. -/
theorem mem_flatMap_push {s : Store e α} {x : α} {f : α → List β} {y : β} :
    y ∈ (⟨s.items.push x⟩ : Store e α).items.toList.flatMap f ↔
      y ∈ s.items.toList.flatMap f ∨ y ∈ f x := by
  simp

/-- A change of one element. -/
theorem mem_flatMap_modify {s : Store e α} {id : EntityId e} {g : α → α} {f : α → List β}
    {added : List β} (hg : ∀ x, ∀ y ∈ f (g x), y ∈ f x ∨ y ∈ added) {y : β}
    (h : y ∈ (s.modify id g).items.toList.flatMap f) :
    y ∈ s.items.toList.flatMap f ∨ y ∈ added := by
  obtain ⟨other, z, hz, hy⟩ := mem_flatMap_items.mp h
  rw [get?_modify] at hz
  split at hz
  · obtain ⟨x, hx, rfl⟩ := Option.map_eq_some_iff.mp hz
    exact (hg x y hy).imp_left fun hold => mem_flatMap_items.mpr ⟨other, x, hx, hold⟩
  · exact Or.inl (mem_flatMap_items.mpr ⟨other, z, hz, hy⟩)

end Store

namespace Program

/-- `q` has no references but those of `p` and the new ones. -/
def Brings (p q : Program) (new : List Reference) : Prop :=
  ∀ r ∈ q.references, r ∈ p.references ∨ r ∈ new

theorem mem_references {p : Program} {r : Reference} :
    r ∈ p.references ↔ r ∈ p.types.items.toList.flatMap Declaration.references ∨
      r ∈ p.fields.items.toList.flatMap (fun x => [x.type]) ∨
      r ∈ p.constructors.items.toList.flatMap Constructor.references ∨
      r ∈ p.methods.items.toList.flatMap Method.references := by
  simp only [references, List.mem_append, List.map_eq_flatMap, or_assoc]

/-- One type changed, and each table has nothing new but new references. -/
theorem brings_modify {p q : Program} {o : TypeId} {f : Declaration → Declaration}
    {new : List Reference} (htypes : q.types = p.types.modify o f)
    (hf : ∀ d : Declaration, ∀ r ∈ (f d).references, r ∈ d.references ∨ r ∈ new)
    (hfields : ∀ r ∈ q.fields.items.toList.flatMap (fun x => [x.type]),
      r ∈ p.fields.items.toList.flatMap (fun x => [x.type]) ∨ r ∈ new)
    (hconstructors : ∀ r ∈ q.constructors.items.toList.flatMap Constructor.references,
      r ∈ p.constructors.items.toList.flatMap Constructor.references ∨ r ∈ new)
    (hmethods : ∀ r ∈ q.methods.items.toList.flatMap Method.references,
      r ∈ p.methods.items.toList.flatMap Method.references ∨ r ∈ new) : p.Brings q new := by
  intro r hr
  rw [mem_references]
  rcases mem_references.mp hr with htype | hfield | hconstructor | hmethod
  · rw [htypes] at htype
    exact (Store.mem_flatMap_modify hf htype).imp_left Or.inl
  · exact (hfields r hfield).imp_left fun h => Or.inr (Or.inl h)
  · exact (hconstructors r hconstructor).imp_left fun h => Or.inr (Or.inr (Or.inl h))
  · exact (hmethods r hmethod).imp_left fun h => Or.inr (Or.inr (Or.inr h))

/-- No members changed, or only initializers, which have no references. -/
theorem brings_head {p q : Program} {o : TypeId} {f : Declaration → Declaration}
    {new : List Reference} (htypes : q.types = p.types.modify o f) (hfields : q.fields = p.fields)
    (hconstructors : q.constructors = p.constructors) (hmethods : q.methods = p.methods)
    (hf : ∀ d : Declaration, ∀ r ∈ (f d).references, r ∈ d.references ∨ r ∈ new) :
    p.Brings q new := by
  refine brings_modify htypes hf ?_ ?_ ?_
  · exact fun r hr => Or.inl (hfields ▸ hr)
  · exact fun r hr => Or.inl (hconstructors ▸ hr)
  · exact fun r hr => Or.inl (hmethods ▸ hr)

/-- A declaration brings no reference. -/
theorem brings_declare {p q : Program} {scope : Scope} {head : Head} {id : TypeId}
    (h : p.declare scope head = .ok (id, q)) : p.Brings q [] := by
  obtain ⟨signature, counted, _, hcount, _, _, rfl⟩ := declare_eq_ok h
  have hcounted : p.Brings counted [] := by
    rcases countLocalType_eq_ok hcount with ⟨_, rfl⟩ | ⟨_, _, _, _, _, rfl⟩
    · exact fun r hr => Or.inl hr
    · exact brings_head rfl rfl rfl rfl fun _ _ hr => Or.inl hr
  refine fun r hr => hcounted r (mem_references.mpr ?_)
  refine (mem_references.mp hr).imp_left fun htype => ?_
  -- the new type comes with an empty head
  refine (Store.mem_flatMap_push.mp htype).resolve_right ?_
  simp [Declaration.references, Declaration.ofHead]

/-- The head of a type gets one more reference. -/
theorem brings_update {p q : Program} {o : TypeId} {f : Declaration → Declaration} {r : Reference}
    (h : (do let types ← p.types.update o f; return { p with types }) = Except.ok q)
    (hf : ∀ d : Declaration, ∀ x ∈ (f d).references, x ∈ d.references ∨ x ∈ [r]) :
    p.Brings q [r] := by
  obtain ⟨types, htypes, hq⟩ := bind_eq_ok.mp h
  obtain ⟨_, rfl⟩ := Store.update_eq_ok_iff.mp htypes
  cases hq
  exact brings_head rfl rfl rfl rfl hf

theorem brings_addExtends {p q : Program} {id : TypeId} {r : Reference}
    (h : p.addExtends id r = .ok q) : p.Brings q [r] :=
  brings_update h fun d x hx => by
    simp only [Declaration.references, Array.toList_push, List.mem_append] at hx ⊢
    tauto

theorem brings_addImplements {p q : Program} {id : TypeId} {r : Reference}
    (h : p.addImplements id r = .ok q) : p.Brings q [r] :=
  brings_update h fun d x hx => by
    simp only [Declaration.references, Array.toList_push, List.mem_append] at hx ⊢
    tauto

theorem brings_addField {p q : Program} {x : Field} {id : FieldId}
    (h : p.addField x = .ok (id, q)) : p.Brings q [x.type] := by
  obtain ⟨_, rfl⟩ := attach_eq_ok h
  exact brings_modify rfl (fun _ _ hr => Or.inl hr) (fun _ hr => Store.mem_flatMap_push.mp hr)
    (fun _ hr => Or.inl hr) fun _ hr => Or.inl hr

theorem brings_addMethod {p q : Program} {x : Method} {id : MethodId}
    (h : p.addMethod x = .ok (id, q)) : p.Brings q x.references := by
  obtain ⟨_, rfl⟩ := attach_eq_ok h
  exact brings_modify rfl (fun _ _ hr => Or.inl hr) (fun _ hr => Or.inl hr)
    (fun _ hr => Or.inl hr) fun _ hr => Store.mem_flatMap_push.mp hr

theorem brings_addConstructor {p q : Program} {x : Constructor} {id : ConstructorId}
    (h : p.addConstructor x = .ok (id, q)) : p.Brings q x.references := by
  obtain ⟨_, rfl⟩ := attach_eq_ok h
  exact brings_modify rfl (fun _ _ hr => Or.inl hr) (fun _ hr => Or.inl hr)
    (fun _ hr => Store.mem_flatMap_push.mp hr) fun _ hr => Or.inl hr

theorem brings_addInitializer {p q : Program} {x : Initializer} {id : InitializerId}
    (h : p.addInitializer x = .ok (id, q)) : p.Brings q [] := by
  obtain ⟨_, rfl⟩ := attach_eq_ok h
  exact brings_head rfl rfl rfl rfl fun _ _ hr => Or.inl hr

/-! ## Handles -/

/-- The handles of the references are those that stand at the sites. -/
theorem exists_handle?_iff {p : Program} {type : TypeHandle} :
    (∃ site, p.handle? site = some type) ↔ ∃ r ∈ p.references, r.resolved = some type := by
  have hsites := p.map_tableSites
  refine ⟨?_, ?_⟩
  · intro hex
    obtain ⟨site, htype⟩ := hex
    obtain ⟨r, hr, hres⟩ := reference_of_handle? htype
    have hmem : p.reference? site ∈ p.tableSites.map p.reference? :=
      List.mem_map_of_mem (mem_tableSites.mpr ⟨r, hr⟩)
    rw [hsites, hr] at hmem
    obtain ⟨r', hr', heq⟩ := List.mem_map.mp hmem
    cases heq
    exact ⟨r, hr', hres⟩
  · intro hex
    obtain ⟨r, hr, hres⟩ := hex
    have hmem : (.ok (some r) : Except Fault (Option Reference)) ∈
        p.references.map fun r => .ok (some r) := List.mem_map_of_mem hr
    rw [← hsites] at hmem
    obtain ⟨site, _, hsite⟩ := List.mem_map.mp hmem
    exact ⟨site, by rw [handle?_of_reference hsite, hres]⟩

/-- Resolving a single reference writes no other handle. -/
theorem handle?_resolveAt {p q : Program} {site other : Site} {type known : TypeHandle}
    {wasOpen : Bool} (h : p.resolveAt site type = .ok (some (wasOpen, q)))
    (hknown : q.handle? other = some known) : p.handle? other = some known ∨ known = type := by
  obtain ⟨found, hfound, h⟩ := bind_eq_ok.mp h
  cases found with
  | none => cases h
  | some r =>
      cases h
      rw [modifyReference_congr (g := fun r => (r.resolve type).2) hfound rfl] at hknown
      obtain ⟨now, hnow, hres⟩ := reference_of_handle? hknown
      by_cases heq : site = other
      · subst heq
        rw [reference?_modifyReference_self, hfound] at hnow
        cases hnow
        rw [Reference.resolve_resolved] at hres
        rw [handle?_of_reference hfound]
        cases hr : r.resolved with
        | some old => exact Or.inl (by rw [hr] at hres; exact hres)
        | none => exact Or.inr (by rw [hr] at hres; exact (Option.some.inj hres).symm)
      · rw [reference?_modifyReference_ne _ heq] at hnow
        exact Or.inl (by rw [handle?_of_reference hnow, hres])

end Program

end ClassTable
