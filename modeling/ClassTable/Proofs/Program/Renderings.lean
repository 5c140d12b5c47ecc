import ClassTable.Proofs.Name.Brackets
import ClassTable.Proofs.Registry.Composites

/-!
# Renderings

There are two ways to write a type: the label that the catalog has for it, where a declared type
shows as its id, and the signature that the program gives it. Both are renderings. They have
words for the types that are not composite, and put the texts of composite types together in
the same way, except that the generic type of a specialization is written by its label in both.

In a rendering that has different words for different types, different types have different
texts. The induction is on the age of a type, for all renderings at once because of the generic
types: brackets are matched to take the texts apart, and interning leads from the same parts
back to the same type.
-/

namespace ClassTable

open Signature

namespace Program

variable {p : Program} {inv : Inventory} {text : TypeHandle → String}

/-- The type is not made of others. -/
def Simple (inv : Inventory) : TypeHandle → Prop
  | .declared _ => True
  | .canonical i => ∀ e, inv.get? i = some e → ∃ signature, e.key = .named signature

/-- The type `i` is the array type over `element`. -/
structure IsArray (p : Program) (inv : Inventory) (i : TypeIndex) (element : TypeHandle) :
    Prop where
  /-- It is known as that. -/
  entry : ∃ e, inv.get? i = some e ∧ e.key = .array element
  /-- The element type is older. -/
  part : p.Part inv i element

/-- The type `i` is a specialization of the type `generic`. -/
structure IsSpecialization (p : Program) (inv : Inventory) (i generic : TypeIndex)
    (arguments : List TypeHandle) : Prop where
  /-- It is known as that. -/
  entry : ∃ e, inv.get? i = some e ∧ e.key = .specialized generic arguments
  /-- The generic type is there. -/
  base : ∃ e, inv.get? generic = some e
  /-- It is older. -/
  older : generic.raw < i.raw
  /-- So are the arguments. -/
  parts : ∀ type ∈ arguments, p.Part inv i type

/-- What a type is made of. -/
inductive Shape (p : Program) (inv : Inventory) : TypeHandle → Prop where
  | simple {type : TypeHandle} : Simple inv type → Shape p inv type
  | array {i : TypeIndex} {element : TypeHandle} :
      p.IsArray inv i element → Shape p inv (.canonical i)
  | specialized {i generic : TypeIndex} {arguments : List TypeHandle} :
      p.IsSpecialization inv i generic arguments → Shape p inv (.canonical i)

/-- What is known as an array type was made as one. -/
theorem IsArray.of_entry (h : p.Composed inv) {i : TypeIndex} {element : TypeHandle}
    (hentry : ∃ e, inv.get? i = some e ∧ e.key = .array element) : p.IsArray inv i element := by
  refine ⟨hentry, ?_⟩
  obtain ⟨e, he, hkey⟩ := hentry
  cases h i e he with
  | named | specialized => cases hkey
  | array hpart =>
      cases hkey
      exact hpart

/-- What is known as a specialization was made as one. -/
theorem IsSpecialization.of_entry (h : p.Composed inv) {i generic : TypeIndex}
    {arguments : List TypeHandle}
    (hentry : ∃ e, inv.get? i = some e ∧ e.key = .specialized generic arguments) :
    p.IsSpecialization inv i generic arguments := by
  obtain ⟨e, he, hkey⟩ := hentry
  cases h i e he with
  | named | array => cases hkey
  | specialized hbase holder hparts =>
      cases hkey
      exact ⟨⟨_, he, rfl⟩, ⟨_, hbase⟩, holder, hparts⟩

theorem shape_of_composed (h : p.Composed inv) (type : TypeHandle) : p.Shape inv type := by
  cases type with
  | declared id => exact .simple trivial
  | canonical i =>
      cases he : inv.get? i with
      | none => exact .simple fun e hget => absurd (he.symm.trans hget) (by simp)
      | some e =>
          cases hkey : e.key with
          | named signature =>
              refine .simple fun e hget => ⟨signature, ?_⟩
              cases he.symm.trans hget
              exact hkey
          | specialized generic arguments => exact .specialized (.of_entry h ⟨e, he, hkey⟩)
          | array element => exact .array (.of_entry h ⟨e, he, hkey⟩)

/-- A way to write types. -/
structure Rendering (p : Program) (inv : Inventory) (text : TypeHandle → String) : Prop where
  /-- Types that are not composite are written as words. -/
  word : ∀ type, p.Live inv type → Simple inv type → Word (text type)
  /-- Different types are different words. -/
  distinct : ∀ a b, p.Live inv a → p.Live inv b → Simple inv a → Simple inv b →
    text a = text b → a = b
  /-- Arrays show their element types. -/
  array : ∀ i element, p.IsArray inv i element → text (.canonical i) = text element ++ "[]"
  /-- Specializations show their arguments, and the labels of their generic types. -/
  specialized : ∀ i generic arguments, p.IsSpecialization inv i generic arguments →
    text (.canonical i) = inv.label (.canonical generic) ++ "<" ++
      ",".intercalate (arguments.map text) ++ ">"

/-! ## Labels -/

theorem label_array (h : p.Composed inv) {i : TypeIndex} {element : TypeHandle}
    (harray : p.IsArray inv i element) :
    inv.label (.canonical i) = inv.label element ++ "[]" := by
  obtain ⟨e, he, hkey⟩ := harray.entry
  rw [Inventory.label_of_get? he]
  cases h i e he with
  | named | specialized => cases hkey
  | array _ =>
      cases hkey
      rfl

theorem label_specialized (h : p.Composed inv) {i generic : TypeIndex}
    {arguments : List TypeHandle} (hspecialization : p.IsSpecialization inv i generic arguments) :
    inv.label (.canonical i) = inv.label (.canonical generic) ++ "<" ++
      ",".intercalate (arguments.map inv.label) ++ ">" := by
  obtain ⟨e, he, hkey⟩ := hspecialization.entry
  rw [Inventory.label_of_get? he]
  cases h i e he with
  | named | array => cases hkey
  | specialized hbase _ _ =>
      cases hkey
      rw [Inventory.label_of_get? hbase]
      rfl

/-! ## Texts are closed -/

/-- The age of a type; what is declared in the program counts as oldest. -/
def age : TypeHandle → Nat
  | .declared _ => 0
  | .canonical i => i.raw

theorem live_of_get? {i : TypeIndex} (h : ∃ e, inv.get? i = some e) :
    p.Live inv (.canonical i) := Or.inr (Option.isSome_iff_exists.mpr h)

/-- Parts are older. -/
theorem Part.age_lt {i : TypeIndex} {type : TypeHandle} (h : p.Part inv i type)
    (hknown : ∃ e, inv.get? i = some e) : age type < i.raw := by
  obtain ⟨e, he⟩ := hknown
  cases type with
  | declared id => exact Nat.lt_of_lt_of_le (Nat.succ_pos 15) (Inventory.get?_eq_some he).1
  | canonical j => exact h.older j rfl

theorem IsArray.known {i : TypeIndex} {element : TypeHandle} (h : p.IsArray inv i element) :
    ∃ e, inv.get? i = some e := h.entry.imp fun _ he => he.1

theorem IsSpecialization.known {i generic : TypeIndex} {arguments : List TypeHandle}
    (h : p.IsSpecialization inv i generic arguments) : ∃ e, inv.get? i = some e :=
  h.entry.imp fun _ he => he.1

theorem closed_map {arguments : List TypeHandle}
    (h : ∀ type ∈ arguments, Closed (text type).toList) :
    ∀ argument ∈ (arguments.map text).map String.toList, Closed argument := by
  intro argument hargument
  obtain ⟨written, hwritten, rfl⟩ := List.mem_map.mp hargument
  obtain ⟨type, htype, rfl⟩ := List.mem_map.mp hwritten
  exact h type htype

/-- **In every text brackets match,** and commas stand between them. -/
theorem closed_text (hcomposed : p.Composed inv) (hlabel : p.Rendering inv inv.label)
    (htext : p.Rendering inv text) {type : TypeHandle} (hlive : p.Live inv type) :
    Closed (text type).toList := by
  obtain ⟨n, hn⟩ : ∃ n, age type = n := ⟨_, rfl⟩
  induction n using Nat.strongRecOn generalizing text type with
  | ind n ih =>
    subst hn
    cases shape_of_composed hcomposed type with
    | simple hsimple => exact (htext.word type hlive hsimple).closed
    | array h =>
        rw [htext.array _ _ h]
        exact (ih _ (h.part.age_lt h.known) htext h.part.live rfl).array
    | @specialized i generic arguments h =>
        rw [htext.specialized _ _ _ h, toList_apply]
        have hgeneric := ih generic.raw h.older hlabel (live_of_get? h.base) rfl
        have harguments := closed_map fun type htype =>
          ih _ ((h.parts type htype).age_lt h.known) htext (h.parts type htype).live rfl
        exact hgeneric.apply
          (balanced_join fun argument hmem => (harguments argument hmem).balanced)

/-! ## Texts tell types apart -/

/-- Types with the same key are the same. -/
theorem eq_of_key_eq (hs : inv.Sound) {i j : TypeIndex} {key : TypeKey}
    (hi : ∃ e, inv.get? i = some e ∧ e.key = key) (hj : ∃ e, inv.get? j = some e ∧ e.key = key) :
    i = j := by
  obtain ⟨e, he, rfl⟩ := hi
  obtain ⟨e', he', hkey⟩ := hj
  have hfind := hs.find_of_get j e' he'
  rw [hkey, hs.find_of_get i e he] at hfind
  exact Option.some.inj hfind

/-- A list of types can be told from the list of their texts, if each type can. -/
theorem eq_of_map_eq {α β : Type} {f : α → β} {as bs : List α}
    (hf : ∀ a ∈ as, ∀ b ∈ bs, f a = f b → a = b) (h : as.map f = bs.map f) : as = bs := by
  induction as generalizing bs with
  | nil => exact (List.map_eq_nil_iff.mp h.symm).symm
  | cons a as ih =>
      cases bs with
      | nil => cases h
      | cons b bs =>
          obtain ⟨hhead, htail⟩ := List.cons.inj h
          rw [hf a List.mem_cons_self b List.mem_cons_self hhead,
            ih (fun x hx y hy => hf x (List.mem_cons_of_mem a hx) y (List.mem_cons_of_mem b hy))
              htail]

/-- Array types, if their element types can be told apart. -/
theorem Rendering.array_inj (htext : p.Rendering inv text) (hs : inv.Sound) {i j : TypeIndex}
    {element element' : TypeHandle} (hi : p.IsArray inv i element) (hj : p.IsArray inv j element')
    (helement : text element = text element' → element = element')
    (h : text (.canonical i) = text (.canonical j)) : i = j := by
  rw [htext.array _ _ hi, htext.array _ _ hj] at h
  have hsame := helement ((String.append_left_inj _).mp h)
  subst hsame
  exact eq_of_key_eq hs hi.entry hj.entry

/-- Specializations, if their generic types and their arguments can be told apart. -/
theorem Rendering.specialized_inj (htext : p.Rendering inv text) (hs : inv.Sound)
    (hclosed : ∀ type, p.Live inv type → Closed (text type).toList)
    {i j generic generic' : TypeIndex}
    {arguments arguments' : List TypeHandle} (hi : p.IsSpecialization inv i generic arguments)
    (hj : p.IsSpecialization inv j generic' arguments')
    (hgeneric : inv.label (.canonical generic) = inv.label (.canonical generic') →
      TypeHandle.canonical generic = .canonical generic')
    (harguments : ∀ a ∈ arguments, ∀ b ∈ arguments', text a = text b → a = b)
    (h : text (.canonical i) = text (.canonical j)) : i = j := by
  rw [htext.specialized _ _ _ hi, htext.specialized _ _ _ hj, ← String.toList_inj, toList_apply,
    toList_apply] at h
  obtain ⟨hfront, hrest⟩ := apply_inj
    (closed_map fun type htype => hclosed type (hi.parts type htype).live)
    (closed_map fun type htype => hclosed type (hj.parts type htype).live) h
  have hsame := TypeHandle.canonical.inj (hgeneric (String.toList_inj.mp hfront))
  have hsame' := eq_of_map_eq harguments
    ((List.map_inj_right fun _ _ => String.toList_inj.mp).mp hrest)
  subst hsame hsame'
  exact eq_of_key_eq hs hi.entry hj.entry

/-- **Types with the same text are the same.** -/
theorem text_inj (hs : inv.Sound) (hcomposed : p.Composed inv)
    (hlabel : p.Rendering inv inv.label) (htext : p.Rendering inv text) {a b : TypeHandle}
    (ha : p.Live inv a) (hb : p.Live inv b) (h : text a = text b) : a = b := by
  obtain ⟨n, hn⟩ : ∃ n, age a = n := ⟨_, rfl⟩
  induction n using Nat.strongRecOn generalizing text a b with
  | ind n ih =>
    subst hn
    cases shape_of_composed hcomposed a with
    | simple hsimple =>
        have hword := htext.word a ha hsimple
        cases shape_of_composed hcomposed b with
        | simple hsimple' => exact htext.distinct a b ha hb hsimple hsimple' h
        | array hj => exact absurd (h.trans (htext.array _ _ hj)) hword.ne_array
        | specialized hj => exact absurd (h.trans (htext.specialized _ _ _ hj)) hword.ne_apply
    | @array i element hi =>
        have hwritten := htext.array _ _ hi
        cases shape_of_composed hcomposed b with
        | simple hsimple' =>
            exact absurd (h.symm.trans hwritten) (htext.word b hb hsimple').ne_array
        | array hj =>
            have helement := ih _ (hi.part.age_lt hi.known) htext hi.part.live hj.part.live
            rw [htext.array_inj hs hi hj (fun heq => helement heq rfl) h]
        | specialized hj =>
            exact absurd (hwritten.symm.trans (h.trans (htext.specialized _ _ _ hj)))
              (array_ne_apply _ _)
    | @specialized i generic arguments hi =>
        have hwritten := htext.specialized _ _ _ hi
        cases shape_of_composed hcomposed b with
        | simple hsimple' =>
            exact absurd (h.symm.trans hwritten) (htext.word b hb hsimple').ne_apply
        | array hj =>
            exact absurd ((htext.array _ _ hj).symm.trans (h.symm.trans hwritten))
              (array_ne_apply _ _)
        | specialized hj =>
            -- generic types are written by their labels, whatever the rendering
            have hgeneric := ih _ hi.older hlabel (live_of_get? hi.base) (live_of_get? hj.base)
            have harguments := fun x hx y hy =>
              ih _ ((hi.parts x hx).age_lt hi.known) htext (hi.parts x hx).live (hj.parts y hy).live
            rw [htext.specialized_inj hs (fun _ => closed_text hcomposed hlabel htext) hi hj
              (fun heq => hgeneric heq rfl) (fun x hx y hy heq => harguments x hx y hy heq rfl) h]

end Program

end ClassTable
