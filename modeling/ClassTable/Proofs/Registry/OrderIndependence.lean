import ClassTable.Proofs.Registry.Registrations
import ClassTable.Proofs.Registry.Renaming
import Mathlib.Data.Set.Card
import Mathlib.Order.Interval.Finset.Nat

/-!
# The order of requests

Two runs may ask for the same types in different orders and any number of times. The numbers that
they give differ then, and so do the keys, in which numbers stand. But a term does not contain
numbers, so the number of a term in one run can be taken to its number in the other (`Tracks`).

Signatures are put together when types are made, from what the catalog had then. If types were
only made of types that were there, a signature is the text of the term. Kind and arity of a
specialization are those that its generic type gives it, so by induction on the term they come
from registrations, and there the runs agree. Hence the numbers of one run are a renaming of those
of the other, and no request can tell the runs apart.
-/

namespace ClassTable

namespace Inventory

/-! ## Inventories with the same terms -/

/-- Every type was made of types that were there. -/
structure WellMade (inv : Inventory) : Prop where
  /-- The entries and the index say the same. -/
  sound : inv.Sound
  /-- Every type is made of older ones. -/
  composed : ∃ p : Program, p.Composed inv

/-- The inventories know the same terms, and the named types look the same in both. -/
structure SameTerms (inv inv' : Inventory) : Prop where
  /-- The types of the first are made of older ones. -/
  left : inv.WellMade
  /-- So are those of the second. -/
  right : inv'.WellMade
  /-- The terms are the same. -/
  terms : inv.terms = inv'.terms
  /-- Types of one name have the same kind and arity. -/
  named : ∀ i e i' e' signature, inv.get? i = some e → inv'.get? i' = some e' →
    e.key = .named signature → e'.key = .named signature → e.kind = e'.kind ∧ e.arity = e'.arity

variable {inv inv' : Inventory} {i : TypeIndex} {t : TypeTerm} {type : TypeHandle}

theorem known_eq_image (inv : Inventory) :
    inv.known = TypeIndex.mk '' Set.Ico TypeIndex.firstRegistered inv.next.raw := by
  ext i
  refine ⟨?_, ?_⟩
  · intro hknown
    obtain ⟨e, he⟩ := mem_known_iff.mp hknown
    exact ⟨i.raw, get?_eq_some he, rfl⟩
  · rintro ⟨raw, ⟨hfirst, hnext⟩, rfl⟩
    have hlt : raw - TypeIndex.firstRegistered < inv.entries.size := by
      simp only [next, size] at hnext
      omega
    simp only [known, Set.mem_ofPred_eq, get?, if_neg (Nat.not_lt.mpr hfirst),
      Array.getElem?_eq_getElem hlt, Option.isSome_some]

theorem known_of_term (ht : t ∈ inv.terms) (hi : inv.locate t = some (.canonical i)) :
    i ∈ inv.known := by
  obtain ⟨j, hj, hlocate⟩ := ht
  rw [hi] at hlocate
  cases hlocate
  exact hj

namespace WellMade

variable (h : inv.WellMade)
include h

/-- The term of a type that is there. -/
theorem exists_term (hi : i ∈ inv.known) : ∃ t ∈ inv.terms, inv.locate t = some (.canonical i) := by
  obtain ⟨p, hp⟩ := h.composed
  have hlive : p.Live inv (.canonical i) := Or.inr hi
  obtain ⟨t, ht⟩ := p.exists_term h.sound hp hlive
  exact ⟨t, ⟨i, hi, ht⟩, ht⟩

/-- **There are as many types as terms.** -/
theorem ncard_terms : inv.terms.ncard = inv.size := by
  -- terms and numbers are counted by the types that they are the terms and numbers of
  have hlocate : Set.InjOn inv.locate inv.terms := by
    intro t ht u _ heq
    obtain ⟨i, _, hi⟩ := ht
    exact unique_term h.sound t u _ hi (heq ▸ hi)
  have himage : inv.locate '' inv.terms =
      (fun i => some (TypeHandle.canonical i)) '' inv.known := by
    ext found
    refine ⟨?_, ?_⟩
    · rintro ⟨t, ⟨i, hi, ht⟩, rfl⟩
      exact ⟨i, hi, ht.symm⟩
    · rintro ⟨i, hi, rfl⟩
      obtain ⟨t, hmem, ht⟩ := h.exists_term hi
      exact ⟨t, hmem, ht⟩
  have hraw : Function.Injective TypeIndex.mk := fun a b hab => congrArg TypeIndex.raw hab
  rw [← hlocate.ncard_image, himage,
    Set.ncard_image_of_injective _ fun a b hab => TypeHandle.canonical.inj (Option.some.inj hab),
    known_eq_image, Set.ncard_image_of_injective _ hraw, ← Finset.coe_Ico,
    Set.ncard_coe_finset, Nat.card_Ico]
  simp [next]

end WellMade

namespace SameTerms

variable (h : SameTerms inv inv')
include h

theorem next_eq : inv'.next = inv.next := by
  rw [next, next, ← h.left.ncard_terms, ← h.right.ncard_terms, h.terms]

theorem known_eq : inv'.known = inv.known := by
  rw [known_eq_image, known_eq_image, h.next_eq]

/-- **A term has the same kind and arity in both.** -/
theorem kind_arity_eq {i' : TypeIndex} {e e' : Entry}
    (ht : inv.locate t = some (.canonical i)) (ht' : inv'.locate t = some (.canonical i'))
    (he : inv.get? i = some e) (he' : inv'.get? i' = some e') :
    e.kind = e'.kind ∧ e.arity = e'.arity := by
  obtain ⟨p, hp⟩ := h.left.composed
  obtain ⟨p', hp'⟩ := h.right.composed
  -- on the term, as the generic types of one term have one term but different numbers
  induction t using TypeTerm.induction generalizing i i' e e' with
  | primitive written =>
      have hkey := keyOf_of_get? h.left.sound ht he
      cases hkey
  | declared id => cases ht
  | named signature =>
      refine h.named i e i' e' signature he he' ?_ ?_
      · exact (keyOf_of_get? h.left.sound ht he).unique (.named signature)
      · exact (keyOf_of_get? h.right.sound ht' he').unique (.named signature)
  | specialized generic arguments ihgeneric =>
      have hkey := keyOf_of_get? h.left.sound ht he
      have hkey' := keyOf_of_get? h.right.sound ht' he'
      cases hp i e he with
      | named | array => cases hkey
      | specialized hbase _ _ =>
          cases hp' i' e' he' with
          | named | array => cases hkey'
          | specialized hbase' _ _ =>
              -- both take their kinds from the generic type, and no arguments
              cases hkey with
              | specialized hg _ =>
                  cases hkey' with
                  | specialized hg' _ => exact ⟨(ihgeneric hg hg' hbase hbase').1, rfl⟩
  | array element =>
      have hkey := keyOf_of_get? h.left.sound ht he
      have hkey' := keyOf_of_get? h.right.sound ht' he'
      cases hp i e he with
      | named | specialized => cases hkey
      | array _ =>
          cases hp' i' e' he' with
          | named | specialized => cases hkey'
          | array _ => exact ⟨rfl, rfl⟩

end SameTerms

/-! ## Taking numbers to numbers -/

/-- `f` takes the number of a term in the first to its number in the second. -/
structure Tracks (f : TypeIndex → TypeIndex) (inv inv' : Inventory) : Prop where
  /-- So it is for every type that is there. -/
  term : ∀ i ∈ inv.known, ∃ t ∈ inv.terms,
    inv.locate t = some (.canonical i) ∧ inv'.locate t = some (.canonical (f i))
  /-- Other numbers stay as they are. -/
  fixed : ∀ i ∉ inv.known, f i = i

theorem SameTerms.exists_tracks (h : SameTerms inv inv') : ∃ f, Tracks f inv inv' := by
  have hex : ∀ i, ∃ j, (i ∈ inv.known → ∃ t ∈ inv.terms,
      inv.locate t = some (.canonical i) ∧ inv'.locate t = some (.canonical j)) ∧
      (i ∉ inv.known → j = i) := by
    intro i
    by_cases hi : i ∈ inv.known
    · obtain ⟨t, hmem, ht⟩ := h.left.exists_term hi
      obtain ⟨j, _, ht'⟩ := h.terms ▸ hmem
      exact ⟨j, fun _ => ⟨t, hmem, ht, ht'⟩, fun hnot => absurd hi hnot⟩
    · exact ⟨i, fun hknown => absurd hknown hi, fun _ => rfl⟩
  choose f hf using hex
  exact ⟨f, fun i => (hf i).1, fun i => (hf i).2⟩

namespace Tracks

variable {f : TypeIndex → TypeIndex} (h : SameTerms inv inv') (hf : Tracks f inv inv')
include h hf

/-- **Every term has its new number in the second.** -/
theorem locate_rename (ht : inv.locate t = some type) :
    inv'.locate t = some (type.rename f) := by
  have hsame := locate_cases h.left.sound ht
  cases hsame with
  | primitive written heq =>
      have hprimitive := get?_of_isPrimitive inv (TypeIndex.isPrimitive_index written)
      have hfixed := hf.fixed _ (notMem_known_iff.mpr hprimitive)
      rw [heq, locate, TypeHandle.rename, hfixed]
  | declared id heq =>
      rw [heq, locate]
      rfl
  | @known i e he _ =>
      obtain ⟨u, _, hu, hu'⟩ := hf.term i (mem_known_iff.mpr ⟨e, he⟩)
      rw [unique_term h.left.sound t u _ ht hu]
      exact hu'

theorem known_iff : f i ∈ inv'.known ↔ i ∈ inv.known := by
  by_cases hi : i ∈ inv.known
  · obtain ⟨t, hmem, _, ht'⟩ := hf.term i hi
    exact iff_of_true (known_of_term (h.terms ▸ hmem) ht') hi
  · rw [hf.fixed i hi, h.known_eq]

theorem bijective : Function.Bijective f := by
  refine ⟨?_, ?_⟩
  · intro i j heq
    -- what is there is not mixed up with what is not, as it is taken to what is there
    have hboth : i ∈ inv.known ↔ j ∈ inv.known := by
      rw [← hf.known_iff h, heq, hf.known_iff h]
    by_cases hi : i ∈ inv.known
    · obtain ⟨t, _, ht, ht'⟩ := hf.term i hi
      obtain ⟨u, _, hu, hu'⟩ := hf.term j (hboth.mp hi)
      have hsame := unique_term h.right.sound t u _ ht' (heq ▸ hu')
      rw [← hsame, ht] at hu
      cases hu
      rfl
    · rwa [hf.fixed i hi, hf.fixed j fun hj => hi (hboth.mpr hj)] at heq
  · intro j
    by_cases hj : j ∈ inv'.known
    · obtain ⟨t, hmem, ht'⟩ := h.right.exists_term hj
      obtain ⟨i, _, ht⟩ := h.terms ▸ hmem
      have himage := hf.locate_rename h ht
      rw [ht'] at himage
      cases himage
      exact ⟨i, rfl⟩
    · exact ⟨j, hf.fixed j (h.known_eq ▸ hj)⟩

theorem keyOf_rename {key : TypeKey} (hkey : inv.KeyOf t key) : inv'.KeyOf t (key.rename f) := by
  cases hkey with
  | named signature => exact .named signature
  | specialized hg htypes =>
      refine .specialized (hf.locate_rename h hg) ?_
      rw [List.forall₂_map_right_iff]
      exact htypes.imp fun t type => hf.locate_rename h
  | array htype => exact .array (hf.locate_rename h htype)

/-- **A type is there under its new number, and it looks the same.** -/
theorem get_rename {e : Entry} (he : inv.get? i = some e) :
    inv'.get? (f i) = some (e.rename f) := by
  obtain ⟨p, hp⟩ := h.left.composed
  obtain ⟨p', hp'⟩ := h.right.composed
  have hi : i ∈ inv.known := mem_known_iff.mpr ⟨e, he⟩
  obtain ⟨t, _, ht, ht'⟩ := hf.term i hi
  obtain ⟨e', he'⟩ := mem_known_iff.mp ((hf.known_iff h).mpr hi)
  have hkey : e'.key = e.key.rename f :=
    (keyOf_of_get? h.right.sound ht' he').unique
      (hf.keyOf_rename h (keyOf_of_get? h.left.sound ht he))
  have hsignature : e'.signature = e.signature :=
    calc e'.signature = inv'.label (.canonical (f i)) := (label_of_get? he').symm
      _ = t.text := p'.label_of_locate h.right.sound hp' ht'
      _ = inv.label (.canonical i) := (p.label_of_locate h.left.sound hp ht).symm
      _ = e.signature := label_of_get? he
  obtain ⟨hkind, harity⟩ := h.kind_arity_eq ht ht' he he'
  rw [he', Entry.rename, ← hkey, ← hsignature, hkind, harity]

/-- **The second inventory is the first with new numbers.** -/
theorem renames : Renaming f inv inv' where
  bijective := hf.bijective h
  sound := h.left.sound
  sound' := h.right.sound
  next := h.next_eq
  fixed := fun i hi => hf.fixed i (notMem_known_iff.mpr hi)
  get := by
    intro i
    cases he : inv.get? i with
    | some e => exact hf.get_rename h he
    | none =>
        refine notMem_known_iff.mp fun hknown => ?_
        exact notMem_known_iff.mpr he ((hf.known_iff h).mp hknown)

end Tracks

end Inventory

/-! ## Runs -/

/-- Registrations of one signature agree in kind and arity. The two types that every program relies
on may be registered as anything, since they are there already. -/
def SameRegistrations (names : CoreNames) (log : List Call) : Prop :=
  ∀ a ∈ registrations log, ∀ b ∈ registrations log, a.1 = b.1 →
    a.1 ≠ names.rootObject → a.1 ≠ names.enumBase → a.2 = b.2

instance (names : CoreNames) (log : List Call) : Decidable (SameRegistrations names log) :=
  inferInstanceAs (Decidable (∀ a ∈ registrations log, ∀ b ∈ registrations log, a.1 = b.1 →
    a.1 ≠ names.rootObject → a.1 ≠ names.enumBase → a.2 = b.2))

namespace Catalog

variable {names : CoreNames} {log log' : List Call} {c c' : Catalog}

/-- **In runs whose registrations agree, types of one name look the same.** -/
theorem named_eq (h : Run names log c) (h' : Run names log' c')
    (hsame : SameRegistrations names (log ++ log')) {i i' : TypeIndex} {e e' : Entry}
    {signature : String} (he : c.inventory.get? i = some e) (he' : c'.inventory.get? i' = some e')
    (hkey : e.key = .named signature) (hkey' : e'.key = .named signature) :
    e.kind = e'.kind ∧ e.arity = e'.arity := by
  have hfirst := first_registration h he hkey
  have hfirst' := first_registration h' he' hkey'
  by_cases hcore : signature = names.rootObject ∨ signature = names.enumBase
  -- both runs start with the same two types, whatever is registered later
  · obtain ⟨later, hlater⟩ := registrations_of_run h
    obtain ⟨later', hlater'⟩ := registrations_of_run h'
    have hshape : some (e.kind, e.arity) = some (e'.kind, e'.arity) := by
      rw [← hfirst, ← hfirst', hlater, hlater']
      rcases hcore with rfl | rfl
      · rw [List.lookup_cons_self, List.lookup_cons_self]
      · simp only [List.lookup_cons, beq_self_eq_true]
    exact Prod.mk.inj (Option.some.inj hshape)
  · obtain ⟨hroot, henum⟩ := not_or.mp hcore
    have hmem : (signature, e.kind, e.arity) ∈ registrations (log ++ log') := by
      rw [registrations_append]
      exact List.mem_append_left _ (mem_registrations hfirst)
    have hmem' : (signature, e'.kind, e'.arity) ∈ registrations (log ++ log') := by
      rw [registrations_append]
      exact List.mem_append_right _ (mem_registrations hfirst')
    exact Prod.mk.inj (hsame _ hmem _ hmem' rfl hroot henum)

theorem wellMade_run (h : Run names log c) (hcalls : ∀ call ∈ log, call.Grounded) :
    c.inventory.WellMade := ⟨(traced_run h).recorded.sound, exists_composed h hcalls⟩

/--
**The order of requests is unobservable.**

Let two runs ask for the same terms, in any order and any number of times, where the types passed
were there when they were passed and registrations of one signature agree in kind and arity. Then
the number of each term in the first run is taken to its number in the second by a permutation
`f` of the numbers, which takes the types of the first one to one to the types of the second.
Whatever is asked of the first catalog, the second answers the same up to `f`: finding types,
telling their sort, writing them, taking them apart, and composing new ones. So it is also after
any further requests that were asked of both.
-/
theorem interning_order_unobservable (h : Run names log c) (h' : Run names log' c')
    (hcalls : ∀ call ∈ log, call.Grounded) (hcalls' : ∀ call ∈ log', call.Grounded)
    (hterms : internedTerms log c = internedTerms log' c')
    (hsame : SameRegistrations names (log ++ log')) :
    ∃ f, Function.Bijective f ∧ Set.BijOn f c.inventory.known c'.inventory.known ∧
      (∀ i ∈ c.inventory.known, ∃ t ∈ internedTerms log c,
        c.inventory.locate t = some (.canonical i)) ∧
      (∀ t i, c.inventory.locate t = some (.canonical i) →
        c'.inventory.locate t = some (.canonical (f i))) ∧
      ∀ requests, Alike f (c.afterRequests requests)
        (c'.afterRequests (requests.map (Request.rename f))) := by
  rw [internedTerms_eq h] at hterms ⊢
  rw [internedTerms_eq h'] at hterms
  have hboth : Inventory.SameTerms c.inventory c'.inventory :=
    ⟨wellMade_run h hcalls, wellMade_run h' hcalls', hterms,
      fun _ _ _ _ _ he he' => named_eq h h' hsame he he'⟩
  obtain ⟨f, hf⟩ := hboth.exists_tracks
  have hbijective := hf.bijective hboth
  refine ⟨f, hbijective, ⟨?_, hbijective.1.injOn, ?_⟩, ?_, ?_, ?_⟩
  · exact fun i => (hf.known_iff hboth).mpr
  · intro j hj
    obtain ⟨i, rfl⟩ := hbijective.2 j
    exact ⟨i, (hf.known_iff hboth).mp hj, rfl⟩
  · exact fun i => hboth.left.exists_term
  · exact fun t i => hf.locate_rename hboth
  · exact fun requests => ((hf.renames hboth).afterRequests requests).alike

/-- Lists of arrays of root objects, where either lists or arrays come first. -/
theorem interning_list_of_arrays : ∃ log c log' c', Run {} log c ∧ Run {} log' c' ∧
    log.map Call.request = [.register "java/lang/Object" .classType 0,
      .register "java/lang/Enum" .classType 1, .register "java/util/List" .interfaceType 1,
      .arrayOf (.canonical ⟨16⟩), .specialize ⟨18⟩ [.canonical ⟨19⟩]] ∧
    log'.map Call.request = [.register "java/lang/Object" .classType 0,
      .register "java/lang/Enum" .classType 1, .arrayOf (.canonical ⟨16⟩),
      .register "java/util/List" .interfaceType 1, .register "java/util/List" .interfaceType 1,
      .specialize ⟨19⟩ [.canonical ⟨18⟩]] ∧
    log.map Call.answer = [some ⟨16⟩, some ⟨17⟩, some ⟨18⟩, some ⟨19⟩, some ⟨20⟩] ∧
    log'.map Call.answer =
      [some ⟨16⟩, some ⟨17⟩, some ⟨18⟩, some ⟨19⟩, some ⟨19⟩, some ⟨20⟩] ∧
    internedTerms log c = internedTerms log' c' ∧
    ∃ f, Function.Bijective f ∧ Set.BijOn f c.inventory.known c'.inventory.known ∧
      (∀ i ∈ c.inventory.known, ∃ t ∈ internedTerms log c,
        c.inventory.locate t = some (.canonical i)) ∧
      (∀ t i, c.inventory.locate t = some (.canonical i) →
        c'.inventory.locate t = some (.canonical (f i))) ∧
      ∀ requests, Alike f (c.afterRequests requests)
        (c'.afterRequests (requests.map (Request.rename f))) := by
  have hseed := @Run.seed {} _ _ _ _ rfl rfl
  have hrun := ((hseed.call (.register "java/util/List" .interfaceType 1)).call
    (.arrayOf (.canonical ⟨16⟩))).call (.specialize ⟨18⟩ [.canonical ⟨19⟩])
  have hrun' := (((hseed.call (.arrayOf (.canonical ⟨16⟩))).call
    (.register "java/util/List" .interfaceType 1)).call
    (.register "java/util/List" .interfaceType 1)).call (.specialize ⟨19⟩ [.canonical ⟨18⟩])
  let root := TypeTerm.named "java/lang/Object"
  let enum := TypeTerm.named "java/lang/Enum"
  let list := TypeTerm.named "java/util/List"
  let lists := TypeTerm.specialized list [.array root]
  have hterms := internedTerms_of_answers hrun
    [root, enum, list, .array root, lists] (by decide) rfl
  have hterms' := internedTerms_of_answers hrun'
    [root, enum, .array root, list, list, lists] (by decide) rfl
  have hlists : ({t | t ∈ [root, enum, list, .array root, lists]} : Set TypeTerm) =
      {t | t ∈ [root, enum, .array root, list, list, lists]} := by
    ext t
    simp only [Set.mem_ofPred_eq, List.mem_cons, List.not_mem_nil]
    tauto
  have hsame := hterms.trans (hlists.trans hterms'.symm)
  exact ⟨_, _, _, _, hrun, hrun', rfl, rfl, rfl, rfl, hsame,
    interning_order_unobservable hrun hrun' (by decide) (by decide) hsame (by decide)⟩

end Catalog

end ClassTable
