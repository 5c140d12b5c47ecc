import ClassTable.Program.Rendering
import ClassTable.Proofs.Name.Decoding
import ClassTable.Proofs.Program.History
import ClassTable.Proofs.Program.Renderings

/-!
# Readable signatures identify types

If no two types that are not composite share a signature, and if none of these signatures has
characters in it that composite signatures are put together with, then the labels of the catalog
are a rendering, and so are the readable signatures. Hence equal signatures are signatures of
the same type.

A readable signature is put together within a bound on nesting. As parts are older than what they
are part of, the bound is never reached (`Fits`).
-/

namespace ClassTable

open Signature

/-- The signatures under which types were registered. -/
def registeredSignatures (log : List Call) : List String :=
  log.filterMap fun call =>
    match call.request with
    | .register signature _ _ => some signature
    | _ => none

/-- What is known under a signature was registered under it. -/
theorem Recorded.mem_registeredSignatures {log : List Call} {inv : Inventory}
    (h : Recorded log inv) {signature : String} {i : TypeIndex}
    (hfind : inv.findKey? (.named signature) = some i) :
    signature ∈ registeredSignatures log := by
  obtain ⟨call, hcall, hkey, _⟩ := (h.known _ i).mp hfind
  refine List.mem_filterMap.mpr ⟨call, hcall, ?_⟩
  cases hrequest : call.request with
  | register name kind arity =>
      rw [hrequest] at hkey
      exact congrArg some (TypeKey.named.inj hkey)
  | specialize | arrayOf =>
      rw [hrequest] at hkey
      cases hkey

namespace Program

/-- The signatures of the declared types. -/
def signatures (p : Program) : List String := p.types.items.toList.map Declaration.signature

/-- A signature in which nothing looks composite, or like an id. -/
structure Atomic (signature : String) : Prop where
  /-- It is not empty. -/
  nonempty : signature ≠ ""
  /-- It has none of the characters with a meaning. -/
  undelimited : ∀ ch ∈ signature.toList, ch ∉ ['<', '>', ',', '[', ']', '#']

instance : DecidablePred Atomic := fun signature =>
  decidable_of_iff
    (signature ≠ "" ∧ (signature.toList.all fun ch => ch ∉ ['<', '>', ',', '[', ']', '#']) = true)
    ⟨fun h => ⟨h.1, by simpa using h.2⟩, fun h => ⟨h.nonempty, by simpa using h.undelimited⟩⟩

/-- The signatures of types that are not composite are all different, and look like it. -/
structure Unambiguous (p : Program) (log : List Call) : Prop where
  /-- Registered signatures do not look composite. -/
  registered : ∀ signature ∈ registeredSignatures log, Atomic signature
  /-- Signatures of declared types do not either. -/
  declared : ∀ signature ∈ p.signatures, Atomic signature
  /-- They are all different. -/
  distinct : p.signatures.Nodup
  /-- They are not registered. -/
  foreign : ∀ signature ∈ registeredSignatures log, signature ∉ p.signatures
  /-- No keyword is registered. -/
  keyword_registered : ∀ primitive : Primitive, primitive.keyword ∉ registeredSignatures log
  /-- No keyword is a signature of a declared type. -/
  keyword_declared : ∀ primitive : Primitive, primitive.keyword ∉ p.signatures

variable {p : Program} {log : List Call} {inv : Inventory}

theorem Atomic.word {signature : String} (h : Atomic signature) : Word signature where
  nonempty := h.nonempty
  undelimited := by
    intro ch hch hmem
    refine h.undelimited ch hch ?_
    simp only [delimiters, List.mem_cons, List.not_mem_nil, or_false] at hmem ⊢
    tauto

theorem atomic_keyword (primitive : Primitive) : Atomic primitive.keyword := by
  cases primitive <;> decide

theorem keyword_inj {a b : Primitive} (h : a.keyword = b.keyword) : a = b := by
  have hsame := Primitive.ofKeyword?_keyword a
  rw [h, Primitive.ofKeyword?_keyword] at hsame
  exact (Option.some.inj hsame).symm

/-! ## Labels are a rendering -/

/-- A type that is not composite is primitive, or was registered. -/
theorem simple_cases (hrecorded : Recorded log inv) (hcomposed : p.Composed inv) {i : TypeIndex}
    (hlive : p.Live inv (.canonical i)) (hsimple : Simple inv (.canonical i)) :
    (∃ primitive : Primitive, i = primitive.index) ∨
      ∃ signature ∈ registeredSignatures log, inv.findKey? (.named signature) = some i ∧
        inv.label (.canonical i) = signature := by
  rcases hlive with hprimitive | hknown
  · exact Or.inl (TypeIndex.primitive_of_isPrimitive hprimitive)
  · obtain ⟨e, he⟩ := Option.isSome_iff_exists.mp hknown
    obtain ⟨signature, hkey⟩ := hsimple e he
    have hfind := hrecorded.sound.find_of_get i e he
    rw [hkey] at hfind
    refine Or.inr ⟨signature, hrecorded.mem_registeredSignatures hfind, hfind, ?_⟩
    rw [Inventory.label_of_get? he]
    cases hcomposed i e he with
    | named => exact TypeKey.named.inj hkey
    | specialized | array => cases hkey

/-- What the label of a type says that is neither declared nor composite. -/
structure ForeignLabel (p : Program) (inv : Inventory) (i : TypeIndex) : Prop where
  /-- It does not look composite, or like an id. -/
  atomic : Atomic (inv.label (.canonical i))
  /-- It is not the signature of a declared type. -/
  foreign : inv.label (.canonical i) ∉ p.signatures
  /-- No other type has it. -/
  unique : ∀ j, p.Live inv (.canonical j) → Simple inv (.canonical j) →
    inv.label (.canonical i) = inv.label (.canonical j) → i = j

theorem foreignLabel (hrecorded : Recorded log inv) (hcomposed : p.Composed inv)
    (hwords : p.Unambiguous log) {i : TypeIndex} (hlive : p.Live inv (.canonical i))
    (hsimple : Simple inv (.canonical i)) : p.ForeignLabel inv i := by
  have hcases := @simple_cases p log inv hrecorded hcomposed
  rcases hcases hlive hsimple with ⟨primitive, rfl⟩ | ⟨signature, hregistered, hfind, hlabel⟩
  · refine ⟨?_, ?_, fun j hj hj' heq => ?_⟩
    · rw [inv.label_primitive]
      exact atomic_keyword primitive
    · rw [inv.label_primitive]
      exact hwords.keyword_declared primitive
    · rw [inv.label_primitive] at heq
      rcases hcases hj hj' with ⟨other, rfl⟩ | ⟨other, hother, _, hlabel⟩
      · rw [inv.label_primitive] at heq
        rw [keyword_inj heq]
      · rw [hlabel] at heq
        exact absurd (heq ▸ hother) (hwords.keyword_registered primitive)
  · refine ⟨hlabel ▸ hwords.registered signature hregistered,
      hlabel ▸ hwords.foreign signature hregistered, fun j hj hj' heq => ?_⟩
    rw [hlabel] at heq
    rcases hcases hj hj' with ⟨other, rfl⟩ | ⟨other, _, hfind', hlabel'⟩
    · rw [inv.label_primitive] at heq
      exact absurd (heq ▸ hregistered) (hwords.keyword_registered other)
    · rw [hlabel'] at heq
      rw [heq, hfind'] at hfind
      exact (Option.some.inj hfind).symm

/-- A way to write types is a rendering if it writes declared types by words of their own, and all
other types like the labels do. -/
theorem rendering_of_words {text : TypeHandle → String}
    (hforeign : ∀ i, p.Live inv (.canonical i) → Simple inv (.canonical i) → p.ForeignLabel inv i)
    (hcanonical : ∀ i, p.Live inv (.canonical i) → Simple inv (.canonical i) →
      text (.canonical i) = inv.label (.canonical i))
    (hword : ∀ id, id.index < p.types.size → Word (text (.declared id)))
    (hunique : ∀ a b, a.index < p.types.size → b.index < p.types.size →
      text (.declared a) = text (.declared b) → a = b)
    (hdeclared : ∀ id i, id.index < p.types.size → p.ForeignLabel inv i →
      text (.declared id) ≠ inv.label (.canonical i))
    (harray : ∀ i element, p.IsArray inv i element →
      text (.canonical i) = text element ++ "[]")
    (hspecialized : ∀ i generic arguments, p.IsSpecialization inv i generic arguments →
      text (.canonical i) = inv.label (.canonical generic) ++ "<" ++
        ",".intercalate (arguments.map text) ++ ">") :
    p.Rendering inv text where
  word := by
    intro type hlive hsimple
    cases type with
    | declared id => exact hword id hlive
    | canonical i =>
        rw [hcanonical i hlive hsimple]
        exact (hforeign i hlive hsimple).atomic.word
  distinct := by
    intro a b ha hb ha' hb' heq
    cases a with
    | declared id =>
        cases b with
        | declared id' => rw [hunique id id' ha hb heq]
        | canonical j =>
            rw [hcanonical j hb hb'] at heq
            exact absurd heq (hdeclared id j ha (hforeign j hb hb'))
    | canonical i =>
        rw [hcanonical i ha ha'] at heq
        cases b with
        | declared id' => exact absurd heq.symm (hdeclared id' i hb (hforeign i ha ha'))
        | canonical j =>
            rw [hcanonical j hb hb'] at heq
            rw [(hforeign i ha ha').unique j hb hb' heq]
  array := harray
  specialized := hspecialized

theorem word_declared (inv : Inventory) (id : TypeId) : Word (inv.label (.declared id)) where
  nonempty := by simp [Inventory.label, ← String.toList_inj]
  undelimited := by
    intro ch hch hmem
    simp only [Inventory.label, Nat.toString_eq_repr, String.toList_append, Nat.toList_repr,
      List.mem_append] at hch
    have hdelimiters : ∀ ch ∈ delimiters, ch ∉ "decl#".toList ∧ ch.isDigit = false := by
      simp [delimiters]
    obtain ⟨hmarker, hdigit⟩ := hdelimiters ch hmem
    rcases hch with hch | hch
    · exact hmarker hch
    · rw [Nat.isDigit_of_mem_toDigits (by decide) (by decide) hch] at hdigit
      cases hdigit

/-- **The labels of a catalog are a rendering.** -/
theorem rendering_label (hrecorded : Recorded log inv) (hcomposed : p.Composed inv)
    (hwords : p.Unambiguous log) : p.Rendering inv inv.label := by
  refine rendering_of_words (fun i => foreignLabel hrecorded hcomposed hwords) (fun _ _ _ => rfl)
    (fun id _ => word_declared inv id) ?_ ?_
    (fun _ _ => label_array hcomposed) (fun _ _ _ => label_specialized hcomposed)
  · intro a b _ _ heq
    have hdigits := congrArg String.toList ((String.append_right_inj _).mp heq)
    simp only [Nat.toString_eq_repr, Nat.toList_repr] at hdigits
    exact EntityId.ext (@digits_append_inj a.index b.index [] [] (by simp) (by simp)
      (by rw [hdigits])).1
  · intro id i _ hforeign heq
    -- only ids of declared types show a number sign
    exact hforeign.atomic.undelimited '#' (heq ▸ by simp [Inventory.label]) (by decide)

/-! ## Readable signatures are a rendering -/

/-- The type can be written within the bound. -/
def Fits (depth : Nat) : TypeHandle → Prop
  | .declared _ => True
  | .canonical i => 0 < depth ∧ i.raw + 1 < TypeIndex.firstRegistered + depth

variable {c : Catalog}

/-- What is not declared takes some depth. -/
theorem Fits.eq_succ {depth : Nat} {i : TypeIndex} (h : Fits depth (.canonical i)) :
    ∃ below, depth = below + 1 := Nat.exists_eq_add_one_of_ne_zero (Nat.ne_of_gt h.1)

theorem fits_of_live {type : TypeHandle} (h : p.Live c.inventory type) :
    Fits (Registry.nestingBound c + 1) type := by
  cases type with
  | declared id => trivial
  | canonical i =>
      refine ⟨Nat.succ_pos _, ?_⟩
      show i.raw + 1 < 16 + (c.inventory.size + 1)
      rcases h with hprimitive | hknown
      · have hlt : i.raw < 9 := of_decide_eq_true hprimitive
        omega
      · obtain ⟨e, he⟩ := Option.isSome_iff_exists.mp hknown
        have hlt : i.raw < 16 + c.inventory.size := (Inventory.get?_eq_some he).2
        omega

theorem Part.fits {i : TypeIndex} {type : TypeHandle} {depth : Nat} (h : p.Part inv i type)
    (hknown : ∃ e, inv.get? i = some e) (hfits : Fits (depth + 1) (.canonical i)) :
    Fits depth type := by
  obtain ⟨e, he⟩ := hknown
  cases type with
  | declared id => trivial
  | canonical j =>
      have hold : 16 ≤ i.raw := (Inventory.get?_eq_some he).1
      have hlt : i.raw + 1 < 16 + (depth + 1) := hfits.2
      have holder := h.older j rfl
      exact ⟨by omega, show j.raw + 1 < 16 + depth by omega⟩

theorem signatureWithin_declared (p : Program) (c : Catalog) (depth : Nat) (id : TypeId) :
    p.signatureWithin c depth (.declared id) = (p.types.get? id).map Declaration.signature := by
  cases depth <;> rfl

theorem signatureWithin_simple {i : TypeIndex} (hlive : p.Live c.inventory (.canonical i))
    (hsimple : Simple c.inventory (.canonical i)) (depth : Nat) :
    p.signatureWithin c (depth + 1) (.canonical i) = some (c.inventory.label (.canonical i)) := by
  have helement : Registry.element? c i = none := by
    refine Option.eq_none_iff_forall_ne_some.mpr fun element h => ?_
    obtain ⟨e, he, hkey⟩ := Inventory.element?_eq_some_iff.mp h
    obtain ⟨signature, hnamed⟩ := hsimple e he
    cases hkey.symm.trans hnamed
  have hspecialization : Registry.specialization? c i = none := by
    refine Option.eq_none_iff_forall_ne_some.mpr fun parts h => ?_
    obtain ⟨e, he, hkey⟩ := Inventory.specialization?_eq_some_iff.mp h
    obtain ⟨signature, hnamed⟩ := hsimple e he
    cases hkey.symm.trans hnamed
  have hsignature : Registry.signature? c i = some (c.inventory.label (.canonical i)) :=
    Inventory.signature?_eq_label hlive
  simp only [signatureWithin, helement, hspecialization, hsignature]

theorem signatureWithin_array {i : TypeIndex} {element : TypeHandle}
    (h : ∃ e, c.inventory.get? i = some e ∧ e.key = .array element) (depth : Nat) :
    p.signatureWithin c (depth + 1) (.canonical i) =
      (p.signatureWithin c depth element).map (· ++ "[]") := by
  have helement : Registry.element? c i = some element := Inventory.element?_eq_some_iff.mpr h
  simp only [signatureWithin, helement]

theorem signatureWithin_specialized {i generic : TypeIndex} {arguments : List TypeHandle}
    (h : ∃ e, c.inventory.get? i = some e ∧ e.key = .specialized generic arguments)
    (hbase : ∃ e, c.inventory.get? generic = some e) (depth : Nat) :
    p.signatureWithin c (depth + 1) (.canonical i) =
      (arguments.mapM (p.signatureWithin c depth)).map fun texts =>
        c.inventory.label (.canonical generic) ++ "<" ++ ",".intercalate texts ++ ">" := by
  have hspecialization : Registry.specialization? c i = some (generic, arguments) :=
    Inventory.specialization?_eq_some_iff.mpr h
  have helement : Registry.element? c i = none := Inventory.element?_eq_none hspecialization
  have hsignature : Registry.signature? c generic =
      some (c.inventory.label (.canonical generic)) :=
    Inventory.signature?_eq_label (Or.inr (Option.isSome_iff_exists.mpr hbase))
  simp only [signatureWithin, helement, hspecialization, hsignature]
  cases arguments.mapM (p.signatureWithin c depth) <;> rfl

/-- Texts that are all there can be put together. -/
theorem mapM_eq_map {α β : Type} {f : α → Option β} {g : α → β} {xs : List α}
    (h : ∀ x ∈ xs, f x = some (g x)) : xs.mapM f = some (xs.map g) := by
  induction xs with
  | nil => rfl
  | cons x xs ih =>
      rw [List.mapM_cons, h x List.mem_cons_self,
        ih fun other hother => h other (List.mem_cons_of_mem x hother)]
      rfl

/-- If one of the texts is missing, so is the whole. -/
theorem mapM_eq_none {α β : Type} {f : α → Option β} {xs : List α} {x : α} (hx : x ∈ xs)
    (h : f x = none) : xs.mapM f = none := by
  induction xs with
  | nil => cases hx
  | cons y xs ih =>
      rw [List.mapM_cons]
      rcases List.mem_cons.mp hx with rfl | hx
      · rw [h]
        rfl
      · rw [ih hx]
        cases f y <;> rfl

theorem IsSpecialization.signatureWithin {i generic : TypeIndex} {arguments : List TypeHandle}
    (h : p.IsSpecialization c.inventory i generic arguments) (depth : Nat)
    {text : TypeHandle → String}
    (htext : ∀ type ∈ arguments, p.signatureWithin c depth type = some (text type)) :
    p.signatureWithin c (depth + 1) (.canonical i) =
      some (c.inventory.label (.canonical generic) ++ "<" ++
        ",".intercalate (arguments.map text) ++ ">") := by
  rw [signatureWithin_specialized h.entry h.base, mapM_eq_map htext]
  rfl

/-- The bound does not matter, as long as the type fits. -/
theorem signatureWithin_fits (hcomposed : p.Composed c.inventory) {depth depth' : Nat}
    {type : TypeHandle} (hlive : p.Live c.inventory type) (h : Fits depth type)
    (h' : Fits depth' type) : ∃ text, p.signatureWithin c depth type = some text ∧
      p.signatureWithin c depth' type = some text := by
  induction depth generalizing depth' type with
  | zero =>
      cases type with
      | canonical i => exact absurd h.1 (Nat.lt_irrefl 0)
      | declared id =>
          obtain ⟨d, hd⟩ := Store.get?_of_lt hlive
          refine ⟨d.signature, ?_, ?_⟩ <;> rw [signatureWithin_declared, hd] <;> rfl
  | succ depth ih =>
      cases type with
      | declared id =>
          obtain ⟨d, hd⟩ := Store.get?_of_lt hlive
          refine ⟨d.signature, ?_, ?_⟩ <;> rw [signatureWithin_declared, hd] <;> rfl
      | canonical i =>
          obtain ⟨depth', rfl⟩ := h'.eq_succ
          cases shape_of_composed hcomposed (.canonical i) with
          | simple hsimple =>
              exact ⟨_, signatureWithin_simple hlive hsimple depth,
                signatureWithin_simple hlive hsimple depth'⟩
          | array harray =>
              have hpart := harray.part
              obtain ⟨text, htext, htext'⟩ := ih hpart.live (hpart.fits harray.known h)
                (hpart.fits harray.known h')
              refine ⟨text ++ "[]", ?_, ?_⟩
              · rw [signatureWithin_array harray.entry, htext]
                rfl
              · rw [signatureWithin_array harray.entry, htext']
                rfl
          | @specialized _ generic arguments hspecialization =>
              have harguments : ∀ type ∈ arguments, p.signatureWithin c depth type =
                    some ((p.signatureWithin c depth type).getD "") ∧
                  p.signatureWithin c depth' type =
                    some ((p.signatureWithin c depth type).getD "") := by
                intro type htype
                have hpart := hspecialization.parts type htype
                obtain ⟨text, htext, htext'⟩ := ih hpart.live
                  (hpart.fits hspecialization.known h) (hpart.fits hspecialization.known h')
                rw [htext, htext']
                exact ⟨rfl, rfl⟩
              exact ⟨_, hspecialization.signatureWithin depth fun type htype =>
                  (harguments type htype).1,
                hspecialization.signatureWithin depth' fun type htype =>
                  (harguments type htype).2⟩

/-- The readable signature of a type; empty for a type that has none. -/
def readableText (p : Program) (c : Catalog) (type : TypeHandle) : String :=
  (p.readableSignature c type).getD ""

theorem readableSignature_eq (hcomposed : p.Composed c.inventory) {type : TypeHandle}
    (hlive : p.Live c.inventory type) :
    p.readableSignature c type = some (p.readableText c type) := by
  have hfits := fits_of_live hlive
  obtain ⟨text, htext, _⟩ := signatureWithin_fits hcomposed hlive hfits hfits
  have hreadable : p.readableSignature c type = some text := htext
  rw [readableText, hreadable]
  rfl

theorem signatureWithin_eq (hcomposed : p.Composed c.inventory) {depth : Nat} {type : TypeHandle}
    (hlive : p.Live c.inventory type) (hfits : Fits depth type) :
    p.signatureWithin c depth type = some (p.readableText c type) := by
  obtain ⟨text, htext, hbound⟩ := signatureWithin_fits hcomposed hlive hfits (fits_of_live hlive)
  have hreadable : p.readableSignature c type = some text := hbound
  rw [htext, readableText, hreadable]
  rfl

theorem signature_of_live {id : TypeId} (hlive : id.index < p.types.size) :
    p.signatures[id.index]? = some (p.readableText c (.declared id)) := by
  obtain ⟨d, hd⟩ := Store.get?_of_lt hlive
  have hreadable : p.readableSignature c (.declared id) = some d.signature := by
    rw [readableSignature, signatureWithin_declared, hd]
    rfl
  have hitem : p.types.items[id.index]? = some d := hd
  rw [readableText, hreadable, signatures, List.getElem?_map, Array.getElem?_toList, hitem]
  rfl

/-- **Readable signatures are a rendering.** -/
theorem rendering_readable (hrecorded : Recorded log c.inventory)
    (hcomposed : p.Composed c.inventory) (hwords : p.Unambiguous log) :
    p.Rendering c.inventory (p.readableText c) := by
  have hmem : ∀ id : TypeId, id.index < p.types.size →
      p.readableText c (.declared id) ∈ p.signatures :=
    fun id hid => List.mem_of_getElem? (signature_of_live hid)
  refine rendering_of_words (fun i => foreignLabel hrecorded hcomposed hwords) ?_
    (fun id hid => (hwords.declared _ (hmem id hid)).word) ?_
    (fun id i hid hforeign heq => hforeign.foreign (heq ▸ hmem id hid)) ?_ ?_
  · intro i hlive hsimple
    have hreadable : p.readableSignature c (.canonical i) =
        some (c.inventory.label (.canonical i)) :=
      signatureWithin_simple hlive hsimple _
    rw [readableText, hreadable]
    rfl
  · intro a b ha hb heq
    have hsame := (signature_of_live (c := c) ha).trans (heq ▸ (signature_of_live hb).symm)
    obtain ⟨hlt, _⟩ := List.getElem?_eq_some_iff.mp (signature_of_live (c := c) ha)
    exact EntityId.ext ((List.getElem?_inj hlt hwords.distinct).mp hsame)
  · intro i element harray
    have hlive : p.Live c.inventory (.canonical i) := live_of_get? harray.known
    have hfits := harray.part.fits harray.known (fits_of_live hlive)
    have hreadable : p.readableSignature c (.canonical i) =
        some (p.readableText c element ++ "[]") := by
      rw [readableSignature, signatureWithin_array harray.entry,
        signatureWithin_eq hcomposed harray.part.live hfits]
      rfl
    rw [readableText, hreadable]
    rfl
  · intro i generic arguments h
    have hlive : p.Live c.inventory (.canonical i) := live_of_get? h.known
    have hreadable := h.signatureWithin (Registry.nestingBound c) fun type htype =>
      signatureWithin_eq hcomposed (h.parts type htype).live
        ((h.parts type htype).fits h.known (fits_of_live hlive))
    rw [readableText, readableSignature, hreadable]
    rfl

/--
**Readable signatures identify types.**

In a run that was only passed types that were there, and with signatures that do not look
composite and are different for different types, every type that is there has a readable
signature, and types with the same readable signature are the same.
-/
theorem readableSignature_inj {names : CoreNames} (hrun : Catalog.Run names log c)
    (hcalls : ∀ call ∈ log, call.Supplied p) (hwords : p.Unambiguous log) {a b : TypeHandle}
    (ha : p.Live c.inventory a) (hb : p.Live c.inventory b) :
    (∃ text, p.readableSignature c a = some text) ∧
      (p.readableSignature c a = p.readableSignature c b → a = b) := by
  have hrecorded := (traced_run hrun).recorded
  have hcomposed := composed_run hrun hcalls
  refine ⟨⟨_, readableSignature_eq hcomposed ha⟩, fun heq => ?_⟩
  rw [readableSignature_eq hcomposed ha, readableSignature_eq hcomposed hb] at heq
  exact text_inj hrecorded.sound hcomposed (rendering_label hrecorded hcomposed hwords)
    (rendering_readable hrecorded hcomposed hwords) ha hb (Option.some.inj heq)

/-- In the sample, an array of `Foo` and the base of enumerations applied to it. -/
theorem sample_readable : ∃ log c, Catalog.Run {} log c ∧
    sample.readableSignature c (.canonical ⟨18⟩) = some "com/app/Foo[]" ∧
    sample.readableSignature c (.canonical ⟨19⟩) = some "java/lang/Enum<com/app/Foo[]>" ∧
    ∀ b, sample.Live c.inventory b →
      sample.readableSignature c (.canonical ⟨19⟩) = sample.readableSignature c b →
      TypeHandle.canonical ⟨19⟩ = b := by
  have hseed := @Catalog.Run.seed {} _ _ _ _ rfl rfl
  have hrun := (hseed.call (.arrayOf (.declared ⟨0⟩))).call (.specialize ⟨17⟩ [.canonical ⟨18⟩])
  refine ⟨_, _, hrun, rfl, rfl, fun b hb heq => ?_⟩
  refine (readableSignature_inj hrun ?_ ?_ ?_ hb).2 heq
  · intro call hcall type htype
    simp only [List.mem_append, List.mem_cons, List.not_mem_nil, or_false] at hcall
    rcases hcall with ((rfl | rfl) | rfl) | rfl
    · cases htype
    · cases htype
    · cases List.mem_singleton.mp htype
      exact Nat.succ_pos 2
    · cases List.mem_singleton.mp htype
      exact Or.inr rfl
  · exact ⟨by decide, by decide, by decide, by decide,
      fun primitive => by cases primitive <;> decide,
      fun primitive => by cases primitive <;> decide⟩
  · exact Or.inr rfl

end Program

end ClassTable
