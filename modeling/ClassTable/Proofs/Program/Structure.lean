import ClassTable.Proofs.Registry.Writing

/-!
# Types are written by what they are made of

A readable signature is put together anew each time it is asked for, a label once, when the type gets
its number. Both follow the term of the type. So for a type that was made of types that were there, it
can be said in advance what either will be, and in every later catalog it is the same.

The induction is on the term (`signatureWithin_of_locate`). A catalog hands out what a composite type
was made of, and these parts are the types of the parts of the term; the bound on nesting is not
reached, as parts are older. What a program knows comes in only at the declared types. One of them may
not be there, and then there is no signature.

The generic type of a specialization is the exception. It is not taken apart: its label stands in the
signature, with ids for the declared types in it. Only where these are missing is a readable signature
what its name promises.
-/

namespace ClassTable.Program

open Inventory

variable {p q : Program} {c c' : Catalog} {names : CoreNames} {log : List Call}

/-- The signature of a declared type; empty for a type that is not declared. -/
def nameOf (p : Program) (id : TypeId) : String :=
  ((p.types.get? id).map Declaration.signature).getD ""

/-- If texts are there for the elements with a property, there are texts for all exactly if all
elements have it. -/
theorem mapM_of_forall₂ {α β γ : Type} {f : β → Option γ} {P : α → Prop} [DecidablePred P]
    {g : α → γ} {xs : List α} {ys : List β}
    (h : List.Forall₂ (fun x y => f y = if P x then some (g x) else none) xs ys) :
    ys.mapM f = if ∀ x ∈ xs, P x then some (xs.map g) else none := by
  induction h with
  | nil => rfl
  | @cons x y xs ys hx _ ih =>
      rw [List.mapM_cons, hx, ih]
      simp only [List.forall_mem_cons]
      by_cases hP : P x
      · by_cases hall : ∀ x ∈ xs, P x
        · simp only [if_pos hP, if_pos hall, if_pos (And.intro hP hall)]
          rfl
        · simp only [if_pos hP, if_neg hall, if_neg fun h : P x ∧ _ => hall h.2]
          rfl
      · simp only [if_neg hP, if_neg fun h : P x ∧ _ => hP h.1]
        rfl

/-- **A type is written by its term,** if the declared types that are not in a generic type are there,
and otherwise not at all. -/
theorem signatureWithin_of_locate (hs : c.inventory.Sound) (hcomposed : q.Composed c.inventory)
    (hget : ∀ i e, c.inventory.get? i = some e → c'.inventory.get? i = some e) {t : TypeTerm}
    {type : TypeHandle} (ht : c.inventory.locate t = some type) {depth : Nat}
    (hfits : Fits depth type) :
    p.signatureWithin c' depth type =
      if ∀ id ∈ t.openIds, id.index < p.types.size then some (t.write idMark p.nameOf)
      else none := by
  -- what is known keeps its label
  have hlabel : ∀ {t i e}, c.inventory.locate t = some (.canonical i) →
      c.inventory.get? i = some e → c'.inventory.label (.canonical i) = t.text := by
    intro t i e ht he
    rw [label_of_get? (hget _ _ he), ← label_of_get? he, label_of_locate hs hcomposed ht]
  induction t using TypeTerm.induction generalizing type depth with
  | primitive written =>
      cases ht
      obtain ⟨depth, rfl⟩ := hfits.eq_succ
      have hprimitive := TypeIndex.isPrimitive_index written
      rw [signatureWithin_simple (Or.inl hprimitive) fun e he =>
        absurd (get?_of_isPrimitive _ hprimitive ▸ he) (by simp), label_primitive]
      rfl
  | declared id =>
      cases ht
      rw [signatureWithin_declared]
      split
      · rename_i hminted
        obtain ⟨d, hd⟩ := Store.get?_of_lt (hminted id (List.mem_singleton_self id))
        simp [TypeTerm.write, nameOf, hd]
      · rename_i hmissing
        rw [Option.map_eq_none_iff, Store.get?_eq_none_iff]
        exact Nat.le_of_not_lt fun hlt =>
          hmissing fun other hother => List.mem_singleton.mp hother ▸ hlt
  | named signature =>
      obtain ⟨i, e, rfl, he, hkey, _⟩ := locate_named hs hcomposed ht
      obtain ⟨depth, rfl⟩ := hfits.eq_succ
      rw [signatureWithin_simple (live_of_get? ⟨_, hget _ _ he⟩) fun e' he' =>
        ⟨signature, Option.some.inj ((hget _ _ he).symm.trans he') ▸ hkey⟩, hlabel ht he]
      rfl
  | specialized generic arguments _ iharguments =>
      obtain ⟨i, g, base, types, rfl, he, hbase, hg, htypes, hparts⟩ :=
        locate_specialized hs hcomposed ht
      obtain ⟨depth, rfl⟩ := hfits.eq_succ
      have htexts : types.mapM (p.signatureWithin c' depth) =
          if ∀ t ∈ arguments, ∀ id ∈ t.openIds, id.index < p.types.size then
            some (arguments.map (TypeTerm.write idMark p.nameOf)) else none := by
        refine mapM_of_forall₂ (List.forall₂_iff_get.mpr ⟨htypes.length_eq, fun k hk hk' => ?_⟩)
        exact iharguments _ (List.get_mem arguments ⟨k, hk⟩)
          ((List.forall₂_iff_get.mp htypes).2 k hk hk')
          ((hparts _ (List.get_mem types ⟨k, hk'⟩)).fits ⟨_, he⟩ hfits)
      rw [signatureWithin_specialized ⟨_, hget _ _ he, rfl⟩ ⟨_, hget _ _ hbase⟩, htexts,
        hlabel hg hbase]
      simp only [TypeTerm.openIds, TypeTerm.openIdsOf_eq_flatMap, List.forall_mem_flatMap,
        TypeTerm.write, TypeTerm.writeAll_eq_map, ← TypeTerm.text_eq_write]
      split <;> rfl
  | array element ih =>
      obtain ⟨i, part, rfl, he, hpart, hparts⟩ := locate_array hs hcomposed ht
      obtain ⟨depth, rfl⟩ := hfits.eq_succ
      rw [signatureWithin_array ⟨_, hget _ _ he, rfl⟩, ih hpart (hparts.fits ⟨_, he⟩ hfits),
        TypeTerm.openIds, TypeTerm.write]
      split <;> rfl

/-- What is there fits, and what was there still does. -/
theorem fits_of_has (hget : ∀ i e, c.inventory.get? i = some e → c'.inventory.get? i = some e)
    {type : TypeHandle} (h : c.inventory.Has type) :
    Fits (Registry.nestingBound c' + 1) type := by
  cases type with
  | declared id => trivial
  | canonical i =>
      have hlive : (Program.ofSize 0).Live c.inventory (.canonical i) := h
      exact fits_of_live (hlive.mono hget)

/-- **A readable signature is written by the term,** now and later. -/
theorem readableSignature_of_locate (hs : c.inventory.Sound) (hcomposed : q.Composed c.inventory)
    (hget : ∀ i e, c.inventory.get? i = some e → c'.inventory.get? i = some e) {t : TypeTerm}
    {type : TypeHandle} (h : c.inventory.Has type) (ht : c.inventory.locate t = some type) :
    p.readableSignature c' type =
      if ∀ id ∈ t.openIds, id.index < p.types.size then some (t.write idMark p.nameOf)
      else none := by
  exact signatureWithin_of_locate hs hcomposed hget ht (fits_of_has hget h)

theorem exists_term_of_has (hs : c.inventory.Sound) (hcomposed : q.Composed c.inventory)
    {type : TypeHandle} (h : c.inventory.Has type) :
    ∃ t, c.inventory.locate t = some type ∧ ∀ u, c.inventory.locate u = some type → u = t := by
  have hlocated : ∃ t, c.inventory.locate t = some type := by
    cases type with
    | declared id => exact ⟨.declared id, by rw [locate]⟩
    | canonical i => exact exists_term hs hcomposed h
  obtain ⟨t, ht⟩ := hlocated
  exact ⟨t, ht, fun u hu => unique_term hs u t type hu ht⟩

/-! ## What the name promises -/

/-- A term written out with signatures for all its declared types, at every depth. -/
def structuralText (p : Program) (t : TypeTerm) : String := t.write p.nameOf p.nameOf

theorem signs_nameOf (hplain : ∀ signature ∈ p.signatures, signs signature = 0) (id : TypeId) :
    signs (p.nameOf id) = 0 := by
  rw [nameOf]
  cases hd : p.types.get? id with
  | none => rfl
  | some d =>
      have hmem : d ∈ p.types.items.toList := Array.mem_toList_iff.mpr (Array.mem_of_getElem? hd)
      exact hplain _ (List.mem_map_of_mem hmem)

/-- **Where no name has a number sign, one stands for each declared type in a generic type,** and
none anywhere else. -/
theorem signs_readable {inv : Inventory} (hrecorded : Recorded log inv)
    (hplain : ∀ signature ∈ registeredSignatures log ++ p.signatures, signs signature = 0)
    {t : TypeTerm} (h : inv.Locates t) :
    signs (t.write idMark p.nameOf) = t.genericIds.length ∧ signs (p.structuralText t) = 0 := by
  have hregistered : ∀ signature ∈ registeredSignatures log, signs signature = 0 :=
    fun signature hmem => hplain signature (List.mem_append_left _ hmem)
  have hnames : ∀ id, signs (p.nameOf id) = 0 :=
    signs_nameOf fun signature hmem => hplain signature (List.mem_append_right _ hmem)
  have hsum : ∀ ids : List TypeId, (ids.map fun id => signs (p.nameOf id)).sum = 0 :=
    fun ids => by simp [hnames]
  refine ⟨?_, ?_⟩
  · rw [h.signs_write hrecorded hregistered, hsum]
    simp [signs_idMark]
  · rw [structuralText, h.signs_write hrecorded hregistered, hsum, hsum]

/--
**Signatures for the declared types, but not in generic types.**

In a run that was only passed types that it knew, a type that is there has one term. It has a readable
signature if the declared types that are reached through elements and arguments are in the program,
and this is the term, written with their signatures, and with ids for the declared types in the
generic types of specializations. So if there are none of these, it is the term with signatures
throughout. If there are, it is not, as long as no name has a number sign: then each of them brings
one, and nothing else does.
-/
theorem readable_by_structure (hrun : Catalog.Run names log c)
    (hcalls : ∀ call ∈ log, call.Grounded) (p : Program) {type : TypeHandle}
    (h : c.inventory.Has type) :
    ∃ t, c.inventory.locate t = some type ∧ (∀ u, c.inventory.locate u = some type → u = t) ∧
      p.readableSignature c type =
        (if ∀ id ∈ t.openIds, id.index < p.types.size then some (t.write idMark p.nameOf)
        else none) ∧
      ((∀ id ∈ t.openIds ++ t.genericIds, id.index < p.types.size) →
        (t.genericIds = [] → p.readableSignature c type = some (p.structuralText t)) ∧
        ((∀ signature ∈ registeredSignatures log ++ p.signatures, signs signature = 0) →
          signs (t.write idMark p.nameOf) = t.genericIds.length ∧
          (p.readableSignature c type = some (p.structuralText t) ↔ t.genericIds = []))) := by
  have hrecorded := (traced_run hrun).recorded
  obtain ⟨q, hcomposed⟩ := exists_composed hrun hcalls
  obtain ⟨t, ht, hunique⟩ := exists_term_of_has hrecorded.sound hcomposed h
  have hreadable := readableSignature_of_locate (p := p) hrecorded.sound hcomposed
    (fun _ _ hget => hget) h ht
  refine ⟨t, ht, hunique, hreadable, fun hminted => ?_⟩
  rw [if_pos fun id hid => hminted id (List.mem_append_left _ hid)] at hreadable
  have hplainly : t.genericIds = [] → p.readableSignature c type = some (p.structuralText t) := by
    intro hnone
    rw [hreadable, structuralText, TypeTerm.write_congr t (by simp [hnone]) fun _ _ => rfl]
  refine ⟨hplainly, fun hplain => ?_⟩
  obtain ⟨hreadableSigns, hstructuralSigns⟩ := signs_readable hrecorded hplain ⟨type, ht⟩
  refine ⟨hreadableSigns, fun hsame => ?_, hplainly⟩
  have hwritten : t.write idMark p.nameOf = p.structuralText t :=
    Option.some.inj (hreadable.symm.trans hsame)
  rw [hwritten, hstructuralSigns] at hreadableSigns
  exact List.eq_nil_of_length_eq_zero hreadableSigns.symm

/-- In the sample, an array of `Foo`, and what comes of applying it to no arguments, which a catalog
allows. -/
theorem sample_by_structure : ∃ log c, Catalog.Run {} log c ∧ (∀ call ∈ log, call.Grounded) ∧
    sample.readableSignature c (.canonical ⟨18⟩) = some "com/app/Foo[]" ∧
    sample.readableSignature c (.canonical ⟨19⟩) = some "decl#0[]<>" ∧
    sample.readableSignature c (.canonical ⟨19⟩) ≠
      some (sample.structuralText (.specialized (.array (.declared ⟨0⟩)) [])) := by
  have hseed := @Catalog.Run.seed {} _ _ _ _ rfl rfl
  have hrun := (hseed.call (.arrayOf (.declared ⟨0⟩))).call (.specialize ⟨18⟩ [])
  have hstructure := fun type => @readable_by_structure _ _ _ hrun (by decide) sample type
  refine ⟨_, _, hrun, by decide, ?_, ?_⟩
  · obtain ⟨t, _, hunique, _, hminted⟩ := hstructure (.canonical ⟨18⟩) (Or.inr rfl)
    obtain rfl := hunique (.array (.declared ⟨0⟩)) rfl
    exact (hminted (by decide)).1 rfl
  · obtain ⟨t, _, hunique, hwritten, hminted⟩ := hstructure (.canonical ⟨19⟩) (Or.inr rfl)
    obtain rfl := hunique (.specialized (.array (.declared ⟨0⟩)) []) rfl
    have hiff := ((hminted (by decide)).2 (by decide)).2
    exact ⟨hwritten, fun hsame => absurd (hiff.mp hsame) (by decide)⟩

/--
**Two texts that agree.**

If no declared type is reached through the elements and arguments of a type, and so in particular if
there is none in its term at all, then the readable signature of the type is the one that the catalog
has for it, and both are the text of the term. This holds with every program and in every later
catalog. Declared types in generic types do no harm, as both sides write their ids.
-/
theorem texts_agree (hrun : Catalog.Run names log c) (hcalls : ∀ call ∈ log, call.Grounded)
    {i : TypeIndex} (h : i.isPrimitive = true ∨ (c.inventory.get? i).isSome = true) :
    ∃ t, c.inventory.locate t = some (.canonical i) ∧
      (∀ u, c.inventory.locate u = some (.canonical i) → u = t) ∧
      (t.openIds = [] → ∀ (p : Program) c', c.Later c' →
        p.readableSignature c' (.canonical i) = Registry.signature? c' i ∧
        Registry.signature? c' i = some t.text) := by
  have hs := (traced_run hrun).recorded.sound
  obtain ⟨q, hcomposed⟩ := exists_composed hrun hcalls
  have hhas : c.inventory.Has (.canonical i) := h
  obtain ⟨t, ht, hunique⟩ := exists_term_of_has hs hcomposed hhas
  refine ⟨t, ht, hunique, fun hopen p c' hlater => ?_⟩
  have hget := (Catalog.grows_later hs hlater).1.get
  have hlive : q.Live c.inventory (.canonical i) := h
  -- the label was put together when the type was made, and has stayed
  have hlabel : Registry.signature? c' i = some t.text := by
    have hsignature : Registry.signature? c' i = some (c'.inventory.label (.canonical i)) :=
      signature?_eq_label (hlive.mono hget)
    rw [hsignature, hlive.label hget, label_of_locate hs hcomposed ht]
  -- the readable signature is put together today
  have hreadable : p.readableSignature c' (.canonical i) = some t.text := by
    rw [readableSignature_of_locate hs hcomposed hget hhas ht, if_pos (by simp [hopen]),
      t.text_eq_write, t.write_congr (fun _ _ => rfl) (by simp [hopen])]
  exact ⟨hreadable.trans hlabel.symm, hlabel⟩

/-- The base of enumerations applied to arrays of `int`. -/
theorem sample_texts : ∃ log c, Catalog.Run {} log c ∧ (∀ call ∈ log, call.Grounded) ∧
    ∀ (p : Program) c', c.Later c' →
      p.readableSignature c' (.canonical ⟨19⟩) = some "java/lang/Enum<int[]>" ∧
      Registry.signature? c' ⟨19⟩ = some "java/lang/Enum<int[]>" := by
  have hseed := @Catalog.Run.seed {} _ _ _ _ rfl rfl
  have hrun := (hseed.call (.arrayOf (.canonical Primitive.int.index))).call
    (.specialize ⟨17⟩ [.canonical ⟨18⟩])
  refine ⟨_, _, hrun, by decide, ?_⟩
  obtain ⟨t, _, hunique, hagree⟩ := @texts_agree _ _ _ hrun (by decide) ⟨19⟩ (Or.inr rfl)
  obtain rfl := hunique (.specialized (.named "java/lang/Enum") [.array (.primitive .int)]) rfl
  intro p c' hlater
  obtain ⟨hsame, htext⟩ := hagree rfl p c' hlater
  exact ⟨hsame.trans htext, htext⟩

end ClassTable.Program
