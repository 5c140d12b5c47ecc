import ClassTable.Proofs.Program.LookupGrowth
import ClassTable.Proofs.Registry.Composites
import ClassTable.Proofs.Registry.Origins

/-!
# Finding what was registered

A type is registered under a signature and found by it. Registering asks the index of keys, and so
does finding, only that finding asks for a keyword first. The two agree as long as no keyword is
registered: an entry of the index is never taken back, and no other request makes an entry for a
signature.

A keyword can be registered. It gets a number like any other signature, and a type that says that
this is its signature. But what is found by the signature is the primitive type, then and ever after.

The other way round nothing can go wrong. What is found by a signature has that signature, and is not
composite, as the keys of composite types are not signatures.
-/

namespace ClassTable

variable {names : CoreNames} {log : List Call} {c c' : Catalog} {signature : String}

/-- A registration is answered by the number of the signature. -/
theorem findKey?_of_register (hrun : Catalog.Run names log c) {call : Call} (hcall : call ∈ log)
    {kind : Kind} {arity : Nat} (hrequest : call.request = .register signature kind arity) :
    ∃ i, call.answer = some i ∧ c.inventory.findKey? (.named signature) = some i := by
  have htraced := traced_run hrun
  obtain ⟨earlier, later, hlog⟩ := List.append_of_mem hcall
  obtain ⟨_, hanswer⟩ := htraced.calls earlier call later hlog
  rw [hrequest] at hanswer
  have hgiven := (congrArg Prod.fst hanswer).symm
  exact ⟨_, hgiven, (htraced.recorded.known _ _).mpr ⟨call, hcall, by rw [hrequest]; rfl, hgiven⟩⟩

/-- Finding asks for a keyword first. -/
theorem find?_keyword (c : Catalog) {primitive : Primitive}
    (h : Primitive.ofKeyword? signature = some primitive) :
    Registry.find? c signature = some primitive.index := by
  show c.inventory.find? signature = _
  simp only [Inventory.find?, h]

theorem find?_of_findKey? {i : TypeIndex} (h : Primitive.ofKeyword? signature = none)
    (hfind : c.inventory.findKey? (.named signature) = some i) :
    Registry.find? c signature = some i := by
  show c.inventory.find? signature = _
  simp only [Inventory.find?, h, hfind]

/-- **What is found by a signature has that signature.** -/
theorem signature?_of_find? (hrun : Catalog.Run names log c) {i : TypeIndex}
    (h : Registry.find? c signature = some i) : Registry.signature? c i = some signature := by
  show c.inventory.signature? i = some signature
  cases hkeyword : Primitive.ofKeyword? signature with
  | some primitive =>
      rw [find?_keyword c hkeyword] at h
      cases h
      rw [Inventory.signature?_primitive, Primitive.keyword_of_ofKeyword? hkeyword]
  | none =>
      replace h : c.inventory.find? signature = some i := h
      simp only [Inventory.find?, hkeyword] at h
      obtain ⟨e, he, hkey⟩ := (traced_run hrun).recorded.sound.get_of_find _ _ h
      rw [Inventory.signature?_of_get? he, (registered_of_named hrun he hkey).1]

/--
**What was registered is found, unless it is a keyword.**

In every run, each registration was given a number, those of the two types that every program relies
on included. From right after the call on, through whatever requests come later, what is found by the
signature is that number if the signature is no keyword. If it is one, it is the index of the
primitive type, and that is never the number that was given. Whatever is found by any text has that
text for its signature, and is neither a specialization nor an array.
-/
theorem registered_found (hrun : Catalog.Run names log c) :
    (∀ call ∈ log, ∀ signature kind arity, call.request = .register signature kind arity →
      ∃ i, call.answer = some i ∧ ∀ c', c.Later c' →
        (Primitive.ofKeyword? signature = none → Registry.find? c' signature = some i) ∧
        ∀ primitive, Primitive.ofKeyword? signature = some primitive →
          Registry.find? c' signature = some primitive.index ∧ primitive.index ≠ i) ∧
    ∀ signature i, Registry.find? c signature = some i →
      Registry.signature? c i = some signature ∧ Registry.specialization? c i = none ∧
        Registry.element? c i = none := by
  have hs := (traced_run hrun).recorded.sound
  refine ⟨fun call hcall signature kind arity hrequest => ?_, fun signature i hfound => ?_⟩
  · obtain ⟨i, hanswer, hfind⟩ := findKey?_of_register hrun hcall hrequest
    refine ⟨i, hanswer, fun c' hlater => ⟨fun hkeyword => ?_, fun primitive hkeyword => ?_⟩⟩
    · obtain ⟨hgrows, _⟩ := Catalog.grows_later hs hlater
      exact find?_of_findKey? hkeyword (hgrows.find _ _ hfind)
    · refine ⟨find?_keyword c' hkeyword, fun heq => hs.find_ne_primitive (heq ▸ hfind)⟩
  · obtain ⟨helement, hspecialization⟩ := Inventory.not_composite hs hfound
    exact ⟨signature?_of_find? hrun hfound, hspecialization, helement⟩

/-- A class `int` is registered and then a class `Shape`. The latter is found and the former is not,
though it has its number, and its signature. -/
theorem registered_keyword : ∃ log c, Catalog.Run {} log c ∧
    log.map Call.answer = [some ⟨16⟩, some ⟨17⟩, some ⟨18⟩, some ⟨19⟩] ∧
    Registry.find? c "int" = some ⟨5⟩ ∧ Registry.signature? c ⟨18⟩ = some "int" ∧
    Registry.find? c "Shape" = some ⟨19⟩ ∧ Registry.signature? c ⟨19⟩ = some "Shape" := by
  have hseed := @Catalog.Run.seed {} _ _ _ _ rfl rfl
  have hrun := (hseed.call (.register "int" .classType 0)).call (.register "Shape" .classType 0)
  obtain ⟨hregistered, hfound⟩ := registered_found hrun
  obtain ⟨_, _, hint⟩ := hregistered _
    (List.mem_append_left _ (List.mem_append_right _ (List.mem_singleton_self _))) "int" _ _ rfl
  obtain ⟨i, hi, hshape⟩ := hregistered _
    (List.mem_append_right _ (List.mem_singleton_self _)) "Shape" _ _ rfl
  have hnumber : i = ⟨19⟩ := (Option.some.inj hi).symm
  obtain ⟨hnamed, _⟩ := hshape _ (Catalog.later_refl _)
  obtain ⟨_, hkeyword⟩ := hint _ (Catalog.later_refl _)
  subst hnumber
  exact ⟨_, _, hrun, rfl, (hkeyword .int (by decide)).1, rfl, hnamed (by decide),
    (hfound _ _ (hnamed (by decide))).1⟩

end ClassTable
