import ClassTable.Proofs.Session.EnumBases

/-!
# What a failed query leaves behind

Asking for supertypes reads the program, and of the catalog it may ask for one type, the base of an
enumeration. Ordinary types read all their references before they look at the catalog. Enumerations
do it the other way round: they ask for their base first and read their references afterwards. So
there is one way to fail that leaves a trace, an open reference of an enumeration whose base was not
asked for before (`Program.AsksInVain`). The base stays in the catalog (`Catalog.GainsEnumBase`),
and takes the number that the next new type would have had.

All other failures leave everything as it was: an id without a type, an open reference of any other
type, a base that the catalog refuses, and an open reference of an enumeration whose base is there.
-/

namespace ClassTable

namespace Catalog

variable {c c' : Catalog} {id : TypeId}

/-- `c'` is `c` with the base of an enumeration as a new type. -/
structure GainsEnumBase (c c' : Catalog) (id : TypeId) : Prop where
  /-- The base was not there. -/
  fresh : c.inventory.findKey? (Program.enumKey c id) = none
  /-- There is one type more. -/
  size : c'.size = c.size + 1
  /-- It is the base, and has the next number. -/
  base : c'.HasEnumBase id c.inventory.next
  /-- No other key got a number. -/
  others : ∀ key, key ≠ Program.enumKey c id →
    c'.inventory.findKey? key = c.inventory.findKey? key
  /-- What was known is known. -/
  grows : c.Grows c'

theorem GainsEnumBase.ne (h : c.GainsEnumBase c' id) : c' ≠ c := by
  rintro rfl
  exact Nat.succ_ne_self _ h.size.symm

/-- Asking for the base of an enumeration for the first time. -/
theorem gainsEnumBase_specialize (hs : c.inventory.Sound) {base : Entry} {i : TypeIndex}
    (hnew : c.inventory.findKey? (Program.enumKey c id) = none)
    (h : Registry.specialize c c.enumBase [.declared id] = (.ok i, { c with inventory :=
      (c.inventory.push (c.inventory.specialization c.enumBase base [.declared id])).2 })) :
    c.GainsEnumBase { c with inventory :=
      (c.inventory.push (c.inventory.specialization c.enumBase base [.declared id])).2 } id where
  fresh := hnew
  size := Inventory.size_push _ _
  base := Inventory.findKey?_push_self _ _
  others := fun _ hne => Inventory.findKey?_push_of_ne _ hne.symm
  grows := grows_specialize hs h

end Catalog

namespace Program

variable {p : Program} {c c' : Catalog} {id : TypeId} {cause : QueryError}

/-- The type is an enumeration that has an open reference to a type that it implements, and whose
base the catalog does not have yet but gives. -/
def AsksInVain (p : Program) (c : Catalog) (id : TypeId) : Prop :=
  ∃ d, p.types.get? id = some d ∧ d.kind.isEnum = true ∧ (∀ i, ¬ c.HasEnumBase id i) ∧
    (∃ i, (Registry.specialize c c.enumBase [.declared id]).1 = .ok i) ∧
    ∃ r ∈ d.implementsList, r.resolved = none

/-- An enumeration without an answer. -/
theorem enum_failed (hs : c.inventory.Sound) {d : Declaration} (hd : p.types.get? id = some d)
    (henum : d.kind.isEnum = true) (h : p.supertypes c id = (.error cause, c')) :
    (c' = c ∧ ¬ p.AsksInVain c id) ∨
    p.AsksInVain c id ∧ c.GainsEnumBase c' id ∧
      ∃ r, d.implementsList.toList.find? (fun r => r.resolved.isNone) = some r ∧
        cause = .unresolvedReference r.text r.span := by
  rw [supertypes_of_get? c hd, if_pos henum] at h
  rcases c.specialize_outcome c.enumBase [.declared id] with
    ⟨i, hfind, hcase⟩ | ⟨refusal, hcase⟩ | ⟨base, hnew, hcase⟩
  · rw [enumSupertypes_of_specialize hcase] at h
    exact Or.inl ⟨(Prod.mk.inj h).2.symm, fun ⟨_, _, _, hnew, _⟩ => hnew i hfind⟩
  · rw [enumSupertypes_of_refused hcase] at h
    refine Or.inl ⟨(Prod.mk.inj h).2.symm, ?_⟩
    rintro ⟨_, _, _, _, ⟨i, hi⟩, _⟩
    rw [hcase] at hi
    cases hi
  · rw [enumSupertypes_of_specialize hcase] at h
    obtain ⟨hanswer, rfl⟩ := Prod.mk.inj h
    -- the base is there, and only then an open reference is met
    obtain ⟨r, hfind, hcause⟩ := handles_eq_error_iff.mp (map_eq_error.mp hanswer)
    exact Or.inr ⟨⟨d, hd, henum, Option.eq_none_iff_forall_ne_some.mp hnew, ⟨_, by rw [hcase]⟩,
      r, mem_of_find?_open hfind⟩, Catalog.gainsEnumBase_specialize hs hnew hcase, r, hfind, hcause⟩

/-- **A failed query leaves nothing behind, or the base of an enumeration.** -/
theorem supertypes_failed (hs : c.inventory.Sound) (h : p.supertypes c id = (.error cause, c')) :
    (c' = c ∧ ¬ p.AsksInVain c id) ∨
    p.AsksInVain c id ∧ c.GainsEnumBase c' id ∧
      ∃ d r, p.types.get? id = some d ∧
        d.implementsList.toList.find? (fun r => r.resolved.isNone) = some r ∧
        cause = .unresolvedReference r.text r.span := by
  cases hd : p.types.get? id with
  | none =>
      rw [supertypes, Store.get, hd] at h
      refine Or.inl ⟨(Prod.mk.inj h).2.symm, ?_⟩
      rintro ⟨d, hd', _⟩
      rw [hd] at hd'
      cases hd'
  | some d =>
      cases hkind : d.kind.isEnum with
      | false =>
          rw [supertypes_ordinary hd hkind] at h
          refine Or.inl ⟨(Prod.mk.inj h).2.symm, ?_⟩
          rintro ⟨d', hd', henum, _⟩
          rw [hd] at hd'
          cases hd'
          rw [hkind] at henum
          cases henum
      | true =>
          refine (enum_failed hs hd hkind h).imp_right fun hvain => ?_
          obtain ⟨hasks, hgains, r, hfind, hcause⟩ := hvain
          exact ⟨hasks, hgains, d, r, rfl, hfind, hcause⟩

/-- If the root object and the base of enumerations have different names, the catalog always gives
the base of an enumeration. -/
theorem asksInVain_iff {names : CoreNames} {log : List Call}
    (hcore : names.rootObject ≠ names.enumBase) (hrun : Catalog.Run names log c) :
    p.AsksInVain c id ↔ ∃ d, p.types.get? id = some d ∧ d.kind.isEnum = true ∧
      (∀ i, ¬ c.HasEnumBase id i) ∧ ∃ r ∈ d.implementsList, r.resolved = none := by
  obtain ⟨i, grown, hok⟩ := Catalog.enumBase_specialized hcore hrun (.declared id)
  refine ⟨?_, ?_⟩
  · rintro ⟨d, hd, henum, hnew, _, hopen⟩
    exact ⟨d, hd, henum, hnew, hopen⟩
  · rintro ⟨d, hd, henum, hnew, hopen⟩
    exact ⟨d, hd, henum, hnew, ⟨i, by rw [hok]⟩, hopen⟩

end Program

namespace Session

open Program

/--
**A failed query changes nothing, with one exception.**

If there is no answer to a query about supertypes, everything is as before, unless an enumeration
has an open reference to a type that it implements and its base was never asked for. In that case
the program is as before, and so are those set aside, but the catalog has one type more, the base of
the enumeration, under the number that the next new type would have had. The answer is about the
first open reference.
-/
theorem failed_query_effect {s t : Session Catalog} (hc : s.registry.Reachable) {id : TypeId}
    {cause : QueryError} (hfailed : (s.program.supertypes s.registry id).1 = .error cause)
    (ht : s.perform (.supertypes id) = t) :
    (t = s ↔ ¬ s.program.AsksInVain s.registry id) ∧
    (s.program.AsksInVain s.registry id →
      t.program = s.program ∧ t.checkpoints = s.checkpoints ∧
      s.registry.GainsEnumBase t.registry id ∧
      ∃ d r, s.program.types.get? id = some d ∧
        d.implementsList.toList.find? (fun r => r.resolved.isNone) = some r ∧
        cause = .unresolvedReference r.text r.span) := by
  subst ht
  rcases Program.supertypes_failed (Catalog.sound_reachable hc)
    (Prod.ext hfailed rfl : s.program.supertypes s.registry id = (.error cause, _)) with
    ⟨hsame, hnot⟩ | ⟨hasks, hgains, hcause⟩
  · refine ⟨iff_of_true ?_ hnot, fun hasks => absurd hasks hnot⟩
    exact congrArg (fun registry => { s with registry }) hsame
  · refine ⟨iff_of_false (fun heq => ?_) (not_not_intro hasks),
      fun _ => ⟨rfl, rfl, hgains, hcause⟩⟩
    exact hgains.ne (congrArg Session.registry heq)

/-- An enumeration `Color` that implements a type `Shape` which nobody resolves. Asking for its
supertypes fails, and the library type that is registered next gets another number than it would
have got. -/
theorem failed_query_shifts : ∃ s t : Session Catalog, s.registry.Reachable ∧
    (s.program.supertypes s.registry ⟨0⟩).1 = .error (.unresolvedReference "Shape" .dummy) ∧
    s.perform (.supertypes ⟨0⟩) = t ∧ t ≠ s ∧ t.registry.size = s.registry.size + 1 ∧
    (s.registry.register "Figure" .interfaceType 0).1 = ⟨18⟩ ∧
    (t.registry.register "Figure" .interfaceType 0).1 = ⟨19⟩ := by
  have hrun := @Catalog.Run.seed {} _ _ _ _ rfl rfl
  obtain ⟨s, hregistry, d, hd, henum, himplements, hfailed, hbefore, hafter⟩ :
      ∃ s : Session Catalog, s.registry = Catalog.ofCoreNames {} ∧
        ∃ d, s.program.types.get? ⟨0⟩ = some d ∧ d.kind.isEnum = true ∧
          d.implementsList = #[written "Shape"] ∧
          (s.program.supertypes s.registry ⟨0⟩).1 =
            .error (.unresolvedReference "Shape" .dummy) ∧
          (s.registry.register "Figure" .interfaceType 0).1 = ⟨18⟩ ∧
          ((s.perform (.supertypes ⟨0⟩)).registry.register "Figure" .interfaceType 0).1 = ⟨19⟩ :=
    ⟨run { registry := Catalog.ofCoreNames {} } [
      .declare (.package "com.app")
        { kindToken := ⟨"enum", .dummy⟩, nameToken := some ⟨"Color", .dummy⟩ },
      .addImplements ⟨0⟩ (written "Shape")], rfl, _, rfl, rfl, rfl, rfl, rfl, rfl⟩
  have hreachable : s.registry.Reachable := hregistry ▸ ⟨_, _, hrun⟩
  have hnew : ∀ i, ¬ (Catalog.ofCoreNames {}).HasEnumBase ⟨0⟩ i := by
    intro i hi
    have hnone : (Catalog.ofCoreNames {}).inventory.findKey?
        (enumKey (Catalog.ofCoreNames {}) ⟨0⟩) = none := rfl
    rw [Catalog.HasEnumBase, hnone] at hi
    cases hi
  have hvain : s.program.AsksInVain s.registry ⟨0⟩ := by
    rw [hregistry]
    exact (asksInVain_iff (by decide) hrun).mpr
      ⟨d, hd, henum, hnew, written "Shape", by rw [himplements]; simp, rfl⟩
  obtain ⟨hsame, hleft⟩ := failed_query_effect hreachable hfailed rfl
  exact ⟨s, _, hreachable, hfailed, rfl, fun heq => hsame.mp heq hvain,
    (hleft hvain).2.2.1.size, hbefore, hafter⟩

end Session

end ClassTable
