import ClassTable.Proofs.Registry.Origins
import ClassTable.Proofs.Session.Supertypes

/-!
# The base of an enumeration

What comes first among the supertypes of an enumeration is the base of enumerations, specialized to
the enumeration itself. Nothing of that is recorded in the program. Asking for supertypes asks the
catalog for the specialization, and the catalog knows the enumeration by its id alone, whatever
program it belongs to.

So all rests on the key of the specialization (`Catalog.HasEnumBase`). It has its number from the
first answer on, whoever asked for it, and keeps it. Different enumerations have different keys, and
so different numbers. Read back through a program, the number is the base of enumerations applied to
the type that the program has under the id, by its signature.
-/

namespace ClassTable

namespace Catalog

variable {names : CoreNames} {log : List Call} {c c' : Catalog} {id id' : TypeId} {i : TypeIndex}

/-- `i` is the base of enumerations, specialized to the type `id`. -/
def HasEnumBase (c : Catalog) (id : TypeId) (i : TypeIndex) : Prop :=
  c.inventory.findKey? (Program.enumKey c id) = some i

/-- A catalog that grows keeps the names that it started with. -/
theorem run_later (h : Run names log c) (hlater : c.Later c') : ∃ log', Run names log' c' := by
  induction hlater with
  | refl => exact ⟨log, h⟩
  | tail _ hstep ih =>
      obtain ⟨q, rfl⟩ := hstep
      obtain ⟨log', hrun⟩ := ih
      exact ⟨_, hrun.call q⟩

theorem HasEnumBase.grows (h : c.HasEnumBase id i) (hgrows : c.Grows c') : c'.HasEnumBase id i := by
  have hfind := hgrows.find _ i h
  rwa [Program.enumKey, ← hgrows.enumBase] at hfind

/-- **Types have bases of their own.** -/
theorem HasEnumBase.inj (hs : c.inventory.Sound) (h : c.HasEnumBase id i)
    (h' : c.HasEnumBase id' i) : id = id' := by
  have hkey := hs.key_inj h h'
  unfold Program.enumKey at hkey
  cases hkey
  rfl

theorem HasEnumBase.unique {j : TypeIndex} (h : c.HasEnumBase id i) (h' : c.HasEnumBase id j) :
    i = j := Option.some.inj (h.symm.trans h')

/-- The base of enumerations is written by its name. -/
theorem signature?_enumBase (h : Run names log c) :
    Registry.signature? c c.enumBase = some names.enumBase := by
  obtain ⟨e, he, hkey⟩ := (traced_run h).recorded.sound.get_of_find _ _ (core_known h).2
  show c.inventory.signature? c.enumBase = _
  rw [Inventory.signature?_of_get? he, (registered_of_named h he hkey).1]

theorem HasEnumBase.specialization? (hs : c.inventory.Sound) (h : c.HasEnumBase id i) :
    Registry.specialization? c i = some (c.enumBase, [.declared id]) :=
  Inventory.specialization?_eq_some_iff.mpr (hs.get_of_find _ i h)

/-- **It is written with the signature that the program has.** -/
theorem HasEnumBase.readableSignature (hrun : Run names log c) (h : c.HasEnumBase id i)
    {p : Program} {d : Declaration} (hd : p.types.get? id = some d) :
    p.readableSignature c (.canonical i) =
      some (names.enumBase ++ "<" ++ d.signature ++ ">") := by
  have hs := (traced_run hrun).recorded.sound
  have hspecialization := h.specialization? hs
  have helement : Registry.element? c i = none := Inventory.element?_eq_none hspecialization
  simp only [Program.readableSignature, Program.signatureWithin, helement, hspecialization,
    signature?_enumBase hrun, List.mapM_cons, List.mapM_nil, hd]
  rfl

end Catalog

namespace Program

/-- **The first supertype of an enumeration** is its base, which the catalog knows by then. -/
theorem supertypes_hasEnumBase {p : Program} {c : Catalog} {id : TypeId} {d : Declaration}
    (hd : p.types.get? id = some d) (henum : d.kind.isEnum = true) {types : List TypeHandle}
    (h : (p.supertypes c id).1 = .ok types) :
    ∃ i, types.head? = some (.canonical i) ∧ (p.supertypes c id).2.HasEnumBase id i := by
  rw [supertypes_of_get? c hd, if_pos henum] at h ⊢
  rcases enumSupertypes_cases c id d with ⟨cause, hcase⟩ | ⟨i, grown, hcase, hknown⟩
  · rw [hcase] at h
    cases h
  · rw [hcase] at h ⊢
    obtain ⟨explicit, _, rfl⟩ := map_eq_ok.mp h
    exact ⟨i, rfl, hknown⟩

end Program

namespace Session

variable {s t : Session Catalog} {names : CoreNames} {log : List Call} {ops : List Operation}

/-- Somewhere in the run the supertypes of the type are asked for, and these are the answer. -/
def Answered (s : Session Catalog) (ops : List Operation) (id : TypeId) (types : List TypeHandle) :
    Prop :=
  ∃ earlier later, ops = earlier ++ .supertypes id :: later ∧
    ((s.run earlier).program.supertypes (s.run earlier).registry id).1 = .ok types

/-- What was answered at any time is the base at the end. -/
theorem Answered.hasEnumBase (hc : s.registry.Reachable) {id : TypeId} {d : Declaration}
    {types : List TypeHandle} (h : s.Answered ops id types)
    (hd : (s.run ops).program.types.get? id = some d) (henum : d.kind.isEnum = true) :
    ∃ i, types.head? = some (.canonical i) ∧ (s.run ops).registry.HasEnumBase id i := by
  obtain ⟨earlier, later, rfl, hanswer⟩ := h
  rw [run_append, run_cons] at hd ⊢
  have hmid : (s.run earlier).registry.Reachable :=
    Catalog.reachable_later hc (advances_run s earlier).registry
  have hasked : ((s.run earlier).perform (.supertypes id)).registry.Reachable :=
    Catalog.reachable_later hmid (later_supertypes _ _ id)
  have hadvances := advances_run ((s.run earlier).perform (.supertypes id)) later
  obtain ⟨d₀, hd₀⟩ : ∃ d₀, (s.run earlier).program.types.get? id = some d₀ := by
    cases hd₀ : (s.run earlier).program.types.get? id with
    | some d₀ => exact ⟨d₀, rfl⟩
    | none =>
        rw [Program.supertypes, Store.get, hd₀] at hanswer
        cases hanswer
  -- it was an enumeration when it was asked for
  have hkind : d₀.kind.isEnum = true := by
    obtain ⟨d', hd', hinitial⟩ := hadvances.grows.types id d₀ hd₀
    rw [hd] at hd'
    cases hd'
    rwa [← Declaration.kind_of_initial hinitial]
  obtain ⟨i, hhead, hknown⟩ := Program.supertypes_hasEnumBase hd₀ hkind hanswer
  exact ⟨i, hhead, hknown.grows
    (Catalog.grows_later (Catalog.sound_reachable hasked) hadvances.registry).1⟩

/--
**The base of an enumeration stands for the enumeration.**

Take any run that starts with a catalog that may know anything already, also specializations that
were asked for on behalf of another program. Whenever in the run the supertypes of an enumeration
were asked for and there was an answer, the first of them is at the end of the run the base of
enumerations applied to the enumeration alone, and is written as the name of that base with the
signature of the enumeration in angle brackets. Two answers start with the same type exactly if they
are about the same enumeration.
-/
theorem enum_bases_faithful (hrun : Catalog.Run names log s.registry) (ht : s.run ops = t) :
    (∀ e d types, t.program.types.get? e = some d → d.kind.isEnum = true →
      s.Answered ops e types →
      ∃ i base, types.head? = some (.canonical i) ∧ Registry.enumBase? t.registry = some base ∧
        Registry.specialization? t.registry i = some (base, [.declared e]) ∧
        t.program.readableSignature t.registry (.canonical i) =
          some (names.enumBase ++ "<" ++ d.signature ++ ">")) ∧
    ∀ e e' d d' types types', t.program.types.get? e = some d → d.kind.isEnum = true →
      t.program.types.get? e' = some d' → d'.kind.isEnum = true →
      s.Answered ops e types → s.Answered ops e' types' →
      (types.head? = types'.head? ↔ e = e') := by
  subst ht
  have hc : s.registry.Reachable := ⟨names, log, hrun⟩
  obtain ⟨log', hrun'⟩ := Catalog.run_later hrun (advances_run s ops).registry
  have hsound := (traced_run hrun').recorded.sound
  refine ⟨?_, ?_⟩
  · intro e d types hd henum hanswered
    obtain ⟨i, hhead, hbase⟩ := hanswered.hasEnumBase hc hd henum
    exact ⟨i, _, hhead, rfl, hbase.specialization? hsound, hbase.readableSignature hrun' hd⟩
  · intro e e' d d' types types' hd henum hd' henum' hanswered hanswered'
    obtain ⟨i, hhead, hbase⟩ := hanswered.hasEnumBase hc hd henum
    obtain ⟨i', hhead', hbase'⟩ := hanswered'.hasEnumBase hc hd' henum'
    rw [hhead, hhead']
    refine ⟨fun heq => ?_, fun heq => ?_⟩
    · cases heq
      exact hbase.inj hsound hbase'
    · subst heq
      rw [hbase.unique hbase']

/-- Two enumerations are asked about, one of them twice, and in between one of them is declared and
an array type is asked for. -/
def enumQueries : List Operation :=
  [.supertypes ⟨1⟩,
    .declare (.package "com.app")
      { kindToken := ⟨"enum", .dummy⟩, nameToken := some ⟨"Size", .dummy⟩ },
    .supertypes ⟨2⟩, .request (.arrayOf (.declared ⟨2⟩)), .supertypes ⟨1⟩]

/-- The catalog had specialized the base for the enumeration that comes later, on behalf of another
program. The queries about both are answered. -/
theorem shapes_enum_bases : ∃ (c : Catalog) (t : Session Catalog), c.Reachable ∧
    run { program := shapes, registry := c } enumQueries = t ∧
    Registry.specialization? c ⟨18⟩ = some (⟨17⟩, [.declared ⟨2⟩]) ∧
    Answered { program := shapes, registry := c } enumQueries ⟨2⟩ [.canonical ⟨18⟩] ∧
    Answered { program := shapes, registry := c } enumQueries ⟨1⟩
      [.canonical ⟨19⟩, .declared ⟨0⟩] ∧
    t.program.readableSignature t.registry (.canonical ⟨18⟩) =
      some "java/lang/Enum<com/app/Size>" ∧
    t.program.readableSignature t.registry (.canonical ⟨19⟩) = some "java/lang/Enum<Color>" := by
  have hrun := (@Catalog.Run.seed {} _ _ _ _ rfl rfl).call (.specialize ⟨17⟩ [.declared ⟨2⟩])
  obtain ⟨hbases, _⟩ :=
    @enum_bases_faithful { program := shapes, registry := _ } _ _ _ enumQueries hrun rfl
  obtain ⟨i, _, hi, _, _, hsize⟩ := hbases ⟨2⟩ _ _ rfl rfl ⟨[_, _], _, rfl, rfl⟩
  obtain ⟨j, _, hj, _, _, hcolor⟩ := hbases ⟨1⟩ _ _ rfl rfl ⟨[], _, rfl, rfl⟩
  cases hi
  cases hj
  exact ⟨_, _, ⟨_, _, hrun⟩, rfl, rfl, ⟨[_, _], _, rfl, rfl⟩, ⟨[], _, rfl, rfl⟩, hsize, hcolor⟩

end Session

end ClassTable
