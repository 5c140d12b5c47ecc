import ClassTable.Program.Supertypes
import ClassTable.Proofs.Program.History
import ClassTable.Proofs.Registry.Specializations

/-!
# What supertypes depend on

The supertypes of a type are the types of some references at its head (`Declaration.participating`),
and at most one more type before them. Only the references can be the reason that there is no
answer. The type before them is the root object, which every catalog has, or a specialization of the
base of enumerations. That one cannot be refused: a catalog starts with a base of enumerations that
takes one argument, and no later registration under its name changes that (`enumBase_specialized`).

Both types are classes for the same reason. So there is a class among the supertypes: what comes
first if anything was put there, and one of the types written at the head if nothing was.
-/

namespace ClassTable

/-- The references whose types are supertypes. What an enumeration extends is not looked at. -/
def Declaration.participating (d : Declaration) : Array Reference :=
  if d.kind.isEnum then d.implementsList else d.extendsList ++ d.implementsList

theorem Kind.any_isClass {kind : Option Kind} :
    kind.any Kind.isClass = true ↔ kind = some .classType := by
  simp [Option.any_eq_true, Kind.isClass]

theorem Reference.handle_of_known {r : Reference} {type : TypeHandle}
    (h : r.resolved = some type) : r.handle = .ok type := by
  rw [handle, h]

theorem Reference.handle_of_open {r : Reference} (h : r.resolved = none) :
    r.handle = .error (.unresolvedReference r.text r.span) := by
  rw [handle, h]

namespace Program

/-! ## Types of references -/

variable {references : Array Reference}

/-- The types of references are known together. -/
theorem handles_eq_ok_iff {types : List TypeHandle} :
    handles references = .ok types ↔
      references.toList.map Reference.resolved = types.map some := by
  unfold handles
  generalize references.toList = rs
  induction rs generalizing types with
  | nil =>
      refine ⟨fun h => by cases h; rfl, fun h => ?_⟩
      rw [List.map_eq_nil_iff.mp h.symm]
      rfl
  | cons r rs ih =>
      rw [List.mapM_cons, bind_eq_ok, List.map_cons]
      refine ⟨?_, fun h => ?_⟩
      · intro hex
        obtain ⟨type, htype, hbind⟩ := hex
        obtain ⟨rest, hrest, heq⟩ := bind_eq_ok.mp hbind
        cases heq
        unfold Reference.handle at htype
        split at htype
        · rename_i known hknown
          cases htype
          rw [hknown, ih.mp hrest]
          rfl
        · cases htype
      · cases types with
        | nil => cases h
        | cons type types =>
            obtain ⟨htype, hrest⟩ := List.cons.inj h
            refine ⟨type, Reference.handle_of_known htype, ?_⟩
            rw [ih.mpr hrest]
            rfl

/-- If they are not, the first open reference is the reason. -/
theorem handles_eq_error_iff {cause : QueryError} :
    handles references = .error cause ↔
      ∃ r, references.toList.find? (fun r => r.resolved.isNone) = some r ∧
        cause = .unresolvedReference r.text r.span := by
  unfold handles
  generalize references.toList = rs
  induction rs with
  | nil => simp [pure, Except.pure]
  | cons r rs ih =>
      rw [List.mapM_cons, List.find?_cons]
      -- an open reference ends the walk, and a known one is passed by
      cases hr : r.resolved with
      | none =>
          rw [Reference.handle_of_open hr]
          simp [bind, Except.bind, eq_comm]
      | some type =>
          rw [Reference.handle_of_known hr, Option.isNone_some, ← ih]
          cases rs.mapM Reference.handle with
          | error first => simp [bind, Except.bind]
          | ok types => simp [bind, Except.bind, pure, Except.pure]

/-- The first open reference is one of them. -/
theorem mem_of_find?_open {r : Reference}
    (h : references.toList.find? (fun r => r.resolved.isNone) = some r) :
    r ∈ references ∧ r.resolved = none := by
  have hopen := List.find?_some h
  exact ⟨Array.mem_toList_iff.mp (List.mem_of_find?_eq_some h), Option.isNone_iff_eq_none.mp hopen⟩

theorem exists_handles_iff :
    (∃ types, handles references = .ok types) ↔ ∀ r ∈ references, r.resolved ≠ none := by
  cases h : handles references with
  | ok types =>
      refine iff_of_true ⟨types, rfl⟩ fun r hr => ?_
      have hmem := List.mem_map_of_mem (f := Reference.resolved) (Array.mem_toList_iff.mpr hr)
      rw [handles_eq_ok_iff.mp h] at hmem
      obtain ⟨type, _, htype⟩ := List.mem_map.mp hmem
      rw [← htype]
      exact Option.some_ne_none type
  | error cause =>
      obtain ⟨r, hfind, _⟩ := handles_eq_error_iff.mp h
      obtain ⟨hmem, hopen⟩ := mem_of_find?_open hfind
      exact iff_of_false (by simp) fun hall => hall r hmem hopen

theorem handles_append {xs ys : Array Reference} {types : List TypeHandle} :
    handles (xs ++ ys) = .ok types ↔
      ∃ as bs, types = as ++ bs ∧ handles xs = .ok as ∧ handles ys = .ok bs := by
  simp only [handles_eq_ok_iff, Array.toList_append, List.map_append]
  refine ⟨fun h => ?_, ?_⟩
  · obtain ⟨as, bs, rfl, has, hbs⟩ := List.map_eq_append_iff.mp h.symm
    exact ⟨as, bs, rfl, has.symm, hbs.symm⟩
  · intro hex
    obtain ⟨as, bs, rfl, has, hbs⟩ := hex
    rw [has, hbs, List.map_append]

/-! ## Supertypes -/

variable {p : Program} {c c' grown : Catalog} {id : TypeId} {d : Declaration} {i : TypeIndex}

/-- The supertypes of a known type. -/
theorem supertypes_of_get? (c : Catalog) (hd : p.types.get? id = some d) :
    p.supertypes c id =
      if d.kind.isEnum then enumSupertypes c id d else (p.ordinarySupertypes c d, c) := by
  rw [supertypes, Store.get_eq_ok_iff.mpr hd]

theorem enumSupertypes_of_specialize
    (h : Registry.specialize c c.enumBase [.declared id] = (.ok i, grown)) :
    enumSupertypes c id d = ((handles d.implementsList).map (.canonical i :: ·), grown) := by
  have hbase : Registry.enumBase? c = some c.enumBase := rfl
  simp only [enumSupertypes, hbase, h]

theorem enumSupertypes_of_refused {cause : RegistryError}
    (h : Registry.specialize c c.enumBase [.declared id] = (.error cause, grown)) :
    enumSupertypes c id d = (.error (.registry cause), grown) := by
  have hbase : Registry.enumBase? c = some c.enumBase := rfl
  simp only [enumSupertypes, hbase, h]

/-- What comes before the types written at the head of a type that is not an enumeration: the root
object, if none of them is a class. -/
def implicitRoot (p : Program) (c : Catalog) (explicit : List TypeHandle) : Option TypeHandle :=
  if explicit.any fun type => (p.kindOf c type).any Kind.isClass then none
  else some (.canonical c.rootObject)

theorem implicitRoot_isSome (explicit : List TypeHandle) :
    (p.implicitRoot c explicit).isSome = true ↔
      ∀ type ∈ explicit, p.kindOf c type ≠ some .classType := by
  unfold implicitRoot
  split
  · rename_i hany
    simp only [List.any_eq_true, Kind.any_isClass] at hany
    obtain ⟨type, htype, hclass⟩ := hany
    exact iff_of_false (by simp) fun hall => hall type htype hclass
  · rename_i hnone
    simp only [List.any_eq_true, Kind.any_isClass, not_exists, not_and] at hnone
    exact iff_of_true rfl hnone

theorem kindOf_implicitRoot {names : CoreNames} {log : List Call} (hc : Catalog.Run names log c)
    {explicit : List TypeHandle} {type : TypeHandle} (h : p.implicitRoot c explicit = some type) :
    p.kindOf c type = some .classType := by
  unfold implicitRoot at h
  split at h
  · cases h
  · cases h
    exact Catalog.kind?_rootObject hc

/-- With the root object, or without it, there is a class. -/
theorem exists_class_implicitRoot {names : CoreNames} {log : List Call}
    (hc : Catalog.Run names log c) (explicit : List TypeHandle) :
    ∃ type ∈ (p.implicitRoot c explicit).toList ++ explicit,
      p.kindOf c type = some .classType := by
  cases hroot : p.implicitRoot c explicit with
  | some type => exact ⟨type, List.mem_cons_self, kindOf_implicitRoot hc hroot⟩
  | none =>
      by_contra hnone
      push Not at hnone
      have hsome := (implicitRoot_isSome explicit).mpr hnone
      rw [hroot] at hsome
      cases hsome

/-- What an ordinary type has for supertypes. Asking changes nothing. -/
theorem supertypes_ordinary (hd : p.types.get? id = some d) (hkind : d.kind.isEnum = false) :
    p.supertypes c id = ((handles d.participating).map fun explicit =>
      (p.implicitRoot c explicit).toList ++ explicit, c) := by
  have hroot : Registry.root? c = some c.rootObject := rfl
  rw [supertypes_of_get? c hd, Declaration.participating, hkind, if_neg Bool.false_ne_true,
    if_neg Bool.false_ne_true, ordinarySupertypes, hroot]
  cases handles (d.extendsList ++ d.implementsList) with
  | error cause => rfl
  | ok explicit =>
      simp only [Except.map, implicitRoot, bind, Except.bind]
      split <;> rfl

/-- What an enumeration has for supertypes, if the base of enumerations can be specialized. -/
theorem supertypes_enum (hd : p.types.get? id = some d) (hkind : d.kind.isEnum = true)
    (h : Registry.specialize c c.enumBase [.declared id] = (.ok i, grown)) :
    p.supertypes c id = ((handles d.participating).map (.canonical i :: ·), grown) := by
  rw [supertypes_of_get? c hd, if_pos hkind, enumSupertypes_of_specialize h,
    Declaration.participating, if_pos hkind]

/-- **Nothing is missing but the types of references.** -/
theorem supertypes_of_run {names : CoreNames} {log : List Call}
    (hcore : names.rootObject ≠ names.enumBase) (hc : Catalog.Run names log c)
    (hd : p.types.get? id = some d) :
    ∃ complete, (p.supertypes c id).1 = (handles d.participating).map complete := by
  cases hkind : d.kind.isEnum with
  | false => exact ⟨_, congrArg Prod.fst (supertypes_ordinary hd hkind)⟩
  | true =>
      obtain ⟨i, grown, hok⟩ := Catalog.enumBase_specialized hcore hc (.declared id)
      exact ⟨_, congrArg Prod.fst (supertypes_enum hd hkind hok)⟩

/--
**Only an open reference can be in the way of supertypes.**

Let the root object and the base of enumerations have different names. Then, whatever the catalog
was asked before, a type has supertypes exactly if all references are resolved that take part. If
not, the reason is the first of them that is open, by its text and its place. No type that every
program relies on is ever missing, and the catalog never refuses.
-/
theorem supertypes_outcome {names : CoreNames} {log : List Call}
    (hcore : names.rootObject ≠ names.enumBase) (hc : Catalog.Run names log c)
    (hd : p.types.get? id = some d) :
    ((∃ l, (p.supertypes c id).1 = .ok l) ↔ ∀ r ∈ d.participating, r.resolved ≠ none) ∧
    (∀ cause, (p.supertypes c id).1 = .error cause ↔
      ∃ r, d.participating.toList.find? (fun r => r.resolved.isNone) = some r ∧
        cause = .unresolvedReference r.text r.span) ∧
    (∀ role, (p.supertypes c id).1 ≠ .error (.missingCoreType role)) ∧
    ∀ cause, (p.supertypes c id).1 ≠ .error (.registry cause) := by
  obtain ⟨complete, houtcome⟩ := supertypes_of_run hcore hc hd
  have herror : ∀ cause, (p.supertypes c id).1 = .error cause ↔
      ∃ r, d.participating.toList.find? (fun r => r.resolved.isNone) = some r ∧
        cause = .unresolvedReference r.text r.span := by
    intro cause
    rw [houtcome, map_eq_error, handles_eq_error_iff]
  refine ⟨?_, herror, fun role h => ?_, fun cause h => ?_⟩
  · rw [houtcome, exists_map_eq_ok, exists_handles_iff]
  · obtain ⟨_, _, heq⟩ := (herror _).mp h
    cases heq
  · obtain ⟨_, _, heq⟩ := (herror _).mp h
    cases heq

/-- `java/lang/Enum` is registered again, as an interface with two type parameters. To an enumeration
that is added to the sample it does not matter; a reference without a type does. -/
theorem sample_enum_outcome : ∃ log c p q, Catalog.Run {} log c ∧
    sample.declare (.package "com.app")
      { kindToken := ⟨"enum", .dummy⟩, nameToken := some ⟨"Color", .dummy⟩ } = .ok (⟨3⟩, p) ∧
    p.addImplements ⟨3⟩ (written "Shape") = .ok q ∧
    (∃ l, (p.supertypes c ⟨3⟩).1 = .ok l) ∧
    (q.supertypes c ⟨3⟩).1 = .error (.unresolvedReference "Shape" .dummy) := by
  have hrun := (@Catalog.Run.seed {} _ _ _ _ rfl rfl).call
    (.register "java/lang/Enum" .interfaceType 2)
  obtain ⟨p, d, hdeclared, hd, hknown⟩ : ∃ p d, sample.declare (.package "com.app")
      { kindToken := ⟨"enum", .dummy⟩, nameToken := some ⟨"Color", .dummy⟩ } = .ok (⟨3⟩, p) ∧
      p.types.get? ⟨3⟩ = some d ∧ ∀ r ∈ d.participating, r.resolved ≠ none :=
    ⟨_, _, rfl, rfl, by decide⟩
  obtain ⟨q, e, hattached, he, hopen⟩ : ∃ q e, p.addImplements ⟨3⟩ (written "Shape") = .ok q ∧
      q.types.get? ⟨3⟩ = some e ∧ e.participating = #[written "Shape"] := by
    cases hdeclared
    exact ⟨_, _, rfl, rfl, rfl⟩
  obtain ⟨hanswer, _⟩ := supertypes_outcome (by decide) hrun hd
  obtain ⟨_, hrefused, _⟩ := supertypes_outcome (by decide) hrun he
  exact ⟨_, _, p, q, hrun, hdeclared, hattached, hanswer.mpr hknown,
    (hrefused _).mpr ⟨written "Shape", by rw [hopen]; rfl, rfl⟩⟩

/--
**There is a class among the supertypes.**

They are the types of the references that take part, in the order in which they are written, and at
most one type before them. If there is such a type, it is a class. An enumeration always has one,
and any other type has it exactly if there is no class among the written ones.
-/
theorem supertypes_have_class (hc : c.Reachable) (hd : p.types.get? id = some d)
    {l : List TypeHandle} (h : p.supertypes c id = (.ok l, c')) :
    (∃ type ∈ l, p.kindOf c' type = some .classType) ∧
    ∃ (explicit : List TypeHandle) (first : Option TypeHandle), l = first.toList ++ explicit ∧
      d.participating.toList.map Reference.resolved = explicit.map some ∧
      (∀ type, first = some type → p.kindOf c' type = some .classType) ∧
      (d.kind.isEnum = true → first.isSome = true) ∧
      (d.kind.isEnum = false →
        (first.isSome = true ↔ ∀ type ∈ explicit, p.kindOf c' type ≠ some .classType)) := by
  obtain ⟨names, log, hrun⟩ := hc
  cases hkind : d.kind.isEnum with
  | false =>
      rw [supertypes_ordinary hd hkind] at h
      obtain ⟨hl, rfl⟩ := Prod.mk.inj h
      obtain ⟨explicit, hexplicit, rfl⟩ := map_eq_ok.mp hl
      exact ⟨exists_class_implicitRoot hrun explicit, explicit, _, rfl,
        handles_eq_ok_iff.mp hexplicit, fun _ => kindOf_implicitRoot hrun, (absurd · (by simp)),
        fun _ => implicitRoot_isSome explicit⟩
  | true =>
      cases hspecialize : Registry.specialize c c.enumBase [.declared id] with
      | mk answer grown =>
          cases answer with
          | error cause =>
              -- a refused specialization leaves no list to speak of
              rw [supertypes_of_get? c hd, if_pos hkind, enumSupertypes_of_refused hspecialize] at h
              cases h
          | ok i =>
              rw [supertypes_enum hd hkind hspecialize] at h
              obtain ⟨hl, rfl⟩ := Prod.mk.inj h
              obtain ⟨explicit, hexplicit, rfl⟩ := map_eq_ok.mp hl
              have hclass : p.kindOf grown (.canonical i) = some .classType :=
                Catalog.kind?_of_specialize_enumBase hrun hspecialize
              refine ⟨⟨_, List.mem_cons_self, hclass⟩, explicit, some (.canonical i), rfl,
                handles_eq_ok_iff.mp hexplicit, fun type htype => ?_, fun _ => rfl,
                fun hother => by cases hother⟩
              cases htype
              exact hclass

/-- `List` is an interface. So the root object comes before it, and that is a class. `Color` is an
enumeration that implements it, and so the base of enumerations comes first. -/
theorem sample_member_supertypes : ∃ (c c' : Catalog) (p q q' : Program), c.Reachable ∧
    sample.addImplements ⟨1⟩ { written "List" with resolved := some (.canonical ⟨18⟩) } = .ok p ∧
    p.supertypes c ⟨1⟩ = (.ok [.canonical ⟨16⟩, .canonical ⟨18⟩], c) ∧
    (∃ type ∈ [TypeHandle.canonical ⟨16⟩, .canonical ⟨18⟩], p.kindOf c type = some .classType) ∧
    sample.declare (.package "com.app")
      { kindToken := ⟨"enum", .dummy⟩, nameToken := some ⟨"Color", .dummy⟩ } = .ok (⟨3⟩, q) ∧
    q.addImplements ⟨3⟩ { written "List" with resolved := some (.canonical ⟨18⟩) } = .ok q' ∧
    q'.supertypes c ⟨3⟩ = (.ok [.canonical ⟨19⟩, .canonical ⟨18⟩], c') ∧
    ∃ type ∈ [TypeHandle.canonical ⟨19⟩, .canonical ⟨18⟩], q'.kindOf c' type = some .classType := by
  have hrun := (@Catalog.Run.seed {} _ _ _ _ rfl rfl).call
    (.register "java/util/List" .interfaceType 1)
  obtain ⟨c, hc, p, d, hattached, hd, hsupertypes, q, q', e, c', hdeclared, hcolor, he, henum⟩ :
      ∃ c : Catalog, c.Reachable ∧
      ∃ p d, sample.addImplements ⟨1⟩
          { written "List" with resolved := some (.canonical ⟨18⟩) } = .ok p ∧
        p.types.get? ⟨1⟩ = some d ∧
        p.supertypes c ⟨1⟩ = (.ok [.canonical ⟨16⟩, .canonical ⟨18⟩], c) ∧
      ∃ q q' e c', sample.declare (.package "com.app")
          { kindToken := ⟨"enum", .dummy⟩, nameToken := some ⟨"Color", .dummy⟩ } = .ok (⟨3⟩, q) ∧
        q.addImplements ⟨3⟩ { written "List" with resolved := some (.canonical ⟨18⟩) } = .ok q' ∧
        q'.types.get? ⟨3⟩ = some e ∧
        q'.supertypes c ⟨3⟩ = (.ok [.canonical ⟨19⟩, .canonical ⟨18⟩], c') :=
    ⟨_, ⟨_, _, hrun⟩, _, _, rfl, rfl, rfl, _, _, _, _, rfl, rfl, rfl, rfl⟩
  obtain ⟨hclass, _⟩ := supertypes_have_class hc hd hsupertypes
  obtain ⟨hbase, _⟩ := supertypes_have_class hc he henum
  exact ⟨c, c', p, q, q', hc, hattached, hsupertypes, hclass, hdeclared, hcolor, henum, hbase⟩

end Program

end ClassTable
