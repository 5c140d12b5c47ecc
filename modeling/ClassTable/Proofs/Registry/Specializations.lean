import ClassTable.Proofs.Registry.Composites
import ClassTable.Proofs.Registry.Registrations

/-!
# Whether a type can be specialized

A specialization that is there already is given without any check, so that asking for it could
succeed where asking for the first time would fail. It never does. A specialization is there only if
it passed the check, and what was checked is fixed by then: the generic type stays, and a later
registration of its signature does not change its arity (`Inventory.Checked`). So the answer depends
on the generic type alone, and on the number of arguments (`specialize_cases`).

The arity that counts is on record in the log of the run (`RecordedArity`).
-/

namespace ClassTable

/-- What was checked of composite types holds of them. -/
structure Inventory.Checked (inv : Inventory) : Prop where
  sound : inv.Sound
  /-- A specialization has as many arguments as its generic type takes, and is of its kind. -/
  generic : ∀ i e generic arguments, inv.get? i = some e → e.key = .specialized generic arguments →
    ∃ base, inv.get? generic = some base ∧ base.arity = arguments.length ∧ e.kind = base.kind
  /-- Composite types take no arguments. -/
  arity : ∀ i e, inv.get? i = some e → (∀ signature, e.key ≠ .named signature) → e.arity = 0

namespace Inventory

variable {inv : Inventory} {generic : TypeIndex} {arguments : List TypeHandle}

theorem checked_empty : ({} : Inventory).Checked where
  sound := sound_empty
  generic := fun i e _ _ he => absurd he (by simp [get?])
  arity := fun i e he => absurd he (by simp [get?])

/-- **A request adds what it has checked.** -/
theorem checked_answer (h : inv.Checked) (q : Request) : (inv.answer q).2.Checked := by
  have hsound := sound_answer h.sound q
  rcases keeps_or_pushes h.sound q with hkept | ⟨new, hmakes, _, hpushed⟩
  · rwa [hkept]
  · rw [hpushed] at hsound ⊢
    refine ⟨hsound, fun i e generic arguments he hkey => ?_, fun i e he hkey => ?_⟩
    · -- the generic type was there before the specialization, so it stays
      suffices ∃ base, inv.get? generic = some base ∧ base.arity = arguments.length ∧
          e.kind = base.kind from
        this.imp fun base hbase => ⟨get?_push_of_get? hbase.1, hbase.2⟩
      rw [get?_push] at he
      split at he
      · cases he
        cases hmakes with
        | named _ _ _ | array _ => cases hkey
        | specialized hbase harity =>
            cases hkey
            exact ⟨_, hbase, harity, rfl⟩
      · exact h.generic i e generic arguments he hkey
    · rw [get?_push] at he
      split at he
      · cases he
        cases hmakes with
        | named signature _ _ => exact absurd rfl (hkey signature)
        | specialized _ _ | array _ => rfl
      · exact h.arity i e he hkey

/-- **What specializing comes to,** with or without a check. -/
theorem specialize_cases (h : inv.Checked) (generic : TypeIndex) (arguments : List TypeHandle) :
    (inv.get? generic = none ∧
      inv.specialize generic arguments = (.error (.unknownType generic), inv)) ∨
    (∃ base, inv.get? generic = some base ∧ base.arity ≠ arguments.length ∧
      inv.specialize generic arguments =
        (.error (.arityMismatch base.signature base.arity arguments.length), inv)) ∨
    ∃ base i grown, inv.get? generic = some base ∧ base.arity = arguments.length ∧
      inv.specialize generic arguments = (.ok i, grown) := by
  cases hfind : inv.findKey? (.specialized generic arguments) with
  | some i =>
      -- nothing is checked now, but it was checked when the type was made
      obtain ⟨e, he, hkey⟩ := h.sound.get_of_find _ i hfind
      obtain ⟨base, hbase, harity, _⟩ := h.generic i e generic arguments he hkey
      exact Or.inr (Or.inr ⟨base, i, inv, hbase, harity, specialize_known hfind⟩)
  | none =>
      cases hbase : inv.get? generic with
      | none => exact Or.inl ⟨rfl, by simp only [specialize, hfind, hbase]⟩
      | some base =>
          by_cases harity : base.arity = arguments.length
          · exact Or.inr (Or.inr ⟨base, _, _, rfl, harity, by
              simp only [specialize, hfind, hbase, if_pos harity]
              rfl⟩)
          · exact Or.inr (Or.inl ⟨base, rfl, harity, by
              simp only [specialize, hfind, hbase, if_neg harity]⟩)

end Inventory

/-! ## Runs -/

/-- The number of type arguments that a type takes according to a log: as many as the first
registration of its signature says, and none if it is composite. -/
inductive RecordedArity (log : List Call) (i : TypeIndex) : Nat → Prop where
  | named {call : Call} {signature : String} {shape : Kind × Nat} {kind : Kind} {arity : Nat} :
      call ∈ log → call.answer = some i → call.request.registration? = some (signature, shape) →
      (registrations log).lookup signature = some (kind, arity) → RecordedArity log i arity
  | composite {call : Call} :
      call ∈ log → call.answer = some i → call.request.registration? = none →
      RecordedArity log i 0

theorem Request.registration?_eq_some {q : Request} {signature : String} {shape : Kind × Nat}
    (h : q.registration? = some (signature, shape)) : q.key = .named signature := by
  cases q with
  | register _ _ _ =>
      cases h
      rfl
  | specialize _ _ | arrayOf _ => cases h

theorem Request.registration?_eq_none {q : Request} (h : q.registration? = none)
    (signature : String) : q.key ≠ .named signature := by
  cases q with
  | register _ _ _ => cases h
  | specialize _ _ | arrayOf _ => exact TypeKey.noConfusion

namespace Catalog

variable {names : CoreNames} {log : List Call} {c grown : Catalog} {generic i : TypeIndex}
  {arguments : List TypeHandle}

theorem checked_run (h : Run names log c) : c.inventory.Checked :=
  h.log_induction (P := fun _ inv => inv.Checked) Inventory.checked_empty
    fun _ _ q ih => Inventory.checked_answer ih q

/-- A number that no call was given is free. -/
theorem unanswered_iff (h : Run names log c) :
    (∀ call ∈ log, call.answer ≠ some i) ↔ c.inventory.get? i = none := by
  have hrecorded := (traced_run h).recorded
  refine ⟨fun hall => ?_, fun hnone call hcall hanswer => ?_⟩
  · cases he : c.inventory.get? i with
    | none => rfl
    | some e =>
        obtain ⟨call, hcall, _, hanswer⟩ :=
          (hrecorded.known _ i).mp (hrecorded.sound.find_of_get i e he)
        exact absurd hanswer (hall call hcall)
  · obtain ⟨e, he, _⟩ := hrecorded.sound.get_of_find _ i
      ((hrecorded.known _ i).mpr ⟨call, hcall, rfl, hanswer⟩)
    rw [hnone] at he
    cases he

/-- **The arity of a type is the one on record.** -/
theorem recordedArity_iff (h : Run names log c) {arity : Nat} :
    RecordedArity log i arity ↔ ∃ e, c.inventory.get? i = some e ∧ e.arity = arity := by
  have hrecorded := (traced_run h).recorded
  refine ⟨?_, ?_⟩
  · intro harity
    cases harity with
    | @named call signature _ _ _ hcall hanswer hregistered hfirst =>
        have hfind := (hrecorded.known (.named signature) i).mpr
          ⟨call, hcall, Request.registration?_eq_some hregistered, hanswer⟩
        obtain ⟨e, he, _, harity⟩ := entry_of_registration h hfirst hfind
        exact ⟨e, he, harity⟩
    | @composite call hcall hanswer hregistered =>
        obtain ⟨e, he, hkey⟩ := hrecorded.sound.get_of_find _ i
          ((hrecorded.known _ i).mpr ⟨call, hcall, rfl, hanswer⟩)
        refine ⟨e, he, (checked_run h).arity i e he fun signature => ?_⟩
        rw [hkey]
        exact Request.registration?_eq_none hregistered signature
  · intro hex
    obtain ⟨e, he, rfl⟩ := hex
    obtain ⟨call, hcall, hkey, hanswer⟩ :=
      (hrecorded.known _ i).mp (hrecorded.sound.find_of_get i e he)
    cases hregistered : call.request.registration? with
    | some registration =>
        have hnamed := Request.registration?_eq_some hregistered
        exact .named hcall hanswer hregistered (first_registration h he (hkey ▸ hnamed))
    | none =>
        have hcomposite := Request.registration?_eq_none hregistered
        rw [hkey] at hcomposite
        rw [(checked_run h).arity i e he hcomposite]
        exact .composite hcall hanswer hregistered

/-- What specializing comes to in a catalog. -/
theorem specialize_cases (h : Run names log c) (generic : TypeIndex)
    (arguments : List TypeHandle) :
    (c.inventory.get? generic = none ∧
      Registry.specialize c generic arguments = (.error (.unknownType generic), c)) ∨
    (∃ base, c.inventory.get? generic = some base ∧ base.arity ≠ arguments.length ∧
      Registry.specialize c generic arguments =
        (.error (.arityMismatch base.signature base.arity arguments.length), c)) ∨
    ∃ base i grown, c.inventory.get? generic = some base ∧ base.arity = arguments.length ∧
      Registry.specialize c generic arguments = (.ok i, grown) := by
  have heq := c.specialize_eq generic arguments
  rcases Inventory.specialize_cases (checked_run h) generic arguments with
    ⟨hnone, hcase⟩ | ⟨base, hbase, harity, hcase⟩ | ⟨base, i, grown, hbase, harity, hcase⟩
  · exact Or.inl ⟨hnone, by rw [heq, hcase]⟩
  · exact Or.inr (Or.inl ⟨base, hbase, harity, by rw [heq, hcase]⟩)
  · exact Or.inr (Or.inr ⟨base, i, _, hbase, harity, by rw [heq, hcase]⟩)

/-- **A specialization that is given** has what was asked for as its parts, and is of the kind of
its generic type. -/
theorem specialize_ok (h : Run names log c)
    (hok : Registry.specialize c generic arguments = (.ok i, grown)) :
    c.Later grown ∧ grown.inventory.Sound ∧ ∃ e base, grown.inventory.get? i = some e ∧
      e.key = .specialized generic arguments ∧ c.inventory.get? generic = some base ∧
      e.kind = base.kind := by
  have hgrown : grown = (c.answer (.specialize generic arguments)).2 :=
    (congrArg Prod.snd hok).symm
  have hlater : c.Later grown := hgrown ▸ c.later_answer _
  have hchecked : grown.inventory.Checked := by
    rw [hgrown]
    exact checked_run (h.call (.specialize generic arguments))
  obtain ⟨e, he, hkey⟩ := hchecked.sound.get_of_find _ i (find_of_specialize hok)
  obtain ⟨later, hlaterBase, _, hkind⟩ := hchecked.generic i e _ _ he hkey
  refine ⟨hlater, hchecked.sound, e, later, he, hkey, ?_, hkind⟩
  -- the generic type was there before, or there would be no specialization
  rcases specialize_cases h generic arguments with
    ⟨_, hcase⟩ | ⟨_, _, _, hcase⟩ | ⟨base, _, _, hbase, _, _⟩
  · rw [hcase] at hok
    cases congrArg Prod.fst hok
  · rw [hcase] at hok
    cases congrArg Prod.fst hok
  · rw [hbase, ← (grows_later (checked_run h).sound hlater).1.get _ _ hbase, hlaterBase]

/-- **The base of enumerations can be specialized to any type,** whatever was registered under its
name. -/
theorem enumBase_specialized (hcore : names.rootObject ≠ names.enumBase) (h : Run names log c)
    (type : TypeHandle) :
    ∃ i grown, Registry.specialize c c.enumBase [type] = (.ok i, grown) := by
  obtain ⟨e, he, _, harity⟩ := enumBase_entry h
  rcases specialize_cases h c.enumBase [type] with
    ⟨hnone, _⟩ | ⟨base, hbase, hne, _⟩ | ⟨_, i, grown, _, _, hok⟩
  · rw [he] at hnone
    cases hnone
  · rw [he] at hbase
    cases hbase
    exact absurd (harity hcore) hne
  · exact ⟨i, grown, hok⟩

/-- **Its specializations are classes.** -/
theorem kind?_of_specialize_enumBase (h : Run names log c)
    (hok : Registry.specialize c c.enumBase arguments = (.ok i, grown)) :
    Registry.kind? grown i = some .classType := by
  obtain ⟨e, he, hclass, _⟩ := enumBase_entry h
  obtain ⟨_, _, specialized, base, hspecialized, _, hbase, hkind⟩ := specialize_ok h hok
  rw [he] at hbase
  cases hbase
  show (grown.inventory.get? i).map Entry.kind = _
  rw [hspecialized, Option.map_some, hkind, hclass]

/--
**Specializing is decided by what was registered first.**

A type is specialized exactly if it takes as many arguments as there are, by the first registration
of its signature; a composite type takes none. It makes no difference whether the specialization is
there already. The type is unknown exactly if no call was given its number, as no call is given the
number of a primitive type or a reserved one. Otherwise the request is refused for the number of
arguments, and no refusal changes anything.

The specialization consists of the generic type and the arguments, is of the kind of the generic
type, and is no array. So it stays in every later catalog, and so does its signature.
-/
theorem specialize_decided (h : Run names log c) (generic : TypeIndex)
    (arguments : List TypeHandle) :
    ((∃ i, (Registry.specialize c generic arguments).1 = .ok i) ↔
      RecordedArity log generic arguments.length) ∧
    ((Registry.specialize c generic arguments).1 = .error (.unknownType generic) ↔
      ∀ call ∈ log, call.answer ≠ some generic) ∧
    (generic.raw < TypeIndex.firstRegistered → ∀ call ∈ log, call.answer ≠ some generic) ∧
    (∀ cause grown, Registry.specialize c generic arguments = (.error cause, grown) → grown = c ∧
      (cause = .unknownType generic ∨ ∃ signature arity,
        Registry.signature? c generic = some signature ∧ RecordedArity log generic arity ∧
          arity ≠ arguments.length ∧
          cause = .arityMismatch signature arity arguments.length)) ∧
    ∀ i grown, Registry.specialize c generic arguments = (.ok i, grown) →
      ∀ later, grown.Later later →
        Registry.specialization? later i = some (generic, arguments) ∧
        Registry.kind? later i = Registry.kind? c generic ∧
        Registry.element? later i = none ∧
        Registry.signature? later i = Registry.signature? grown i := by
  have hcases := specialize_cases h generic arguments
  refine ⟨?_, ?_, fun hlow => ?_, fun cause grown hrefused => ?_, fun i grown hok later hlater => ?_⟩
  · rw [recordedArity_iff h]
    rcases hcases with ⟨hnone, hcase⟩ | ⟨base, hbase, hne, hcase⟩ | ⟨base, i, _, hbase, harity, hcase⟩
    · simp [hcase, hnone]
    · simp [hcase, hbase, hne]
    · simp [hcase, hbase, harity]
  · rw [unanswered_iff h]
    rcases hcases with ⟨hnone, hcase⟩ | ⟨base, hbase, _, hcase⟩ | ⟨base, i, _, hbase, _, hcase⟩
    · simp [hcase, hnone]
    · simp [hcase, hbase]
    · simp [hcase, hbase]
  · rw [unanswered_iff h, Inventory.get?, if_pos hlow]
  · rcases hcases with ⟨_, hcase⟩ | ⟨base, hbase, hne, hcase⟩ | ⟨_, _, _, _, _, hcase⟩
    · rw [hcase] at hrefused
      cases hrefused
      exact ⟨rfl, Or.inl rfl⟩
    · rw [hcase] at hrefused
      cases hrefused
      exact ⟨rfl, Or.inr ⟨base.signature, base.arity, Inventory.signature?_of_get? hbase,
        (recordedArity_iff h).mpr ⟨base, hbase, rfl⟩, hne, rfl⟩⟩
    · rw [hcase] at hrefused
      cases hrefused
  · obtain ⟨_, hsound, e, base, he, hkey, hbase, hkind⟩ := specialize_ok h hok
    have helater := (grows_later hsound hlater).1.get i e he
    have hsignature := (Inventory.signature?_of_get? helater).trans
      (Inventory.signature?_of_get? he).symm
    refine ⟨?_, ?_, ?_, hsignature⟩
    · simp [Registry.specialization?, Inventory.specialization?, helater, hkey]
    · simp [Registry.kind?, Inventory.kind?, helater, hbase, hkind]
    · simp [Registry.element?, Inventory.element?, helater, hkey]

/-- `java/util/List` is registered with one type parameter, then again with two. It takes one. The
last of the reserved numbers is unknown. -/
theorem specialize_twice_registered : ∃ log c, Run {} log c ∧
    log.map Call.answer = [some ⟨16⟩, some ⟨17⟩, some ⟨18⟩, some ⟨18⟩] ∧
    (∃ i, (Registry.specialize c ⟨18⟩ [.canonical ⟨16⟩]).1 = .ok i) ∧
    (Registry.specialize c ⟨15⟩ []).1 = .error (.unknownType ⟨15⟩) := by
  have hseed := @Run.seed {} _ _ _ _ rfl rfl
  have hrun := (hseed.call (.register "java/util/List" .interfaceType 1)).call
    (.register "java/util/List" .interfaceType 2)
  obtain ⟨hspecialized, _⟩ := specialize_decided hrun ⟨18⟩ [.canonical ⟨16⟩]
  obtain ⟨_, hunknown, hreserved, _⟩ := specialize_decided hrun ⟨15⟩ []
  have hone := hspecialized.mpr
    (.named (List.mem_append_right _ (List.mem_singleton_self _)) rfl rfl rfl)
  exact ⟨_, _, hrun, rfl, hone, hunknown.mpr (hreserved (by decide))⟩

end Catalog

end ClassTable
