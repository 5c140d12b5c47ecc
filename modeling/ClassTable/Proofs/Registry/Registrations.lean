import ClassTable.Proofs.Registry.Growth

/-!
# The first registration decides

A signature may be registered any number of times, each time as something else. What the catalog
has is what the first registration made of it, and of that a log keeps a record: the registrations
in order, in which a signature is looked up from the front (`lookup_registrations`).

The two types that every program relies on are registered like any others, only before all others.
So they are what they were at the start whatever is registered under their names later on.
-/

namespace ClassTable

/-- The signature, the kind and the arity of a registration. -/
def Request.registration? : Request → Option (String × Kind × Nat)
  | .register signature kind arity => some (signature, kind, arity)
  | .specialize _ _ => none
  | .arrayOf _ => none

/-- What was registered. -/
def registrations (log : List Call) : List (String × Kind × Nat) :=
  log.filterMap fun call => call.request.registration?

theorem registrations_append (log later : List Call) :
    registrations (log ++ later) = registrations log ++ registrations later :=
  List.filterMap_append

theorem mem_registrations {log : List Call} {signature : String} {shape : Kind × Nat}
    (h : (registrations log).lookup signature = some shape) :
    (signature, shape) ∈ registrations log := by
  obtain ⟨before, after, hlog, _⟩ := List.lookup_eq_some_iff.mp h
  rw [hlog]
  exact List.mem_append_right _ List.mem_cons_self

namespace Inventory

variable {inv : Inventory} {e : Entry} {signature : String}

/-- The type registered under a signature. -/
def named? (inv : Inventory) (signature : String) : Option Entry :=
  (inv.findKey? (.named signature)).bind inv.get?

theorem get?_eq_named? {i : TypeIndex}
    (hfind : inv.findKey? (.named signature) = some i) : inv.get? i = inv.named? signature := by
  rw [named?, hfind, Option.bind_some]

theorem named?_push (h : inv.Sound) (signature : String) :
    (inv.push e).2.named? signature =
      if e.key = .named signature then some e else inv.named? signature := by
  unfold named?
  rw [findKey?_push]
  split
  · rw [Option.bind_some, get?_push_next]
  · cases hfind : inv.findKey? (.named signature) with
    | none => rfl
    | some i =>
        obtain ⟨known, hknown, _⟩ := h.get_of_find _ i hfind
        rw [Option.bind_some, Option.bind_some, hknown, get?_push_of_get? hknown]

/-- A request for another key does not register the signature. -/
theorem lookup_registration_of_ne {q : Request} (h : q.key ≠ .named signature) :
    q.registration?.toList.lookup signature = none := by
  cases q with
  | register other kind arity =>
      have hne : (signature == other) = false :=
        beq_false_of_ne fun heq => h (congrArg TypeKey.named heq.symm)
      simp [Request.registration?, List.lookup_cons, hne]
  | specialize _ _ | arrayOf _ => rfl

/-- **A registration counts if the signature was free.** No other request registers anything. -/
theorem named?_answer (h : inv.Sound) (q : Request) (signature : String) :
    ((inv.answer q).2.named? signature).map (fun e => (e.kind, e.arity)) =
      ((inv.named? signature).map fun e => (e.kind, e.arity)).or
        (q.registration?.toList.lookup signature) := by
  by_cases hkey : q.key = .named signature
  · cases q with
    | specialize _ _ | arrayOf _ => cases hkey
    | register other kind arity =>
        cases hkey
        rcases answer_cases h (.register signature kind arity) with
          ⟨i, hi, hanswer⟩ | ⟨_, hanswer⟩ | ⟨e, hmakes, hnew, hanswer⟩
        · obtain ⟨known, hknown, _⟩ := h.get_of_find _ i hi
          rw [get?_eq_named? hi] at hknown
          rw [hanswer, hknown]
          rfl
        · cases congrArg Prod.fst hanswer
        · have hfree : inv.named? signature = none := by
            rw [named?, show inv.findKey? (.named signature) = none from hnew, Option.bind_none]
          cases hmakes
          rw [hanswer, named?_push h, if_pos rfl, hfree]
          simp [Request.registration?]
  · rw [lookup_registration_of_ne hkey, Option.or_none]
    rcases keeps_or_pushes h q with hkept | ⟨e, hmakes, _, hpushed⟩
    · rw [hkept]
    · rw [hpushed, named?_push h, if_neg (hmakes.key ▸ hkey)]

end Inventory

namespace Catalog

variable {names : CoreNames} {log : List Call} {c : Catalog} {signature : String}

/-- **A signature is what its first registration made of it.** -/
theorem lookup_registrations (h : Run names log c) (signature : String) :
    (registrations log).lookup signature =
      (c.inventory.named? signature).map fun e => (e.kind, e.arity) := by
  refine (h.log_induction (P := fun log inv => inv.Sound ∧
    (registrations log).lookup signature =
      (inv.named? signature).map fun e => (e.kind, e.arity))
    ⟨Inventory.sound_empty, by simp [registrations, Inventory.named?, Inventory.findKey?]⟩ ?_).2
  intro log inv q ih
  refine ⟨Inventory.sound_answer ih.1 q, ?_⟩
  have hone : registrations [⟨q, inv, (inv.answer q).1, (inv.answer q).2⟩] =
      q.registration?.toList := by
    cases q <;> rfl
  rw [Inventory.named?_answer ih.1, registrations_append, List.lookup_append, ih.2, hone]

/-- The type that is there is the one that was registered first. -/
theorem first_registration (h : Run names log c) {i : TypeIndex} {e : Entry}
    (he : c.inventory.get? i = some e) (hkey : e.key = .named signature) :
    (registrations log).lookup signature = some (e.kind, e.arity) := by
  have hs := (traced_run h).recorded.sound
  have hfind := hs.find_of_get i e he
  rw [hkey] at hfind
  rw [lookup_registrations h, ← Inventory.get?_eq_named? hfind, he, Option.map_some]

/-- So a type with that signature can be read off the log. -/
theorem entry_of_registration (h : Run names log c) {i : TypeIndex} {kind : Kind} {arity : Nat}
    (hfirst : (registrations log).lookup signature = some (kind, arity))
    (hfind : c.inventory.findKey? (.named signature) = some i) :
    ∃ e, c.inventory.get? i = some e ∧ e.kind = kind ∧ e.arity = arity := by
  rw [lookup_registrations h, ← Inventory.get?_eq_named? hfind] at hfirst
  obtain ⟨e, he, hshape⟩ := Option.map_eq_some_iff.mp hfirst
  exact ⟨e, he, congrArg Prod.fst hshape, congrArg Prod.snd hshape⟩

/-! ## The types that every program relies on -/

/-- Every log starts with these two. -/
theorem registrations_of_run (h : Run names log c) : ∃ later, registrations log =
    (names.rootObject, .classType, 0) :: (names.enumBase, .classType, 1) :: later := by
  induction h with
  | seed _ _ => exact ⟨[], rfl⟩
  | call q _ ih =>
      obtain ⟨later, hlater⟩ := ih
      rw [registrations_append, hlater]
      exact ⟨_, rfl⟩

/-- They have the numbers that they were given at the start. -/
theorem core_known (h : Run names log c) :
    c.inventory.findKey? (.named names.rootObject) = some c.rootObject ∧
      c.inventory.findKey? (.named names.enumBase) = some c.enumBase := by
  induction h with
  | @seed root enum first second hroot henum =>
      have hknown := (traced_run (Run.seed hroot henum)).recorded.known
      have hcore : (ofCoreNames names).rootObject = root ∧ (ofCoreNames names).enumBase = enum := by
        simp only [ofCoreNames, hroot, henum, and_self]
      rw [hcore.1, hcore.2]
      exact ⟨(hknown _ _).mpr ⟨_, List.mem_cons_self, rfl, rfl⟩,
        (hknown _ _).mpr ⟨_, List.mem_cons_of_mem _ List.mem_cons_self, rfl, rfl⟩⟩
  | @call log c q hrun ih =>
      have hgrows := grows_answer (traced_run hrun).recorded.sound q
      rw [hgrows.rootObject, hgrows.enumBase]
      exact ⟨hgrows.find _ _ ih.1, hgrows.find _ _ ih.2⟩

/-- **The root object is a class.** -/
theorem kind?_rootObject (h : Run names log c) :
    Registry.kind? c c.rootObject = some .classType := by
  obtain ⟨later, hlater⟩ := registrations_of_run h
  have hfirst : (registrations log).lookup names.rootObject = some (.classType, 0) := by
    rw [hlater, List.lookup_cons_self]
  obtain ⟨e, he, hkind, _⟩ := entry_of_registration h hfirst (core_known h).1
  show (c.inventory.get? c.rootObject).map Entry.kind = _
  rw [he, Option.map_some, hkind]

/-- **The base of enumerations is a class.** It takes one type argument, unless it has the name of
the root object and so is the root object. -/
theorem enumBase_entry (h : Run names log c) :
    ∃ e, c.inventory.get? c.enumBase = some e ∧ e.kind = .classType ∧
      (names.rootObject ≠ names.enumBase → e.arity = 1) := by
  obtain ⟨later, hlater⟩ := registrations_of_run h
  have hfirst : (registrations log).lookup names.enumBase =
      some (.classType, if names.rootObject = names.enumBase then 0 else 1) := by
    rw [hlater, List.lookup_cons]
    split_ifs with hsame
    · rw [hsame, beq_self_eq_true]
    · rw [beq_false_of_ne (Ne.symm hsame), List.lookup_cons_self]
  obtain ⟨e, he, hkind, harity⟩ := entry_of_registration h hfirst (core_known h).2
  exact ⟨e, he, hkind, fun hne => by rw [harity, if_neg hne]⟩

end Catalog

end ClassTable
