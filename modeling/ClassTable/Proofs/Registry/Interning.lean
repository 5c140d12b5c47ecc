import ClassTable.Registry.Catalog
import Mathlib.Data.Finset.Card
import Mathlib.Data.Finset.Dedup

/-!
# Interning is faithful

A catalog answers three sorts of requests by a number: registrations, specializations
and array types. Each request has a key, and the answer is the number of its key.

What an inventory does is one of three things (`answer_cases`). The key is there, and
nothing happens. The request is refused, and nothing happens either. Or the key is new,
and a type with that key is pushed under the next number.

The entries and the index of a *sound* inventory say the same: the number of a key leads
to the entry of that key, and back. A run keeps a log of its calls. That the numbers of
keys are those that the log shows, and that there are as many types as keys in the log,
is what the run keeps true (`Recorded`).
-/

namespace ClassTable

/-- What a catalog is asked to number. -/
inductive Request where
  | register (signature : String) (kind : Kind) (arity : Nat)
  | specialize (generic : TypeIndex) (arguments : List TypeHandle)
  | arrayOf (element : TypeHandle)

/-- What the answer depends on. Kind and arity of a registration do not matter. -/
def Request.key : Request → TypeKey
  | .register signature _ _ => .named signature
  | .specialize generic arguments => .specialized generic arguments
  | .arrayOf element => .array element

namespace Inventory

/-- The number given to a request, if it is not refused, and the inventory afterwards. -/
def answer (inv : Inventory) : Request → Option TypeIndex × Inventory
  | .register signature kind arity =>
    let (i, grown) := inv.register signature kind arity
    (some i, grown)
  | .specialize generic arguments =>
    let (answer, grown) := inv.specialize generic arguments
    (answer.toOption, grown)
  | .arrayOf element => inv.arrayOf element

/-- The entries and the index say the same. -/
structure Sound (inv : Inventory) : Prop where
  /-- The number of a key leads to the entry of that key. -/
  get_of_find : ∀ key i, inv.findKey? key = some i → ∃ e, inv.get? i = some e ∧ e.key = key
  /-- Each entry has the number of its key. -/
  find_of_get : ∀ i e, inv.get? i = some e → inv.findKey? e.key = some i
  /-- There are no arrays of `void`. -/
  no_void : inv.findKey? (.array .void) = none

theorem Sound.key_inj {inv : Inventory} (h : inv.Sound) {k k' : TypeKey} {i : TypeIndex}
    (hk : inv.findKey? k = some i) (hk' : inv.findKey? k' = some i) : k = k' := by
  obtain ⟨e, he, hkey⟩ := h.get_of_find k i hk
  obtain ⟨e', he', hkey'⟩ := h.get_of_find k' i hk'
  rw [he] at he'
  cases he'
  rw [← hkey, hkey']

theorem get?_eq_some {inv : Inventory} {i : TypeIndex} {e : Entry} (h : inv.get? i = some e) :
    TypeIndex.firstRegistered ≤ i.raw ∧ i.raw < inv.next.raw := by
  unfold get? at h
  split at h
  · exact absurd h (by simp)
  · obtain ⟨hlt, _⟩ := Array.getElem?_eq_some_iff.mp h
    simp only [next, size]
    omega

/-- Primitive types are not in an inventory. -/
theorem get?_of_isPrimitive (inv : Inventory) {i : TypeIndex} (h : i.isPrimitive = true) :
    inv.get? i = none := by
  have hlt : i.raw < 9 := of_decide_eq_true h
  rw [get?, if_pos (Nat.lt_of_lt_of_le hlt (by decide))]

/-- Only an array type has an element type. -/
theorem element?_eq_some_iff {inv : Inventory} {i : TypeIndex} {element : TypeHandle} :
    inv.element? i = some element ↔ ∃ e, inv.get? i = some e ∧ e.key = .array element := by
  unfold element?
  refine ⟨fun h => ?_, ?_⟩
  · split at h
    · rename_i hkey
      cases h
      exact Option.map_eq_some_iff.mp hkey
    · cases h
  · rintro ⟨e, he, hkey⟩
    simp only [he, Option.map_some, hkey]

/-- Only a specialization can be taken apart. -/
theorem specialization?_eq_some_iff {inv : Inventory} {i generic : TypeIndex}
    {arguments : List TypeHandle} :
    inv.specialization? i = some (generic, arguments) ↔
      ∃ e, inv.get? i = some e ∧ e.key = .specialized generic arguments := by
  unfold specialization?
  refine ⟨fun h => ?_, ?_⟩
  · split at h
    · rename_i hkey
      cases h
      exact Option.map_eq_some_iff.mp hkey
    · cases h
  · rintro ⟨e, he, hkey⟩
    simp only [he, Option.map_some, hkey]

/-- A type is not taken apart in two ways. -/
theorem element?_eq_none {inv : Inventory} {i generic : TypeIndex} {arguments : List TypeHandle}
    (h : inv.specialization? i = some (generic, arguments)) : inv.element? i = none := by
  obtain ⟨e, he, hkey⟩ := specialization?_eq_some_iff.mp h
  simp only [element?, he, Option.map_some, hkey]

/-- Numbers of known keys are not primitive, not reserved, and given out already. -/
theorem Sound.find_bounds {inv : Inventory} (h : inv.Sound) {key : TypeKey} {i : TypeIndex}
    (hk : inv.findKey? key = some i) :
    TypeIndex.firstRegistered ≤ i.raw ∧ i.raw < inv.next.raw := by
  obtain ⟨e, he, _⟩ := h.get_of_find key i hk
  exact get?_eq_some he

theorem findKey?_push (inv : Inventory) (e : Entry) (key : TypeKey) :
    (inv.push e).2.findKey? key = if e.key = key then some inv.next else inv.findKey? key := by
  split
  · rename_i heq
    rw [← heq, findKey?_push_self]
  · rename_i hne
    rw [findKey?_push_of_ne inv hne]

theorem get?_push (inv : Inventory) (e : Entry) (i : TypeIndex) :
    (inv.push e).2.get? i = if i = inv.next then some e else inv.get? i := by
  by_cases hi : i = inv.next
  · rw [if_pos hi, hi, get?_push_next]
  · rw [if_neg hi]
    cases hget : inv.get? i with
    | some known => exact get?_push_of_get? hget
    | none =>
        cases hpush : (inv.push e).2.get? i with
        | none => rfl
        | some late =>
            -- an entry that was not there before can only be the last one
            have hbounds := get?_eq_some hpush
            have hnext : (inv.push e).2.next.raw = inv.next.raw + 1 := by
              simp only [next, size_push]
              omega
            have hne : i.raw ≠ inv.next.raw := fun h => hi (TypeIndex.ext h)
            unfold get? at hget
            rw [if_neg (by omega), Array.getElem?_eq_none_iff] at hget
            simp only [next, size] at hbounds hnext hne
            omega

theorem sound_empty : ({} : Inventory).Sound where
  get_of_find := fun key i h => absurd h (by simp [findKey?])
  find_of_get := fun i e h => absurd h (by simp [get?])
  no_void := by simp [findKey?]

theorem sound_push {inv : Inventory} (h : inv.Sound) {e : Entry}
    (hnew : inv.findKey? e.key = none) (hvoid : e.key ≠ .array .void) : (inv.push e).2.Sound where
  get_of_find := by
    intro key i hk
    rw [findKey?_push] at hk
    split at hk
    · rename_i heq
      cases hk
      exact ⟨e, get?_push_next inv e, heq⟩
    · obtain ⟨known, hget, hkey⟩ := h.get_of_find key i hk
      exact ⟨known, get?_push_of_get? hget, hkey⟩
  find_of_get := by
    intro i known hget
    rw [get?_push] at hget
    rw [findKey?_push]
    split at hget
    · rename_i hi
      cases hget
      rw [if_pos rfl, hi]
    · have hfind := h.find_of_get i known hget
      have hne : e.key ≠ known.key := fun heq => by
        rw [← heq, hnew] at hfind
        exact absurd hfind (by simp)
      rw [if_neg hne, hfind]
  no_void := by rw [findKey?_push, if_neg hvoid, h.no_void]

/-- The type that comes of a request for a new key. -/
inductive Makes (inv : Inventory) : Request → Entry → Prop where
  | named (signature : String) (kind : Kind) (arity : Nat) :
      Makes inv (.register signature kind arity) ⟨.named signature, signature, kind, arity⟩
  | specialized {generic : TypeIndex} {arguments : List TypeHandle} {base : Entry} :
      inv.get? generic = some base → base.arity = arguments.length →
      Makes inv (.specialize generic arguments) (inv.specialization generic base arguments)
  | array {element : TypeHandle} : element ≠ .void →
      Makes inv (.arrayOf element) (inv.arrayEntry element)

theorem Makes.key {inv : Inventory} {q : Request} {e : Entry} (h : inv.Makes q e) :
    e.key = q.key := by
  cases h <;> rfl

theorem Makes.key_ne_void {inv : Inventory} {q : Request} {e : Entry} (h : inv.Makes q e) :
    e.key ≠ .array .void := by
  cases h with
  | named | specialized => exact TypeKey.noConfusion
  | array hne => exact fun heq => hne (TypeKey.array.inj heq)

/-- A type that can be made for a new key is made. -/
theorem answer_of_makes {inv : Inventory} {q : Request} {e : Entry} (h : inv.Makes q e)
    (hnew : inv.findKey? q.key = none) : inv.answer q = (some inv.next, (inv.push e).2) := by
  cases h with
  | named signature kind arity =>
      have hfind : inv.findKey? (.named signature) = none := hnew
      simp [answer, register, intern, hfind, push]
  | @specialized generic arguments base hbase harity =>
      have hfind : inv.findKey? (.specialized generic arguments) = none := hnew
      simp [answer, specialize, hfind, hbase, harity, push, Except.toOption]
  | @array element hne =>
      have hfind : inv.findKey? (.array element) = none := hnew
      simp [answer, arrayOf, hne, intern, arrayEntry, hfind, push]

/-- **What a request can do.** Its key is there, or it is refused, or its key is new. -/
theorem answer_cases {inv : Inventory} (h : inv.Sound) (q : Request) :
    (∃ i, inv.findKey? q.key = some i ∧ inv.answer q = (some i, inv)) ∨
    (inv.findKey? q.key = none ∧ inv.answer q = (none, inv)) ∨
    ∃ e : Entry, inv.Makes q e ∧ inv.findKey? q.key = none ∧
      inv.answer q = (some inv.next, (inv.push e).2) := by
  cases q with
  | register signature kind arity =>
      cases hk : inv.findKey? (.named signature) with
      | some i => exact Or.inl ⟨i, hk, by simp [answer, register, intern, hk]⟩
      | none => exact Or.inr (Or.inr ⟨_, .named _ _ _, hk, answer_of_makes (.named _ _ _) hk⟩)
  | specialize generic arguments =>
      cases hk : inv.findKey? (.specialized generic arguments) with
      | some i => exact Or.inl ⟨i, hk, by simp [answer, specialize, hk, Except.toOption]⟩
      | none =>
          cases hbase : inv.get? generic with
          | none =>
              exact Or.inr (Or.inl ⟨hk, by simp [answer, specialize, hk, hbase, Except.toOption]⟩)
          | some base =>
              by_cases harity : base.arity = arguments.length
              · have hmakes := Makes.specialized hbase harity
                exact Or.inr (Or.inr ⟨_, hmakes, hk, answer_of_makes hmakes hk⟩)
              · exact Or.inr (Or.inl
                  ⟨hk, by simp [answer, specialize, hk, hbase, harity, Except.toOption]⟩)
  | arrayOf element =>
      by_cases hvoid : element = .void
      · subst hvoid
        exact Or.inr (Or.inl ⟨h.no_void, by simp [answer, arrayOf]⟩)
      · cases hk : inv.findKey? (.array element) with
        | some i =>
            exact Or.inl ⟨i, hk, by simp [answer, arrayOf, hvoid, intern, arrayEntry, hk]⟩
        | none =>
            exact Or.inr (Or.inr ⟨_, .array hvoid, hk, answer_of_makes (.array hvoid) hk⟩)

/-- **A request leaves the types as they are, or adds one** that has a new key. -/
theorem keeps_or_pushes {inv : Inventory} (h : inv.Sound) (q : Request) :
    (inv.answer q).2 = inv ∨
      ∃ e, inv.Makes q e ∧ inv.findKey? q.key = none ∧ (inv.answer q).2 = (inv.push e).2 := by
  rcases answer_cases h q with ⟨_, _, hanswer⟩ | ⟨_, hanswer⟩ | ⟨e, hmakes, hnew, hanswer⟩
  · exact Or.inl (congrArg Prod.snd hanswer)
  · exact Or.inl (congrArg Prod.snd hanswer)
  · exact Or.inr ⟨e, hmakes, hnew, congrArg Prod.snd hanswer⟩

theorem sound_answer {inv : Inventory} (h : inv.Sound) (q : Request) : (inv.answer q).2.Sound := by
  rcases keeps_or_pushes h q with hkept | ⟨e, hmakes, hnew, hpushed⟩
  · rwa [hkept]
  · rw [hpushed]
    exact sound_push h (hmakes.key ▸ hnew) hmakes.key_ne_void

end Inventory

/-! ## Runs -/

/-- A request together with what came of it. -/
structure Call where
  /-- What was asked. -/
  request : Request
  /-- The types before. -/
  before : Inventory
  /-- The number given, unless the request was refused. -/
  answer : Option TypeIndex
  /-- The types afterwards. -/
  after : Inventory

/-- The key that a call gave the number of. -/
def Call.numbered? (call : Call) : Option TypeKey := call.answer.map fun _ => call.request.key

/-- The keys that a log shows the numbers of. -/
def internedKeys (log : List Call) : Finset TypeKey := (log.filterMap Call.numbered?).toFinset

theorem mem_internedKeys {log : List Call} {key : TypeKey} :
    key ∈ internedKeys log ↔ ∃ call ∈ log, call.request.key = key ∧ ∃ i, call.answer = some i := by
  simp only [internedKeys, List.mem_toFinset, List.mem_filterMap, Call.numbered?,
    Option.map_eq_some_iff]
  refine ⟨?_, ?_⟩
  · intro hex
    obtain ⟨call, hcall, i, hi, hkey⟩ := hex
    exact ⟨call, hcall, hkey, i, hi⟩
  · intro hex
    obtain ⟨call, hcall, hkey, i, hi⟩ := hex
    exact ⟨call, hcall, i, hi, hkey⟩

theorem internedKeys_concat (log : List Call) (call : Call) :
    internedKeys (log ++ [call]) =
      if call.answer.isSome then insert call.request.key (internedKeys log)
      else internedKeys log := by
  ext key
  cases ha : call.answer with
  | none => simp [internedKeys, Call.numbered?, ha]
  | some i => simp [internedKeys, Call.numbered?, ha, eq_comm]

namespace Catalog

/-- The number given to a request, if it is not refused, and the catalog afterwards. -/
def answer (c : Catalog) : Request → Option TypeIndex × Catalog
  | .register signature kind arity =>
    let (i, grown) := c.register signature kind arity
    (some i, grown)
  | .specialize generic arguments =>
    let (answer, grown) := Registry.specialize c generic arguments
    (answer.toOption, grown)
  | .arrayOf element => Registry.arrayOf c element

theorem answer_eq (c : Catalog) (q : Request) :
    c.answer q = ((c.inventory.answer q).1, { c with inventory := (c.inventory.answer q).2 }) := by
  cases q <;> rfl

/-- The log of a run that starts with the two types that every program relies on. Registering
these are the first two calls. -/
inductive Run (names : CoreNames) : List Call → Catalog → Prop where
  | seed {root enum : TypeIndex} {first second : Inventory} :
      ({} : Inventory).register names.rootObject .classType 0 = (root, first) →
      first.register names.enumBase .classType 1 = (enum, second) →
      Run names [⟨.register names.rootObject .classType 0, {}, some root, first⟩,
        ⟨.register names.enumBase .classType 1, first, some enum, second⟩] (ofCoreNames names)
  | call {log : List Call} {c : Catalog} (q : Request) : Run names log c →
      Run names (log ++ [⟨q, c.inventory, (c.answer q).1, (c.answer q).2.inventory⟩])
        (c.answer q).2

/-- The catalogs that a run leads to. -/
def Reachable (c : Catalog) : Prop := ∃ names log, Run names log c

end Catalog

/-- The log shows what the inventory knows. -/
structure Recorded (log : List Call) (inv : Inventory) : Prop where
  /-- The entries and the index say the same. -/
  sound : inv.Sound
  /-- Keys have the numbers that the log shows. -/
  known : ∀ key i, inv.findKey? key = some i ↔
    ∃ call ∈ log, call.request.key = key ∧ call.answer = some i
  /-- There are as many types as keys. -/
  counted : inv.size = (internedKeys log).card

theorem Recorded.mem_internedKeys_iff {log : List Call} {inv : Inventory} (h : Recorded log inv)
    {key : TypeKey} : key ∈ internedKeys log ↔ ∃ i, inv.findKey? key = some i := by
  rw [mem_internedKeys]
  refine ⟨?_, ?_⟩
  · intro hex
    obtain ⟨call, hcall, hkey, i, hi⟩ := hex
    exact ⟨i, (h.known key i).mpr ⟨call, hcall, hkey, hi⟩⟩
  · intro hex
    obtain ⟨i, hi⟩ := hex
    obtain ⟨call, hcall, hkey, ha⟩ := (h.known key i).mp hi
    exact ⟨call, hcall, hkey, i, ha⟩

theorem recorded_init : Recorded [] {} where
  sound := Inventory.sound_empty
  known := fun key i => by simp [Inventory.findKey?]
  counted := rfl

theorem recorded_step {log : List Call} {inv : Inventory} (h : Recorded log inv) (q : Request) :
    Recorded (log ++ [⟨q, inv, (inv.answer q).1, (inv.answer q).2⟩]) (inv.answer q).2 := by
  refine ⟨Inventory.sound_answer h.sound q, ?_, ?_⟩
  · intro key i
    simp only [List.mem_append, List.mem_singleton, or_and_right, exists_or, exists_eq_left]
    rcases Inventory.answer_cases h.sound q with
      ⟨j, hj, hanswer⟩ | ⟨_, hanswer⟩ | ⟨e, hmakes, hnew, hanswer⟩
    · rw [hanswer, h.known]
      refine ⟨Or.inl, fun hcall => hcall.elim id ?_⟩
      intro hex
      obtain ⟨rfl, hij⟩ := hex
      cases hij
      exact (h.known _ _).mp hj
    · rw [hanswer, h.known]
      simp
    · rw [hanswer, Inventory.findKey?_push, hmakes.key, ← h.known]
      by_cases hq : q.key = key
      · rw [if_pos hq, ← hq, hnew]
        simp
      · rw [if_neg hq]
        simp [hq]
  · rw [internedKeys_concat]
    rcases Inventory.answer_cases h.sound q with
      ⟨j, hj, hanswer⟩ | ⟨_, hanswer⟩ | ⟨e, _, hnew, hanswer⟩
    · have hmem := h.mem_internedKeys_iff.mpr ⟨j, hj⟩
      simp only [hanswer, Option.isSome_some, if_true]
      rw [Finset.insert_eq_of_mem hmem, h.counted]
    · simp only [hanswer, Option.isSome_none, Bool.false_eq_true, if_false]
      exact h.counted
    · have hmem : q.key ∉ internedKeys log := by
        rw [h.mem_internedKeys_iff, hnew]
        simp
      simp only [hanswer, Option.isSome_some, if_true]
      rw [Finset.card_insert_of_notMem hmem, Inventory.size_push, h.counted]

/-- Every call of a log was answered in the light of the calls before it. -/
structure Traced (log : List Call) (inv : Inventory) : Prop where
  /-- The log shows what the inventory knows. -/
  recorded : Recorded log inv
  /-- So it was before each call, and the call was answered by the inventory of then. -/
  calls : ∀ earlier call later, log = earlier ++ call :: later →
    Recorded earlier call.before ∧
      call.before.answer call.request = (call.answer, call.after)

theorem traced_init : Traced [] {} :=
  ⟨recorded_init, fun earlier call later h => absurd h (by simp)⟩

theorem traced_step {log : List Call} {inv : Inventory} (h : Traced log inv) (q : Request) :
    Traced (log ++ [⟨q, inv, (inv.answer q).1, (inv.answer q).2⟩]) (inv.answer q).2 := by
  refine ⟨recorded_step h.recorded q, ?_⟩
  intro earlier call later hsplit
  rcases List.eq_nil_or_concat later with rfl | ⟨later, last, rfl⟩
  · obtain ⟨rfl, hcall⟩ := List.append_inj' hsplit rfl
    cases hcall
    exact ⟨h.recorded, rfl⟩
  · rw [List.concat_eq_append, ← List.cons_append, ← List.append_assoc] at hsplit
    obtain ⟨hlog, _⟩ := List.append_inj' hsplit rfl
    exact h.calls earlier call later hlog

/-- **Induction along a run.** The first two types are registered like any other, so it is
enough to look at single requests. -/
theorem Catalog.Run.log_induction {P : List Call → Inventory → Prop} (init : P [] {})
    (step : ∀ log inv q, P log inv →
      P (log ++ [⟨q, inv, (inv.answer q).1, (inv.answer q).2⟩]) (inv.answer q).2)
    {names : CoreNames} {log : List Call} {c : Catalog} (h : Catalog.Run names log c) :
    P log c.inventory := by
  induction h with
  | @seed root enum first second hroot henum =>
      have hfirst := step _ _ (.register names.rootObject .classType 0) init
      simp only [Inventory.answer, hroot] at hfirst
      have hsecond := step _ _ (.register names.enumBase .classType 1) hfirst
      simp only [Inventory.answer, henum] at hsecond
      have hinventory : (Catalog.ofCoreNames names).inventory = second := by
        simp only [Catalog.ofCoreNames, hroot, henum]
      rw [hinventory]
      exact hsecond
  | @call log c q _ ih =>
      rw [Catalog.answer_eq]
      exact step log c.inventory q ih

theorem traced_run {names : CoreNames} {log : List Call} {c : Catalog}
    (h : Catalog.Run names log c) : Traced log c.inventory :=
  h.log_induction traced_init fun _ _ q ih => traced_step ih q

/-- **The entries and the index of every reachable catalog say the same.** -/
theorem Catalog.sound_reachable {c : Catalog} (h : c.Reachable) : c.inventory.Sound := by
  obtain ⟨_, _, hrun⟩ := h
  exact (traced_run hrun).recorded.sound

/-- The number of a new key tells how many keys there were before. -/
theorem Recorded.new_number {log : List Call} {inv : Inventory} (h : Recorded log inv)
    {q : Request} (hnew : q.key ∉ internedKeys log) {i : TypeIndex}
    (hi : (inv.answer q).1 = some i) :
    i.raw = TypeIndex.firstRegistered + (internedKeys log).card := by
  rw [h.mem_internedKeys_iff] at hnew
  rcases Inventory.answer_cases h.sound q with
    ⟨j, hj, _⟩ | ⟨_, hanswer⟩ | ⟨e, _, _, hanswer⟩
  · exact absurd ⟨j, hj⟩ hnew
  · rw [hanswer] at hi
    exact absurd hi (by simp)
  · rw [hanswer] at hi
    cases hi
    rw [← h.counted]
    rfl

/-- With a new key a request is answered if there is a type to be made, and else changes nothing. -/
theorem Recorded.new_answered {log : List Call} {inv : Inventory} (h : Recorded log inv)
    {q : Request} (hnew : q.key ∉ internedKeys log) :
    ((∃ i, (inv.answer q).1 = some i) ↔ ∃ e, inv.Makes q e) ∧
      ((inv.answer q).1 = none → (inv.answer q).2 = inv) := by
  rw [h.mem_internedKeys_iff] at hnew
  rcases Inventory.answer_cases h.sound q with
    ⟨j, hj, _⟩ | ⟨hfind, hanswer⟩ | ⟨e, hmakes, _, hanswer⟩
  · exact absurd ⟨j, hj⟩ hnew
  · refine ⟨⟨fun hex => ?_, fun hex => ?_⟩, fun _ => by rw [hanswer]⟩
    · obtain ⟨i, hi⟩ := hex
      rw [hanswer] at hi
      cases hi
    · obtain ⟨e, hmakes⟩ := hex
      exact ⟨_, congrArg Prod.fst (Inventory.answer_of_makes hmakes hfind)⟩
  · rw [hanswer]
    exact ⟨⟨fun _ => ⟨e, hmakes⟩, fun _ => ⟨_, rfl⟩⟩, fun hnone => by cases hnone⟩

/-- A known key has its number already. -/
theorem Recorded.known_unchanged {log : List Call} {inv : Inventory} (h : Recorded log inv)
    {q : Request} (hknown : q.key ∈ internedKeys log) :
    (∃ i, (inv.answer q).1 = some i) ∧ (inv.answer q).2 = inv := by
  obtain ⟨i, hi⟩ := h.mem_internedKeys_iff.mp hknown
  rcases Inventory.answer_cases h.sound q with
    ⟨j, _, hanswer⟩ | ⟨hnone, _⟩ | ⟨_, _, hnone, _⟩
  · rw [hanswer]
    exact ⟨⟨j, rfl⟩, rfl⟩
  · rw [hnone] at hi
    exact absurd hi (by simp)
  · rw [hnone] at hi
    exact absurd hi (by simp)

/--
**Interning is faithful.**

In the log of any run, two calls that were given numbers were given the same number
exactly if their keys are the same. A call with a key that was numbered before is given
a number and changes nothing. With any other key it is given one exactly if there is a type
to be made: for a registration always, for an array unless its elements would be `void`,
for a specialization if the generic type is known and takes as many arguments as there are.
The number then tells how many keys were numbered before, counted from sixteen, and a refused
call changes nothing. So no number is primitive or reserved.
-/
theorem interning_faithful {names : CoreNames} {log : List Call} {c : Catalog}
    (h : Catalog.Run names log c) :
    (∀ a ∈ log, ∀ b ∈ log, ∀ i j, a.answer = some i → b.answer = some j →
      (i = j ↔ a.request.key = b.request.key)) ∧
    (∀ earlier call later, log = earlier ++ call :: later →
      if call.request.key ∈ internedKeys earlier then
        (∃ i, call.answer = some i) ∧ call.after = call.before
      else
        ((∃ i, call.answer = some i) ↔ ∃ e, call.before.Makes call.request e) ∧
        (call.answer = none → call.after = call.before) ∧
        ∀ i, call.answer = some i → i.raw = 16 + (internedKeys earlier).card) ∧
    ∀ call ∈ log, ∀ i, call.answer = some i → 16 ≤ i.raw := by
  have htraced := traced_run h
  have hrecorded := htraced.recorded
  refine ⟨?_, ?_, ?_⟩
  · intro a ha b hb i j hi hj
    have hai := (hrecorded.known a.request.key i).mpr ⟨a, ha, rfl, hi⟩
    have hbj := (hrecorded.known b.request.key j).mpr ⟨b, hb, rfl, hj⟩
    refine ⟨?_, ?_⟩
    · intro heq
      subst heq
      exact hrecorded.sound.key_inj hai hbj
    · intro hkey
      rw [hkey, hbj] at hai
      exact (Option.some.inj hai).symm
  · intro earlier call later hsplit
    obtain ⟨hbefore, hcall⟩ := htraced.calls earlier call later hsplit
    split
    · rename_i hknown
      have hunchanged := hbefore.known_unchanged hknown
      rwa [hcall] at hunchanged
    · rename_i hnew
      have hanswered := hbefore.new_answered hnew
      rw [hcall] at hanswered
      refine ⟨hanswered.1, hanswered.2, fun i hi => hbefore.new_number hnew ?_⟩
      rwa [hcall]
  · intro call hcall i hi
    have hfind := (hrecorded.known call.request.key i).mpr ⟨call, hcall, rfl, hi⟩
    exact (hrecorded.sound.find_bounds hfind).1

/-- The root object, the base of enumerations, and an array of root objects, asked for twice. -/
theorem interning_four_calls : ∃ log c, Catalog.Run {} log c ∧
    log.map Call.request = [.register "java/lang/Object" .classType 0,
      .register "java/lang/Enum" .classType 1, .arrayOf (.canonical ⟨16⟩),
      .arrayOf (.canonical ⟨16⟩)] ∧
    log.map Call.answer = [some ⟨16⟩, some ⟨17⟩, some ⟨18⟩, some ⟨18⟩] ∧
    (∀ a ∈ log, ∀ b ∈ log, ∀ i j, a.answer = some i → b.answer = some j →
      (i = j ↔ a.request.key = b.request.key)) ∧
    (∀ earlier call later, log = earlier ++ call :: later →
      if call.request.key ∈ internedKeys earlier then
        (∃ i, call.answer = some i) ∧ call.after = call.before
      else
        ((∃ i, call.answer = some i) ↔ ∃ e, call.before.Makes call.request e) ∧
        (call.answer = none → call.after = call.before) ∧
        ∀ i, call.answer = some i → i.raw = 16 + (internedKeys earlier).card) ∧
    ∀ call ∈ log, ∀ i, call.answer = some i → 16 ≤ i.raw :=
  have hseed := @Catalog.Run.seed {} _ _ _ _ rfl rfl
  have hrun := (hseed.call (.arrayOf (.canonical ⟨16⟩))).call (.arrayOf (.canonical ⟨16⟩))
  ⟨_, _, hrun, rfl, rfl, interning_faithful hrun⟩

end ClassTable
