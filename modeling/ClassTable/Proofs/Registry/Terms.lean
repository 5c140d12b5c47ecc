import ClassTable.Proofs.Program.Renderings
import ClassTable.Proofs.Registry.Origins

/-!
# Terms

A term says what a type is without a number: it is primitive, or was registered under a signature,
or is declared in a program, or is made of other types, given by terms again. A catalog has a
number for a term if it has been asked for all the types in it, from the inside out (`locate`).

In a catalog whose types were all made of types that it knew, each type is the type of one term
and of no other. So a term is a name for a type that does not depend on the order of requests, and
it determines how the catalog writes the type (`TypeTerm.text`).
-/

namespace ClassTable

/-- What a type is, without numbers. -/
inductive TypeTerm where
  /-- A primitive type. -/
  | primitive (type : Primitive)
  /-- A type declared in a program. -/
  | declared (id : TypeId)
  /-- A type registered under a signature. -/
  | named (signature : String)
  /-- A generic type applied to arguments. -/
  | specialized (generic : TypeTerm) (arguments : List TypeTerm)
  /-- An array type. -/
  | array (element : TypeTerm)

namespace TypeTerm

/-- Induction on a term and the terms in it. -/
theorem induction {P : TypeTerm → Prop} (primitive : ∀ type, P (.primitive type))
    (declared : ∀ id, P (.declared id)) (named : ∀ signature, P (.named signature))
    (specialized : ∀ generic arguments, P generic → (∀ t ∈ arguments, P t) →
      P (.specialized generic arguments))
    (array : ∀ element, P element → P (.array element)) (t : TypeTerm) : P t := by
  refine @TypeTerm.rec P (fun ts => ∀ t ∈ ts, P t) primitive declared named specialized array
    (fun t ht => absurd ht List.not_mem_nil) ?_ t
  intro t ts ht hts u hu
  rcases List.mem_cons.mp hu with rfl | hu
  · exact ht
  · exact hts u hu

mutual

/-- How a catalog writes the type of a term. -/
def text : TypeTerm → String
  | .primitive type => type.keyword
  | .declared id => "decl#" ++ toString id.index
  | .named signature => signature
  | .specialized generic arguments =>
    generic.text ++ "<" ++ ",".intercalate (texts arguments) ++ ">"
  | .array element => element.text ++ "[]"

/-- How a catalog writes the types of some terms. -/
def texts : List TypeTerm → List String
  | [] => []
  | t :: ts => t.text :: texts ts

end

theorem texts_eq_map (ts : List TypeTerm) : texts ts = ts.map text := by
  induction ts with
  | nil => rfl
  | cons t ts ih => rw [texts, ih, List.map_cons]

end TypeTerm

namespace Inventory

mutual

/-- The type of a term, if there is one. -/
def locate (inv : Inventory) : TypeTerm → Option TypeHandle
  | .primitive type => some (.canonical type.index)
  | .declared id => some (.declared id)
  | .named signature => (inv.findKey? (.named signature)).map .canonical
  | .specialized generic arguments =>
    match inv.locate generic, inv.locateAll arguments with
    | some (.canonical i), some types => (inv.findKey? (.specialized i types)).map .canonical
    | _, _ => none
  | .array element =>
    match inv.locate element with
    | some type => (inv.findKey? (.array type)).map .canonical
    | none => none

/-- The types of some terms, if there is one for each. -/
def locateAll (inv : Inventory) : List TypeTerm → Option (List TypeHandle)
  | [] => some []
  | t :: ts =>
    match inv.locate t, inv.locateAll ts with
    | some type, some types => some (type :: types)
    | _, _ => none

end

/-! ## Terms and keys -/

/-- The key has the parts that the term has. -/
inductive KeyOf (inv : Inventory) : TypeTerm → TypeKey → Prop where
  | named (signature : String) : KeyOf inv (.named signature) (.named signature)
  | specialized {generic : TypeTerm} {arguments : List TypeTerm} {g : TypeIndex}
      {types : List TypeHandle} : inv.locate generic = some (.canonical g) →
      List.Forall₂ (fun t type => inv.locate t = some type) arguments types →
      KeyOf inv (.specialized generic arguments) (.specialized g types)
  | array {element : TypeTerm} {type : TypeHandle} : inv.locate element = some type →
      KeyOf inv (.array element) (.array type)

variable {inv : Inventory}

theorem locateAll_iff {ts : List TypeTerm} {types : List TypeHandle} :
    inv.locateAll ts = some types ↔
      List.Forall₂ (fun t type => inv.locate t = some type) ts types := by
  induction ts generalizing types with
  | nil => simp [locateAll, eq_comm]
  | cons t ts ih =>
      refine ⟨?_, ?_⟩
      · intro h
        rw [locateAll] at h
        split at h
        · rename_i ht hts
          cases h
          exact .cons ht (ih.mp hts)
        · cases h
      · intro h
        cases h with
        | cons ht hts => rw [locateAll, ht, ih.mpr hts]

theorem find_of_map {found : Option TypeIndex} {i : TypeIndex}
    (h : found.map TypeHandle.canonical = some (.canonical i)) : found = some i := by
  obtain ⟨j, hj, heq⟩ := Option.map_eq_some_iff.mp h
  cases heq
  exact hj

/-- A term is primitive, or has the number of its key, or is declared. -/
theorem locate_eq_canonical_iff {t : TypeTerm} {i : TypeIndex} :
    inv.locate t = some (.canonical i) ↔
      (∃ type : Primitive, t = .primitive type ∧ i = type.index) ∨
        ∃ key, inv.KeyOf t key ∧ inv.findKey? key = some i := by
  refine ⟨?_, ?_⟩
  · intro h
    cases t with
    | primitive type =>
        cases h
        exact Or.inl ⟨type, rfl, rfl⟩
    | declared id => cases h
    | named signature =>
        exact Or.inr ⟨_, .named signature, find_of_map h⟩
    | specialized generic arguments =>
        rw [locate] at h
        split at h
        · rename_i g types hg htypes
          exact Or.inr ⟨_, .specialized hg (locateAll_iff.mp htypes), find_of_map h⟩
        · cases h
    | array element =>
        rw [locate] at h
        split at h
        · rename_i type htype
          exact Or.inr ⟨_, .array htype, find_of_map h⟩
        · cases h
  · intro h
    rcases h with ⟨type, rfl, rfl⟩ | ⟨key, hkey, hfind⟩
    · rw [locate]
    · cases hkey with
      | named signature => rw [locate, hfind, Option.map_some]
      | specialized hg htypes =>
          rw [locate, hg, locateAll_iff.mpr htypes]
          simp only [hfind, Option.map_some]
      | array htype =>
          rw [locate, htype]
          simp only [hfind, Option.map_some]

theorem locate_eq_declared_iff {t : TypeTerm} {id : TypeId} :
    inv.locate t = some (.declared id) ↔ t = .declared id := by
  refine ⟨fun h => ?_, fun h => by rw [h, locate]⟩
  cases t with
  | primitive type => cases h
  | declared id' =>
      cases h
      rfl
  | named signature =>
      obtain ⟨_, _, hcanonical⟩ := Option.map_eq_some_iff.mp h
      cases hcanonical
  | specialized generic arguments | array element =>
      rw [locate] at h
      split at h
      · obtain ⟨_, _, hcanonical⟩ := Option.map_eq_some_iff.mp h
        cases hcanonical
      · cases h

/-- What a term can be the term of. -/
inductive TermOf (inv : Inventory) (t : TypeTerm) : TypeHandle → Prop where
  | primitive (type : Primitive) : t = .primitive type → TermOf inv t (.canonical type.index)
  | declared (id : TypeId) : t = .declared id → TermOf inv t (.declared id)
  | known {i : TypeIndex} {e : Entry} :
      inv.get? i = some e → inv.KeyOf t e.key → TermOf inv t (.canonical i)

theorem locate_cases (hs : inv.Sound) {t : TypeTerm} {type : TypeHandle}
    (h : inv.locate t = some type) : inv.TermOf t type := by
  cases type with
  | declared id => exact .declared id (locate_eq_declared_iff.mp h)
  | canonical i =>
      rcases locate_eq_canonical_iff.mp h with ⟨type, ht, rfl⟩ | ⟨key, hkey, hfind⟩
      · exact .primitive type ht
      · obtain ⟨e, he, rfl⟩ := hs.get_of_find _ _ hfind
        exact .known he hkey

/-- The parts of a term make one key. -/
theorem KeyOf.unique {t : TypeTerm} {key key' : TypeKey} (h : inv.KeyOf t key)
    (h' : inv.KeyOf t key') : key = key' := by
  have htypes : Relator.RightUnique fun t type => inv.locate t = some type :=
    fun _ _ _ ht hu => Option.some.inj (ht.symm.trans hu)
  cases h with
  | named signature =>
      cases h'
      rfl
  | specialized hg hts =>
      cases h' with
      | specialized hg' hts' =>
          cases hg.symm.trans hg'
          rw [htypes.forall₂ hts hts']
  | array ht =>
      cases h' with
      | array ht' => rw [htypes ht ht']

/-- The term of a type has the parts that the type was made of. -/
theorem keyOf_of_get? (hs : inv.Sound) {t : TypeTerm} {i : TypeIndex} {e : Entry}
    (ht : inv.locate t = some (.canonical i)) (he : inv.get? i = some e) : inv.KeyOf t e.key := by
  have hfind := hs.find_of_get i e he
  rcases locate_eq_canonical_iff.mp ht with ⟨type, _, rfl⟩ | ⟨key, hkey, hfind'⟩
  · exact absurd hfind hs.find_ne_primitive
  · rwa [hs.key_inj hfind hfind']

/-! ## One term for each type -/

/-- No other term has a type that this term has. -/
def Unique (inv : Inventory) (t : TypeTerm) : Prop :=
  ∀ u type, inv.locate t = some type → inv.locate u = some type → t = u

theorem primitive_index_inj {a b : Primitive} (h : a.index = b.index) : a = b := by
  have hsame := Primitive.ofIndex?_index a
  rw [h, Primitive.ofIndex?_index] at hsame
  exact (Option.some.inj hsame).symm

/-- It is enough to tell terms of one key from each other. -/
theorem unique_of_keyOf (hs : inv.Sound) {t : TypeTerm}
    (h : ∀ u key, inv.KeyOf t key → inv.KeyOf u key → t = u) : inv.Unique t := by
  intro u type ht hu
  cases type with
  | declared id => rw [locate_eq_declared_iff.mp ht, locate_eq_declared_iff.mp hu]
  | canonical i =>
      rcases locate_eq_canonical_iff.mp ht with ⟨type, rfl, hi⟩ | ⟨key, hkey, hfind⟩
      · rcases locate_eq_canonical_iff.mp hu with ⟨type', rfl, hi'⟩ | ⟨key', _, hfind'⟩
        · rw [primitive_index_inj (hi.symm.trans hi')]
        · exact absurd (hi ▸ hfind') hs.find_ne_primitive
      · rcases locate_eq_canonical_iff.mp hu with ⟨type', rfl, hi'⟩ | ⟨key', hkey', hfind'⟩
        · exact absurd (hi' ▸ hfind) hs.find_ne_primitive
        · exact h u key hkey (hs.key_inj hfind hfind' ▸ hkey')

/-- Types at the same position have the same term. -/
theorem eq_of_forall₂ {ts us : List TypeTerm} {types : List TypeHandle}
    (ih : ∀ t ∈ ts, inv.Unique t)
    (hts : List.Forall₂ (fun t type => inv.locate t = some type) ts types)
    (hus : List.Forall₂ (fun t type => inv.locate t = some type) us types) : ts = us := by
  induction hts generalizing us with
  | nil =>
      cases hus
      rfl
  | cons ht _ ihts =>
      cases hus with
      | cons hu hus =>
          rw [ih _ List.mem_cons_self _ _ ht hu,
            ihts (fun t ht => ih t (List.mem_cons_of_mem _ ht)) hus]

/-- **A type has one term at most.** -/
theorem unique_term (hs : inv.Sound) (t : TypeTerm) : inv.Unique t := by
  -- a number has one key, so that terms of one type have types in common, part by part
  induction t using TypeTerm.induction with
  | primitive type => exact unique_of_keyOf hs fun _ _ hkey => by cases hkey
  | declared id => exact unique_of_keyOf hs fun _ _ hkey => by cases hkey
  | named signature =>
      refine unique_of_keyOf hs fun u key hkey hkey' => ?_
      cases hkey
      cases hkey'
      rfl
  | specialized generic arguments ihgeneric iharguments =>
      refine unique_of_keyOf hs fun u key hkey hkey' => ?_
      cases hkey with
      | specialized hg htypes =>
          cases hkey' with
          | specialized hg' htypes' =>
              rw [ihgeneric _ _ hg hg', eq_of_forall₂ iharguments htypes htypes']
  | array element ih =>
      refine unique_of_keyOf hs fun u key hkey hkey' => ?_
      cases hkey with
      | array htype =>
          cases hkey' with
          | array htype' => rw [ih _ _ htype htype']

end Inventory

/-! ## A term for each type -/

namespace Program

variable {p : Program} {inv : Inventory}

/-- A list of types that have terms. -/
theorem exists_forall₂ {types : List TypeHandle}
    (h : ∀ type ∈ types, ∃ t, inv.locate t = some type) :
    ∃ ts, List.Forall₂ (fun t type => inv.locate t = some type) ts types := by
  induction types with
  | nil => exact ⟨[], .nil⟩
  | cons type types ih =>
      obtain ⟨t, ht⟩ := h type List.mem_cons_self
      obtain ⟨ts, hts⟩ := ih fun other hother => h other (List.mem_cons_of_mem _ hother)
      exact ⟨t :: ts, .cons ht hts⟩

/-- **Every type that is there has a term.** -/
theorem exists_term (hs : inv.Sound) (h : p.Composed inv) {type : TypeHandle}
    (hlive : p.Live inv type) : ∃ t, inv.locate t = some type := by
  -- on the age of the type, as it is made of older ones
  obtain ⟨n, hn⟩ : ∃ n, age type = n := ⟨_, rfl⟩
  induction n using Nat.strongRecOn generalizing type with
  | ind n ih =>
    subst hn
    cases type with
    | declared id => exact ⟨.declared id, Inventory.locate_eq_declared_iff.mpr rfl⟩
    | canonical i =>
        rcases hlive with hprimitive | hknown
        · obtain ⟨primitive, rfl⟩ := TypeIndex.primitive_of_isPrimitive hprimitive
          exact ⟨.primitive primitive, by rw [Inventory.locate]⟩
        · obtain ⟨e, he⟩ := Option.isSome_iff_exists.mp hknown
          have hfind := hs.find_of_get i e he
          suffices hkey : ∃ t, inv.KeyOf t e.key from
            hkey.imp fun t ht => Inventory.locate_eq_canonical_iff.mpr (Or.inr ⟨_, ht, hfind⟩)
          have hpart : ∀ {part}, p.Part inv i part → ∃ t, inv.locate t = some part :=
            fun hpart => ih _ (hpart.age_lt ⟨e, he⟩) hpart.live rfl
          cases h i e he with
          | named signature kind arity => exact ⟨_, .named signature⟩
          | specialized hbase holder hparts =>
              obtain ⟨g, hg⟩ := ih _ holder (live_of_get? ⟨_, hbase⟩) rfl
              obtain ⟨ts, hts⟩ := exists_forall₂ fun part hmem => hpart (hparts part hmem)
              exact ⟨_, .specialized hg hts⟩
          | array helement =>
              obtain ⟨t, ht⟩ := hpart helement
              exact ⟨_, .array ht⟩

theorem map_eq_of_forall₂ {ts : List TypeTerm} {types : List TypeHandle}
    {write : TypeHandle → String} {text : TypeTerm → String}
    (hts : List.Forall₂ (fun t type => inv.locate t = some type) ts types)
    (h : ∀ t ∈ ts, ∀ type, inv.locate t = some type → write type = text t) :
    types.map write = ts.map text := by
  induction hts with
  | nil => rfl
  | cons ht _ ih =>
      rw [List.map_cons, List.map_cons, h _ List.mem_cons_self _ ht,
        ih fun t hmem => h t (List.mem_cons_of_mem _ hmem)]

/-! ## What the type of a term was made of -/

theorem locate_named (hs : inv.Sound) (h : p.Composed inv) {signature : String}
    {type : TypeHandle} (ht : inv.locate (.named signature) = some type) :
    ∃ i e, type = .canonical i ∧ inv.get? i = some e ∧ e.key = .named signature ∧
      e.signature = signature := by
  cases Inventory.locate_cases hs ht with
  | primitive _ hnot | declared _ hnot => cases hnot
  | @known i e he hkey =>
      cases h i e he <;> cases hkey
      exact ⟨i, _, rfl, he, rfl, rfl⟩

/-- A specialization was made of the types of the terms in it. -/
theorem locate_specialized (hs : inv.Sound) (h : p.Composed inv) {generic : TypeTerm}
    {arguments : List TypeTerm} {type : TypeHandle}
    (ht : inv.locate (.specialized generic arguments) = some type) :
    ∃ i g base types, type = .canonical i ∧
      inv.get? i = some (inv.specialization g base types) ∧ inv.get? g = some base ∧
      inv.locate generic = some (.canonical g) ∧
      List.Forall₂ (fun t type => inv.locate t = some type) arguments types ∧
      ∀ type ∈ types, p.Part inv i type := by
  cases Inventory.locate_cases hs ht with
  | primitive _ hnot | declared _ hnot => cases hnot
  | @known i e he hkey =>
      cases h i e he with
      | named | array => cases hkey
      | specialized hbase holder hparts =>
          cases hkey with
          | specialized hg htypes => exact ⟨i, _, _, _, rfl, he, hbase, hg, htypes, hparts⟩

/-- An array type was made of the type of the term in it. -/
theorem locate_array (hs : inv.Sound) (h : p.Composed inv) {element : TypeTerm}
    {type : TypeHandle} (ht : inv.locate (.array element) = some type) :
    ∃ i part, type = .canonical i ∧ inv.get? i = some (inv.arrayEntry part) ∧
      inv.locate element = some part ∧ p.Part inv i part := by
  cases Inventory.locate_cases hs ht with
  | primitive _ hnot | declared _ hnot => cases hnot
  | @known i e he hkey =>
      cases h i e he with
      | named | specialized => cases hkey
      | array hpart =>
          cases hkey with
          | array htype => exact ⟨i, _, rfl, he, htype, hpart⟩

/-- **A term determines how its type is written.** -/
theorem label_of_locate (hs : inv.Sound) (h : p.Composed inv) {t : TypeTerm} {type : TypeHandle}
    (ht : inv.locate t = some type) : inv.label type = t.text := by
  induction t using TypeTerm.induction generalizing type with
  | primitive written =>
      cases ht
      exact inv.label_primitive written
  | declared id =>
      cases ht
      rfl
  | named signature =>
      obtain ⟨i, e, rfl, he, _, hsignature⟩ := locate_named hs h ht
      rw [Inventory.label_of_get? he, hsignature, TypeTerm.text]
  | specialized generic arguments ihgeneric iharguments =>
      obtain ⟨i, g, base, types, rfl, he, hbase, hg, htypes, _⟩ := locate_specialized hs h ht
      -- the labels that were put together then are those of the parts now
      have hbase' := (Inventory.label_of_get? hbase).symm.trans (ihgeneric hg)
      have htexts := map_eq_of_forall₂ htypes fun t hmem type => iharguments t hmem
      rw [Inventory.label_of_get? he, TypeTerm.text, TypeTerm.texts_eq_map, ← hbase', ← htexts]
      rfl
  | array element ih =>
      obtain ⟨i, part, rfl, he, hpart, _⟩ := locate_array hs h ht
      rw [Inventory.label_of_get? he, TypeTerm.text, ← ih hpart]
      rfl

end Program

/-! ## The terms of a run -/

/-- The type is primitive or known to the inventory. Of declared types an inventory knows nothing,
and takes them all. -/
def Inventory.Has (inv : Inventory) : TypeHandle → Prop
  | .canonical i => i.isPrimitive = true ∨ (inv.get? i).isSome = true
  | .declared _ => True

instance (inv : Inventory) : DecidablePred inv.Has
  | .canonical _ => inferInstanceAs (Decidable (_ ∨ _))
  | .declared _ => inferInstanceAs (Decidable True)

theorem Program.Live.has {p : Program} {inv : Inventory} {type : TypeHandle}
    (h : p.Live inv type) : inv.Has type := by
  cases type with
  | declared id => trivial
  | canonical i => exact h

/-- The types that were passed were there when the call was made. -/
def Call.Grounded (call : Call) : Prop := ∀ type ∈ call.request.parts, call.before.Has type

instance (call : Call) : Decidable call.Grounded :=
  inferInstanceAs (Decidable (∀ type ∈ call.request.parts, call.before.Has type))

/-- The terms that calls were given numbers for. -/
def internedTerms (log : List Call) (c : Catalog) : Set TypeTerm :=
  {t | ∃ call ∈ log, ∃ i, call.answer = some i ∧ c.inventory.locate t = some (.canonical i)}

/-- The numbers of the types that are there. -/
def Inventory.known (inv : Inventory) : Set TypeIndex := {i | (inv.get? i).isSome}

theorem Inventory.mem_known_iff {inv : Inventory} {i : TypeIndex} :
    i ∈ inv.known ↔ ∃ e, inv.get? i = some e := Option.isSome_iff_exists

theorem Inventory.notMem_known_iff {inv : Inventory} {i : TypeIndex} :
    i ∉ inv.known ↔ inv.get? i = none := Option.not_isSome_iff_eq_none

/-- The terms of the types that are there. -/
def Inventory.terms (inv : Inventory) : Set TypeTerm :=
  {t | ∃ i ∈ inv.known, inv.locate t = some (.canonical i)}

variable {names : CoreNames} {log : List Call} {c : Catalog}

/-- The interned terms are those of the types that are there. -/
theorem internedTerms_eq (h : Catalog.Run names log c) :
    internedTerms log c = c.inventory.terms := by
  have hrecorded := (traced_run h).recorded
  ext t
  refine ⟨?_, ?_⟩
  · intro hex
    obtain ⟨call, hcall, i, hanswer, ht⟩ := hex
    obtain ⟨e, he, _⟩ :=
      hrecorded.sound.get_of_find _ i ((hrecorded.known _ i).mpr ⟨call, hcall, rfl, hanswer⟩)
    exact ⟨i, Inventory.mem_known_iff.mpr ⟨e, he⟩, ht⟩
  · intro hex
    obtain ⟨i, hknown, ht⟩ := hex
    obtain ⟨e, he⟩ := Inventory.mem_known_iff.mp hknown
    obtain ⟨call, hcall, _, hanswer⟩ :=
      (hrecorded.known _ i).mp (hrecorded.sound.find_of_get i e he)
    exact ⟨call, hcall, i, hanswer, ht⟩

/-- If all calls were given numbers and we know of which terms, these are the interned terms. -/
theorem internedTerms_of_answers (h : Catalog.Run names log c) (terms : List TypeTerm)
    (hanswered : ∀ call ∈ log, call.answer.isSome = true)
    (hterms : terms.map c.inventory.locate =
      log.map fun call => call.answer.map TypeHandle.canonical) :
    internedTerms log c = {t | t ∈ terms} := by
  ext t
  refine ⟨?_, ?_⟩
  · intro hex
    obtain ⟨call, hcall, i, hanswer, ht⟩ := hex
    have hmem : c.inventory.locate t ∈ terms.map c.inventory.locate := by
      rw [hterms, ht]
      exact List.mem_map.mpr ⟨call, hcall, congrArg (Option.map TypeHandle.canonical) hanswer⟩
    obtain ⟨u, hu, heq⟩ := List.mem_map.mp hmem
    rwa [Inventory.unique_term (traced_run h).recorded.sound t u _ ht (heq.trans ht)]
  · intro hmem
    have hfound := List.mem_map_of_mem (f := c.inventory.locate) hmem
    rw [hterms] at hfound
    obtain ⟨call, hcall, heq⟩ := List.mem_map.mp hfound
    obtain ⟨i, hanswer⟩ := Option.isSome_iff_exists.mp (hanswered call hcall)
    rw [hanswer] at heq
    exact ⟨call, hcall, i, hanswer, heq.symm⟩

theorem exists_bound (types : List TypeHandle) :
    ∃ n, ∀ id, TypeHandle.declared id ∈ types → id.index < n := by
  induction types with
  | nil => exact ⟨0, fun id h => absurd h List.not_mem_nil⟩
  | cons type types ih =>
      obtain ⟨n, hn⟩ := ih
      cases type with
      | canonical i =>
          exact ⟨n, fun id h => hn id ((List.mem_cons.mp h).resolve_left (by simp))⟩
      | declared known =>
          refine ⟨n + known.index + 1, fun id h => ?_⟩
          rcases List.mem_cons.mp h with heq | hmem
          · cases heq
            omega
          · have := hn id hmem
            omega

/-- A program that declares that many types. -/
def Program.ofSize (n : Nat) : Program :=
  { types := ⟨Array.replicate n (.ofHead "" (.package "") { kindToken := ⟨"class", .dummy⟩ })⟩ }

/-- **In a run that was only passed types that it knew, every type is made of older ones.** A
catalog cannot tell declared types that are there from others, so for the declared types any
program will do that is large enough. -/
theorem exists_composed (h : Catalog.Run names log c) (hcalls : ∀ call ∈ log, call.Grounded) :
    ∃ p : Program, p.Composed c.inventory := by
  obtain ⟨n, hn⟩ := exists_bound (log.flatMap fun call => call.request.parts)
  refine ⟨Program.ofSize n, Program.composed_run h fun call hcall type htype => ?_⟩
  cases type with
  | canonical i => exact hcalls call hcall _ htype
  | declared id =>
      have hlt := hn id (List.mem_flatMap.mpr ⟨call, hcall, htype⟩)
      simpa [Program.Live, Program.ofSize, Store.size] using hlt

end ClassTable
