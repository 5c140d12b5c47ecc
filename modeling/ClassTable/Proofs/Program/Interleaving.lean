import ClassTable.Proofs.Program.Signatures
import Mathlib.Data.Fin.VecNotation
import Mathlib.Data.Fintype.Card

/-!
# The order of declarations

Ids and ordinals depend on when a type is declared. Signatures depend on much less. Two
histories may interleave their declarations differently, attach members and references at
other moments, and put a local class into another method or initializer of the same type:
as long as the types in code of one owner come in the same order, corresponding types get
the same signature.

The argument compares the two histories directly, through a correspondence of their
declarations. Signatures have a closed form in which the only trace of the order is the
number of earlier types in code of the same owner (`ScopesSign`), and a correspondence that
keeps that order matches these types one to one (`localsBefore_eq`). What a type stands in
is older, so its signature agrees by induction.
-/

namespace ClassTable

/-- Where a type is declared, as far as its signature goes. Of code it only matters whose it is. -/
inductive Place where
  | package (name : String)
  | body (outer : TypeId)
  | code (owner : TypeId)
  deriving DecidableEq

/-- A declaration, with what came of it. -/
structure Declared where
  /-- The new type. -/
  id : TypeId
  /-- Where it was declared. -/
  place : Place
  /-- Its name; empty for an anonymous type. -/
  name : String
  /-- The signature that it got. -/
  signature : String

namespace Program

/-- The place of a scope. -/
def place (p : Program) : Scope → Except Fault Place
  | .package name => .ok (.package name)
  | .type outer => .ok (.body outer)
  | .code block => (p.codeOwner block).map .code

/-- The declarations in a run of operations, in their order. -/
inductive History : List Declared → Program → Prop where
  | init : History [] ∅
  | declare {log : List Declared} {p q : Program} {id : TypeId} {place : Place}
      {d : Declaration} (scope : Scope) (head : Head) :
      History log p → p.declare scope head = .ok (id, q) → p.place scope = .ok place →
      q.types.get? id = some d → History (log ++ [⟨id, place, head.name, d.signature⟩]) q
  | other {log : List Declared} {p q : Program} :
      History log p → Step p q → q.size = p.size → History log q

theorem History.reachable {log : List Declared} {p : Program} (h : History log p) :
    Reachable p := by
  induction h with
  | init => exact .init
  | declare _ _ _ hdeclare _ _ ih => exact ih.tail (.declare hdeclare)
  | other _ hstep _ ih => exact ih.tail hstep

/-! ## The log of a history -/

/-- A type of the program, as a log has it. -/
structure LoggedAs (p : Program) (i : Nat) (entry : Declared) : Prop where
  /-- Types are numbered in the order of the log. -/
  id : entry.id = ⟨i⟩
  /-- The rest can be read off the declaration, then and later. -/
  declaration : ∃ d, p.types.get? ⟨i⟩ = some d ∧ p.place d.scope = .ok entry.place ∧
    d.name = entry.name ∧ d.signature = entry.signature

/-- The log has exactly the types of the program. -/
structure Logged (log : List Declared) (p : Program) : Prop where
  /-- There is an entry for each type. -/
  length : log.length = p.types.size
  /-- It says what the type is. -/
  entry : ∀ i entry, log[i]? = some entry → p.LoggedAs i entry

theorem Grows.place {p q : Program} (h : Grows p q) {scope : Scope} {place : Place}
    (hplace : p.place scope = .ok place) : q.place scope = .ok place := by
  cases scope with
  | package name => exact hplace
  | type outer => exact hplace
  | code block =>
      obtain ⟨owner, howner, rfl⟩ := map_eq_ok.mp hplace
      rw [Program.place, h.owners block owner howner]
      rfl

theorem LoggedAs.grows {p q : Program} (hg : Grows p q) {i : Nat} {entry : Declared}
    (h : p.LoggedAs i entry) : q.LoggedAs i entry := by
  obtain ⟨d, hd, hplace, hname, hsig⟩ := h.declaration
  obtain ⟨d', hd', hinit⟩ := hg.types _ _ hd
  refine ⟨h.id, d', hd', ?_, ?_, ?_⟩
  · rw [Declaration.scope_of_initial hinit]
    exact hg.place hplace
  · rw [Declaration.name_of_initial hinit, hname]
  · rw [Declaration.signature_of_initial hinit, hsig]

theorem logged_declare {log : List Declared} {p q : Program} {scope : Scope} {head : Head}
    {id : TypeId} {place : Place} {d : Declaration} (h : Logged log p)
    (hdeclare : p.declare scope head = .ok (id, q)) (hplace : p.place scope = .ok place)
    (hd : q.types.get? id = some d) :
    Logged (log ++ [⟨id, place, head.name, d.signature⟩]) q := by
  obtain ⟨_, hdeclares⟩ := declares_of_declare hdeclare
  have hgrows := grows_of_declares hdeclares
  refine ⟨by rw [hdeclares.size, ← h.length, List.length_append]; rfl, fun i entry hentry => ?_⟩
  rw [List.getElem?_append] at hentry
  split at hentry
  · exact (h.entry i entry hentry).grows hgrows
  · -- the last entry is that of the new type
    rename_i hi
    obtain ⟨hlast, rfl⟩ := List.getElem?_eq_some_iff.mp hentry
    have hid : (⟨i⟩ : TypeId) = id := by
      rw [hdeclares.fresh.1, ← h.length]
      simp only [List.length_singleton] at hlast
      exact EntityId.ext (by show i = log.length; omega)
    have hnew := hdeclares.get? id
    rw [if_pos (by rw [hdeclares.fresh.1]), hd] at hnew
    have hinit : d.initial = Declaration.initial (.ofHead _ scope head) := Option.some.inj hnew
    simp only [List.getElem_singleton]
    refine ⟨hid.symm, d, hid ▸ hd, ?_, ?_, rfl⟩
    · rw [Declaration.scope_of_initial hinit]
      exact hgrows.place hplace
    · exact Declaration.name_of_initial hinit

theorem logged_other {log : List Declared} {p q : Program} (h : Logged log p) (hs : Step p q)
    (hsize : q.size = p.size) : Logged log q := by
  rcases step_types hs with hsame | ⟨_, _, hdeclares⟩
  · exact ⟨by rw [hsame.size, h.length],
      fun i entry hentry => (h.entry i entry hentry).grows (grows_of_sameTypes hsame)⟩
  · -- a declaration would have added a type
    have := hdeclares.size
    simp only [size] at hsize
    omega

theorem logged_history {log : List Declared} {p : Program} (h : History log p) : Logged log p := by
  induction h with
  | init => exact ⟨rfl, fun i entry hentry => absurd hentry (by simp)⟩
  | declare _ _ _ hdeclare hplace hd ih => exact logged_declare ih hdeclare hplace hd
  | other _ hs hsize ih => exact logged_other ih hs hsize

/-! ## Corresponding histories -/

/-- A one-to-one correspondence between the declarations of two histories. -/
abbrev Matching (log log' : List Declared) := Fin log.length ≃ Fin log'.length

namespace Matching

variable {log log' : List Declared}

/-- Some declaration and its counterpart declared these types. -/
def Relates (f : Matching log log') (a b : TypeId) : Prop :=
  ∃ k, log[k].id = a ∧ log'[f k].id = b

instance (f : Matching log log') (a b : TypeId) : Decidable (f.Relates a b) :=
  inferInstanceAs (Decidable (∃ _, _))

/-- The same package, or corresponding types. -/
def RelatesPlaces (f : Matching log log') : Place → Place → Prop
  | .package a, .package b => a = b
  | .body a, .body b => f.Relates a b
  | .code a, .code b => f.Relates a b
  | _, _ => False

instance (f : Matching log log') : DecidableRel f.RelatesPlaces
  | .package a, .package b => inferInstanceAs (Decidable (a = b))
  | .body a, .body b | .code a, .code b => inferInstanceAs (Decidable (f.Relates a b))
  | .package _, .body _ | .package _, .code _ | .body _, .package _ | .body _, .code _
  | .code _, .package _ | .code _, .body _ => inferInstanceAs (Decidable False)

/-- Counterparts are declared under one name in corresponding places, and the types in code of one
owner come in the same order. -/
structure Faithful (f : Matching log log') : Prop where
  /-- The names are the same. -/
  name : ∀ i, log'[f i].name = log[i].name
  /-- The places correspond. -/
  place : ∀ i, f.RelatesPlaces log[i].place log'[f i].place
  /-- For each owner of code, what is declared in it comes in the same order. -/
  order : ∀ i j owner, log[i].place = .code owner → log[j].place = .code owner → i < j →
    f i < f j

end Matching

namespace Logged

variable {log : List Declared} {p : Program}

theorem id_getElem (h : Logged log p) (i : Fin log.length) : log[i].id = ⟨i⟩ :=
  (h.entry i _ (List.getElem?_eq_getElem i.isLt)).id

/-- The program still has the signature of the log. -/
theorem signature?_eq (h : Logged log p) (i : Fin log.length) :
    p.signature? log[i].id = some log[i].signature := by
  obtain ⟨d, hd, _, _, hsig⟩ := (h.entry i _ (List.getElem?_eq_getElem i.isLt)).declaration
  rw [h.id_getElem, signature?, hd]
  exact congrArg some hsig

theorem isLocalTo_iff (h : Logged log p) (o : TypeId) (i : Fin log.length) :
    p.isLocalTo o i = true ↔ log[i].place = .code o := by
  obtain ⟨d, hd, hplace, _⟩ := (h.entry i _ (List.getElem?_eq_getElem i.isLt)).declaration
  unfold isLocalTo
  rw [hd, Option.any_some, beq_iff_eq]
  show _ ↔ log[i.val].place = .code o
  generalize log[i.val].place = place, d.scope = scope at hplace ⊢
  cases scope with
  | package name =>
      cases hplace
      simp [localOwner?]
  | type outer =>
      cases hplace
      simp [localOwner?]
  | code block =>
      obtain ⟨owner, howner, rfl⟩ := map_eq_ok.mp hplace
      rw [localOwner?_code, howner]
      simp

/-- The types in code of one owner, counted in the log. -/
theorem localsBefore_eq_card (h : Logged log p) (o : TypeId) (i : Fin log.length) :
    p.localsBefore o i
      = (Finset.univ.filter fun j : Fin log.length => j < i ∧ log[j].place = .code o).card := by
  rw [localsBefore, List.countP_eq_length_filter,
    ← List.toFinset_card_of_nodup (List.nodup_range.filter _), ← Finset.card_map Fin.valEmbedding]
  congr 1
  ext j
  simp only [List.mem_toFinset, List.mem_filter, List.mem_range, Finset.mem_map, Finset.mem_filter,
    Finset.mem_univ, true_and, Fin.valEmbedding_apply]
  refine ⟨?_, ?_⟩
  · intro hex
    obtain ⟨hlt, hlocal⟩ := hex
    exact ⟨⟨j, hlt.trans i.isLt⟩, ⟨hlt, (h.isLocalTo_iff o ⟨j, _⟩).mp hlocal⟩, rfl⟩
  · intro hex
    obtain ⟨k, ⟨hlt, hplace⟩, rfl⟩ := hex
    exact ⟨hlt, (h.isLocalTo_iff o k).mpr hplace⟩

end Logged

namespace Matching

variable {log log' : List Declared} {p q : Program} {f : Matching log log'} {a a' b b' : TypeId}

/-- As ids are not reused, corresponding types determine each other. -/
theorem Relates.eq_iff (hp : Logged log p) (hq : Logged log' q) (h : f.Relates a b)
    (h' : f.Relates a' b') : a = a' ↔ b = b' := by
  obtain ⟨k, rfl, rfl⟩ := h
  obtain ⟨k', rfl, rfl⟩ := h'
  simp only [hp.id_getElem, hq.id_getElem, EntityId.mk.injEq, Fin.val_inj, f.injective.eq_iff]

/-- The types of two entries correspond only if the entries do. -/
theorem Relates.counterpart (hp : Logged log p) (hq : Logged log' q) {k : Fin log.length}
    {k' : Fin log'.length} (h : f.Relates log[k].id log'[k'].id) : f k = k' := by
  have hid := (Relates.eq_iff hp hq ⟨k, rfl, rfl⟩ h).mp rfl
  rw [hq.id_getElem, hq.id_getElem] at hid
  exact Fin.ext (EntityId.mk.inj hid)

/-- **Earlier types in code of one owner correspond to such types of its counterpart.** -/
theorem Faithful.earlier_iff (h : f.Faithful) (hp : Logged log p) (hq : Logged log' q)
    {i : Fin log.length} {o o' : TypeId} (hi : log[i].place = .code o)
    (hi' : log'[f i].place = .code o') (j : Fin log.length) :
    (j < i ∧ log[j].place = .code o) ↔ (f j < f i ∧ log'[f j].place = .code o') := by
  have hrelates : f.Relates o o' := by
    have hplace := h.place i
    rwa [hi, hi'] at hplace
  have hlocal : log[j].place = .code o ↔ log'[f j].place = .code o' := by
    have hplace := h.place j
    generalize log[j].place = here, log'[f j].place = there at hplace ⊢
    cases here with
    | package name | body outer => cases there <;> simp [RelatesPlaces] at hplace ⊢
    | code owner =>
        cases there with
        | package name | body outer => simp [RelatesPlaces] at hplace
        | code owner' => simpa using Relates.eq_iff hp hq hplace hrelates
  rw [← hlocal]
  refine and_congr_left fun hj => ⟨h.order j i o hj hi, fun hlt => ?_⟩
  -- the order is kept in the other direction too, as it is total
  rcases lt_trichotomy j i with hji | rfl | hij
  · exact hji
  · exact absurd hlt (lt_irrefl _)
  · exact absurd hlt (h.order i j o hi hj hij).asymm

theorem Faithful.localsBefore_eq (h : f.Faithful) (hp : Logged log p) (hq : Logged log' q)
    {i : Fin log.length} {o o' : TypeId} (hi : log[i].place = .code o)
    (hi' : log'[f i].place = .code o') : q.localsBefore o' (f i) = p.localsBefore o i := by
  rw [hq.localsBefore_eq_card, hp.localsBefore_eq_card]
  refine (Finset.card_equiv f fun j => ?_).symm
  simp only [Finset.mem_filter, Finset.mem_univ, true_and]
  exact h.earlier_iff hp hq hi hi' j

end Matching

/-! ## Signatures correspond -/

/-- The signature of the entry at `i`, by its place and by the entry of the type it stands in. -/
inductive MadeFrom (p : Program) (log : List Declared) (i : Fin log.length) :
    Place → String → Prop where
  | package (package : String) :
      MadeFrom p log i (.package package) (Signature.inPackage package log[i].name)
  | body {k : Fin log.length} : k < i →
      MadeFrom p log i (.body log[k].id) (Signature.inType log[k].signature log[i].name)
  | code {k : Fin log.length} {ordinal : UInt32} : k < i →
      ordinal.toNat = p.localsBefore log[k].id i + 1 →
      MadeFrom p log i (.code log[k].id) (Signature.inCode log[k].signature ordinal log[i].name)

theorem madeFrom {p : Program} {log : List Declared} (h : Logged log p) (hs : p.ScopesSign)
    (i : Fin log.length) : p.MadeFrom log i log[i].place log[i].signature := by
  obtain ⟨d, hd, hplace, hname, hsig⟩ :=
    (h.entry i _ (List.getElem?_eq_getElem i.isLt)).declaration
  -- an older type has an entry, with its id and its signature
  have hentry : ∀ {o : TypeId} {outer : Declaration}, p.types.get? o = some outer →
      o.index < i.val → ∃ k : Fin log.length, k < i ∧ log[k].id = o ∧
        log[k].signature = outer.signature := by
    intro o outer houter hlt
    have hk : o.index < log.length := hlt.trans i.isLt
    obtain ⟨x, hx, _, _, hxsig⟩ :=
      (h.entry o.index _ (List.getElem?_eq_getElem hk)).declaration
    rw [show (⟨o.index⟩ : TypeId) = o from rfl, houter] at hx
    cases hx
    exact ⟨⟨o.index, hk⟩, hlt, h.id_getElem ⟨o.index, hk⟩, hxsig.symm⟩
  have hsigned := hs ⟨i⟩ d hd
  rw [hname, hsig] at hsigned
  show p.MadeFrom log i log[i.val].place log[i.val].signature
  generalize log[i.val].place = place, log[i.val].signature = s, d.scope = scope
    at hplace hsigned
  cases hsigned with
  | package name =>
      cases hplace
      exact .package name
  | type houter hlt =>
      obtain ⟨k, hk, rfl, hksig⟩ := hentry houter hlt
      cases hplace
      rw [← hksig]
      exact .body hk
  | code ho houter hlt hord =>
      obtain ⟨k, hk, rfl, hksig⟩ := hentry houter hlt
      obtain ⟨owner, howner, rfl⟩ := map_eq_ok.mp hplace
      rw [ho] at howner
      cases howner
      rw [← hksig]
      exact .code hk hord

/-- **One declaration.** If all older types have the signatures of their counterparts, then so
has this one. -/
theorem signature_eq_counterpart {log log' : List Declared} {p q : Program} (hp : Logged log p)
    (hq : Logged log' q) (hps : p.ScopesSign) (hqs : q.ScopesSign) {f : Matching log log'}
    (hf : f.Faithful) {i : Fin log.length}
    (ih : ∀ k < i, log'[f k].signature = log[k].signature) :
    log'[f i].signature = log[i].signature := by
  have hmade := madeFrom hp hps i
  have hmade' := madeFrom hq hqs (f i)
  have hrelated := hf.place i
  have hname := hf.name i
  generalize hplace : log[i].place = place, log[i].signature = s at hmade hrelated
  generalize hplace' : log'[f i].place = place', log'[f i].signature = s' at hmade' hrelated
  cases hmade with
  | package name =>
      cases hmade' with
      | package name' => rw [hrelated, hname]
      | body _ | code _ _ => exact absurd hrelated id
  | @body k hk =>
      cases hmade' with
      | package _ | code _ _ => exact absurd hrelated id
      | body _ => rw [← Matching.Relates.counterpart hp hq hrelated, ih k hk, hname]
  | @code k ordinal hk hord =>
      cases hmade' with
      | package _ | body _ => exact absurd hrelated id
      | @code k' ordinal' _ hord' =>
          have hordinal : ordinal' = ordinal := by
            rw [← UInt32.toNat_inj, hord, hord', hf.localsBefore_eq hp hq hplace hplace']
          rw [← Matching.Relates.counterpart hp hq hrelated, ih k hk, hname, hordinal]

/--
**Signatures do not depend on how declarations are interleaved.**

Two histories whose declarations correspond one to one, under the same names and in
corresponding places, give the same signatures if they keep the order of the declarations in
code of each owner. Everything else about the order is free, and so is everything that is
attached or resolved in between. These are the signatures that the programs have in the end.
-/
theorem signatures_interleaved {log log' : List Declared} {p q : Program} (hp : History log p)
    (hq : History log' q) {f : Matching log log'} (hf : f.Faithful) (i : Fin log.length) :
    log'[f i].signature = log[i].signature ∧
      p.signature? log[i].id = some log[i].signature ∧
      q.signature? log'[f i].id = some log[i].signature := by
  have hlog := logged_history hp
  have hlog' := logged_history hq
  have hsigned := (signed_reachable hp.reachable).signed
  have hsigned' := (signed_reachable hq.reachable).signed
  have hsig : ∀ i : Fin log.length, log'[f i].signature = log[i].signature := by
    -- by induction along the first history, as what a type stands in is older
    intro i
    induction i using WellFoundedLT.induction with
    | ind i ih => exact signature_eq_counterpart hlog hlog' hsigned hsigned' hf ih
  exact ⟨hsig i, hlog.signature?_eq i, by rw [hlog'.signature?_eq (f i), hsig i]⟩

/-! ## Two orders -/

/-- Classes `A` and `B`, then an anonymous class in a method of `A`, a class `X` in a constructor
of `B`, and a class `Y` in the method of `A`. -/
def outerFirst : List Declared :=
  [⟨⟨0⟩, .package "p", "A", "p/A"⟩, ⟨⟨1⟩, .package "q", "B", "q/B"⟩,
    ⟨⟨2⟩, .code ⟨0⟩, "", "p/A$1"⟩, ⟨⟨3⟩, .code ⟨1⟩, "X", "q/B$1X"⟩,
    ⟨⟨4⟩, .code ⟨0⟩, "Y", "p/A$2Y"⟩]

/-- The same types, with `B` and its code before `A`. The anonymous class is in an initializer. -/
def ownerByOwner : List Declared :=
  [⟨⟨0⟩, .package "q", "B", "q/B"⟩, ⟨⟨1⟩, .code ⟨0⟩, "X", "q/B$1X"⟩,
    ⟨⟨2⟩, .package "p", "A", "p/A"⟩, ⟨⟨3⟩, .code ⟨2⟩, "", "p/A$1"⟩,
    ⟨⟨4⟩, .code ⟨2⟩, "Y", "p/A$2Y"⟩]

/-- Which declaration is which. -/
def outerFirstMatching : Matching outerFirst ownerByOwner :=
  ({ toFun := ![2, 0, 3, 1, 4]
     invFun := ![1, 3, 0, 2, 4]
     left_inv := show ∀ i, _ = i by decide
     right_inv := show ∀ i, _ = i by decide } : Fin 5 ≃ Fin 5)

/-- The head of an anonymous class. -/
def anonymousClass : Head := { kindToken := ⟨"class", .dummy⟩ }

theorem history_outerFirst : ∃ p, History outerFirst p := by
  have hA := History.init.declare (.package "p") (classNamed "A") rfl rfl rfl
  have hrun := hA.other
    (@Step.addMethod _ _ { owner := ⟨0⟩, returnType := written "void" } ⟨0⟩ rfl) rfl
  have hB := hrun.declare (.package "q") (classNamed "B") rfl rfl rfl
  have hnew := hB.other (@Step.addConstructor _ _ { owner := ⟨1⟩ } ⟨0⟩ rfl) rfl
  have hanonymous := hnew.declare (.code (.method ⟨0⟩)) anonymousClass rfl rfl rfl
  have hX := hanonymous.declare (.code (.constructor ⟨0⟩)) (classNamed "X") rfl rfl rfl
  exact ⟨_, hX.declare (.code (.method ⟨0⟩)) (classNamed "Y") rfl rfl rfl⟩

theorem history_ownerByOwner : ∃ p, History ownerByOwner p := by
  have hB := History.init.declare (.package "q") (classNamed "B") rfl rfl rfl
  have hnew := hB.other (@Step.addConstructor _ _ { owner := ⟨0⟩ } ⟨0⟩ rfl) rfl
  have hX := hnew.declare (.code (.constructor ⟨0⟩)) (classNamed "X") rfl rfl rfl
  have hA := hX.declare (.package "p") (classNamed "A") rfl rfl rfl
  have hinit := hA.other (@Step.addInitializer _ _ { owner := ⟨2⟩ } ⟨0⟩ rfl) rfl
  have hanonymous := hinit.declare (.code (.initializer ⟨0⟩)) anonymousClass rfl rfl rfl
  have hrun := hanonymous.other
    (@Step.addMethod _ _ { owner := ⟨2⟩, returnType := written "void" } ⟨0⟩ rfl) rfl
  exact ⟨_, hrun.declare (.code (.method ⟨0⟩)) (classNamed "Y") rfl rfl rfl⟩

theorem outerFirstMatching_faithful : outerFirstMatching.Faithful where
  name := by decide
  place := by decide
  order := by
    have horder : ∀ i j : Fin outerFirst.length, outerFirst[i].place = outerFirst[j].place →
        i < j → outerFirstMatching i < outerFirstMatching j := by decide
    intro i j owner hi hj
    exact horder i j (hi.trans hj.symm)

/-- The two orders give the same signatures. -/
theorem sample_interleaved : ∃ p q, History outerFirst p ∧ History ownerByOwner q ∧
    outerFirstMatching.Faithful ∧ ∀ i : Fin outerFirst.length,
      ownerByOwner[outerFirstMatching i].signature = outerFirst[i].signature ∧
      p.signature? outerFirst[i].id = some outerFirst[i].signature ∧
      q.signature? ownerByOwner[outerFirstMatching i].id = some outerFirst[i].signature := by
  obtain ⟨p, hp⟩ := history_outerFirst
  obtain ⟨q, hq⟩ := history_ownerByOwner
  exact ⟨p, q, hp, hq, outerFirstMatching_faithful,
    signatures_interleaved hp hq outerFirstMatching_faithful⟩

end Program

end ClassTable
