import ClassTable.Proofs.Name.Decoding
import ClassTable.Proofs.Program.Signatures

/-!
# Signatures identify types

A program is *well named* if all its names are plain, and no name is declared twice
at the top level of one package or in the body of one type. Names in code are free:
they may repeat and may be missing.

In a well-named program no two types have the same signature. The argument goes
from the inside out. Two equal signatures come from the same scheme, and give the
same name; for types inside others they also give the same outer signature, so the
outer types are equal by induction, as these are older. What remains is that one
scope declares a name once, or that one counter gives an ordinal once.
-/

namespace ClassTable

/-- Scopes in which a name may be declared only once between them. -/
def Scope.Shares : Scope → Scope → Prop
  | .package a, .package b => Signature.slashed a = Signature.slashed b
  | .type a, .type b => a = b
  | _, _ => False

instance : DecidableRel Scope.Shares
  | .package a, .package b =>
    inferInstanceAs (Decidable (Signature.slashed a = Signature.slashed b))
  | .type a, .type b => inferInstanceAs (Decidable (a = b))
  | .package _, .type _ | .package _, .code _ | .type _, .package _ | .type _, .code _
  | .code _, _ => inferInstanceAs (Decidable False)

namespace Program

/-- Names are plain, and distinct where signatures have nothing else to tell types apart. -/
structure WellNamed (p : Program) : Prop where
  /-- Every name is plain. -/
  plain : ∀ id d, p.types.get? id = some d → PlainName d.name
  /-- Packages and bodies declare a name once. -/
  distinct : ∀ a b x y, p.types.get? a = some x → p.types.get? b = some y →
    x.scope.Shares y.scope → x.name = y.name → a = b

/-- Names can be checked type by type, and pair by pair. -/
theorem wellNamed_iff (p : Program) : p.WellNamed ↔
    (∀ d ∈ p.types.items, PlainName d.name) ∧
      ∀ i (hi : i < p.types.items.size) j (hj : j < p.types.items.size),
        p.types.items[i].scope.Shares p.types.items[j].scope →
        p.types.items[i].name = p.types.items[j].name → i = j := by
  refine ⟨?_, ?_⟩
  · intro h
    refine ⟨fun d hd => ?_, fun i hi j hj hshares hname => ?_⟩
    · obtain ⟨i, hi, rfl⟩ := Array.mem_iff_getElem.mp hd
      exact h.plain ⟨i⟩ _ (Array.getElem?_eq_getElem hi)
    · exact congrArg EntityId.index (h.distinct ⟨i⟩ ⟨j⟩ _ _ (Array.getElem?_eq_getElem hi)
        (Array.getElem?_eq_getElem hj) hshares hname)
  · intro hex
    obtain ⟨hplain, hdistinct⟩ := hex
    refine ⟨fun id d hd => hplain d (Array.mem_of_getElem? hd), ?_⟩
    intro a b x y hx hy hshares hname
    obtain ⟨ha, rfl⟩ := Array.getElem?_eq_some_iff.mp hx
    obtain ⟨hb, rfl⟩ := Array.getElem?_eq_some_iff.mp hy
    exact EntityId.ext (hdistinct a.index ha b.index hb hshares hname)

instance (p : Program) : Decidable p.WellNamed := decidable_of_iff' _ p.wellNamed_iff

/-- No two of the first `n` types have the same signature. -/
def DistinctBelow (p : Program) (n : Nat) : Prop :=
  ∀ a b x y, p.types.get? a = some x → p.types.get? b = some y → a.index < n → b.index < n →
    x.signature = y.signature → a = b

/-- What two equal signatures have in common, if the types outside are told apart. -/
theorem signedAs_inj {p : Program} {a b : TypeId} {n : Nat} (hbelow : p.DistinctBelow n)
    (han : a.index ≤ n) (hbn : b.index ≤ n) {m m' : String} (hm : PlainName m)
    (hm' : PlainName m') {sa sb : Scope} {s s' : String} (ha : p.SignedAs a m sa s)
    (hb : p.SignedAs b m' sb s') (h : s = s') :
    m = m' ∧ (sa.Shares sb ∨ ∃ o, p.localOwner? sa = some o ∧ p.localOwner? sb = some o ∧
      p.localsBefore o a.index = p.localsBefore o b.index) := by
  cases ha with
  | package pa =>
      cases hb with
      | package pb =>
          obtain ⟨hpackage, hname⟩ := Signature.inPackage_inj hm.no_slash hm'.no_slash h
          exact ⟨hname, Or.inl hpackage⟩
      | type _ _ => exact absurd h (Signature.inPackage_ne_inType hm.no_dollar hm'.no_slash)
      | code _ _ _ _ => exact absurd h (Signature.inPackage_ne_inCode hm.no_dollar hm'.no_slash)
  | type houter hlt =>
      cases hb with
      | package pb =>
          exact absurd h.symm (Signature.inPackage_ne_inType hm'.no_dollar hm.no_slash)
      | type houter' hlt' =>
          obtain ⟨hsig, hname⟩ := Signature.inType_inj hm.no_dollar hm'.no_dollar h
          exact ⟨hname, Or.inl
            (hbelow _ _ _ _ houter houter' (by omega) (by omega) hsig)⟩
      | code _ _ _ _ => exact absurd h (Signature.inType_ne_inCode hm hm'.no_dollar)
  | code ho houter hlt hord =>
      cases hb with
      | package pb =>
          exact absurd h.symm (Signature.inPackage_ne_inCode hm'.no_dollar hm.no_slash)
      | type _ _ => exact absurd h.symm (Signature.inType_ne_inCode hm' hm.no_dollar)
      | code ho' houter' hlt' hord' =>
          obtain ⟨hsig, hordinal, hname⟩ := Signature.inCode_inj hm hm' h
          -- the owners are older, so they are told apart already
          have howner := hbelow _ _ _ _ houter houter' (by omega) (by omega) hsig
          subst howner
          refine ⟨hname, Or.inr ⟨_, localOwner?_code.mpr ho, localOwner?_code.mpr ho', ?_⟩⟩
          rw [hordinal] at hord
          omega

/-- An owner gives an ordinal to one type only. -/
theorem eq_of_localsBefore_eq {p : Program} {o a b : TypeId} {x y : Declaration}
    (hx : p.types.get? a = some x) (hy : p.types.get? b = some y)
    (hax : p.localOwner? x.scope = some o) (hby : p.localOwner? y.scope = some o)
    (h : p.localsBefore o a.index = p.localsBefore o b.index) : a = b := by
  have hlocal : ∀ {c : TypeId} {z : Declaration}, p.types.get? c = some z →
      p.localOwner? z.scope = some o → p.isLocalTo o c.index = true := by
    intro c z hz hc
    unfold isLocalTo
    rw [hz, Option.any_some, hc, beq_self_eq_true]
  rcases Nat.lt_trichotomy a.index b.index with hlt | heq | hgt
  · have := localsBefore_lt (hlocal hx hax) hlt
    omega
  · exact EntityId.ext heq
  · have := localsBefore_lt (hlocal hy hby) hgt
    omega

theorem distinctBelow {p : Program} (hs : Signed p) (hn : p.WellNamed) (n : Nat) :
    p.DistinctBelow n := by
  induction n with
  | zero => intro a b x y _ _ ha; omega
  | succ n ih =>
    intro a b x y hx hy ha hb h
    obtain ⟨hname, hscope⟩ := signedAs_inj ih (by omega) (by omega) (hn.plain a x hx)
      (hn.plain b y hy) (hs.signed a x hx) (hs.signed b y hy) h
    rcases hscope with hshares | ⟨o, hax, hby, hbefore⟩
    · exact hn.distinct a b x y hx hy hshares hname
    · exact eq_of_localsBefore_eq hx hy hax hby hbefore

/-- A signature belongs to one type at most. -/
theorem eq_of_signature_eq {p : Program} (hp : p.Reachable) (hn : p.WellNamed) {a b : TypeId}
    {x y : Declaration} (hx : p.types.get? a = some x) (hy : p.types.get? b = some y)
    (h : x.signature = y.signature) : a = b :=
  distinctBelow (signed_reachable hp) hn p.types.size a b x y hx hy (Store.size_of_get? hx)
    (Store.size_of_get? hy) h

/-- In a well-named program the index has exactly the declared types. -/
theorem lookup_eq_some_iff {p : Program} (hp : p.Reachable) (hn : p.WellNamed) {s : String}
    {id : TypeId} :
    p.lookup s = some id ↔ ∃ d, p.types.get? id = some d ∧ d.signature = s := by
  rw [indexed_reachable hp s id]
  refine ⟨?_, ?_⟩
  · intro hex
    obtain ⟨hsig, _⟩ := hex
    exact Option.map_eq_some_iff.mp hsig
  · intro hex
    obtain ⟨d, hd, rfl⟩ := hex
    refine ⟨by rw [signature?, hd]; rfl, fun j hj => ?_⟩
    obtain ⟨x, hx, hsig⟩ := Option.map_eq_some_iff.mp hj
    exact Nat.le_of_eq (congrArg EntityId.index (eq_of_signature_eq hp hn hd hx hsig.symm))

/--
**Signatures are unique.**

In a well-named program that any run of operations leads to, types have pairwise
different signatures, and each is found by its own.
-/
theorem signatures_unique {p : Program} (hp : p.Reachable) (hn : p.WellNamed) :
    (∀ a b x y, p.types.get? a = some x → p.types.get? b = some y → a ≠ b →
      x.signature ≠ y.signature) ∧
    ∀ id d, p.types.get? id = some d → p.lookup d.signature = some id := by
  refine ⟨?_, ?_⟩
  · intro a b x y hx hy hab h
    exact hab (eq_of_signature_eq hp hn hx hy h)
  · intro id d hd
    exact (lookup_eq_some_iff hp hn).mpr ⟨d, hd, rfl⟩

/-- The sample is such a program, local class included. -/
theorem sample_signatures : sample.Reachable ∧ sample.WellNamed ∧
    ((∀ a b x y, sample.types.get? a = some x → sample.types.get? b = some y → a ≠ b →
      x.signature ≠ y.signature) ∧
    ∀ id d, sample.types.get? id = some d → sample.lookup d.signature = some id) :=
  have hnames : sample.WellNamed := by decide
  ⟨sample_reachable, hnames, signatures_unique sample_reachable hnames⟩

end Program

end ClassTable
