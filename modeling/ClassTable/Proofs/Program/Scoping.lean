import ClassTable.Program.Lookup
import ClassTable.Proofs.Program.Uniqueness
import ClassTable.Registry.Catalog

/-!
# Simple names are lexically scoped

Lookup never looks at what stands in what. It puts signatures together and asks the
index for them, so that a simple name means what it should only if no other type in the
program happens to have the same signature.

In a well-named program none has. The signature of a member type named `key` of `o`
belongs to a declaration in the body of `o` with that name and to no other (`memberOf?_iff`),
and the signature of a top-level type belongs to a top-level type (`lookup_inPackage_iff`).
Going outwards through the enclosing types then is what scoping rules say: the innermost
member type hides all others, and hides every package.
-/

namespace ClassTable

/-- A name without a path or a keyword in it. -/
structure SimpleName (key : String) : Prop extends PlainName key where
  /-- There is a name. -/
  nonempty : key ≠ ""
  /-- The name is not that of a primitive type. -/
  no_keyword : Primitive.ofKeyword? key = none

instance (key : String) : Decidable (SimpleName key) :=
  decidable_of_iff (PlainName key ∧ key ≠ "" ∧ Primitive.ofKeyword? key = none)
    ⟨fun h => ⟨h.1, h.2.1, h.2.2⟩, fun h => ⟨h.toPlainName, h.nonempty, h.no_keyword⟩⟩

/-- A text without slashes cannot be cut. -/
theorem Path.splits_eq_nil {path : String} (h : '/' ∉ path.toList) : Path.splits path = [] := by
  have hcuts : Path.cutsOf path.toList = [] := by
    rw [List.eq_nil_iff_forall_not_mem]
    intro cut hcut
    have hpath := Path.eq_of_mem_cutsOf hcut
    exact h (by rw [← hpath]; simp)
  rw [Path.splits, hcuts, List.map_nil]

namespace Program

/-! ## What stands in what -/

/-- A type with those that it stands in, from the innermost outwards, and the package of the
outermost. -/
inductive Ancestors (p : Program) : TypeId → List TypeId → String → Prop where
  | top {id : TypeId} {d : Declaration} {package : String} :
      p.types.get? id = some d → d.scope = .package package → Ancestors p id [id] package
  | inner {id o : TypeId} {d : Declaration} {outer : List TypeId} {package : String} :
      p.types.get? id = some d → p.owningType d.scope = .ok (some o) →
      Ancestors p o outer package → Ancestors p id (id :: outer) package

/-- `id` is declared in the body of `o` under that name. -/
def MemberType (p : Program) (o : TypeId) (name : String) (id : TypeId) : Prop :=
  ∃ d, p.types.get? id = some d ∧ d.scope = .type o ∧ d.name = name

/-- `id` is declared at the top level of the package under that name. -/
def TopLevel (p : Program) (package name : String) (id : TypeId) : Prop :=
  ∃ d written, p.types.get? id = some d ∧ d.scope = .package written ∧
    Signature.slashed written = Signature.slashed package ∧ d.name = name

/-- What a name stands for at the top level of packages that are searched in order: the first
hit, and in each package a declared type before one of the registry. -/
inductive FirstHit {ρ : Type} [Registry ρ] (p : Program) (r : ρ) (name : String) :
    List String → Option TypeHandle → Prop where
  | nothing : FirstHit p r name [] none
  | declared {package : String} {others : List String} {id : TypeId} :
      p.TopLevel package name id → FirstHit p r name (package :: others) (some (.declared id))
  | canonical {package : String} {others : List String} {i : TypeIndex} :
      (∀ id, ¬ p.TopLevel package name id) →
      Registry.find? r (Signature.inPackage package name) = some i →
      FirstHit p r name (package :: others) (some (.canonical i))
  | later {package : String} {others : List String} {type : Option TypeHandle} :
      (∀ id, ¬ p.TopLevel package name id) →
      Registry.find? r (Signature.inPackage package name) = none →
      FirstHit p r name others type → FirstHit p r name (package :: others) type

/-- A type is at the top level, or stands in an older one. -/
theorem ScopesSign.outwards {p : Program} (h : p.ScopesSign) {id : TypeId} {d : Declaration}
    (hd : p.types.get? id = some d) :
    (∃ package, d.scope = .package package) ∨
      ∃ o outer, p.owningType d.scope = .ok (some o) ∧ p.types.get? o = some outer ∧
        o.index < id.index := by
  have hsigned := h id d hd
  generalize d.signature = s at hsigned
  cases hs : d.scope with
  | package package => exact Or.inl ⟨package, rfl⟩
  | type o =>
      rw [hs] at hsigned
      cases hsigned with
      | type houter hlt => exact Or.inr ⟨_, _, rfl, houter, hlt⟩
  | code block =>
      rw [hs] at hsigned
      cases hsigned with
      | code ho houter hlt _ =>
          exact Or.inr ⟨_, _, by rw [owningType, ho]; rfl, houter, hlt⟩

/-- Every type has its ancestors. -/
theorem exists_ancestors {p : Program} (h : p.ScopesSign) {id : TypeId} {d : Declaration}
    (hd : p.types.get? id = some d) : ∃ chain package, p.Ancestors id chain package := by
  obtain ⟨n, hn⟩ : ∃ n, id.index = n := ⟨_, rfl⟩
  induction n using Nat.strongRecOn generalizing id d with
  | ind n ih =>
    rcases h.outwards hd with ⟨package, hs⟩ | ⟨o, outer, ho, houter, hlt⟩
    · exact ⟨[id], package, .top hd hs⟩
    · -- what it stands in is older
      obtain ⟨chain, package, hchain⟩ := ih o.index (hn ▸ hlt) houter rfl
      exact ⟨id :: chain, package, .inner hd ho hchain⟩

/-- A type has its ancestors only once. -/
theorem Ancestors.unique {p : Program} {id : TypeId} {chain chain' : List TypeId}
    {package package' : String} (h : p.Ancestors id chain package)
    (h' : p.Ancestors id chain' package') : chain = chain' ∧ package = package' := by
  induction h generalizing chain' package' with
  | top hd hs =>
      cases h' with
      | top hd' hs' =>
          rw [hd] at hd'
          cases hd'
          rw [hs] at hs'
          cases hs'
          exact ⟨rfl, rfl⟩
      | inner hd' ho' _ =>
          rw [hd] at hd'
          cases hd'
          rw [hs] at ho'
          exact absurd ho' (by simp [owningType])
  | inner hd ho _ ih =>
      cases h' with
      | top hd' hs' =>
          rw [hd] at hd'
          cases hd'
          rw [hs'] at ho
          exact absurd ho (by simp [owningType])
      | inner hd' ho' houter' =>
          rw [hd] at hd'
          cases hd'
          rw [ho] at ho'
          cases ho'
          obtain ⟨hchain, hpackage⟩ := ih houter'
          exact ⟨by rw [hchain], hpackage⟩

/-! ## The index knows members and top-level types -/

/-- The type that has the signature of a member type of `o`. -/
def memberOf? (p : Program) (o : TypeId) (name : String) : Option TypeId :=
  (p.types.get? o).bind fun d => p.lookup (Signature.inType d.signature name)

/-- **Only a member type has the signature of a member type.** -/
theorem memberOf?_iff {p : Program} (hp : p.Reachable) (hn : p.WellNamed) {o id : TypeId}
    {name : String} (hname : PlainName name) :
    p.memberOf? o name = some id ↔ p.MemberType o name id := by
  refine ⟨?_, ?_⟩
  · intro h
    obtain ⟨outer, houter, hlookup⟩ := Option.bind_eq_some_iff.mp h
    obtain ⟨d, hd, hsig⟩ := (lookup_eq_some_iff hp hn).mp hlookup
    have hplain := hn.plain id d hd
    have hsigned := (signed_reachable hp).signed id d hd
    rw [hsig] at hsigned
    refine ⟨d, hd, ?_⟩
    -- only one of the three schemes can have made this signature
    generalize hs : Signature.inType outer.signature name = s, d.scope = scope at hsigned ⊢
    cases hsigned with
    | package package =>
        exact absurd hs.symm (Signature.inPackage_ne_inType hplain.no_dollar hname.no_slash)
    | type houter' _ =>
        obtain ⟨hsame, hnames⟩ := Signature.inType_inj hname.no_dollar hplain.no_dollar hs
        exact ⟨by rw [eq_of_signature_eq hp hn houter houter' hsame], hnames.symm⟩
    | code _ _ _ _ => exact absurd hs (Signature.inType_ne_inCode hname hplain.no_dollar)
  · intro hex
    obtain ⟨d, hd, hs, rfl⟩ := hex
    have hsigned := (signed_reachable hp).signed id d hd
    generalize hsig : d.signature = s at hsigned
    rw [hs] at hsigned
    cases hsigned with
    | type houter _ =>
        rw [memberOf?, houter]
        exact (lookup_eq_some_iff hp hn).mpr ⟨d, hd, hsig⟩

/-- **Only a top-level type has the signature of a top-level type.** -/
theorem lookup_inPackage_iff {p : Program} (hp : p.Reachable) (hn : p.WellNamed)
    {package name : String} {id : TypeId} (hname : PlainName name) :
    p.lookup (Signature.inPackage package name) = some id ↔ p.TopLevel package name id := by
  rw [lookup_eq_some_iff hp hn]
  refine ⟨?_, ?_⟩
  · intro hex
    obtain ⟨d, hd, hsig⟩ := hex
    have hplain := hn.plain id d hd
    have hsigned := (signed_reachable hp).signed id d hd
    rw [hsig] at hsigned
    generalize hs : Signature.inPackage package name = s, hscope : d.scope = scope at hsigned
    cases hsigned with
    | package written =>
        obtain ⟨hpackage, hnames⟩ := Signature.inPackage_inj hname.no_slash hplain.no_slash hs
        exact ⟨d, written, hd, hscope, hpackage.symm, hnames.symm⟩
    | type _ _ =>
        exact absurd hs (Signature.inPackage_ne_inType hname.no_dollar hplain.no_slash)
    | code _ _ _ _ =>
        exact absurd hs (Signature.inPackage_ne_inCode hname.no_dollar hplain.no_slash)
  · intro hex
    obtain ⟨d, written, hd, hs, hpackage, rfl⟩ := hex
    have hsigned := (signed_reachable hp).signed id d hd
    generalize hsig : d.signature = s at hsigned
    rw [hs] at hsigned
    cases hsigned with
    | package _ => exact ⟨d, hd, by rw [hsig, Signature.inPackage_congr hpackage]⟩

/-! ## Lookup goes outwards -/

variable {ρ : Type} [Registry ρ]

/-- Going outwards from a type visits its ancestors. -/
theorem Ancestors.enclosure {p : Program} (h : p.ScopesSign) {id : TypeId} {chain : List TypeId}
    {package : String} (hchain : p.Ancestors id chain package) :
    ∃ e, p.enclosure id = .ok e ∧ e.package = some package ∧
      ∀ name, p.lookupMember e name = chain.findSome? (p.memberOf? · name) := by
  induction hchain with
  | top hd hs =>
      refine ⟨_, enclosure_top (Store.get_eq_ok_iff.mpr hd) hs, rfl, fun name => ?_⟩
      simp [lookupMember, memberOf?, hd]
  | inner hd ho _ ih =>
      obtain ⟨e, he, hpackage, hmember⟩ := ih
      have hlt := h.outwards hd
      rcases hlt with ⟨_, hs⟩ | ⟨o', _, ho', _, hlt⟩
      · rw [hs] at ho
        exact absurd ho (by simp [owningType])
      · rw [ho] at ho'
        cases ho'
        have hinner := enclosure_inner (Store.get_eq_ok_iff.mpr hd) ho
        rw [if_pos hlt, he] at hinner
        refine ⟨_, hinner, hpackage, fun name => ?_⟩
        have hname := hmember name
        simp only [lookupMember] at hname
        simp only [lookupMember, Enclosure.enter, List.findSome?_cons, hname, memberOf?, hd,
          Option.bind_some]

/-- **Looking a name up inside a declared type never fails.** -/
theorem exists_lookupName {p : Program} (h : p.ScopesSign) (r : ρ) {context : TypeId}
    {d : Declaration} (hd : p.types.get? context = some d) (name : String) :
    ∃ type, p.lookupName r context name = .ok type := by
  obtain ⟨chain, package, hchain⟩ := exists_ancestors h hd
  obtain ⟨e, he, _, _⟩ := hchain.enclosure h
  have hwhole : ∀ name, ∃ type, p.lookupWhole r context name = .ok type := by
    intro name
    unfold lookupWhole
    cases Primitive.ofKeyword? name with
    | some primitive => exact ⟨_, rfl⟩
    | none =>
        simp only [he, bind, Except.bind]
        split <;> exact ⟨_, rfl⟩
  have hsplit : ∀ splits, ∃ type, p.lookupSplit r context splits = .ok type := by
    intro splits
    induction splits with
    | nil => exact ⟨none, rfl⟩
    | cons split later ih =>
        obtain ⟨outer, houter⟩ := hwhole split.1
        simp only [lookupSplit, houter, bind, Except.bind]
        split
        · exact ⟨_, rfl⟩
        · exact ih
  unfold lookupName
  split
  · exact ⟨none, rfl⟩
  · obtain ⟨type, htype⟩ := hwhole name
    simp only [htype, bind, Except.bind]
    split
    · exact ⟨_, rfl⟩
    · exact hsplit _

/-- What a name stands for without being taken apart, in terms of the index. -/
theorem lookupWhole_eq {p : Program} (h : p.ScopesSign) (r : ρ) {id : TypeId}
    {chain : List TypeId} {package : String} (hchain : p.Ancestors id chain package)
    {key : String} (hkeyword : Primitive.ofKeyword? key = none) :
    p.lookupWhole r id key = .ok
      (match chain.findSome? (p.memberOf? · key) with
      | some member => some (.declared member)
      | none => (package :: "" :: (Registry.implicitPackage? r).toList).findSome? fun package =>
          p.lookupGlobal r (Signature.inPackage package key)) := by
  obtain ⟨e, he, hpackage, hmember⟩ := hchain.enclosure h
  have hglobal : (globalNames r e key).findSome? (p.lookupGlobal r)
      = (package :: "" :: (Registry.implicitPackage? r).toList).findSome? fun package =>
          p.lookupGlobal r (Signature.inPackage package key) := by
    have hnames : globalNames r e key
        = (package :: "" :: (Registry.implicitPackage? r).toList).map
            (Signature.inPackage · key) := by
      rw [globalNames, hpackage]
      rfl
    rw [hnames, List.findSome?_map]
    rfl
  simp only [lookupWhole, hkeyword, he, hmember, hglobal, bind, Except.bind]
  cases chain.findSome? (p.memberOf? · key) <;> rfl

/-- What a simple name stands for, in terms of the index. -/
theorem lookupName_simple {p : Program} (h : p.ScopesSign) (r : ρ) {id : TypeId}
    {chain : List TypeId} {package : String} (hchain : p.Ancestors id chain package)
    {key : String} (hkey : SimpleName key) :
    p.lookupName r id key = .ok
      (match chain.findSome? (p.memberOf? · key) with
      | some member => some (.declared member)
      | none => (package :: "" :: (Registry.implicitPackage? r).toList).findSome? fun package =>
          p.lookupGlobal r (Signature.inPackage package key)) := by
  rw [lookupName, if_neg hkey.nonempty, lookupWhole_eq h r hchain hkey.no_keyword,
    Path.splits_eq_nil hkey.no_slash]
  simp only [bind, Except.bind]
  split <;> simp_all [lookupSplit, pure, Except.pure]

/-- Asking for one signature after another finds the first hit. -/
theorem firstHit_findSome? {p : Program} (hp : p.Reachable) (hn : p.WellNamed) (r : ρ)
    {key : String} (hkey : PlainName key) (packages : List String) :
    p.FirstHit r key packages
      (packages.findSome? fun package => p.lookupGlobal r (Signature.inPackage package key)) := by
  induction packages with
  | nil => exact .nothing
  | cons package others ih =>
      rw [List.findSome?_cons, lookupGlobal]
      cases hlookup : p.lookup (Signature.inPackage package key) with
      | some id => exact .declared ((lookup_inPackage_iff hp hn hkey).mp hlookup)
      | none =>
          have hnone : ∀ id, ¬ p.TopLevel package key id := by
            intro id hid
            rw [(lookup_inPackage_iff hp hn hkey).mpr hid] at hlookup
            exact absurd hlookup (by simp)
          cases hfind : Registry.find? r (Signature.inPackage package key) with
          | some i => exact .canonical hnone hfind
          | none => exact .later hnone hfind ih

/-- A declared type that is the first hit is at the top level of one of the packages. -/
theorem FirstHit.topLevel {p : Program} {r : ρ} {key : String} {packages : List String}
    {type : Option TypeHandle} (h : p.FirstHit r key packages type) {id : TypeId}
    (hid : type = some (.declared id)) : ∃ package ∈ packages, p.TopLevel package key id := by
  induction h with
  | nothing => exact absurd hid (by simp)
  | declared htop =>
      cases hid
      exact ⟨_, List.mem_cons_self, htop⟩
  | canonical _ _ => exact absurd hid (by simp)
  | later _ _ _ ih =>
      obtain ⟨package, hmem, htop⟩ := ih hid
      exact ⟨package, List.mem_cons_of_mem _ hmem, htop⟩

/--
**Simple names are lexically scoped.**

A simple name seen from inside a type stands for the member type of that name in the
innermost of the enclosing types that has one, whatever is registered. If none has one, it
stands for the first hit among the top-level types of the package, of the unnamed package and
of the implicitly imported package. A declared type that it stands for is always one of these,
so never one that is declared in code or in the body of an unrelated type.
-/
theorem lookupName_lexical {p : Program} (hp : p.Reachable) (hn : p.WellNamed) (r : ρ)
    {context : TypeId} (hcontext : context.index < p.size) {key : String}
    (hkey : SimpleName key) :
    ∃ chain package, p.Ancestors context chain package ∧
      (∀ nearer o farther id, chain = nearer ++ o :: farther →
        (∀ x ∈ nearer, ∀ j, ¬ p.MemberType x key j) → p.MemberType o key id →
        p.lookupName r context key = .ok (some (.declared id))) ∧
      ((∀ o ∈ chain, ∀ j, ¬ p.MemberType o key j) →
        ∃ type, p.lookupName r context key = .ok type ∧
          p.FirstHit r key (package :: "" :: (Registry.implicitPackage? r).toList) type) ∧
      ∀ id, p.lookupName r context key = .ok (some (.declared id)) →
        (∃ o ∈ chain, p.MemberType o key id) ∨
        ∃ searched ∈ package :: "" :: (Registry.implicitPackage? r).toList,
          p.TopLevel searched key id := by
  have hsign := (signed_reachable hp).signed
  obtain ⟨d, hd⟩ := Store.get?_of_lt (s := p.types) hcontext
  obtain ⟨chain, package, hchain⟩ := exists_ancestors hsign hd
  have hlookup := lookupName_simple hsign r hchain hkey
  have hmember : ∀ {o id}, p.memberOf? o key = some id ↔ p.MemberType o key id :=
    memberOf?_iff hp hn hkey.toPlainName
  have hnone : ∀ {o}, (∀ j, ¬ p.MemberType o key j) → p.memberOf? o key = none := by
    intro o ho
    rw [Option.eq_none_iff_forall_ne_some]
    exact fun j hj => ho j (hmember.mp hj)
  have hfirst := firstHit_findSome? hp hn r hkey.toPlainName
    (package :: "" :: (Registry.implicitPackage? r).toList)
  refine ⟨chain, package, hchain, ?_, ?_, ?_⟩
  · intro nearer o farther id hsplit hnearer ho
    have hfound : chain.findSome? (p.memberOf? · key) = some id :=
      List.findSome?_eq_some_iff.mpr ⟨nearer, o, farther, hsplit, hmember.mpr ho,
        fun x hx => hnone (hnearer x hx)⟩
    rw [hlookup, hfound]
  · intro hchainless
    have hmissed : chain.findSome? (p.memberOf? · key) = none :=
      List.findSome?_eq_none_iff.mpr fun o ho => hnone (hchainless o ho)
    rw [hmissed] at hlookup
    exact ⟨_, hlookup, hfirst⟩
  · intro id hid
    rw [hlookup] at hid
    cases hfound : chain.findSome? (p.memberOf? · key) with
    | some member =>
        rw [hfound] at hid
        cases hid
        obtain ⟨o, ho, hmem⟩ := List.exists_of_findSome?_eq_some hfound
        exact Or.inl ⟨o, ho, hmember.mp hmem⟩
    | none =>
        rw [hfound] at hid
        exact Or.inr (hfirst.topLevel (Except.ok.inj hid))

/-- The local class of the sample sees the member class of the type that it stands in. -/
theorem sample_scoping :
    sample.lookupName (Catalog.ofCoreNames {}) ⟨2⟩ "Inner" = .ok (some (.declared ⟨1⟩)) := by
  have hkey : SimpleName "Inner" := by decide
  obtain ⟨chain, package, hchain, hmember, _⟩ := lookupName_lexical sample_reachable (by decide)
    (Catalog.ofCoreNames {}) (show (2 : Nat) < 3 by decide) hkey
  have htask : sample.Ancestors ⟨2⟩ [⟨2⟩, ⟨0⟩] "com.app" := .inner rfl rfl (.top rfl rfl)
  refine hmember [⟨2⟩] ⟨0⟩ [] ⟨1⟩ (hchain.unique htask).1 ?_ ⟨_, rfl, rfl, rfl⟩
  intro x hx j hex
  obtain ⟨d, hd, hs, _⟩ := hex
  cases List.mem_singleton.mp hx
  have hall : ∀ d ∈ sample.types.items, d.scope ≠ .type ⟨2⟩ := by decide
  exact hall d (Array.mem_of_getElem? hd) hs

end Program

end ClassTable
