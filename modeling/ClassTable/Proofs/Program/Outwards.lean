import ClassTable.Proofs.Program.Scoping

/-!
# Going outwards ends

A name is looked for in one type after another, from the context outwards, until one of them has a
member type of that name or there is nothing further out but a package. Nothing in a single turn
says that this ends: a turn looks at one type, and names the next.

It ends because of the order in which programs come about. A type is declared after the one whose
body it stands in. A type in code is declared after the member that the code belongs to, and that
was attached to a type that was there. So each turn leads to an older type, and as every scope but a
package is part of some type, a turn without a next one has found a member type or has come to a
package (`Ancestors.walk`).

Two types whose turns agree from some point on have the same names. In particular a type adds nothing
to what its surroundings say if no signature goes on from its own (`lookupName_passedOn`).
-/

namespace ClassTable

/-- Where the search for a name ends. -/
inductive SearchEnd where
  /-- At a member type of that name. -/
  | member (id : TypeId)
  /-- At the package of a top-level type. -/
  | package (name : String)
  /-- At a type that is neither in a package nor part of another type. -/
  | nowhere

/-- One turn of the search. -/
inductive SearchTurn where
  /-- The search is over. -/
  | stop (found : SearchEnd)
  /-- It goes on at another type. -/
  | goOn (next : TypeId)

namespace Program

variable {ρ : Type} [Registry ρ] {p : Program} {id o : TypeId} {d : Declaration} {name : String}

/-- What is done at one type: a member type of that name ends the search, and so does a package. Any
other scope leads to the type that it belongs to. -/
def searchTurn (p : Program) (name : String) (id : TypeId) : Except Fault SearchTurn := do
  let d ← p.types.get id
  match p.lookup (Signature.inType d.signature name) with
  | some found => return .stop (.member found)
  | none =>
    match d.scope with
    | .package package => return .stop (.package package)
    | scope =>
      match ← p.owningType scope with
      | some next => return .goOn next
      | none => return .stop .nowhere

/-- The search from a type visits these types, in order, and ends there. -/
inductive Walk (p : Program) (name : String) : TypeId → List TypeId → SearchEnd → Prop where
  | stop {id : TypeId} {found : SearchEnd} :
      p.searchTurn name id = .ok (.stop found) → Walk p name id [id] found
  | goOn {id next : TypeId} {visited : List TypeId} {found : SearchEnd} :
      p.searchTurn name id = .ok (.goOn next) → Walk p name next visited found →
      Walk p name id (id :: visited) found

/-- The first of the full signatures for the name that some type has, for a search that came to
this package. -/
def firstGlobal (p : Program) (r : ρ) (name package : String) : Option TypeHandle :=
  (package :: "" :: (Registry.implicitPackage? r).toList).findSome? fun package =>
    p.lookupGlobal r (Signature.inPackage package name)

/-- What the name stands for, if the search for it ended there. -/
def answerAt (p : Program) (r : ρ) (name : String) : SearchEnd → Option TypeHandle
  | .member id => some (.declared id)
  | .package package => p.firstGlobal r name package
  | .nowhere => p.firstGlobal r name ""

/-! ## Every walk ends -/

theorem searchTurn_member {found : TypeId} (hd : p.types.get? id = some d)
    (h : p.memberOf? id name = some found) :
    p.searchTurn name id = .ok (.stop (.member found)) := by
  rw [memberOf?, hd, Option.bind_some] at h
  simp only [searchTurn, Store.get_eq_ok_iff.mpr hd, bind, Except.bind, h]
  rfl

theorem searchTurn_package {package : String} (hd : p.types.get? id = some d)
    (hs : d.scope = .package package) (h : p.memberOf? id name = none) :
    p.searchTurn name id = .ok (.stop (.package package)) := by
  rw [memberOf?, hd, Option.bind_some] at h
  simp only [searchTurn, Store.get_eq_ok_iff.mpr hd, bind, Except.bind, h, hs]
  rfl

theorem searchTurn_outwards (hd : p.types.get? id = some d)
    (ho : p.owningType d.scope = .ok (some o)) (h : p.memberOf? id name = none) :
    p.searchTurn name id = .ok (.goOn o) := by
  rw [memberOf?, hd, Option.bind_some] at h
  simp only [searchTurn, Store.get_eq_ok_iff.mpr hd, bind, Except.bind, h]
  cases hs : d.scope with
  | package package =>
      rw [hs] at ho
      cases ho
  | type outer | code block =>
      rw [hs] at ho
      simp only [ho]
      rfl

/-- There is only one way to go. -/
theorem Walk.unique {visited visited' : List TypeId} {found found' : SearchEnd}
    (h : p.Walk name id visited found) (h' : p.Walk name id visited' found') :
    visited' = visited ∧ found' = found := by
  induction h generalizing visited' found' with
  | stop hturn =>
      cases h' with
      | stop hturn' =>
          cases hturn.symm.trans hturn'
          exact ⟨rfl, rfl⟩
      | goOn hturn' _ => cases hturn.symm.trans hturn'
  | goOn hturn _ ih =>
      cases h' with
      | stop hturn' => cases hturn.symm.trans hturn'
      | goOn hturn' hwalk' =>
          cases hturn.symm.trans hturn'
          obtain ⟨rfl, rfl⟩ := ih hwalk'
          exact ⟨rfl, rfl⟩

/-- How the search from a type with these ancestors, in this package, ends after these visits. -/
inductive WalksTo (p : Program) (name : String) (chain : List TypeId) (package : String)
    (visited : List TypeId) : SearchEnd → Prop where
  | member {found : TypeId} : chain.findSome? (p.memberOf? · name) = some found →
      visited <+: chain → WalksTo p name chain package visited (.member found)
  | package : chain.findSome? (p.memberOf? · name) = none →
      visited = chain → WalksTo p name chain package visited (.package package)

/-- **The search goes through the ancestors,** and ends at the first that has a member type of that
name, or at their package. -/
theorem Ancestors.walk {chain : List TypeId} {package : String} (h : p.Ancestors id chain package)
    (name : String) :
    ∃ visited found, p.Walk name id visited found ∧ p.WalksTo name chain package visited found := by
  induction h with
  | @top id d package hd hs =>
      cases hmember : p.memberOf? id name with
      | some found =>
          refine ⟨_, _, .stop (searchTurn_member hd hmember), .member ?_ List.prefix_rfl⟩
          rw [List.findSome?_cons, hmember]
      | none =>
          refine ⟨_, _, .stop (searchTurn_package hd hs hmember), .package ?_ rfl⟩
          rw [List.findSome?_cons, hmember, List.findSome?_nil]
  | @inner id o d outer package hd ho _ ih =>
      cases hmember : p.memberOf? id name with
      | some found =>
          refine ⟨_, _, .stop (searchTurn_member hd hmember), .member ?_ ⟨outer, rfl⟩⟩
          rw [List.findSome?_cons, hmember]
      | none =>
          obtain ⟨visited, found, hwalk, hends⟩ := ih
          refine ⟨_, found, .goOn (searchTurn_outwards hd ho hmember) hwalk, ?_⟩
          have hpassed : (id :: outer).findSome? (p.memberOf? · name) =
              outer.findSome? (p.memberOf? · name) := by
            rw [List.findSome?_cons, hmember]
          cases hends with
          | member hfound hvisited =>
              exact .member (hpassed.trans hfound) ((List.prefix_cons_inj id).mpr hvisited)
          | package hnone hvisited =>
              exact .package (hpassed.trans hnone) (congrArg (id :: ·) hvisited)

/-- What a type stands in is older. -/
theorem ScopesSign.owner_lt (hsign : p.ScopesSign) (hd : p.types.get? id = some d)
    (ho : p.owningType d.scope = .ok (some o)) : o.index < id.index := by
  obtain ⟨_, hpackage⟩ | ⟨o', _, ho', _, hlt⟩ := hsign.outwards hd
  · rw [hpackage] at ho
    cases ho
  · cases ho.symm.trans ho'
    exact hlt

/-- Going outwards, types get older. -/
theorem Ancestors.decreasing (hsign : p.ScopesSign) {chain : List TypeId} {package : String}
    (h : p.Ancestors id chain package) : chain.Pairwise fun x y => y.index < x.index := by
  suffices hbound : chain.Pairwise (fun x y => y.index < x.index) ∧ ∀ x ∈ chain, x.index ≤ id.index
    from hbound.1
  induction h with
  | top _ _ => simp
  | @inner id o d outer package hd ho _ ih =>
      obtain ⟨hpairwise, hbound⟩ := ih
      have houter : ∀ x ∈ outer, x.index < id.index :=
        fun x hx => Nat.lt_of_le_of_lt (hbound x hx) (hsign.owner_lt hd ho)
      refine ⟨List.pairwise_cons.mpr ⟨houter, hpairwise⟩, fun x hx => ?_⟩
      rcases List.mem_cons.mp hx with rfl | hx
      · exact Nat.le_refl _
      · exact Nat.le_of_lt (houter x hx)

/-! ## Names that are passed on -/

/-- A context is only asked for names that are not taken apart. -/
theorem lookupName_congr {r : ρ} {context context' : TypeId}
    (h : ∀ name, p.lookupWhole r context name = p.lookupWhole r context' name) (name : String) :
    p.lookupName r context name = p.lookupName r context' name := by
  have hsplit : ∀ splits, p.lookupSplit r context splits = p.lookupSplit r context' splits := by
    intro splits
    induction splits with
    | nil => rfl
    | cons split later ih => rw [lookupSplit, lookupSplit, h, ih]
  rw [lookupName, lookupName, h, hsplit]

/-- **A type passes on every name,** simple or qualified, if no signature goes on from its own. -/
theorem lookupName_passedOn (hp : p.Reachable) (r : ρ) (hd : p.types.get? id = some d)
    (ho : p.owningType d.scope = .ok (some o))
    (hnone : ∀ other name, p.signature? other ≠ some (Signature.inType d.signature name))
    (name : String) : p.lookupName r id name = p.lookupName r o name := by
  have hsign := (signed_reachable hp).signed
  have hmember : ∀ name, p.memberOf? id name = none := by
    intro name
    rw [memberOf?, hd, Option.bind_some]
    exact (lookup_eq_none_iff (indexed_reachable hp)).mpr fun other => hnone other name
  obtain ⟨_, hpackage⟩ | ⟨o', outer, ho', houter, _⟩ := hsign.outwards hd
  · rw [hpackage] at ho
    cases ho
  · cases ho.symm.trans ho'
    obtain ⟨chain, package, hchain⟩ := exists_ancestors hsign houter
    refine lookupName_congr (fun name => ?_) name
    cases hkeyword : Primitive.ofKeyword? name with
    | some primitive => simp only [lookupWhole, hkeyword]
    | none =>
        rw [lookupWhole_eq hsign r (.inner hd ho hchain) hkeyword,
          lookupWhole_eq hsign r hchain hkeyword, List.findSome?_cons, hmember]

/--
**The search for a name ends at the right package.**

In every reachable program a type that stands in another is younger than that. So the ancestors of a
type are older and older, up to a top-level type, and its package is the one that lookup works with.
The search for a name visits these ancestors in order, and there is no other way that it could go. It
does end: at a member type of that name, or at the package, and then it visited all ancestors. It
never ends without a package, and what lookup answers for the name is read off its end. Hence a type
that stands in another gives every name, simple or qualified, the meaning that it has there, unless
some signature goes on from its own.
-/
theorem search_ends (hp : p.Reachable) (r : ρ) :
    (∀ id d o, p.types.get? id = some d → p.owningType d.scope = .ok (some o) →
      o.index < id.index) ∧
    (∀ context, context.index < p.size → ∃ chain package e,
      p.Ancestors context chain package ∧
      chain.Pairwise (fun x y => y.index < x.index) ∧
      p.enclosure context = .ok e ∧ e.package = some package ∧
      ∀ name, ∃ visited found, p.Walk name context visited found ∧
        (∀ visited' found', p.Walk name context visited' found' →
          visited' = visited ∧ found' = found) ∧
        visited <+: chain ∧ found ≠ .nowhere ∧
        (∀ other, found = .package other → visited = chain ∧ other = package) ∧
        (Primitive.ofKeyword? name = none →
          p.lookupWhole r context name = .ok (p.answerAt r name found))) ∧
    ∀ id d o, p.types.get? id = some d → p.owningType d.scope = .ok (some o) →
      (∀ other name, p.signature? other ≠ some (Signature.inType d.signature name)) →
      ∀ name, p.lookupName r id name = p.lookupName r o name := by
  have hsign := (signed_reachable hp).signed
  refine ⟨fun id d o => hsign.owner_lt, fun context hcontext => ?_, fun id d o hd ho hnone =>
    lookupName_passedOn hp r hd ho hnone⟩
  obtain ⟨d, hd⟩ := Store.get?_of_lt (s := p.types) hcontext
  obtain ⟨chain, package, hchain⟩ := exists_ancestors hsign hd
  obtain ⟨e, he, hpackage, _⟩ := hchain.enclosure hsign
  refine ⟨chain, package, e, hchain, hchain.decreasing hsign, he, hpackage, fun name => ?_⟩
  obtain ⟨visited, found, hwalk, hends⟩ := hchain.walk name
  refine ⟨visited, found, hwalk, fun _ _ => hwalk.unique, ?_⟩
  cases hends with
  | member hfound hvisited =>
      refine ⟨hvisited, SearchEnd.noConfusion, fun _ heq => SearchEnd.noConfusion heq,
        fun hkeyword => ?_⟩
      rw [lookupWhole_eq hsign r hchain hkeyword, hfound]
      rfl
  | package hnone hvisited =>
      refine ⟨hvisited ▸ List.prefix_rfl, SearchEnd.noConfusion, fun other heq => ?_,
        fun hkeyword => ?_⟩
      · cases heq
        exact ⟨hvisited, rfl⟩
      · rw [lookupWhole_eq hsign r hchain hkeyword, hnone]
        rfl

/-- In the sample, a name that no type has leads from the local class `Task` to the class `Foo` and
from there to the package `com.app`, and `Task` gives every name the meaning that it has in `Foo`. -/
theorem sample_search :
    (∃ visited, sample.Walk "Missing" ⟨2⟩ visited (.package "com.app") ∧
      sample.Ancestors ⟨2⟩ visited "com.app") ∧
    ∀ name, sample.lookupName (Catalog.ofCoreNames {}) ⟨2⟩ name =
      sample.lookupName (Catalog.ofCoreNames {}) ⟨0⟩ name := by
  obtain ⟨_, hends, hpassed⟩ := search_ends sample_reachable (Catalog.ofCoreNames {})
  refine ⟨?_, hpassed ⟨2⟩ _ ⟨0⟩ rfl rfl fun other name hsignature => ?_⟩
  · have hwalk : sample.Walk "Missing" ⟨2⟩ [⟨2⟩, ⟨0⟩] (.package "com.app") :=
      .goOn rfl (.stop rfl)
    obtain ⟨chain, package, _, hchain, _, _, _, hnames⟩ := hends ⟨2⟩ (show (2 : Nat) < 3 by decide)
    obtain ⟨_, _, _, hunique, _, _, hpackage, _⟩ := hnames "Missing"
    obtain ⟨rfl, rfl⟩ := hunique _ _ hwalk
    obtain ⟨hvisited, hsame⟩ := hpackage _ rfl
    exact ⟨_, hwalk, hvisited ▸ hsame ▸ hchain⟩
  · obtain ⟨d, hd, hsame⟩ := Option.map_eq_some_iff.mp hsignature
    have hall : ∀ d ∈ sample.types.items,
        ¬ "com/app/Foo$1Task$".toList <+: d.signature.toList := by decide
    refine hall d (Array.mem_of_getElem? hd) ⟨name.toList, ?_⟩
    rw [hsame, Signature.toList_inType, List.append_cons]
    rfl

end Program

end ClassTable
