import ClassTable.Proofs.Program.Scoping
import ClassTable.Proofs.Registry.Interning

/-!
# Types and their own names

A simple name that no member type of a type has means the same one scope further out
(`lookupName_outwards`). So it is the surrounding scope that decides whether a type sees its own
name: a type of a package is found in its package, and a member type among the member types of
the type that it stands in.

A type declared in code is found nowhere. Lookup only ever asks for signatures of member types and
of top-level types, and in code an ordinal comes before the name. Inside such a type its name means
what it means in the type that the code belongs to, which may well be another type of that name.
-/

namespace ClassTable.Program

variable {ρ : Type} [Registry ρ] {p : Program} {context id o : TypeId} {d : Declaration}
  {key : String}

theorem memberOf?_eq_none_iff (hp : p.Reachable) (hn : p.WellNamed) (hkey : PlainName key) :
    p.memberOf? o key = none ↔ ∀ j, ¬ p.MemberType o key j := by
  rw [Option.eq_none_iff_forall_ne_some]
  exact forall_congr' fun j => not_congr (memberOf?_iff hp hn hkey)

theorem Ancestors.innermost {chain : List TypeId} {package : String}
    (h : p.Ancestors id chain package) : ∃ outer, chain = id :: outer := by
  cases h with
  | top _ _ => exact ⟨[], rfl⟩
  | inner _ _ _ => exact ⟨_, rfl⟩

/-- **A name that no member type has is passed on outwards.** -/
theorem lookupName_outwards (hp : p.Reachable) (hn : p.WellNamed) (r : ρ)
    (hd : p.types.get? id = some d) (ho : p.owningType d.scope = .ok (some o))
    (hkey : SimpleName key) (hmember : ∀ j, ¬ p.MemberType id key j) :
    p.lookupName r id key = p.lookupName r o key := by
  have hsign := (signed_reachable hp).signed
  obtain ⟨chain, package, hchain⟩ := exists_ancestors hsign hd
  have hnone := (memberOf?_eq_none_iff hp hn hkey.toPlainName).mpr hmember
  cases hchain with
  | top hd' hs =>
      rw [hd] at hd'
      cases hd'
      rw [hs] at ho
      exact absurd ho (by simp [owningType])
  | @inner _ o' _ _ _ hd' ho' houter =>
      rw [hd] at hd'
      cases hd'
      rw [ho] at ho'
      cases ho'
      rw [lookupName_simple hsign r (.inner hd ho houter) hkey,
        lookupName_simple hsign r houter hkey, List.findSome?_cons, hnone]

/-- A member type is found where it is declared. -/
theorem lookupName_memberType (hp : p.Reachable) (hn : p.WellNamed) (r : ρ)
    (hkey : SimpleName key) (ho : o.index < p.size) (h : p.MemberType o key id) :
    p.lookupName r o key = .ok (some (.declared id)) := by
  have hsign := (signed_reachable hp).signed
  obtain ⟨outer, houter⟩ := Store.get?_of_lt (s := p.types) ho
  obtain ⟨chain, package, hchain⟩ := exists_ancestors hsign houter
  obtain ⟨farther, rfl⟩ := hchain.innermost
  rw [lookupName_simple hsign r hchain hkey, List.findSome?_cons,
    (memberOf?_iff hp hn hkey.toPlainName).mpr h]

/-- A top-level type is found from inside, unless a member type of it has its name. -/
theorem lookupName_topLevel (hp : p.Reachable) (hn : p.WellNamed) (r : ρ) {package : String}
    (hd : p.types.get? id = some d) (hs : d.scope = .package package) (hkey : SimpleName d.name)
    (hmember : ∀ j, ¬ p.MemberType id d.name j) :
    p.lookupName r id d.name = .ok (some (.declared id)) := by
  have hnone := (memberOf?_eq_none_iff hp hn hkey.toPlainName).mpr hmember
  have hfound := (lookup_inPackage_iff hp hn hkey.toPlainName).mpr ⟨d, package, hd, hs, rfl, rfl⟩
  rw [lookupName_simple (signed_reachable hp).signed r (.top hd hs) hkey, List.findSome?_cons, hnone,
    List.findSome?_nil, List.findSome?_cons, lookupGlobal, hfound]

/-- **A simple name never means a type that is declared in code.** -/
theorem lookupName_ne_code (hp : p.Reachable) (hn : p.WellNamed) (r : ρ)
    (hcontext : context.index < p.size) (hkey : SimpleName key) (hd : p.types.get? id = some d)
    (hcode : d.scope.isCode = true) : p.lookupName r context key ≠ .ok (some (.declared id)) := by
  intro h
  have hsign := (signed_reachable hp).signed
  obtain ⟨_, hinside⟩ := Store.get?_of_lt (s := p.types) hcontext
  obtain ⟨chain, package, hchain⟩ := exists_ancestors hsign hinside
  rw [lookupName_simple hsign r hchain hkey] at h
  cases hfound : chain.findSome? (p.memberOf? · key) with
  | some member =>
      -- a member type is declared in a body
      rw [hfound] at h
      cases h
      obtain ⟨o, _, hmember⟩ := List.exists_of_findSome?_eq_some hfound
      obtain ⟨d', hd', hs, _⟩ := (memberOf?_iff hp hn hkey.toPlainName).mp hmember
      rw [hd] at hd'
      cases hd'
      rw [hs] at hcode
      cases hcode
  | none =>
      -- and a first hit is declared in a package
      rw [hfound] at h
      obtain ⟨_, _, d', _, hd', hs, _⟩ :=
        (firstHit_findSome? hp hn r hkey.toPlainName _).topLevel (Except.ok.inj h)
      rw [hd] at hd'
      cases hd'
      rw [hs] at hcode
      cases hcode

/--
**A type sees its own name, unless it is declared in code.**

Take a type with a name, and without a member type of that name. If it is declared in a package or
in the body of a type, then inside it its name means the type itself, whatever else is declared or
registered. If it is declared in code, then its name means inside it what it means inside the type
that the code belongs to, and that is never the type itself.
-/
theorem own_name_seen (hp : p.Reachable) (hn : p.WellNamed) (r : ρ)
    (hd : p.types.get? id = some d) (hname : d.name ≠ "")
    (hkeyword : Primitive.ofKeyword? d.name = none)
    (hmember : ∀ j, ¬ p.MemberType id d.name j) :
    (d.scope.isCode = false → p.lookupName r id d.name = .ok (some (.declared id))) ∧
    ∀ block, d.scope = .code block → ∃ o, p.codeOwner block = .ok o ∧
      p.lookupName r id d.name = p.lookupName r o d.name ∧
      p.lookupName r id d.name ≠ .ok (some (.declared id)) := by
  have hkey : SimpleName d.name := ⟨hn.plain id d hd, hname, hkeyword⟩
  have houtwards := (signed_reachable hp).signed.outwards hd
  refine ⟨fun hcode => ?_, fun block hs => ?_⟩
  · cases hs : d.scope with
    | package package => exact lookupName_topLevel hp hn r hd hs hkey hmember
    | type o =>
        have ho : p.owningType d.scope = .ok (some o) := by rw [hs]; rfl
        obtain ⟨_, hpackage⟩ | ⟨o', outer, ho', houter, _⟩ := houtwards
        · rw [hs] at hpackage
          cases hpackage
        · rw [ho] at ho'
          cases ho'
          rw [lookupName_outwards hp hn r hd ho hkey hmember]
          exact lookupName_memberType hp hn r hkey (Store.size_of_get? houter) ⟨d, hd, hs, rfl⟩
    | code block =>
        rw [hs] at hcode
        cases hcode
  · obtain ⟨_, hpackage⟩ | ⟨o, outer, ho, houter, _⟩ := houtwards
    · rw [hs] at hpackage
      cases hpackage
    · have howner : p.codeOwner block = .ok o := by
        rw [hs] at ho
        obtain ⟨owner, howner, heq⟩ := map_eq_ok.mp ho
        cases heq
        exact howner
      exact ⟨o, howner, lookupName_outwards hp hn r hd ho hkey hmember,
        lookupName_ne_code hp hn r (Store.size_of_get? hd) hkey hd (by rw [hs]; rfl)⟩

/-- No type of the sample has a member type of this name. -/
theorem sample_memberless {o : TypeId} {name : String}
    (h : ∀ d ∈ sample.types.items, d.scope = .type o → d.name ≠ name) (j : TypeId) :
    ¬ sample.MemberType o name j := by
  intro hex
  obtain ⟨d, hd, hs, hname⟩ := hex
  exact h d (Array.mem_of_getElem? hd) hs hname

/-- In the sample the member class `Inner` sees its own name. To the local class `Task` its own
name means what it means to the class `Foo`, so it is not the local class. -/
theorem sample_own_names :
    sample.lookupName (Catalog.ofCoreNames {}) ⟨1⟩ "Inner" = .ok (some (.declared ⟨1⟩)) ∧
    sample.lookupName (Catalog.ofCoreNames {}) ⟨2⟩ "Task" ≠ .ok (some (.declared ⟨2⟩)) := by
  have hn : sample.WellNamed := by decide
  have hinner : sample.types.get? ⟨1⟩ = some _ := rfl
  have htask : sample.types.get? ⟨2⟩ = some _ := rfl
  obtain ⟨hmember, _⟩ := own_name_seen sample_reachable hn (Catalog.ofCoreNames {}) hinner
    (by decide) (by decide) (sample_memberless (by decide))
  obtain ⟨_, hlocal⟩ := own_name_seen sample_reachable hn (Catalog.ofCoreNames {}) htask
    (by decide) (by decide) (sample_memberless (by decide))
  obtain ⟨_, _, _, hother⟩ := hlocal (.method ⟨0⟩) rfl
  exact ⟨hmember rfl, hother⟩

/-- **A local class does not see its own name.** In the sample, `Task` has no member type of that
name, and its name is not found in it. -/
theorem local_name_unseen :
    sample.Reachable ∧ sample.WellNamed ∧ (Catalog.ofCoreNames {}).Reachable ∧
    (∃ d, sample.types.get? ⟨2⟩ = some d ∧ d.name = "Task") ∧ SimpleName "Task" ∧
    (∀ j, ¬ sample.MemberType ⟨2⟩ "Task" j) ∧
    sample.lookupName (Catalog.ofCoreNames {}) ⟨2⟩ "Task" = .ok none := by
  have hkey : SimpleName "Task" := by decide
  have hchain : sample.Ancestors ⟨2⟩ [⟨2⟩, ⟨0⟩] "com.app" := .inner rfl rfl (.top rfl rfl)
  have hlookup := lookupName_simple (signed_reachable sample_reachable).signed
    (Catalog.ofCoreNames {}) hchain hkey
  exact ⟨sample_reachable, by decide, ⟨_, _, .seed rfl rfl⟩, ⟨_, rfl, rfl⟩, hkey,
    sample_memberless (by decide), hlookup⟩

end ClassTable.Program
