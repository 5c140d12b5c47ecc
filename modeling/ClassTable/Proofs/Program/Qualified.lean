import ClassTable.Proofs.Program.Scoping
import ClassTable.Proofs.Reference.ElementName
import ClassTable.Proofs.Registry.Composites
import ClassTable.Proofs.Registry.Origins

/-!
# Qualified names of top-level types

A reference that writes out package and name looks up a text with slashes, and that text is the
signature that a declaration makes of the same package and name. The two are made by different
rules, one from a text with blanks in it and one from two names, and agree because no character of
a name means anything to either (`Reference.elementName_qualified`).

What could come in between are the member types of the types around the reference. They are asked
for the whole text, as if it were one name. But the last dollar sign of a member's signature comes
before the member's name, and there is no slash in a name, so that no member type ever answers
(`lookup_inType_path`). Nor does a keyword. What is left is the package that the reference stands
in, whose signatures come first, and then the text itself.
-/

namespace ClassTable

/-! ## Texts -/

/-- A text does not end with a character that its end does not have. -/
theorem ne_append_closer {front back other : List Char} {closer : Char} (hne : back ≠ [])
    (h : closer ∉ back) : front ++ back ≠ other ++ [closer] := by
  intro heq
  have hlast := congrArg List.getLast? heq
  rw [List.getLast?_append_of_ne_nil _ hne, List.getLast?_concat] at hlast
  exact h (List.mem_of_getLast? hlast)

/-- Only packages and names bring characters into a signature, slashes aside. -/
theorem Signature.not_mem_inPackage {package name : String} {ch : Char} (hslash : ch ≠ '/')
    (hpackage : ch ∉ package.toList) (hname : ch ∉ name.toList) :
    ch ∉ (inPackage package name).toList := by
  by_cases hne : package = ""
  · subst hne
    exact hname
  · rw [toList_inPackage hne, toList_slashed, List.mem_append, List.mem_cons]
    rintro (hmem | rfl | hmem)
    · obtain ⟨x, hx, heq⟩ := List.mem_map.mp hmem
      split at heq
      · exact hslash heq.symm
      · exact hpackage (heq ▸ hx)
    · exact hslash rfl
    · exact hname hmem

/-- A keyword is one word. -/
theorem Primitive.ofKeyword?_path {key : String} (h : '/' ∈ key.toList) :
    ofKeyword? key = none := by
  cases hkeyword : ofKeyword? key with
  | none => rfl
  | some primitive =>
      rw [← keyword_of_ofKeyword? hkeyword] at h
      revert h
      cases primitive <;> decide

/-- **A reference to a package and a name** looks up the signature that is made of them. -/
theorem Reference.elementName_qualified {r : Reference} {package name : String}
    (hne : package ≠ "")
    (hpackage : (package.toList.all fun ch => isNamePart ch || ch == '.') = true)
    (hname : name.toList.all isNamePart = true)
    (hspells : Text.squeeze r.text.toList = package.toList ++ '.' :: name.toList) :
    r.elementName = Signature.inPackage package name := by
  rw [List.all_eq_true] at hpackage hname
  have hread : ∀ ch ∈ package.toList ++ '.' :: name.toList, opensSuffix ch = false := by
    intro ch hch
    rcases List.mem_append.mp hch with hch | hch
    · have hpart := hpackage ch hch
      rw [Bool.or_eq_true, beq_iff_eq] at hpart
      rcases hpart with hpart | rfl
      · exact opensSuffix_namePart hpart
      · decide
    · rcases List.mem_cons.mp hch with rfl | hch
      · decide
      · exact opensSuffix_namePart (hname ch hch)
  have hchars := elementChars_append hread []
  rw [List.append_nil, List.map_append, List.map_cons, map_name hname] at hchars
  rw [← String.toList_inj, toList_elementName, hspells, hchars,
    Signature.toList_inPackage hne, Signature.toList_slashed]
  exact List.append_nil _

namespace Program

/-- No separator is part of a name, and only slashes are part of a package. -/
structure SeparatorFree (p : Program) : Prop where
  /-- Names are no paths. -/
  no_slash : ∀ id d, p.types.get? id = some d → '/' ∉ d.name.toList
  /-- Names are not those of member types. -/
  no_dollar : ∀ id d, p.types.get? id = some d → '$' ∉ d.name.toList
  /-- Packages are no types. -/
  package_no_dollar : ∀ id d, p.types.get? id = some d → '$' ∉ d.package.toList

/-- A top-level type with a package and a name that source text can write out. -/
structure Nameable (d : Declaration) (package : String) : Prop where
  /-- The type is declared in the package. -/
  scope : d.scope = .package package
  /-- The package has a name. -/
  named : package ≠ ""
  /-- It is made of names with dots between them. -/
  package_part : (package.toList.all fun ch => isNamePart ch || ch == '.') = true
  /-- Nothing in the name can be mistaken for something else. -/
  name_part : d.name.toList.all isNamePart = true

/-- Names can be checked type by type. -/
theorem separatorFree_iff (p : Program) : p.SeparatorFree ↔
    ∀ d ∈ p.types.items,
      '/' ∉ d.name.toList ∧ '$' ∉ d.name.toList ∧ '$' ∉ d.package.toList := by
  refine ⟨?_, ?_⟩
  · intro h d hd
    obtain ⟨i, hi, rfl⟩ := Array.mem_iff_getElem.mp hd
    have hget : p.types.get? ⟨i⟩ = some p.types.items[i] := Array.getElem?_eq_getElem hi
    exact ⟨h.no_slash _ _ hget, h.no_dollar _ _ hget, h.package_no_dollar _ _ hget⟩
  · intro h
    exact ⟨fun id d hd => (h d (Array.mem_of_getElem? hd)).1,
      fun id d hd => (h d (Array.mem_of_getElem? hd)).2.1,
      fun id d hd => (h d (Array.mem_of_getElem? hd)).2.2⟩

instance (p : Program) : Decidable p.SeparatorFree := decidable_of_iff' _ p.separatorFree_iff

variable {p : Program} {c : Catalog} {context : TypeId} {key package : String} {d : Declaration}

/-! ## Nothing comes in between -/

/-- **No member type has a path for a name.** -/
theorem lookup_inType_path (hp : p.Reachable) (hfree : p.SeparatorFree)
    (hpath : '/' ∈ key.toList) (hdollar : '$' ∉ key.toList) (outer : String) :
    p.lookup (Signature.inType outer key) = none := by
  rw [lookup_eq_none_iff (indexed_reachable hp)]
  intro id hid
  obtain ⟨x, hx, hsignature⟩ := Option.map_eq_some_iff.mp hid
  have hno := hfree.no_dollar id x hx
  have hpackage := hfree.package_no_dollar id x hx
  have hsigned := (signed_reachable hp).signed id x hx
  rw [hsignature] at hsigned
  rw [Declaration.package] at hpackage
  generalize hs : Signature.inType outer key = s, x.scope = scope at hsigned hpackage
  cases hsigned with
  | package written =>
      -- a top-level type has no dollar sign at all
      refine Signature.not_mem_inPackage (by decide) hpackage hno ?_
      show '$' ∈ (Signature.inPackage written x.name).toList
      rw [← hs, Signature.toList_inType]
      simp
  | type _ _ =>
      obtain ⟨_, rfl⟩ := Signature.inType_inj hdollar hno hs
      exact hfree.no_slash id x hx hpath
  | code _ _ _ _ =>
      -- an ordinal in front does not make a name a path
      rw [Signature.inCode_eq_inType] at hs
      obtain ⟨_, rfl⟩ := Signature.inType_inj hdollar
        (Signature.not_mem_ordinal (by decide) hno _) hs
      exact Signature.not_mem_ordinal (by decide) (hfree.no_slash id x hx) _ hpath

/-- The signature of a type that has been declared stands for it, unless the package of the context
has a type of that name. -/
theorem lookupName_path {ρ : Type} [Registry ρ] (hp : p.Reachable) (hfree : p.SeparatorFree) (r : ρ)
    {chain : List TypeId} {own : String} (hchain : p.Ancestors context chain own)
    (hpath : '/' ∈ key.toList) (hdollar : '$' ∉ key.toList) {first : TypeId}
    (hfirst : p.lookup key = some first) :
    p.lookupName r context key =
      .ok (some ((p.lookupGlobal r (Signature.inPackage own key)).getD (.declared first))) := by
  have hne : key ≠ "" := by
    rintro rfl
    exact absurd hpath List.not_mem_nil
  have hmember : chain.findSome? (p.memberOf? · key) = none :=
    List.findSome?_eq_none_iff.mpr fun o _ => Option.bind_eq_none_iff.mpr fun outer _ =>
      lookup_inType_path hp hfree hpath hdollar outer.signature
  have hself : p.lookupGlobal r key = some (.declared first) := by rw [lookupGlobal, hfirst]
  have hwhole := lookupWhole_eq (signed_reachable hp).signed r hchain
    (Primitive.ofKeyword?_path hpath)
  simp only [hmember, List.findSome?_cons, Signature.inPackage_unnamed, hself] at hwhole
  rw [lookupName, if_neg hne, hwhole]
  cases p.lookupGlobal r (Signature.inPackage own key) <;> rfl

/-- A text that is neither a keyword nor ends like a composite is the signature of a registered
type, if of any. -/
theorem signature?_eq_some_iff (hc : c.Reachable) {s : String} {i : TypeIndex}
    (hkeyword : Primitive.ofKeyword? s = none) (happly : ∀ front, s ≠ front ++ ">")
    (harray : ∀ element, s ≠ element ++ "[]") :
    Registry.signature? c i = some s ↔ Registry.find? c s = some i := by
  obtain ⟨names, log, hrun⟩ := hc
  have hsound := Catalog.sound_reachable ⟨names, log, hrun⟩
  have hfind : Registry.find? c s = c.inventory.findKey? (.named s) := by
    show c.inventory.find? s = _
    rw [Inventory.find?, hkeyword]
  rw [hfind]
  refine ⟨?_, ?_⟩
  · intro h
    replace h : c.inventory.signature? i = some s := h
    unfold Inventory.signature? at h
    split at h
    · rename_i name hname
      cases h
      obtain ⟨primitive, _, rfl⟩ := Option.map_eq_some_iff.mp hname
      rw [Primitive.ofKeyword?_keyword] at hkeyword
      cases hkeyword
    · obtain ⟨e, he, rfl⟩ := Option.map_eq_some_iff.mp h
      have hknown := hsound.find_of_get i e he
      obtain ⟨call, _, hmade⟩ := madeType_run hrun he
      have hmakes := hmade.makes
      generalize call.request = q at hmakes
      cases hmakes with
      | named _ _ _ => exact hknown
      | specialized _ _ => exact absurd rfl (happly _)
      | array _ => exact absurd rfl (harray _)
  · intro h
    obtain ⟨e, he, hkey⟩ := hsound.get_of_find _ i h
    show c.inventory.signature? i = some s
    rw [Inventory.signature?_of_get? he, (registered_of_named hrun he hkey).1]

/-! ## Qualified references -/

/-- Package and name are in the signature. -/
theorem Nameable.signature_eq (h : Nameable d package) (hsign : p.ScopesSign) {id : TypeId}
    (hd : p.types.get? id = some d) : d.signature = Signature.inPackage package d.name := by
  have hsigned := hsign id d hd
  generalize d.signature = s at hsigned ⊢
  rw [h.scope] at hsigned
  cases hsigned with
  | package _ => rfl

/-- Whatever stands in front of it, the signature ends with the name. -/
theorem Nameable.ends (h : Nameable d package) (own : String) :
    ∃ front, (Signature.inPackage own (Signature.inPackage package d.name)).toList =
      front ++ '/' :: d.name.toList := by
  have hkey := Signature.toList_inPackage h.named d.name
  by_cases hown : own = ""
  · exact ⟨_, by rw [hown, Signature.inPackage_unnamed, hkey]⟩
  · exact ⟨_, by rw [Signature.toList_inPackage hown, hkey, ← List.cons_append,
      ← List.append_assoc]⟩

/-- So it is not that of a composite type, or that of a primitive type. -/
theorem Nameable.signature?_iff (h : Nameable d package) (hc : c.Reachable) (own : String)
    (i : TypeIndex) :
    Registry.signature? c i =
        some (Signature.inPackage own (Signature.inPackage package d.name)) ↔
      Registry.find? c (Signature.inPackage own (Signature.inPackage package d.name)) =
        some i := by
  obtain ⟨front, hfront⟩ := h.ends own
  have hends : ∀ closer ∈ Signature.delimiters, ∀ other : List Char,
      (Signature.inPackage own (Signature.inPackage package d.name)).toList ≠
        other ++ [closer] := by
    intro closer hcloser other
    rw [hfront]
    refine ne_append_closer (List.cons_ne_nil _ _) fun hmem => ?_
    rcases List.mem_cons.mp hmem with rfl | hmem
    · exact absurd hcloser (by decide)
    · exact (isNamePart_iff.mp (List.all_eq_true.mp h.name_part closer hmem)).2.1 hcloser
  refine signature?_eq_some_iff hc (Primitive.ofKeyword?_path (by rw [hfront]; simp)) ?_ ?_
  · intro text heq
    exact hends '>' (by decide) text.toList (by rw [heq, String.toList_append]; rfl)
  · intro text heq
    exact hends ']' (by decide) (text.toList ++ ['['])
      (by rw [heq, String.toList_append, List.append_assoc]; rfl)

/--
**Qualified references reach top-level types.**

Let no name have a separator in it and no package a dollar sign. Take a type that is declared in a
named package, and a reference that writes out the package and the name, with blanks anywhere and
cut into tokens anywhere. It looks up the signature of the type, and finds the first type of that
signature from inside any type. The one exception is a type, in the program or else in the catalog,
whose signature is that name put into the package of the outermost type around the reference. It is
found instead.
-/
theorem qualified_reference_reaches (hp : p.Reachable) (hfree : p.SeparatorFree)
    (hc : c.Reachable) {id : TypeId} (hd : p.types.get? id = some d) (hname : Nameable d package)
    (hcontext : context.index < p.size) {r : Reference}
    (hspells : Text.squeeze r.text.toList = package.toList ++ '.' :: d.name.toList) :
    r.elementName = Signature.inPackage package d.name ∧ r.elementName = d.signature ∧
    ∃ first chain own, p.lookup d.signature = some first ∧ p.FirstSigned d.signature first ∧
      p.Ancestors context chain own ∧
      (∀ other, p.FirstSigned (Signature.inPackage own r.elementName) other →
        p.lookupName c context r.elementName = .ok (some (.declared other))) ∧
      ((∀ j, p.signature? j ≠ some (Signature.inPackage own r.elementName)) →
        (∀ i, Registry.signature? c i = some (Signature.inPackage own r.elementName) →
          p.lookupName c context r.elementName = .ok (some (.canonical i))) ∧
        ((∀ i, Registry.signature? c i ≠ some (Signature.inPackage own r.elementName)) →
          p.lookupName c context r.elementName = .ok (some (.declared first)))) := by
  have hindexed := indexed_reachable hp
  have hsign := (signed_reachable hp).signed
  have helement := Reference.elementName_qualified hname.named hname.package_part hname.name_part
    hspells
  have hsignature := hname.signature_eq hsign hd
  have hpackage : '$' ∉ package.toList := by
    have hno := hfree.package_no_dollar id d hd
    rwa [Declaration.package, hname.scope] at hno
  have hpath : '/' ∈ (Signature.inPackage package d.name).toList := by
    rw [Signature.toList_inPackage hname.named]
    simp
  have hdollar : '$' ∉ (Signature.inPackage package d.name).toList :=
    Signature.not_mem_inPackage (by decide) hpackage (hfree.no_dollar id d hd)
  obtain ⟨first, hfirst⟩ := exists_firstSigned (p := p) (s := Signature.inPackage package d.name)
    (j := id) (by rw [signature?, hd, Option.map_some, hsignature])
  obtain ⟨x, hx⟩ := Store.get?_of_lt (s := p.types) hcontext
  obtain ⟨chain, own, hchain⟩ := exists_ancestors hsign hx
  have hlookup := lookupName_path hp hfree c hchain hpath hdollar ((hindexed _ _).mpr hfirst)
  have hregistered := hname.signature?_iff hc own
  rw [helement, hsignature]
  refine ⟨rfl, rfl, first, chain, own, (hindexed _ _).mpr hfirst, hfirst, hchain, ?_, ?_⟩
  · intro other hother
    rw [hlookup, lookupGlobal, (hindexed _ _).mpr hother]
    rfl
  · intro hnone
    rw [hlookup, lookupGlobal, (lookup_eq_none_iff hindexed).mpr hnone]
    refine ⟨fun i hi => ?_, fun hmissed => ?_⟩
    · rw [(hregistered i).mp hi]
      rfl
    · rw [Option.eq_none_iff_forall_ne_some.mpr fun i hi => hmissed i ((hregistered i).mpr hi)]
      rfl

/-- The class `Foo` of the sample, written in tokens that end and start anywhere. -/
def sampleQualified : Reference :=
  { tokens := [⟨"com . a", .dummy⟩, ⟨"pp.", .dummy⟩, ⟨" Foo ", .dummy⟩] }

/-- Package and name lead to the class from inside its package, unless there is a package
`com.app.com.app` with a class of that name. -/
theorem sample_qualified : ∃ c grown : Catalog, c.Reachable ∧ grown.Reachable ∧
    Registry.find? grown "com/app/com/app/Foo" = some ⟨18⟩ ∧
    sample.lookupName c ⟨2⟩ sampleQualified.elementName = .ok (some (.declared ⟨0⟩)) ∧
    sample.lookupName grown ⟨2⟩ sampleQualified.elementName = .ok (some (.canonical ⟨18⟩)) := by
  have hseed := @Catalog.Run.seed {} _ _ _ _ rfl rfl
  have hname : Nameable sample.types.items[0] "com.app" :=
    ⟨rfl, by decide, by decide, by decide⟩
  have hspells : Text.squeeze sampleQualified.text.toList =
      "com.app".toList ++ '.' :: sample.types.items[0].name.toList := by decide
  have htask : sample.Ancestors ⟨2⟩ [⟨2⟩, ⟨0⟩] "com.app" := .inner rfl rfl (.top rfl rfl)
  have hfree : ∀ j, sample.signature? j ≠ some "com/app/com/app/Foo" := by
    have hall : ∀ d ∈ sample.types.items, d.signature ≠ "com/app/com/app/Foo" := by decide
    intro j hj
    obtain ⟨d, hd, hsignature⟩ := Option.map_eq_some_iff.mp hj
    exact hall d (Array.mem_of_getElem? hd) hsignature
  obtain ⟨c, hc, hunknown⟩ : ∃ c : Catalog, c.Reachable ∧
      Registry.find? c "com/app/com/app/Foo" = none := ⟨_, ⟨_, _, hseed⟩, rfl⟩
  obtain ⟨grown, hgrown, hknown⟩ : ∃ c : Catalog, c.Reachable ∧
      Registry.find? c "com/app/com/app/Foo" = some ⟨18⟩ :=
    ⟨_, ⟨_, _, hseed.call (.register "com/app/com/app/Foo" .classType 0)⟩, rfl⟩
  have hfoo : sample.types.get? ⟨0⟩ = some sample.types.items[0] := rfl
  have hreaches : ∀ c : Catalog, c.Reachable → _ := fun c hc =>
    qualified_reference_reaches sample_reachable (by decide) hc hfoo hname
      (show (2 : Nat) < 3 by decide) hspells
  have hcapturing : Signature.inPackage "com.app"
      (Signature.inPackage "com.app" sample.types.items[0].name) = "com/app/com/app/Foo" := by
    decide
  refine ⟨c, grown, hc, hgrown, hknown, ?_, ?_⟩
  · obtain ⟨helement, _, first, chain, own, hfirst, _, hchain, _, hother⟩ := hreaches c hc
    obtain ⟨rfl, rfl⟩ := hchain.unique htask
    cases hfirst
    rw [helement] at hother ⊢
    rw [hcapturing] at hother
    refine (hother hfree).2 fun i hi => ?_
    rw [← hcapturing, hname.signature?_iff hc, hcapturing, hunknown] at hi
    cases hi
  · obtain ⟨helement, _, first, chain, own, _, _, hchain, _, hother⟩ := hreaches grown hgrown
    obtain ⟨rfl, rfl⟩ := hchain.unique htask
    rw [helement] at hother ⊢
    rw [hcapturing] at hother
    refine (hother hfree).1 ⟨18⟩ ?_
    rw [← hcapturing, hname.signature?_iff hgrown, hcapturing, hknown]

end Program

end ClassTable
