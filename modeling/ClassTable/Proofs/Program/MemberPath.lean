import ClassTable.Proofs.Program.Scoping
import ClassTable.Proofs.Registry.Interning

/-!
# Qualified names of member types

A name that is qualified by dots is looked up as a path. If no candidate has the whole path, its
shortest head that is a type decides, and what comes after the head is put behind the signature of
that type, with a dollar sign before each name. Nothing is asked on the way: there is one question,
for the signature at the end.

So it has to be shown that the answer is the type that the names lead to from one body to the next
(`MemberPath`). They do lead to that signature, one name at a time (`MemberPath.signature`), and in
a well-named program no other type has it. Types of a registry come after declared types, and longer
heads after shorter ones, so that neither has a say in it.
-/

namespace ClassTable

/-! ## Cutting a path -/

namespace Path

/-- A path is cut first at its first slash. -/
theorem cutsOf_append {first : List Char} (h : '/' ∉ first) (rest : List Char) :
    ∃ later, cutsOf (first ++ '/' :: rest) = (first, rest) :: later := by
  induction first with
  | nil => exact ⟨_, rfl⟩
  | cons c first ih =>
      have hc := List.ne_of_not_mem_cons h
      obtain ⟨later, hlater⟩ := ih (List.not_mem_of_not_mem_cons h)
      rw [List.cons_append, cutsOf, hlater, if_neg (Ne.symm hc)]
      exact ⟨_, rfl⟩

theorem segmentsOf_append {first : List Char} (h : '/' ∉ first) (rest : List Char) :
    segmentsOf (first ++ '/' :: rest) = first :: segmentsOf rest := by
  induction first with
  | nil => rfl
  | cons c first ih =>
      have hc := List.ne_of_not_mem_cons h
      rw [List.cons_append, segmentsOf, if_neg (Ne.symm hc), ih (List.not_mem_of_not_mem_cons h)]

theorem segmentsOf_single {name : List Char} (h : '/' ∉ name) : segmentsOf name = [name] := by
  induction name with
  | nil => rfl
  | cons c name ih =>
      have hc := List.ne_of_not_mem_cons h
      rw [segmentsOf, if_neg (Ne.symm hc), ih (List.not_mem_of_not_mem_cons h)]

/-- Names with slashes between them are read back. -/
theorem segmentsOf_intercalate {names : List (List Char)} (hne : names ≠ [])
    (h : ∀ name ∈ names, '/' ∉ name) : segmentsOf (['/'].intercalate names) = names := by
  induction names with
  | nil => exact absurd rfl hne
  | cons name names ih =>
      have hname := h name List.mem_cons_self
      cases names with
      | nil => rw [List.intercalate_singleton, segmentsOf_single hname]
      | cons next names =>
          rw [List.intercalate_cons_cons, List.append_assoc, List.singleton_append,
            segmentsOf_append hname, ih (List.cons_ne_nil _ _) fun other hother =>
              h other (List.mem_cons_of_mem name hother)]

/-- **The first way to read a path** is as its first name with the others after it. -/
theorem splits_intercalate {head : String} {names : List String} (hhead : '/' ∉ head.toList)
    (hne : names ≠ []) (hnames : ∀ name ∈ names, '/' ∉ name.toList) :
    ∃ later, splits ("/".intercalate (head :: names)) = (head, names) :: later := by
  have hrest : segmentsOf (['/'].intercalate (names.map String.toList)) =
      names.map String.toList := by
    refine segmentsOf_intercalate (by simpa using hne) fun name hname => ?_
    obtain ⟨text, htext, rfl⟩ := List.mem_map.mp hname
    exact hnames text htext
  have hkey : ("/".intercalate (head :: names)).toList =
      head.toList ++ '/' :: ['/'].intercalate (names.map String.toList) := by
    rw [String.toList_intercalate, List.map_cons,
      List.intercalate_cons_of_ne_nil (by simpa using hne), List.append_assoc]
    rfl
  obtain ⟨later, hlater⟩ := cutsOf_append hhead (['/'].intercalate (names.map String.toList))
  rw [splits, hkey, hlater, List.map_cons, hrest, List.map_map]
  have hread : String.ofList ∘ String.toList = id := funext fun _ => String.ofList_toList
  rw [hread, List.map_id, String.ofList_toList]
  exact ⟨_, rfl⟩

end Path

namespace Program

variable {ρ : Type} [Registry ρ] {p : Program} {context found id o : TypeId} {head : String}
  {names : List String}

/-! ## From one body to the next -/

/-- The names lead from the type `o` to the type `id`, each to a member type of the one before. -/
inductive MemberPath (p : Program) : TypeId → List String → TypeId → Prop where
  | here {o : TypeId} : MemberPath p o [] o
  | into {o member id : TypeId} {name : String} {names : List String} :
      p.MemberType o name member → MemberPath p member names id →
      MemberPath p o (name :: names) id

/-- A type with a member type is there. -/
theorem outer_of_memberType (h : p.ScopesSign) {name : String} (hmember : p.MemberType o name id) :
    ∃ d, p.types.get? o = some d := by
  obtain ⟨x, hx, hscope, _⟩ := hmember
  obtain ⟨_, hpackage⟩ | ⟨o', d, ho', hd, _⟩ := h.outwards hx
  · rw [hscope] at hpackage
    cases hpackage
  · rw [hscope] at ho'
    cases ho'
    exact ⟨d, hd⟩

/-- They lead to the signature that is made of them. -/
theorem MemberPath.signature (h : p.ScopesSign) (hpath : p.MemberPath o names id)
    {d : Declaration} (hd : p.types.get? o = some d) :
    ∃ d', p.types.get? id = some d' ∧ d'.signature = names.foldl Signature.inType d.signature := by
  induction hpath generalizing d with
  | here => exact ⟨d, hd, rfl⟩
  | into hmember _ ih =>
      obtain ⟨x, hx, hscope, rfl⟩ := hmember
      have hsigned := h _ x hx
      obtain ⟨d', hd', hsignature⟩ := ih hx
      generalize x.signature = signature at hsigned hsignature
      rw [hscope] at hsigned
      cases hsigned with
      | type houter _ =>
          rw [hd] at houter
          cases houter
          exact ⟨d', hd', hsignature⟩

/-- They are names of types. -/
theorem MemberPath.no_slash (hn : p.WellNamed) (hpath : p.MemberPath o names id) :
    ∀ name ∈ names, '/' ∉ name.toList := by
  induction hpath with
  | here => exact fun _ hname => absurd hname List.not_mem_nil
  | into hmember _ ih =>
      obtain ⟨x, hx, _, rfl⟩ := hmember
      exact List.forall_mem_cons.mpr ⟨(hn.plain _ x hx).no_slash, ih⟩

/-- The type that they lead to is found by one question. -/
theorem lookupNested_memberPath (hp : p.Reachable) (hn : p.WellNamed) (r : ρ)
    (hpath : p.MemberPath found names id) {d : Declaration} (hd : p.types.get? found = some d) :
    p.lookupNested r (.declared found) names = some (.declared id) := by
  obtain ⟨d', hd', hsignature⟩ := hpath.signature (signed_reachable hp).signed hd
  have hfound := (lookup_eq_some_iff hp hn).mpr ⟨d', hd', hsignature⟩
  have hreadable : p.readableSignature r (.declared found) = some d.signature := by
    rw [readableSignature, signatureWithin, hd]
    rfl
  rw [lookupNested, hreadable]
  show p.lookupGlobal r (names.foldl Signature.inType d.signature) = _
  rw [lookupGlobal, hfound]

/--
**Qualified names follow the member structure.**

Let no candidate have the whole of a qualified name. If its first name means a declared type, as it
is seen from the context, and the other names lead from there to a type, each to a member type of
the one before, then the qualified name means the type at the end. It does not matter how many names
there are, what is registered, and whether longer heads of the name are types as well.
-/
theorem qualified_name_followed (hp : p.Reachable) (hn : p.WellNamed) (r : ρ)
    (hhead : '/' ∉ head.toList) (hne : names ≠ [])
    (hmissed : p.lookupWhole r context ("/".intercalate (head :: names)) = .ok none)
    (hfound : p.lookupWhole r context head = .ok (some (.declared found)))
    (hpath : p.MemberPath found names id) :
    p.lookupName r context ("/".intercalate (head :: names)) = .ok (some (.declared id)) := by
  have hsign := (signed_reachable hp).signed
  obtain ⟨d, hd⟩ : ∃ d, p.types.get? found = some d := by
    cases hpath with
    | here => exact absurd rfl hne
    | into hmember _ => exact outer_of_memberType hsign hmember
  have hkey : "/".intercalate (head :: names) ≠ "" := by
    rw [← String.toList_inj.ne, String.toList_intercalate, List.map_cons,
      List.intercalate_cons_of_ne_nil (by simpa using hne)]
    simp
  obtain ⟨later, hsplits⟩ := Path.splits_intercalate hhead hne (hpath.no_slash hn)
  have hnested := lookupNested_memberPath hp hn r hpath hd
  -- the first reading of the path decides
  simp only [lookupName, if_neg hkey, hmissed, hsplits, lookupSplit, hfound, bind, Except.bind,
    Option.bind_some, hnested, pure, Except.pure]

/-! ## A name with two readings -/

/-- In the package `com.app` a class `Foo`, with a member class `Inner` and in that a member class
`Leaf`. In the package `Foo` a class `Inner`, with a member class `Leaf` too. -/
def nested : Program where
  types := ⟨#[
    .ofHead "com/app/Foo" (.package "com.app") (classNamed "Foo"),
    .ofHead "com/app/Foo$Inner" (.type ⟨0⟩) (classNamed "Inner"),
    .ofHead "com/app/Foo$Inner$Leaf" (.type ⟨1⟩) (classNamed "Leaf"),
    .ofHead "Foo/Inner" (.package "Foo") (classNamed "Inner"),
    .ofHead "Foo/Inner$Leaf" (.type ⟨3⟩) (classNamed "Leaf")]⟩
  bySignature := ((((Std.TreeMap.empty.insertIfNew "com/app/Foo" ⟨0⟩).insertIfNew
    "com/app/Foo$Inner" ⟨1⟩).insertIfNew "com/app/Foo$Inner$Leaf" ⟨2⟩).insertIfNew
    "Foo/Inner" ⟨3⟩).insertIfNew "Foo/Inner$Leaf" ⟨4⟩

theorem nested_reachable : Reachable nested := by
  have hfoo := Reachable.init.tail
    (@Step.declare _ _ (.package "com.app") (classNamed "Foo") ⟨0⟩ rfl)
  have hinner := hfoo.tail (@Step.declare _ _ (.type ⟨0⟩) (classNamed "Inner") ⟨1⟩ rfl)
  have hleaf := hinner.tail (@Step.declare _ _ (.type ⟨1⟩) (classNamed "Leaf") ⟨2⟩ rfl)
  have hother := hleaf.tail (@Step.declare _ _ (.package "Foo") (classNamed "Inner") ⟨3⟩ rfl)
  exact hother.tail (@Step.declare _ _ (.type ⟨3⟩) (classNamed "Leaf") ⟨4⟩ rfl)

/-- Inside `Foo` the longer head `Foo/Inner` means the class of the package `Foo`. Still
`Foo/Inner/Leaf` is a member of a member of `Foo`, also if a library type has its signature. -/
theorem nested_qualified : ∃ c : Catalog, c.Reachable ∧
    Registry.find? c "com/app/Foo$Inner$Leaf" = some ⟨18⟩ ∧
    nested.lookupWhole c ⟨0⟩ "Foo/Inner" = .ok (some (.declared ⟨3⟩)) ∧
    nested.lookupName c ⟨0⟩ "Foo/Inner/Leaf" = .ok (some (.declared ⟨2⟩)) := by
  have hrun := (@Catalog.Run.seed {} _ _ _ _ rfl rfl).call
    (.register "com/app/Foo$Inner$Leaf" .classType 0)
  have hsign := (signed_reachable nested_reachable).signed
  have hfoo : nested.Ancestors ⟨0⟩ [⟨0⟩] "com.app" := .top rfl rfl
  have hpath : nested.MemberPath ⟨0⟩ ["Inner", "Leaf"] ⟨2⟩ :=
    .into ⟨_, rfl, rfl, rfl⟩ (.into ⟨_, rfl, rfl, rfl⟩ .here)
  obtain ⟨c, hc, hlibrary, hmissed, hlonger, hfound⟩ : ∃ c : Catalog, c.Reachable ∧
      Registry.find? c "com/app/Foo$Inner$Leaf" = some ⟨18⟩ ∧
      nested.lookupWhole c ⟨0⟩ "Foo/Inner/Leaf" = .ok none ∧
      nested.lookupWhole c ⟨0⟩ "Foo/Inner" = .ok (some (.declared ⟨3⟩)) ∧
      nested.lookupWhole c ⟨0⟩ "Foo" = .ok (some (.declared ⟨0⟩)) :=
    ⟨_, ⟨_, _, hrun⟩, rfl, lookupWhole_eq hsign _ hfoo (by decide),
      lookupWhole_eq hsign _ hfoo (by decide), lookupWhole_eq hsign _ hfoo (by decide)⟩
  exact ⟨c, hc, hlibrary, hlonger, qualified_name_followed nested_reachable (by decide) c
    (by decide) (by decide) hmissed hfound hpath⟩

end Program

end ClassTable
