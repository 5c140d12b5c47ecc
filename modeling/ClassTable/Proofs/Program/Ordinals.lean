import ClassTable.Proofs.Program.Signatures

/-!
# Ordinals

Types in code are told apart by ordinals, and ordinals come from a counter on the type that the
code belongs to. The counter is the only thing about a signature that depends on when a type is
declared, so it is worth saying without it: the ordinal of a type is one more than the number
of older types in code of the same owner, whichever members the code is of.

A counter has thirty-two bits. It does not wrap, as the types that are counted on `o` all come
after `o`, and positions have thirty-two bits too. So the ordinals of one owner, in the order of
declaration, are 1, 2, 3 and so on up to the counter.
-/

namespace ClassTable

namespace Program

/-- The ordinal that the type `id` has in code of `o`. -/
def ordinal (p : Program) (o id : TypeId) : Nat := p.localsBefore o id.index + 1

/-- The types in code of `o`, in the order of declaration. -/
def localsOf (p : Program) (o : TypeId) : List TypeId :=
  p.types.ids.filter fun id => p.isLocalTo o id.index

/-- The types in code of `o` are numbered one after the other. -/
theorem map_localsBefore (p : Program) (o : TypeId) (n : Nat) :
    ((List.range n).filter (p.isLocalTo o)).map (p.localsBefore o) =
      List.range (p.localsBefore o n) := by
  induction n with
  | zero => rfl
  | succ n ih =>
      rw [List.range_succ, List.filter_append, List.map_append, ih, localsBefore_succ]
      by_cases h : p.isLocalTo o n = true
      · rw [if_pos h, List.filter_cons_of_pos h, List.range_succ]
        rfl
      · rw [if_neg h, List.filter_cons_of_neg h, List.filter_nil, List.map_nil, List.append_nil,
          Nat.add_zero]

theorem map_ordinal (p : Program) (o : TypeId) :
    (p.localsOf o).map (p.ordinal o) = List.range' 1 (p.localsBefore o p.types.size) := by
  have hbefore := congrArg (List.map (1 + ·)) (p.map_localsBefore o p.types.size)
  rw [List.map_map, ← List.range'_eq_map_range] at hbefore
  rw [← hbefore, localsOf, Store.ids, List.filter_map, List.map_map]
  exact List.map_congr_left fun i _ => Nat.add_comm _ _

/-- What the scope of a type says about its signature, in the words of the scope. -/
theorem signature_of_scope {p : Program} (h : p.ScopesSign) {id : TypeId} {d : Declaration}
    (hd : p.types.get? id = some d) :
    match d.scope with
    | .package package => d.signature = Signature.inPackage package d.name
    | .type o => ∃ outer, p.types.get? o = some outer ∧
        d.signature = Signature.inType outer.signature d.name
    | .code block => ∃ o outer, ∃ k : UInt32, p.codeOwner block = .ok o ∧
        p.types.get? o = some outer ∧ k.toNat = p.ordinal o id ∧
        d.signature = Signature.inCode outer.signature k d.name := by
  have hsigned := h id d hd
  generalize d.scope = scope, d.signature = s at hsigned ⊢
  cases hsigned with
  | package package => rfl
  | type houter _ => exact ⟨_, houter, rfl⟩
  | code ho houter _ hord => exact ⟨_, _, _, ho, houter, hord, rfl⟩

/-- A counter counts less than all the types that come after its type. -/
theorem Signed.counter_le {p : Program} (h : Signed p) {o : TypeId} {d : Declaration}
    (hd : p.types.get? o = some d) : d.localTypes.toNat + o.index + 1 ≤ p.types.size := by
  have hcount := h.counted o d hd
  have hle := localsBefore_le h.signed o p.types.size
  have hlt := Store.size_of_get? hd
  omega

/-- **A counter does not wrap:** a declaration in code of its type makes it larger by one. -/
theorem Signed.counter_declare {p q : Program} (h : Signed p) {o id : TypeId} {d : Declaration}
    (hd : p.types.get? o = some d) {block : CodeMember} (ho : p.codeOwner block = .ok o)
    {head : Head} (hdeclare : p.declare (.code block) head = .ok (id, q)) :
    ∃ d', q.types.get? o = some d' ∧ d'.localTypes.toNat = d.localTypes.toNat + 1 := by
  obtain ⟨signature, hdeclares⟩ := declares_of_declare hdeclare
  obtain ⟨d', hd', hcount⟩ := hdeclares.counts o d hd
  have howner : p.localOwner? (Declaration.ofHead signature (.code block) head).scope = some o :=
    localOwner?_code.mpr ho
  refine ⟨d', hd', ?_⟩
  rw [hcount, if_pos howner, UInt32.toNat_add]
  have hle := h.counter_le hd
  have hroom := hdeclares.fresh.2
  simp only [maxIndex] at hroom
  exact Nat.mod_eq_of_lt (show _ + 1 < _ by omega)

/--
**Signatures and ordinals have a closed form.**

In every reachable program the signature of a type is made from its scope and its name: from the
package, from the signature of the type in whose body it is, or, in code, from the signature of
the type that the code belongs to and the ordinal, which is one more than the number of older
types in code of that type. The counter of a type is the number of types in its code, and with
the type itself and those before it these are no more than all types. So a declaration in its
code makes the counter larger by one, and the ordinals in its code, in the order of declaration,
are the numbers from one to the counter.
-/
theorem signatures_closed_form {p : Program} (hp : p.Reachable) :
    (∀ id d, p.types.get? id = some d →
      match d.scope with
      | .package package => d.signature = Signature.inPackage package d.name
      | .type o => ∃ outer, p.types.get? o = some outer ∧
          d.signature = Signature.inType outer.signature d.name
      | .code block => ∃ o outer, ∃ k : UInt32, p.codeOwner block = .ok o ∧
          p.types.get? o = some outer ∧ k.toNat = p.ordinal o id ∧
          d.signature = Signature.inCode outer.signature k d.name) ∧
    ∀ o d, p.types.get? o = some d →
      d.localTypes.toNat = (p.localsOf o).length ∧
      d.localTypes.toNat + o.index + 1 ≤ p.types.size ∧
      (p.localsOf o).map (p.ordinal o) = List.range' 1 d.localTypes.toNat ∧
      ∀ block head id q, p.codeOwner block = .ok o →
        p.declare (.code block) head = .ok (id, q) →
        ∃ d', q.types.get? o = some d' ∧ d'.localTypes.toNat = d.localTypes.toNat + 1 := by
  have hs := signed_reachable hp
  refine ⟨fun id d hd => signature_of_scope hs.signed hd, fun o d hd => ?_⟩
  have hordinals := p.map_ordinal o
  rw [← hs.counted o d hd] at hordinals
  have hlength := congrArg List.length hordinals
  rw [List.length_map, List.length_range'] at hlength
  exact ⟨hlength.symm, hs.counter_le hd, hordinals,
    fun _ _ _ _ ho hdeclare => hs.counter_declare hd ho hdeclare⟩

/-- A class with a type in a method, one in a constructor, which is anonymous, and one in an
initializer. They are counted together. -/
theorem ordinals_of_job : ∃ p : Program, p.Reachable ∧
    p.localsOf ⟨0⟩ = [⟨1⟩, ⟨3⟩, ⟨4⟩] ∧
    (p.localsOf ⟨0⟩).map (p.ordinal ⟨0⟩) = [1, 2, 3] ∧
    p.signature? ⟨2⟩ = some "Job$Step" ∧ p.signature? ⟨3⟩ = some "Job$2" ∧
    p.signature? ⟨4⟩ = some "Job$3Step" := by
  have hjob := Reachable.init.tail (@Step.declare _ _ (.package "") (classNamed "Job") ⟨0⟩ rfl)
  have hrun := hjob.tail
    (@Step.addMethod _ _ { owner := ⟨0⟩, returnType := written "void" } ⟨0⟩ rfl)
  have hnew := hrun.tail (@Step.addConstructor _ _ { owner := ⟨0⟩ } ⟨0⟩ rfl)
  have hblock := hnew.tail (@Step.addInitializer _ _ { owner := ⟨0⟩ } ⟨0⟩ rfl)
  have hfirst := hblock.tail
    (@Step.declare _ _ (.code (.method ⟨0⟩)) (classNamed "Step") ⟨1⟩ rfl)
  have hmember := hfirst.tail (@Step.declare _ _ (.type ⟨0⟩) (classNamed "Step") ⟨2⟩ rfl)
  have hsecond := hmember.tail (@Step.declare _ _ (.code (.constructor ⟨0⟩))
    { kindToken := ⟨"class", .dummy⟩ } ⟨3⟩ rfl)
  have hthird := hsecond.tail
    (@Step.declare _ _ (.code (.initializer ⟨0⟩)) (classNamed "Step") ⟨4⟩ rfl)
  obtain ⟨_, hcounters⟩ := signatures_closed_form hthird
  obtain ⟨_, _, hordinals, _⟩ := hcounters ⟨0⟩ _ rfl
  exact ⟨_, hthird, rfl, hordinals, rfl, rfl, rfl⟩

end Program

end ClassTable
