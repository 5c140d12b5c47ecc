import ClassTable.Proofs.Program.History

/-!
# Where signatures come from

A signature is made once, from the scope and the name of a declaration, and from a
counter in the case of code. This file says the same without the counter: in a
reachable program every signature is the one that the scopes determine, and the
ordinal of a type in code is one more than the number of earlier types in code of
the same owner.

The invariant has three parts that need each other:

* signatures are as the scopes say, and whatever a type stands in is older;
* counters agree with the number of types in code, so the next ordinal is right;
* there are never more types than names for them, so the counter, of thirty-two
  bits, does not wrap: the types counted on `o` all come after `o`.

The index by signature is exact whatever the names are: it leads to the first type
of each signature.
-/

namespace ClassTable

namespace Program

/-! ## What stays from one program to a later one -/

/-- The types of `p` are still there in `q`, and so is the code. -/
structure Grows (p q : Program) : Prop where
  /-- Types stay as they were declared. -/
  types : ∀ id d, p.types.get? id = some d →
    ∃ d', q.types.get? id = some d' ∧ d'.initial = d.initial
  /-- Code stays with its owner. -/
  owners : ∀ block o, p.codeOwner block = .ok o → q.codeOwner block = .ok o

theorem grows_of_sameTypes {p q : Program} (h : SameTypes p q) : Grows p q where
  types := fun _ _ hd => Store.get?_of_map_eq h.initial hd
  owners := h.owners

theorem Declares.get? {p q : Program} {id : TypeId} {d : Declaration} (h : Declares p q id d)
    (j : TypeId) : (q.types.get? j).map Declaration.initial =
      if j.index = p.types.size then some d else (p.types.get? j).map Declaration.initial := by
  rw [← Store.get?_map, h.initial, Store.get?_push, Store.size_map, Store.get?_map]

theorem grows_of_declares {p q : Program} {id : TypeId} {d : Declaration}
    (h : Declares p q id d) : Grows p q where
  types := by
    intro j x hx
    have hlt := Store.size_of_get? hx
    have hj := h.get? j
    rw [if_neg (by omega), hx] at hj
    exact Option.map_eq_some_iff.mp hj
  owners := fun _ _ ho => h.codeOwner.mpr ho

theorem grows_step {p q : Program} (h : Step p q) : Grows p q := by
  rcases step_types h with hsame | ⟨_, _, hdeclares⟩
  · exact grows_of_sameTypes hsame
  · exact grows_of_declares hdeclares

theorem Declares.size {p q : Program} {id : TypeId} {d : Declaration} (h : Declares p q id d) :
    q.types.size = p.types.size + 1 := by
  have hsize := congrArg Store.size h.initial
  rwa [Store.size_map, Store.size_push, Store.size_map] at hsize

theorem SameTypes.size {p q : Program} (h : SameTypes p q) : q.types.size = p.types.size := by
  rw [← Store.size_map q.types Declaration.initial, h.initial, Store.size_map]

/-! ## The closed form -/

/-- Whether the type at position `i` is declared in code of `o`. -/
def isLocalTo (p : Program) (o : TypeId) (i : Nat) : Bool :=
  (p.types.get? ⟨i⟩).any fun d => p.localOwner? d.scope == some o

/-- Number of types in code of `o` among the first `n` types. -/
def localsBefore (p : Program) (o : TypeId) (n : Nat) : Nat :=
  (List.range n).countP (p.isLocalTo o)

/-- The signature that a scope and a name give to the type `id`. -/
inductive SignedAs (p : Program) (id : TypeId) (name : String) : Scope → String → Prop where
  | package (package : String) :
      SignedAs p id name (.package package) (Signature.inPackage package name)
  | type {o : TypeId} {outer : Declaration} :
      p.types.get? o = some outer → o.index < id.index →
      SignedAs p id name (.type o) (Signature.inType outer.signature name)
  | code {block : CodeMember} {o : TypeId} {outer : Declaration} {ordinal : UInt32} :
      p.codeOwner block = .ok o → p.types.get? o = some outer → o.index < id.index →
      ordinal.toNat = p.localsBefore o id.index + 1 →
      SignedAs p id name (.code block) (Signature.inCode outer.signature ordinal name)

/-- Every signature is the one that the scopes determine. -/
def ScopesSign (p : Program) : Prop :=
  ∀ id d, p.types.get? id = some d → p.SignedAs id d.name d.scope d.signature

/-- Signatures and counters. -/
structure Signed (p : Program) : Prop where
  /-- Every type has a name. -/
  size_le : p.types.size ≤ maxIndex + 1
  /-- Signatures are as the scopes say. -/
  signed : p.ScopesSign
  /-- Counters count the types in code. -/
  counted : ∀ o d, p.types.get? o = some d → d.localTypes.toNat = p.localsBefore o p.types.size

theorem localsBefore_succ (p : Program) (o : TypeId) (n : Nat) :
    p.localsBefore o (n + 1) = p.localsBefore o n + if p.isLocalTo o n then 1 else 0 := by
  unfold localsBefore
  rw [List.range_succ, List.countP_append, List.countP_singleton]

theorem isLocalTo_iff {p : Program} {o : TypeId} {i : Nat} :
    p.isLocalTo o i = true ↔
      ∃ d block, p.types.get? ⟨i⟩ = some d ∧ d.scope = .code block ∧ p.codeOwner block = .ok o := by
  unfold isLocalTo
  cases hd : p.types.get? ⟨i⟩ with
  | none => simp
  | some d =>
      cases hs : d.scope with
      | package name => simp [hs, localOwner?]
      | type id => simp [hs, localOwner?]
      | code block => simp [hs, localOwner?_code]

/-- The owner of code is older than the types in it. -/
theorem lt_of_isLocalTo {p : Program} (h : p.ScopesSign) {o : TypeId} {i : Nat}
    (hi : p.isLocalTo o i = true) : o.index < i := by
  obtain ⟨d, block, hd, hs, howner⟩ := isLocalTo_iff.mp hi
  have hsigned := h ⟨i⟩ d hd
  rw [hs] at hsigned
  generalize d.signature = s at hsigned
  cases hsigned with
  | code ho _ hlt _ =>
      rw [ho] at howner
      cases howner
      exact hlt

/-- All types counted on `o` come after `o`. -/
theorem localsBefore_le {p : Program} (h : p.ScopesSign) (o : TypeId) (n : Nat) :
    p.localsBefore o n ≤ n - (o.index + 1) := by
  induction n with
  | zero => simp [localsBefore]
  | succ n ih =>
      rw [localsBefore_succ]
      split
      · rename_i hi
        have hlt := lt_of_isLocalTo h hi
        omega
      · omega

/-- Later types of the same owner have larger ordinals. -/
theorem localsBefore_lt {p : Program} {o : TypeId} {i n : Nat} (hi : p.isLocalTo o i = true)
    (hin : i < n) : p.localsBefore o i < p.localsBefore o n := by
  induction n with
  | zero => exact absurd hin (Nat.not_lt_zero i)
  | succ n ih =>
      rw [localsBefore_succ]
      rcases Nat.lt_succ_iff_lt_or_eq.mp hin with hlt | heq
      · have := ih hlt
        omega
      · subst heq
        rw [if_pos hi]
        omega

/-! ## The closed form holds in later programs -/

theorem Grows.isLocalTo {p q : Program} (hg : Grows p q) (h : p.ScopesSign) {i : Nat}
    (hi : i < p.types.size) (o : TypeId) : q.isLocalTo o i = p.isLocalTo o i := by
  -- the owner of its code was known before, if it is in code
  obtain ⟨d, hd⟩ := Store.get?_of_lt (s := p.types)
    (show (⟨i⟩ : TypeId).index < p.types.size from hi)
  obtain ⟨d', hd', hinit⟩ := hg.types _ _ hd
  have hscope : d'.scope = d.scope := Declaration.scope_of_initial hinit
  have howner : q.localOwner? d.scope = p.localOwner? d.scope := by
    have hsigned := h _ _ hd
    generalize d.signature = s, d.scope = scope at hsigned ⊢
    cases hsigned with
    | package name => rfl
    | type _ _ => rfl
    | code ho _ _ _ => rw [localOwner?_code.mpr ho, localOwner?_code.mpr (hg.owners _ _ ho)]
  unfold Program.isLocalTo
  rw [hd, hd', Option.any_some, Option.any_some, hscope, howner]

theorem Grows.localsBefore {p q : Program} (hg : Grows p q) (h : p.ScopesSign) {n : Nat}
    (hn : n ≤ p.types.size) (o : TypeId) : q.localsBefore o n = p.localsBefore o n := by
  induction n with
  | zero => rfl
  | succ n ih =>
      rw [localsBefore_succ, localsBefore_succ, ih (by omega), hg.isLocalTo h (by omega)]

theorem Grows.signedAs {p q : Program} (hg : Grows p q) (h : p.ScopesSign) {id : TypeId}
    (hid : id.index ≤ p.types.size) {name : String} {scope : Scope} {s : String}
    (hs : p.SignedAs id name scope s) : q.SignedAs id name scope s := by
  cases hs with
  | package name => exact .package name
  | type houter hlt =>
      obtain ⟨outer', houter', hinit⟩ := hg.types _ _ houter
      have hsig := Declaration.signature_of_initial hinit
      exact hsig ▸ .type houter' hlt
  | code ho houter hlt hord =>
      obtain ⟨outer', houter', hinit⟩ := hg.types _ _ houter
      have hsig := Declaration.signature_of_initial hinit
      exact hsig ▸ .code (hg.owners _ _ ho) houter' hlt (by rw [hord, hg.localsBefore h hid])

/-! ## Every step keeps the closed form -/

theorem signed_init : Signed ∅ where
  size_le := Nat.zero_le _
  signed := fun id d h => absurd h (by rw [get?_types_empty]; simp)
  counted := fun o d h => absurd h (by rw [get?_types_empty]; simp)

theorem signed_sameTypes {p q : Program} (h : Signed p) (hs : SameTypes p q) : Signed q where
  size_le := hs.size ▸ h.size_le
  signed := by
    intro id d' hd'
    obtain ⟨d, hd, hinit⟩ := Store.get?_of_map_eq hs.initial.symm hd'
    have hlt := Store.size_of_get? hd
    have hsigned := (grows_of_sameTypes hs).signedAs h.signed (by omega) (h.signed id d hd)
    rwa [Declaration.signature_of_initial hinit, Declaration.scope_of_initial hinit,
      Declaration.name_of_initial hinit] at hsigned
  counted := by
    intro o d' hd'
    obtain ⟨d, hd, hcount⟩ := Store.get?_of_map_eq hs.counts.symm hd'
    rw [← hcount, h.counted o d hd, hs.size,
      (grows_of_sameTypes hs).localsBefore h.signed (Nat.le_refl _)]

/-- The signature that a new type gets is the one that its scope and its name determine. -/
theorem signedAs_fresh {p q : Program} {id : TypeId} {d : Declaration} (h : Signed p)
    (hd : Declares p q id d) : q.SignedAs id d.name d.scope d.signature := by
  have hsig := hd.signature
  have hid : id.index = p.types.size := by rw [hd.fresh.1]
  have hroom := hd.fresh.2
  refine (grows_of_declares hd).signedAs h.signed (Nat.le_of_eq hid) ?_
  generalize d.scope = scope, d.signature = s at hsig
  cases scope with
  | package name =>
      cases hsig
      exact .package name
  | type o =>
      obtain ⟨outer, houter, rfl⟩ := map_eq_ok.mp hsig
      have hget := Store.get_eq_ok_iff.mp houter
      exact .type hget (hid ▸ Store.size_of_get? hget)
  | code block =>
      obtain ⟨o, ho, hrest⟩ := bind_eq_ok.mp hsig
      obtain ⟨outer, houter, hlast⟩ := bind_eq_ok.mp hrest
      have hget := Store.get_eq_ok_iff.mp houter
      have hlt := Store.size_of_get? hget
      cases hlast
      refine .code ho hget (hid ▸ hlt) ?_
      -- the counter does not wrap: what it counts comes after `o`
      have hcount := h.counted o outer hget
      have hle := localsBefore_le h.signed o p.types.size
      rw [hid, UInt32.toNat_add, hcount]
      simp only [maxIndex] at hroom
      exact Nat.mod_eq_of_lt (show _ + 1 < _ by omega)

theorem Declares.isLocalTo {p q : Program} {id : TypeId} {d : Declaration}
    (h : Declares p q id d) (o : TypeId) :
    q.isLocalTo o p.types.size = (p.localOwner? d.scope == some o) := by
  have hnew := h.get? id
  rw [if_pos (by rw [h.fresh.1])] at hnew
  obtain ⟨y, hy, hinit⟩ := Option.map_eq_some_iff.mp hnew
  have hscope : y.scope = d.scope := by
    rw [← h.bare] at hinit
    exact Declaration.scope_of_initial hinit
  have howner : q.localOwner? d.scope = p.localOwner? d.scope := by
    cases d.scope with
    | package name => rfl
    | type id => rfl
    | code block =>
        refine Option.ext fun o => ?_
        rw [localOwner?_code, localOwner?_code, h.codeOwner]
  unfold Program.isLocalTo
  rw [show (⟨p.types.size⟩ : TypeId) = id from h.fresh.1.symm, hy, Option.any_some, hscope, howner]

theorem scopesSign_declares {p q : Program} {id : TypeId} {d : Declaration} (h : Signed p)
    (hd : Declares p q id d) : q.ScopesSign := by
  intro j d' hd'
  have hj := hd.get? j
  rw [hd', Option.map_some] at hj
  split at hj
  · rename_i hsize
    have hinit : d'.initial = d.initial := by rw [hd.bare]; exact Option.some.inj hj
    have hjd : j = id := EntityId.ext (by rw [hsize, hd.fresh.1])
    rw [Declaration.signature_of_initial hinit, Declaration.scope_of_initial hinit,
      Declaration.name_of_initial hinit, hjd]
    exact signedAs_fresh h hd
  · obtain ⟨x, hx, hinit⟩ := Option.map_eq_some_iff.mp hj.symm
    have hlt := Store.size_of_get? hx
    rw [Declaration.signature_of_initial hinit.symm, Declaration.scope_of_initial hinit.symm,
      Declaration.name_of_initial hinit.symm]
    exact (grows_of_declares hd).signedAs h.signed (by omega) (h.signed j x hx)

theorem signed_declares {p q : Program} {id : TypeId} {d : Declaration} (h : Signed p)
    (hd : Declares p q id d) : Signed q := by
  have hsigned := scopesSign_declares h hd
  have hroom := hd.fresh.2
  refine ⟨by rw [hd.size]; omega, hsigned, ?_⟩
  intro o d' hd'
  rw [hd.size]
  have hlast := Store.size_of_get? hd'
  rw [hd.size] at hlast
  by_cases ho : o.index < p.types.size
  · -- an older type: its counter went up exactly if the new type is in its code
    obtain ⟨x, hx⟩ := Store.get?_of_lt (s := p.types) ho
    obtain ⟨y, hy, hcount⟩ := hd.counts o x hx
    rw [hd'] at hy
    cases hy
    have hxcount := h.counted o x hx
    have hle := localsBefore_le h.signed o p.types.size
    rw [localsBefore_succ, (grows_of_declares hd).localsBefore h.signed (Nat.le_refl _),
      hd.isLocalTo, hcount]
    by_cases hin : p.localOwner? d.scope = some o
    · simp only [maxIndex] at hroom
      rw [if_pos hin, hin, UInt32.toNat_add, hxcount, beq_self_eq_true, if_pos rfl]
      exact Nat.mod_eq_of_lt (show _ + 1 < _ by omega)
    · rw [if_neg hin, hxcount, if_neg (by simpa using hin)]
      rfl
  · -- the new type itself: nothing is counted on it, and nothing stands in it
    have hle := localsBefore_le hsigned o (p.types.size + 1)
    have hid : o = id := EntityId.ext (by rw [hd.fresh.1]; show o.index = p.types.size; omega)
    rw [hd.uncounted d' (hid ▸ hd')]
    show 0 = _
    omega

theorem signed_step {p q : Program} (h : Signed p) (hs : Step p q) : Signed q := by
  rcases step_types hs with hsame | ⟨_, _, hdeclares⟩
  · exact signed_sameTypes h hsame
  · exact signed_declares h hdeclares

/-- **Signatures are as the scopes say, in every reachable program.** -/
theorem signed_reachable {p : Program} (h : Reachable p) : Signed p := by
  induction h with
  | init => exact signed_init
  | tail _ hs ih => exact signed_step ih hs

/-! ## The index leads to the first type of each signature -/

/-- The signature of a declared type. -/
def signature? (p : Program) (id : TypeId) : Option String :=
  (p.types.get? id).map Declaration.signature

/-- `id` is the first type of signature `s`. -/
def FirstSigned (p : Program) (s : String) (id : TypeId) : Prop :=
  p.signature? id = some s ∧ ∀ j, p.signature? j = some s → id.index ≤ j.index

/-- The index leads to the first type of each signature. -/
def Indexed (p : Program) : Prop := ∀ s id, p.lookup s = some id ↔ p.FirstSigned s id

theorem exists_firstSigned {p : Program} {s : String} {j : TypeId} (h : p.signature? j = some s) :
    ∃ id, p.FirstSigned s id := by
  -- by descent: a type that is not the first has an older one of its signature
  obtain ⟨n, hn⟩ : ∃ n, j.index = n := ⟨_, rfl⟩
  induction n using Nat.strongRecOn generalizing j with
  | ind n ih =>
    by_cases hex : ∃ k, p.signature? k = some s ∧ k.index < j.index
    · obtain ⟨k, hk, hlt⟩ := hex
      exact ih k.index (hn ▸ hlt) hk rfl
    · refine ⟨j, h, fun k hk => ?_⟩
      rcases Nat.lt_or_ge k.index j.index with hlt | hge
      · exact absurd ⟨k, hk, hlt⟩ hex
      · exact hge

theorem lookup_eq_none_iff {p : Program} (h : Indexed p) {s : String} :
    p.lookup s = none ↔ ∀ id, p.signature? id ≠ some s := by
  refine ⟨?_, ?_⟩
  · intro hnone id hid
    obtain ⟨first, hfirst⟩ := exists_firstSigned hid
    rw [(h s first).mpr hfirst] at hnone
    exact absurd hnone (by simp)
  · intro hall
    cases hl : p.lookup s with
    | none => rfl
    | some id => exact absurd ((h s id).mp hl).1 (hall id)

theorem signature?_sameTypes {p q : Program} (h : SameTypes p q) (id : TypeId) :
    q.signature? id = p.signature? id := by
  have hview : ∀ r : Program, r.signature? id
      = ((r.types.map Declaration.initial).get? id).map Declaration.signature := by
    intro r
    rw [Store.get?_map, Option.map_map]
    rfl
  rw [hview, hview, h.initial]

theorem signature?_declares {p q : Program} {id : TypeId} {d : Declaration}
    (h : Declares p q id d) (j : TypeId) :
    q.signature? j = if j = id then some d.signature else p.signature? j := by
  have hview : ∀ r : Program, r.signature? j
      = ((r.types.get? j).map Declaration.initial).map Declaration.signature := by
    intro r
    rw [Option.map_map]
    rfl
  rw [hview q, h.get?, hview p]
  by_cases hj : j.index = p.types.size
  · rw [if_pos hj, if_pos (EntityId.ext (by rw [hj, h.fresh.1]))]
    rfl
  · rw [if_neg hj, if_neg (fun he => hj (by rw [he, h.fresh.1]))]

theorem indexed_init : Indexed ∅ := by
  intro s id
  have hlookup : (∅ : Program).lookup s = none := Std.TreeMap.getElem?_emptyc
  have hsig : (∅ : Program).signature? id = none := by
    unfold signature?
    rw [get?_types_empty]
    rfl
  unfold FirstSigned
  rw [hlookup, hsig]
  simp

theorem indexed_sameTypes {p q : Program} (h : Indexed p) (hs : SameTypes p q) : Indexed q := by
  intro s id
  have hlookup : q.lookup s = p.lookup s := by
    unfold lookup
    rw [hs.index]
  unfold FirstSigned
  simp only [signature?_sameTypes hs]
  rw [hlookup]
  exact h s id

theorem lookup_declares {p q : Program} {id : TypeId} {d : Declaration} (h : Declares p q id d)
    (s : String) :
    q.lookup s = if d.signature = s ∧ p.lookup s = none then some id else p.lookup s := by
  unfold lookup
  rw [h.index, Std.TreeMap.getElem?_insertIfNew]
  simp only [Std.LawfulEqCmp.compare_eq_iff_eq, Std.TreeMap.mem_iff_isSome_getElem?]
  by_cases hs : d.signature = s
  · subst hs
    cases p.bySignature[d.signature]? <;> simp
  · simp [hs]

/-- A type that comes last is first of its signature only if it is the only one. -/
theorem firstSigned_declares {p q : Program} {id : TypeId} {d : Declaration}
    (h : Declares p q id d) {s : String} (hs : d.signature = s → ∃ k, p.signature? k = some s)
    (j : TypeId) : q.FirstSigned s j ↔ p.FirstSigned s j := by
  have hlt : ∀ k, p.signature? k = some s → k.index < id.index := by
    intro k hk
    obtain ⟨x, hx, _⟩ := Option.map_eq_some_iff.mp hk
    rw [h.fresh.1]
    exact Store.size_of_get? hx
  have hold : ∀ k, p.signature? k = some s → q.signature? k = some s := by
    intro k hk
    rw [signature?_declares h, if_neg (fun he => Nat.lt_irrefl _ (he ▸ hlt k hk)), hk]
  refine ⟨?_, ?_⟩
  · intro hex
    obtain ⟨hj, hmin⟩ := hex
    rw [signature?_declares h] at hj
    split at hj
    · rename_i hid
      obtain ⟨k, hk⟩ := hs (Option.some.inj hj)
      have hle := hmin k (hold k hk)
      have hk' := hlt k hk
      rw [hid] at hle
      omega
    · exact ⟨hj, fun k hk => hmin k (hold k hk)⟩
  · intro hex
    obtain ⟨hj, hmin⟩ := hex
    refine ⟨hold j hj, fun k hk => ?_⟩
    rw [signature?_declares h] at hk
    split at hk
    · rename_i hid
      exact Nat.le_of_lt (hid ▸ hlt j hj)
    · exact hmin k hk

theorem indexed_declares {p q : Program} {id : TypeId} {d : Declaration} (h : Indexed p)
    (hd : Declares p q id d) : Indexed q := by
  intro s j
  rw [lookup_declares hd]
  by_cases hnew : d.signature = s ∧ p.lookup s = none
  · -- a new signature: no older type can be first
    obtain ⟨hs, hnone⟩ := hnew
    have hall := (lookup_eq_none_iff h).mp hnone
    have hsig : ∀ k, q.signature? k = some s ↔ k = id := by
      intro k
      rw [signature?_declares hd]
      by_cases hk : k = id
      · simp [hk, hs]
      · simp [hk, hall k]
    rw [if_pos ⟨hs, hnone⟩]
    unfold FirstSigned
    simp only [hsig]
    refine ⟨?_, ?_⟩
    · intro hj
      cases hj
      exact ⟨rfl, fun k hk => Nat.le_of_eq (by rw [hk])⟩
    · intro hex
      obtain ⟨rfl, -⟩ := hex
      rfl
  · rw [if_neg hnew, firstSigned_declares hd]
    · exact h s j
    · intro hs
      cases hl : p.lookup s with
      | none => exact absurd ⟨hs, hl⟩ hnew
      | some first => exact ⟨first, ((h s first).mp hl).1⟩

theorem indexed_step {p q : Program} (h : Indexed p) (hs : Step p q) : Indexed q := by
  rcases step_types hs with hsame | ⟨_, _, hdeclares⟩
  · exact indexed_sameTypes h hsame
  · exact indexed_declares h hdeclares

/-- **The index is exact in every reachable program,** whatever the names are. -/
theorem indexed_reachable {p : Program} (h : Reachable p) : Indexed p := by
  induction h with
  | init => exact indexed_init
  | tail _ hs ih => exact indexed_step ih hs

end Program

end ClassTable
