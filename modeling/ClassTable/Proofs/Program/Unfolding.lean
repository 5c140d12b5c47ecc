import ClassTable.Proofs.Program.Structure

/-!
# Taking types apart ends

A readable signature is put together by taking the type apart: the signature of an array needs that
of its element type, the signature of a specialization those of its arguments. Nothing in this says
that it ends. The computation has a bound on how deep types may nest, and gives up where it is
exceeded, so one has to ask whether it ever is.

`Unfolds` takes types apart without a bound. It ends, for every type, if there is no infinite
descent from a type to what it is written by (`exists_unfolds`); and there is none, as a type is
written by types that were there when it was made, and so have smaller numbers
(`wellFounded_opens`). For the same reason the bound is not reached, and so both come to the same
(`unfolds_iff`).

What is left is to say which types have a signature. An induction along `Unfolds` shows that nothing
but a declared type can be missing, and that it is missed exactly if it is reached
(`isSome_iff_of_unfolds`).
-/

namespace ClassTable.Program

/-! ## Taking a type apart -/

section

variable {ρ : Type} [Registry ρ] {p : Program} {r : ρ} {type : TypeHandle}

/-- To write the one type is to write the other: it is the element type of an array, or an argument
of a specialization. -/
inductive Opens (r : ρ) : TypeHandle → TypeHandle → Prop where
  | element {i : TypeIndex} {element : TypeHandle} :
      Registry.element? r i = some element → Opens r (.canonical i) element
  | argument {i generic : TypeIndex} {arguments : List TypeHandle} {argument : TypeHandle} :
      Registry.specialization? r i = some (generic, arguments) → argument ∈ arguments →
      Opens r (.canonical i) argument

/-- The declared type is the type itself, or is reached by taking it apart. -/
def Reaches (r : ρ) (type : TypeHandle) (id : TypeId) : Prop :=
  Relation.ReflTransGen (Opens r) type (.declared id)

/-- Taking a type apart ends, and that is its signature, or that it has none. Nothing here bounds
how deep types nest. The arguments of a specialization are taken one after the other, up to the
first that has no signature. -/
inductive Unfolds (p : Program) (r : ρ) : TypeHandle → Option String → Prop where
  | declared (id : TypeId) :
      Unfolds p r (.declared id) ((p.types.get? id).map Declaration.signature)
  | array {i : TypeIndex} {element : TypeHandle} {result : Option String} :
      Registry.element? r i = some element → Unfolds p r element result →
      Unfolds p r (.canonical i) (result.map (· ++ "[]"))
  | nameless {i generic : TypeIndex} {arguments : List TypeHandle} :
      Registry.element? r i = none →
      Registry.specialization? r i = some (generic, arguments) →
      Registry.signature? r generic = none → Unfolds p r (.canonical i) none
  | specialized {i generic : TypeIndex} {arguments : List TypeHandle} {base : String}
      {text : TypeHandle → String} :
      Registry.element? r i = none →
      Registry.specialization? r i = some (generic, arguments) →
      Registry.signature? r generic = some base →
      (∀ argument ∈ arguments, Unfolds p r argument (some (text argument))) →
      Unfolds p r (.canonical i)
        (some (base ++ "<" ++ ",".intercalate (arguments.map text) ++ ">"))
  | stopped {i generic : TypeIndex} {before after : List TypeHandle} {stop : TypeHandle}
      {base : String} {text : TypeHandle → String} :
      Registry.element? r i = none →
      Registry.specialization? r i = some (generic, before ++ stop :: after) →
      Registry.signature? r generic = some base →
      (∀ argument ∈ before, Unfolds p r argument (some (text argument))) →
      Unfolds p r stop none → Unfolds p r (.canonical i) none
  | plain {i : TypeIndex} :
      Registry.element? r i = none → Registry.specialization? r i = none →
      Unfolds p r (.canonical i) (Registry.signature? r i)

/-- In a list of which each element is one thing or another, all are the one, or there is a first
that is the other. -/
theorem forall_or_first {α : Type} {P Q : α → Prop} {xs : List α} (h : ∀ x ∈ xs, P x ∨ Q x) :
    (∀ x ∈ xs, P x) ∨ ∃ before x after, xs = before ++ x :: after ∧ (∀ y ∈ before, P y) ∧ Q x := by
  induction xs with
  | nil => exact Or.inl fun x hx => absurd hx List.not_mem_nil
  | cons x xs ih =>
      obtain ⟨hx, hxs⟩ := List.forall_mem_cons.mp h
      rcases hx with hx | hx
      · rcases ih hxs with hall | ⟨before, stop, after, rfl, hbefore, hstop⟩
        · exact Or.inl (List.forall_mem_cons.mpr ⟨hx, hall⟩)
        · have hfront := List.forall_mem_cons.mpr ⟨hx, hbefore⟩
          exact Or.inr ⟨x :: before, stop, after, rfl, hfront, hstop⟩
      · exact Or.inr ⟨[], x, xs, rfl, fun y hy => absurd hy List.not_mem_nil, hx⟩

/-- **If taking types apart cannot go on for ever, it ends.** -/
theorem exists_unfolds (hwf : WellFounded (flip (Opens r))) (p : Program) (type : TypeHandle) :
    ∃ result, p.Unfolds r type result := by
  induction type using hwf.induction with
  | _ type ih =>
    cases type with
    | declared id => exact ⟨_, .declared id⟩
    | canonical i =>
        cases helement : Registry.element? r i with
        | some element =>
            obtain ⟨result, hresult⟩ := ih element (.element helement)
            exact ⟨_, .array helement hresult⟩
        | none =>
            cases hparts : Registry.specialization? r i with
            | none => exact ⟨_, .plain helement hparts⟩
            | some parts =>
                obtain ⟨generic, arguments⟩ := parts
                cases hbase : Registry.signature? r generic with
                | none => exact ⟨_, .nameless helement hparts hbase⟩
                | some base =>
                    have hends : ∀ argument ∈ arguments,
                        (∃ text, p.Unfolds r argument (some text)) ∨ p.Unfolds r argument none := by
                      intro argument hmem
                      obtain ⟨result, hresult⟩ := ih argument (.argument hparts hmem)
                      cases result with
                      | none => exact Or.inr hresult
                      | some text => exact Or.inl ⟨text, hresult⟩
                    rcases forall_or_first hends with
                      hall | ⟨before, stop, after, rfl, hbefore, hstop⟩
                    · choose! text htext using hall
                      exact ⟨_, .specialized helement hparts hbase htext⟩
                    · choose! text htext using hbefore
                      exact ⟨_, .stopped helement hparts hbase htext hstop⟩

end

/-! ## Parts are older -/

variable {p q : Program} {inv : Inventory} {c : Catalog} {names : CoreNames} {log : List Call}
  {type : TypeHandle}

theorem isArray_of_element (hcomposed : q.Composed inv) {i : TypeIndex} {element : TypeHandle}
    (h : inv.element? i = some element) : q.IsArray inv i element :=
  .of_entry hcomposed (Inventory.element?_eq_some_iff.mp h)

theorem isSpecialization_of_parts (hcomposed : q.Composed inv) {i generic : TypeIndex}
    {arguments : List TypeHandle} (h : inv.specialization? i = some (generic, arguments)) :
    q.IsSpecialization inv i generic arguments :=
  .of_entry hcomposed (Inventory.specialization?_eq_some_iff.mp h)

/-- What a type is written by is part of it. -/
theorem Opens.part (hcomposed : q.Composed c.inventory) {i : TypeIndex} {part : TypeHandle}
    (h : Opens c (.canonical i) part) :
    (∃ e, c.inventory.get? i = some e) ∧ q.Part c.inventory i part := by
  cases h with
  | element helement =>
      have harray := isArray_of_element hcomposed helement
      exact ⟨harray.known, harray.part⟩
  | argument hparts hmem =>
      have hspecialization := isSpecialization_of_parts hcomposed hparts
      exact ⟨hspecialization.known, hspecialization.parts _ hmem⟩

theorem wellFounded_opens (hcomposed : q.Composed c.inventory) : WellFounded (flip (Opens c)) := by
  refine Subrelation.wf (r := fun a b => age a < age b) ?_ (measure age).wf
  intro part type h
  cases type with
  | declared id => cases h
  | canonical i =>
      obtain ⟨hknown, hpart⟩ := Opens.part hcomposed h
      exact hpart.age_lt hknown

theorem opens_array {i : TypeIndex} {element part : TypeHandle}
    (h : Registry.element? c i = some element) (hopens : Opens c (.canonical i) part) :
    part = element := by
  cases hopens with
  | element hother => exact Option.some.inj (hother.symm.trans h)
  | argument hparts _ =>
      cases (Inventory.element?_eq_none hparts).symm.trans h

theorem opens_specialization {i generic : TypeIndex} {arguments : List TypeHandle}
    {part : TypeHandle} (helement : Registry.element? c i = none)
    (h : Registry.specialization? c i = some (generic, arguments))
    (hopens : Opens c (.canonical i) part) : part ∈ arguments := by
  cases hopens with
  | element hother => cases helement.symm.trans hother
  | argument hparts hmem =>
      cases h.symm.trans hparts
      exact hmem

/-! ## The bound is not reached -/

/-- The registry has a signature for the generic type of a specialization. -/
theorem IsSpecialization.signature?_generic {i generic : TypeIndex} {arguments : List TypeHandle}
    (h : q.IsSpecialization c.inventory i generic arguments) :
    Registry.signature? c generic = some (c.inventory.label (.canonical generic)) :=
  Inventory.signature?_eq_label (Or.inr (Option.isSome_iff_exists.mpr h.base))

/-- The bound is large enough to write the type, or to see that it is not there. -/
structure Suffices (inv : Inventory) (depth : Nat) (type : TypeHandle) : Prop where
  /-- It can be looked up. -/
  pos : 0 < depth
  /-- If it is there, it fits. -/
  fits : inv.Has type → Fits depth type

theorem suffices_nestingBound (c : Catalog) (type : TypeHandle) :
    Suffices c.inventory (Registry.nestingBound c + 1) type :=
  ⟨Nat.succ_pos _, fits_of_has fun _ _ hget => hget⟩

theorem Suffices.eq_succ {depth : Nat} (h : Suffices inv depth type) :
    ∃ below, depth = below + 1 := Nat.exists_eq_add_one_of_ne_zero (Nat.ne_of_gt h.pos)

/-- A bound that suffices for a type suffices, less by one, for its parts. -/
theorem Suffices.part {depth : Nat} {i : TypeIndex} {part : TypeHandle}
    (h : Suffices inv (depth + 1) (.canonical i)) (hknown : ∃ e, inv.get? i = some e)
    (hpart : q.Part inv i part) : Suffices inv depth part := by
  have hfits := h.fits (Or.inr (Option.isSome_iff_exists.mpr hknown))
  refine ⟨?_, fun _ => hpart.fits hknown hfits⟩
  obtain ⟨e, he⟩ := hknown
  have hold : 16 ≤ i.raw := (Inventory.get?_eq_some he).1
  have hlt : i.raw + 1 < 16 + (depth + 1) := hfits.2
  omega

theorem signatureWithin_of_unfolds (hcomposed : q.Composed c.inventory) {result : Option String}
    (h : p.Unfolds c type result) {depth : Nat} (hdepth : Suffices c.inventory depth type) :
    p.signatureWithin c depth type = result := by
  induction h generalizing depth with
  | declared id => exact signatureWithin_declared p c depth id
  | @array i element result helement _ ih =>
      obtain ⟨depth, rfl⟩ := hdepth.eq_succ
      have harray := isArray_of_element hcomposed helement
      rw [signatureWithin_array harray.entry, ih (hdepth.part harray.known harray.part)]
  | nameless _ hparts hbase =>
      have hspecialization := isSpecialization_of_parts hcomposed hparts
      cases hbase.symm.trans hspecialization.signature?_generic
  | @specialized i generic arguments base text _ hparts hbase _ ih =>
      obtain ⟨depth, rfl⟩ := hdepth.eq_succ
      have hspecialization := isSpecialization_of_parts hcomposed hparts
      cases hbase.symm.trans hspecialization.signature?_generic
      have htexts : ∀ argument ∈ arguments,
          p.signatureWithin c depth argument = some (text argument) := fun argument hmem =>
        ih argument hmem
          (hdepth.part hspecialization.known (hspecialization.parts argument hmem))
      rw [signatureWithin_specialized hspecialization.entry hspecialization.base,
        mapM_eq_map htexts]
      rfl
  | @stopped i generic before after stop base text _ hparts _ _ _ _ ih =>
      obtain ⟨depth, rfl⟩ := hdepth.eq_succ
      have hspecialization := isSpecialization_of_parts hcomposed hparts
      have hmem : stop ∈ before ++ stop :: after := by simp
      have hstop := ih (hdepth.part hspecialization.known (hspecialization.parts stop hmem))
      rw [signatureWithin_specialized hspecialization.entry hspecialization.base,
        mapM_eq_none hmem hstop]
      rfl
  | plain helement hparts =>
      obtain ⟨depth, rfl⟩ := hdepth.eq_succ
      simp only [signatureWithin, helement, hparts]

/-- **What taking a type apart leads to,** and nothing else, is its readable signature. -/
theorem unfolds_iff (hcomposed : q.Composed c.inventory) {result : Option String} :
    p.Unfolds c type result ↔ p.readableSignature c type = result := by
  have hresult : ∀ {result}, p.Unfolds c type result → p.readableSignature c type = result :=
    fun h => signatureWithin_of_unfolds hcomposed h (suffices_nestingBound c type)
  refine ⟨hresult, fun h => ?_⟩
  obtain ⟨found, hfound⟩ := exists_unfolds (wellFounded_opens hcomposed) p type
  rwa [← h, hresult hfound]

/-! ## Which types have a signature -/

/-- All declared types that are reached are in the program. -/
def KnowsReached (p : Program) (c : Catalog) (type : TypeHandle) : Prop :=
  ∀ id, Reaches c type id → id.index < p.types.size

theorem knowsReached_declared {id : TypeId} :
    p.KnowsReached c (.declared id) ↔ id.index < p.types.size := by
  refine ⟨fun h => h id .refl, fun h other hreach => ?_⟩
  cases hreach.cases_head with
  | inl heq =>
      cases heq
      exact h
  | inr hstep =>
      obtain ⟨part, hopens, _⟩ := hstep
      cases hopens

theorem knowsReached_canonical {i : TypeIndex} :
    p.KnowsReached c (.canonical i) ↔
      ∀ part, Opens c (.canonical i) part → p.KnowsReached c part := by
  refine ⟨fun h part hopens id hreach => h id (.head hopens hreach), fun h id hreach => ?_⟩
  cases hreach.cases_head with
  | inl heq => cases heq
  | inr hstep =>
      obtain ⟨part, hopens, hrest⟩ := hstep
      exact h part hopens id hrest

theorem isSome_iff_of_unfolds (hcomposed : q.Composed c.inventory) {result : Option String}
    (h : p.Unfolds c type result) (hhas : c.inventory.Has type) :
    result.isSome = true ↔ p.KnowsReached c type := by
  have hpart : ∀ {i part}, Opens c (.canonical i) part → c.inventory.Has part :=
    fun hopens => (hopens.part hcomposed).2.live.has
  induction h with
  | declared id =>
      rw [knowsReached_declared, Option.isSome_map, ← Option.ne_none_iff_isSome, Ne,
        Store.get?_eq_none_iff, Nat.not_le]
  | @array i element result helement _ ih =>
      have hopens : Opens c (.canonical i) element := .element helement
      have helements : result.isSome = true ↔ p.KnowsReached c element := ih (hpart hopens)
      rw [Option.isSome_map, helements, knowsReached_canonical]
      refine ⟨fun h part hother => ?_, fun h => h element hopens⟩
      rwa [opens_array helement hother]
  | nameless _ hparts hbase =>
      have hspecialization := isSpecialization_of_parts hcomposed hparts
      cases hbase.symm.trans hspecialization.signature?_generic
  | @specialized i generic arguments base text helement hparts _ _ ih =>
      rw [knowsReached_canonical]
      refine ⟨fun _ part hopens => ?_, fun _ => rfl⟩
      have hmem := opens_specialization helement hparts hopens
      exact (ih part hmem (hpart hopens)).mp rfl
  | @stopped i generic before after stop base text _ hparts _ _ _ _ ih =>
      rw [knowsReached_canonical]
      refine ⟨fun h => absurd h Bool.false_ne_true, fun h => ?_⟩
      have hopens : Opens c (.canonical i) stop := .argument hparts (by simp)
      exact (ih (hpart hopens)).mpr (h stop hopens)
  | @plain i helement hparts =>
      rw [knowsReached_canonical]
      refine ⟨fun _ part hopens => ?_, fun _ => ?_⟩
      · cases hopens with
        | element h => cases helement.symm.trans h
        | argument h _ => cases hparts.symm.trans h
      · have hsignature : Registry.signature? c i = some (c.inventory.label (.canonical i)) :=
          Inventory.signature?_eq_label hhas
        rw [hsignature]
        rfl

/--
**Taking types apart ends, and leads to a signature wherever there can be one.**

In a run that was only passed types that it knew, what a composite type is made of, its element
type, its arguments and its generic type, has smaller numbers than the type itself. So there is no
infinite descent from a type, be it there or not, to what it is written by. For every program and
every type, taking the type apart without any bound ends with one result, and this is the readable
signature, or that there is none. A type that is there has one exactly if all declared types that
are reached through elements and arguments are in the program.
-/
theorem unfolding_ends (hrun : Catalog.Run names log c)
    (hcalls : ∀ call ∈ log, call.Grounded) :
    (∀ i j, (Opens c (.canonical i) (.canonical j) ∨
      ∃ arguments, Registry.specialization? c i = some (j, arguments)) → j.raw < i.raw) ∧
    WellFounded (flip (Opens c)) ∧
    ∀ (p : Program) type,
      (∀ result, p.Unfolds c type result ↔ p.readableSignature c type = result) ∧
      (c.inventory.Has type → ((p.readableSignature c type).isSome = true ↔
        ∀ id, Reaches c type id → id.index < p.types.size)) := by
  obtain ⟨q, hcomposed⟩ := exists_composed hrun hcalls
  refine ⟨fun i j hpart => ?_, wellFounded_opens hcomposed, fun p type => ⟨?_, fun hhas => ?_⟩⟩
  · rcases hpart with hopens | ⟨arguments, hparts⟩
    · exact (hopens.part hcomposed).2.older j rfl
    · exact (isSpecialization_of_parts hcomposed hparts).older
  · exact fun result => unfolds_iff hcomposed
  · exact isSome_iff_of_unfolds hcomposed ((unfolds_iff hcomposed).mpr rfl) hhas

/-- The base of enumerations applied to arrays of a declared type, in a program that declares it and
in one that does not; and a number that no type has. -/
theorem sample_unfolding : ∃ log c, Catalog.Run {} log c ∧ (∀ call ∈ log, call.Grounded) ∧
    c.inventory.Has (.canonical ⟨19⟩) ∧
    sample.Unfolds c (.canonical ⟨19⟩) (some "java/lang/Enum<com/app/Foo[]>") ∧
    (∅ : Program).Unfolds c (.canonical ⟨19⟩) none ∧
    sample.Unfolds c (.canonical ⟨40⟩) none := by
  have hseed := @Catalog.Run.seed {} _ _ _ _ rfl rfl
  have hrun := (hseed.call (.arrayOf (.declared ⟨0⟩))).call (.specialize ⟨17⟩ [.canonical ⟨18⟩])
  obtain ⟨_, _, hends⟩ := unfolding_ends hrun (by decide)
  refine ⟨_, _, hrun, by decide, Or.inr rfl, ?_, ?_, ?_⟩
  · exact ((hends sample _).1 _).mpr rfl
  · obtain ⟨hunfolds, hsome⟩ := hends ∅ (.canonical ⟨19⟩)
    refine (hunfolds _).mpr (Option.not_isSome_iff_eq_none.mp fun h => ?_)
    -- the declared type is reached, but it is not there
    have hdeclared := (hsome (Or.inr rfl)).mp h ⟨0⟩
      (.head (.argument rfl (List.mem_singleton_self (TypeHandle.canonical ⟨18⟩)))
        (.single (.element rfl)))
    exact Nat.not_lt_zero 0 hdeclared
  · exact ((hends sample _).1 _).mpr rfl

end ClassTable.Program
