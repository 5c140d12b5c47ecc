import ClassTable.Program.Supertypes
import ClassTable.Registry.Catalog
import ClassTable.Proofs.Program.Handles
import ClassTable.Proofs.Program.InPlace
import ClassTable.Proofs.Program.Ordinals

/-!
# Programs are only added to

Whatever is done with a program, what is in it stays in it under its id: a type as it was declared,
with lists that only get longer, and a member as it was attached. Two things can change
afterwards. A reference gets its handle, once, and a type in code is counted on the owner of the
code.

Of most parts this was said before, one by one. A step declares a type or keeps all types as they
were declared (`step_types`). It touches the list of members of one owner at most (`step_rosters`).
It appends members or writes handles (`appends_or_resolves`). What is left is to put the parts
together, which gives a preorder on programs (`Program.Later`) that every step respects.
-/

namespace ClassTable

/-! ## What stays -/

/-- Every element of `s` is in `t`, under its id and up to `R`. -/
def Store.Keeps {e : Entity} {α : Type} (s : Store e α) (R : α → α → Prop) (t : Store e α) :
    Prop :=
  ∀ id x, s.get? id = some x → ∃ y, t.get? id = some y ∧ R x y

theorem Store.Keeps.trans {e : Entity} {α : Type} {R : α → α → Prop} {s t u : Store e α}
    (hR : ∀ {x y z}, R x y → R y z → R x z) (hst : s.Keeps R t) (htu : t.Keeps R u) :
    s.Keeps R u := by
  intro id x hx
  obtain ⟨y, hy, hxy⟩ := hst id x hx
  obtain ⟨z, hz, hyz⟩ := htu id y hy
  exact ⟨z, hz, hR hxy hyz⟩

/-- The declaration later on. -/
structure Declaration.Later (d d' : Declaration) : Prop where
  /-- All that its head said is as it was, and so is its signature. -/
  initial : d'.initial = d.initial
  /-- What it extends only gets longer. -/
  extendsList : Reference.Continued d.extendsList d'.extendsList
  /-- What it implements only gets longer. -/
  implementsList : Reference.Continued d.implementsList d'.implementsList
  /-- Its members of each sort only get more. -/
  listed : ∀ e, (d.listed e).toList <+: (d'.listed e).toList

theorem Declaration.Later.trans {a b c : Declaration} (hab : a.Later b) (hbc : b.Later c) :
    a.Later c where
  initial := hbc.initial.trans hab.initial
  extendsList := hab.extendsList.trans hbc.extendsList
  implementsList := hab.implementsList.trans hbc.implementsList
  listed := fun e => (hab.listed e).trans (hbc.listed e)

/-- The program later on. -/
structure Program.Later (p q : Program) : Prop where
  /-- Types stay as they were declared, and their lists only get longer. -/
  types : p.types.Keeps Declaration.Later q.types
  /-- Fields stay as they are, up to handles. -/
  fields : p.fields.Keeps (fun x y => y.outline = x.outline) q.fields
  /-- Methods stay as they are, up to handles. -/
  methods : p.methods.Keeps (fun x y => y.outline = x.outline) q.methods
  /-- Constructors stay as they are, up to handles. -/
  constructors : p.constructors.Keeps (fun x y => y.outline = x.outline) q.constructors
  /-- Initializer blocks stay as they are. -/
  initializers : p.initializers.Keeps (fun x y => y = x) q.initializers
  /-- References keep their tokens, and their handles once they have them. -/
  references : p.KeepsReferences q

namespace Program

theorem later_refl (p : Program) : p.Later p where
  types := fun _ d hd =>
    have hheads := (keepsReferences_refl p).head hd hd
    ⟨d, hd, rfl, hheads.1, hheads.2, fun _ => List.prefix_rfl⟩
  fields := fun _ x hx => ⟨x, hx, rfl⟩
  methods := fun _ x hx => ⟨x, hx, rfl⟩
  constructors := fun _ x hx => ⟨x, hx, rfl⟩
  initializers := fun _ x hx => ⟨x, hx, rfl⟩
  references := keepsReferences_refl p

theorem Later.trans {p q r : Program} (hpq : p.Later q) (hqr : q.Later r) : p.Later r where
  types := hpq.types.trans Declaration.Later.trans hqr.types
  fields := hpq.fields.trans (fun hxy hyz => hyz.trans hxy) hqr.fields
  methods := hpq.methods.trans (fun hxy hyz => hyz.trans hxy) hqr.methods
  constructors := hpq.constructors.trans (fun hxy hyz => hyz.trans hxy) hqr.constructors
  initializers := hpq.initializers.trans (fun hxy hyz => hyz.trans hxy) hqr.initializers
  references := hpq.references.trans hqr.references

/-! ## One step -/

/-- A new member of a type comes after those it has. -/
theorem listed_step {p q : Program} (h : Step p q) {id : TypeId} {d d' : Declaration}
    (hd : p.types.get? id = some d) (hd' : q.types.get? id = some d') (e : Entity) :
    (d.listed e).toList <+: (d'.listed e).toList := by
  have hlist : (p.lists e).get? id = some (d.listed e) := by rw [lists, Store.get?_map, hd]; rfl
  have hlist' : (q.lists e).get? id = some (d'.listed e) := by
    rw [lists, Store.get?_map, hd']; rfl
  cases step_rosters h e with
  | same hlists _ =>
      rw [hlists, hlist] at hlist'
      exact Option.some.inj hlist' ▸ List.prefix_rfl
  | declare hlists _ =>
      have hlt := Store.size_of_get? hlist
      rw [hlists, Store.get?_push, if_neg (by omega), hlist] at hlist'
      exact Option.some.inj hlist' ▸ List.prefix_rfl
  | attach o _ hlists _ =>
      rw [hlists, Store.get?_modify, hlist] at hlist'
      split at hlist'
      · rw [← Option.some.inj hlist', Array.toList_push]
        exact List.prefix_append _ _
      · exact Option.some.inj hlist' ▸ List.prefix_rfl

/-- **A step only adds.** -/
theorem later_step {p q : Program} (h : Step p q) : p.Later q := by
  have hkeeps := keepsReferences_step h
  have htypes : p.types.Keeps Declaration.Later q.types := by
    intro id d hd
    obtain ⟨d', hd', hinitial⟩ := (grows_step h).types id d hd
    obtain ⟨hextends, himplements⟩ := hkeeps.head hd hd'
    exact ⟨d', hd', hinitial, hextends, himplements, listed_step h hd hd'⟩
  rcases appends_or_resolves h with happends | ⟨houtline, _⟩
  · exact ⟨htypes, fun id x hx => ⟨x, happends.fields id x hx, rfl⟩,
      fun id x hx => ⟨x, happends.methods id x hx, rfl⟩,
      fun id x hx => ⟨x, happends.constructors id x hx, rfl⟩,
      fun id x hx => ⟨x, happends.initializers id x hx, rfl⟩, hkeeps⟩
  · have hinitializers : q.initializers = p.initializers :=
      show q.outline.initializers = p.outline.initializers by rw [houtline]
    exact ⟨htypes, fun _ _ => Store.get?_of_map_eq (congrArg Program.fields houtline),
      fun _ _ => Store.get?_of_map_eq (congrArg Program.methods houtline),
      fun _ _ => Store.get?_of_map_eq (congrArg Program.constructors houtline),
      fun _ x hx => ⟨x, hinitializers ▸ hx, rfl⟩, hkeeps⟩

/-- A new type in code is counted once, on the owner of the code. -/
theorem counts_declare {p q : Program} (hp : p.Reachable) {scope : Scope} {head : Head}
    {id : TypeId} (h : p.declare scope head = .ok (id, q)) {o : TypeId} {d : Declaration}
    (hd : p.types.get? o = some d) :
    ∃ d', q.types.get? o = some d' ∧ d'.localTypes.toNat =
      d.localTypes.toNat + if p.localOwner? scope = some o then 1 else 0 := by
  by_cases ho : p.localOwner? scope = some o
  · rw [if_pos ho]
    cases scope with
    | package name => exact absurd ho (by simp [localOwner?])
    | type outer => exact absurd ho (by simp [localOwner?])
    | code block => exact (signed_reachable hp).counter_declare hd (localOwner?_code.mp ho) h
  · obtain ⟨_, hdeclares⟩ := declares_of_declare h
    obtain ⟨d', hd', hcount⟩ := hdeclares.counts o d hd
    have hcounted : d'.localTypes = d.localTypes := hcount.trans (if_neg ho)
    exact ⟨d', hd', by rw [hcounted, if_neg ho, Nat.add_zero]⟩

/-! ## Everything that can be done -/

/-- What can be done with a program, where types outside it come from `ρ`. -/
inductive Action (ρ : Type) where
  | edit (edit : Edit)
  | resolveAt (site : Site) (type : TypeHandle)
  | resolveAll (r : ρ)
  | lookupName (r : ρ) (context : TypeId) (name : String)
  | supertypes (r : ρ) (id : TypeId)

namespace Action

variable {ρ : Type}

/-- The type that an action counts a new type on. -/
def countsOn (p : Program) : Action ρ → Option TypeId
  | .edit (.declare scope _) => p.localOwner? scope
  | _ => none

/-- An action declares a type, or makes at most one step that keeps the types as they were
declared. -/
inductive Effect (p q : Program) (a : Action ρ) : Prop where
  | declares {scope : Scope} {head : Head} {id : TypeId} : a = .edit (.declare scope head) →
      p.declare scope head = .ok (id, q) → Effect p q a
  | steps : Step p q → SameTypes p q → a.countsOn p = none → Effect p q a
  | nothing : q = p → a.countsOn p = none → Effect p q a

theorem effect_edit {p q : Program} {change : Edit} (h : change.apply p = .ok q) :
    Effect p q (.edit change : Action ρ) := by
  cases change with
  | declare scope head =>
      obtain ⟨⟨_, _⟩, hdeclare, rfl⟩ := map_eq_ok.mp h
      exact .declares rfl hdeclare
  | addExtends id r =>
      have hadd : p.addExtends id r = .ok q := h
      have hattaches := attachesReference hadd (fun _ => rfl) (fun _ => rfl) fun e _ => by
        cases e <;> rfl
      exact .steps (.addExtends hadd) (sameTypes_of_reference hattaches) rfl
  | addImplements id r =>
      have hadd : p.addImplements id r = .ok q := h
      have hattaches := attachesReference hadd (fun _ => rfl) (fun _ => rfl) fun e _ => by
        cases e <;> rfl
      exact .steps (.addImplements hadd) (sameTypes_of_reference hattaches) rfl
  | addField x =>
      obtain ⟨⟨_, _⟩, hadd, rfl⟩ := map_eq_ok.mp h
      exact .steps (.addField hadd) (sameTypes_of_member (attaches_of_attach .field hadd)) rfl
  | addMethod x =>
      obtain ⟨⟨_, _⟩, hadd, rfl⟩ := map_eq_ok.mp h
      exact .steps (.addMethod hadd) (sameTypes_of_member (attaches_of_attach .method hadd)) rfl
  | addConstructor x =>
      obtain ⟨⟨_, _⟩, hadd, rfl⟩ := map_eq_ok.mp h
      exact .steps (.addConstructor hadd)
        (sameTypes_of_member (attaches_of_attach .constructor hadd)) rfl
  | addInitializer x =>
      obtain ⟨⟨_, _⟩, hadd, rfl⟩ := map_eq_ok.mp h
      exact .steps (.addInitializer hadd)
        (sameTypes_of_member (attaches_of_attach .initializer hadd)) rfl

variable [Registry ρ]

/-- The program afterwards. Questions leave it as it is, and so does a handle for a site that is
not there. -/
def apply (p : Program) : Action ρ → Except Fault Program
  | .edit change => change.apply p
  | .resolveAt site type =>
    (p.resolveAt site type).map fun resolved => (resolved.map Prod.snd).getD p
  | .resolveAll r => (p.resolveAll r).map Resolution.program
  | .lookupName r context name => (p.lookupName r context name).map fun _ => p
  | .supertypes r id =>
    match (p.supertypes r id).1 with
    | .error (.fault cause) => .error cause
    | _ => .ok p

/-- One action after the other. -/
def run (p : Program) (actions : List (Action ρ)) : Except Fault Program := actions.foldlM apply p

/-- **What an action can do.** -/
theorem effect_of_apply {p q : Program} {a : Action ρ} (h : a.apply p = .ok q) :
    Effect p q a := by
  cases a with
  | edit change => exact effect_edit h
  | resolveAt site type =>
      obtain ⟨resolved, hresolve, rfl⟩ := map_eq_ok.mp h
      rcases resolved with _ | ⟨wasOpen, q⟩
      · exact .nothing rfl rfl
      · exact .steps (.resolveAt hresolve) (sameTypes_of_outline (outline_resolveAt hresolve)) rfl
  | resolveAll r =>
      obtain ⟨s, hpass, rfl⟩ := map_eq_ok.mp h
      exact .steps (.resolveAll hpass) (sameTypes_of_outline (outline_resolveAll hpass)) rfl
  | lookupName r context name =>
      obtain ⟨_, _, rfl⟩ := map_eq_ok.mp h
      exact .nothing rfl rfl
  | supertypes r id =>
      simp only [apply] at h
      split at h
      · cases h
      · cases h
        exact .nothing rfl rfl

theorem later_apply {p q : Program} {a : Action ρ} (h : a.apply p = .ok q) : p.Later q := by
  cases effect_of_apply h with
  | declares _ hdeclare => exact later_step (.declare hdeclare)
  | steps hstep _ _ => exact later_step hstep
  | nothing hq _ => exact hq ▸ p.later_refl

theorem later_run {p q : Program} {actions : List (Action ρ)} (h : run p actions = .ok q) :
    p.Later q := by
  induction actions generalizing p with
  | nil =>
      cases h
      exact later_refl _
  | cons a actions ih =>
      obtain ⟨mid, hmid, hrest⟩ := bind_eq_ok.mp ((List.foldlM_cons ..).symm.trans h)
      exact (later_apply hmid).trans (ih hrest)

/-- No other action counts. -/
theorem counts_apply {p q : Program} (hp : p.Reachable) {a : Action ρ} (h : a.apply p = .ok q)
    {o : TypeId} {d : Declaration} (hd : p.types.get? o = some d) :
    ∃ d', q.types.get? o = some d' ∧
      d'.localTypes.toNat = d.localTypes.toNat + if a.countsOn p = some o then 1 else 0 := by
  cases effect_of_apply h with
  | declares ha hdeclare =>
      subst ha
      exact counts_declare hp hdeclare hd
  | steps _ htypes hnone =>
      obtain ⟨d', hd', hcount⟩ := Store.get?_of_map_eq htypes.counts hd
      exact ⟨d', hd', by rw [hnone, hcount]; rfl⟩
  | nothing hq hnone =>
      subst hq
      exact ⟨d, hd, by rw [hnone]; rfl⟩

/--
**Programs are only added to.**

Whatever is done with a reachable program, be it an edit, a handle for one site, a whole pass, or
a question, all that was in it is in it afterwards (`Program.Later`). The types are there under
their ids, with all that was declared of them, and what they extend, implement and list is only
continued at the end. The members are there as they were attached, and the references have the
tokens that they had, and their handles if they had any. The counter of a type stays as it is,
unless a type is declared in its code: then it goes up by one. So it is along any run.
-/
theorem append_only {p : Program} (hp : p.Reachable) :
    (∀ (a : Action ρ) q, a.apply p = .ok q → p.Later q ∧
      ∀ o d, p.types.get? o = some d → ∃ d', q.types.get? o = some d' ∧
        d'.localTypes.toNat = d.localTypes.toNat + if a.countsOn p = some o then 1 else 0) ∧
    ∀ (actions : List (Action ρ)) q, run p actions = .ok q → p.Later q :=
  ⟨fun _ _ h => ⟨later_apply h, fun _ _ hd => counts_apply hp h hd⟩, fun _ _ h => later_run h⟩

/-- A handle for a field, a class in a method, and another handle for the field. -/
def sampleActions : List (Action Catalog) :=
  [.resolveAt (.fieldType ⟨1⟩) .void, .edit (.declare (.code (.method ⟨0⟩)) (classNamed "Task")),
    .resolveAt (.fieldType ⟨1⟩) (.declared ⟨0⟩)]

/-- The second handle comes too late, and the class gets the next ordinal. -/
theorem sample_append_only : ∃ q, run sample sampleActions = .ok q ∧ sample.Later q ∧
    q.handle? (.fieldType ⟨1⟩) = some .void ∧ q.signature? ⟨3⟩ = some "com/app/Foo$2Task" :=
  have hlater := (append_only sample_reachable).2 sampleActions _ rfl
  ⟨_, rfl, hlater, rfl, rfl⟩

end Action

end Program

end ClassTable
