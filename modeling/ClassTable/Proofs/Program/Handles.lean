import ClassTable.Proofs.Program.Visits

/-!
# Handles are written once

A reference stays where it was attached, with the tokens that it was made of, and once it
has a handle the handle stays too. No operation is an exception: declaring and attaching
only add to what is there (`Appends`), and resolving writes only where nothing was written
before.
-/

namespace ClassTable

/-- The reference later on: with the same tokens, and with its handle if it had one. -/
structure Reference.Later (r r' : Reference) : Prop where
  /-- The tokens never change. -/
  tokens : r'.tokens = r.tokens
  /-- The handle is written once. -/
  resolved : ∀ type, r.resolved = some type → r'.resolved = some type

theorem Reference.later_refl (r : Reference) : r.Later r := ⟨rfl, fun _ h => h⟩

theorem Reference.Later.trans {a b c : Reference} (hab : a.Later b) (hbc : b.Later c) :
    a.Later c :=
  ⟨hbc.tokens.trans hab.tokens, fun type h => hbc.resolved type (hab.resolved type h)⟩

theorem Reference.later_resolve (r : Reference) (type : TypeHandle) :
    r.Later (r.resolve type).2 := by
  refine ⟨resolve_tokens r type, fun known h => ?_⟩
  rw [resolve_resolved, h]
  rfl

/-- The references of a list are still there, each at its position. Others may come after them. -/
def Reference.Continued (rs rs' : Array Reference) : Prop :=
  ∀ (i : Nat) (r : Reference), rs[i]? = some r → ∃ r', rs'[i]? = some r' ∧ r.Later r'

theorem Reference.Continued.trans {xs ys zs : Array Reference} (hxy : Continued xs ys)
    (hyz : Continued ys zs) : Continued xs zs := by
  intro i x hx
  obtain ⟨y, hy, hxlater⟩ := hxy i x hx
  obtain ⟨z, hz, hylater⟩ := hyz i y hy
  exact ⟨z, hz, hxlater.trans hylater⟩

/-- The references in the head of `d` are in the head of `d'`, at the same positions. -/
structure Declaration.HeadIn (d d' : Declaration) : Prop where
  /-- What it extends. -/
  extendsItem : ∀ (i : Nat) (r : Reference), d.extendsList[i]? = some r →
    d'.extendsList[i]? = some r
  /-- What it implements. -/
  implementsItem : ∀ (i : Nat) (r : Reference), d.implementsList[i]? = some r →
    d'.implementsList[i]? = some r

theorem Declaration.headIn_of_eq {d d' : Declaration} (hextends : d'.extendsList = d.extendsList)
    (himplements : d'.implementsList = d.implementsList) : d.HeadIn d' :=
  ⟨fun i r h => by rw [hextends, h], fun i r h => by rw [himplements, h]⟩

theorem getElem?_push_of_getElem? {α : Type} {xs : Array α} {i : Nat} {x y : α}
    (h : xs[i]? = some x) : (xs.push y)[i]? = some x := by
  obtain ⟨hlt, _⟩ := Array.getElem?_eq_some_iff.mp h
  rw [Array.getElem?_push, if_neg (Nat.ne_of_lt hlt), h]

namespace Program

/-- Every reference of `p` is in `q`, at the same site. -/
def KeepsReferences (p q : Program) : Prop :=
  ∀ site r, p.reference? site = .ok (some r) →
    ∃ r', q.reference? site = .ok (some r') ∧ r.Later r'

theorem keepsReferences_refl (p : Program) : p.KeepsReferences p :=
  fun _ r h => ⟨r, h, r.later_refl⟩

theorem KeepsReferences.trans {p q r : Program} (hpq : p.KeepsReferences q)
    (hqr : q.KeepsReferences r) : p.KeepsReferences r := by
  intro site x hx
  obtain ⟨y, hy, hxy⟩ := hpq site x hx
  obtain ⟨z, hz, hyz⟩ := hqr site y hy
  exact ⟨z, hz, hxy.trans hyz⟩

theorem KeepsReferences.handle? {p q : Program} (h : p.KeepsReferences q) {site : Site}
    {type : TypeHandle} (htype : p.handle? site = some type) : q.handle? site = some type := by
  obtain ⟨r, hr, hres⟩ := reference_of_handle? htype
  obtain ⟨r', hr', hlater⟩ := h site r hr
  rw [handle?_of_reference hr', hlater.resolved type hres]

/-- The head of a type only gets longer. -/
theorem KeepsReferences.head {p q : Program} (h : p.KeepsReferences q) {id : TypeId}
    {d d' : Declaration} (hd : p.types.get? id = some d) (hd' : q.types.get? id = some d') :
    Reference.Continued d.extendsList d'.extendsList ∧
      Reference.Continued d.implementsList d'.implementsList := by
  have hget := Store.get_eq_ok_iff.mpr hd
  have hget' := Store.get_eq_ok_iff.mpr hd'
  refine ⟨fun i r hr => ?_, fun i r hr => ?_⟩
  · obtain ⟨r', hr', hlater⟩ := h (.extendsItem id i) r
      (by simp [reference?, hget, Except.map, hr])
    exact ⟨r', by simpa [reference?, hget', Except.map] using hr', hlater⟩
  · obtain ⟨r', hr', hlater⟩ := h (.implementsItem id i) r
      (by simp [reference?, hget, Except.map, hr])
    exact ⟨r', by simpa [reference?, hget', Except.map] using hr', hlater⟩

/-! ## Declaring and attaching -/

/-- The members of `p` are unchanged in `q`, and so is what its types extend and implement, up to
new references at the end. -/
structure Appends (p q : Program) : Prop where
  /-- Types keep what they extend and implement. -/
  types : ∀ id d, p.types.get? id = some d → ∃ d', q.types.get? id = some d' ∧ d.HeadIn d'
  /-- Fields stay as they are. -/
  fields : ∀ id x, p.fields.get? id = some x → q.fields.get? id = some x
  /-- Constructors stay as they are. -/
  constructors : ∀ id x, p.constructors.get? id = some x → q.constructors.get? id = some x
  /-- Methods stay as they are. -/
  methods : ∀ id x, p.methods.get? id = some x → q.methods.get? id = some x
  /-- Initializer blocks stay as they are. -/
  initializers : ∀ id x, p.initializers.get? id = some x → q.initializers.get? id = some x

theorem Appends.keepsReferences {p q : Program} (h : p.Appends q) : p.KeepsReferences q := by
  intro site r hr
  refine ⟨r, ?_, r.later_refl⟩
  cases site with
  | extendsItem t i =>
      obtain ⟨d, hd, hi⟩ := map_eq_ok.mp hr
      obtain ⟨d', hd', hhead⟩ := h.types t d (Store.get_eq_ok_iff.mp hd)
      exact map_eq_ok.mpr ⟨d', Store.get_eq_ok_iff.mpr hd', hhead.extendsItem i r hi⟩
  | implementsItem t i =>
      obtain ⟨d, hd, hi⟩ := map_eq_ok.mp hr
      obtain ⟨d', hd', hhead⟩ := h.types t d (Store.get_eq_ok_iff.mp hd)
      exact map_eq_ok.mpr ⟨d', Store.get_eq_ok_iff.mpr hd', hhead.implementsItem i r hi⟩
  | fieldType f =>
      obtain ⟨x, hx, hi⟩ := map_eq_ok.mp hr
      exact map_eq_ok.mpr
        ⟨x, Store.get_eq_ok_iff.mpr (h.fields f x (Store.get_eq_ok_iff.mp hx)), hi⟩
  | constructorParameter c i | constructorThrows c i =>
      obtain ⟨x, hx, hi⟩ := map_eq_ok.mp hr
      exact map_eq_ok.mpr
        ⟨x, Store.get_eq_ok_iff.mpr (h.constructors c x (Store.get_eq_ok_iff.mp hx)), hi⟩
  | methodReturn m | methodParameter m i | methodThrows m i | annotationItem m i =>
      obtain ⟨x, hx, hi⟩ := map_eq_ok.mp hr
      exact map_eq_ok.mpr
        ⟨x, Store.get_eq_ok_iff.mpr (h.methods m x (Store.get_eq_ok_iff.mp hx)), hi⟩

/-- A change of one declaration that keeps its head. -/
theorem headIn_modify {s : Store .type Declaration} {o : TypeId} {f : Declaration → Declaration}
    (hf : ∀ d : Declaration, d.HeadIn (f d)) (id : TypeId) (d : Declaration)
    (hd : s.get? id = some d) :
    ∃ d', (s.modify o f).get? id = some d' ∧ d.HeadIn d' := by
  rw [Store.get?_modify, hd]
  split
  · exact ⟨f d, rfl, hf d⟩
  · exact ⟨d, rfl, Declaration.headIn_of_eq rfl rfl⟩

theorem get?_push_of_get? {e : Entity} {α : Type} {s : Store e α} {x : α} (id : EntityId e)
    (y : α) (h : s.get? id = some y) : (⟨s.items.push x⟩ : Store e α).get? id = some y :=
  getElem?_push_of_getElem? h

theorem appends_declare {p q : Program} {scope : Scope} {head : Head} {id : TypeId}
    (h : p.declare scope head = .ok (id, q)) : p.Appends q := by
  obtain ⟨signature, counted, _, hcount, _, _, rfl⟩ := declare_eq_ok h
  -- counting changes no head, and the new type comes after the others
  have hcounted : ∀ id d, p.types.get? id = some d →
      ∃ d', counted.types.get? id = some d' ∧ d.HeadIn d' := by
    rcases countLocalType_eq_ok hcount with ⟨_, rfl⟩ | ⟨_, _, _, _, _, rfl⟩
    · exact fun id d hd => ⟨d, hd, Declaration.headIn_of_eq rfl rfl⟩
    · exact headIn_modify fun d => Declaration.headIn_of_eq rfl rfl
  have hmembers : counted.fields = p.fields ∧ counted.constructors = p.constructors ∧
      counted.methods = p.methods ∧ counted.initializers = p.initializers := by
    rcases countLocalType_eq_ok hcount with ⟨_, rfl⟩ | ⟨_, _, _, _, _, rfl⟩ <;>
      exact ⟨rfl, rfl, rfl, rfl⟩
  obtain ⟨hfields, hconstructors, hmethods, hinitializers⟩ := hmembers
  refine ⟨fun id d hd => ?_, fun id x hx => hfields ▸ hx, fun id x hx => hconstructors ▸ hx,
    fun id x hx => hmethods ▸ hx, fun id x hx => hinitializers ▸ hx⟩
  obtain ⟨d', hd', hhead⟩ := hcounted id d hd
  exact ⟨d', get?_push_of_get? id d' hd', hhead⟩

/-- A change of the head of one type. -/
theorem appends_update {p q : Program} {o : TypeId} {f : Declaration → Declaration}
    (h : (do let types ← p.types.update o f; return { p with types }) = Except.ok q)
    (hf : ∀ d : Declaration, d.HeadIn (f d)) : p.Appends q := by
  obtain ⟨types, htypes, hq⟩ := bind_eq_ok.mp h
  obtain ⟨_, rfl⟩ := Store.update_eq_ok_iff.mp htypes
  cases hq
  exact ⟨headIn_modify hf, fun _ _ hx => hx, fun _ _ hx => hx, fun _ _ hx => hx,
    fun _ _ hx => hx⟩

/-! ## Resolving -/

theorem keepsReferences_modifyReference (p : Program) (site : Site) {f : Reference → Reference}
    (hf : ∀ r : Reference, r.Later (f r)) : p.KeepsReferences (p.modifyReference site f) := by
  intro other r hr
  by_cases heq : site = other
  · subst heq
    refine ⟨f r, ?_, hf r⟩
    rw [reference?_modifyReference_self, hr]
    rfl
  · exact ⟨r, by rw [reference?_modifyReference_ne _ heq, hr], r.later_refl⟩

theorem keepsReferences_resolveAt {p q : Program} {site : Site} {type : TypeHandle}
    {wasOpen : Bool} (h : p.resolveAt site type = .ok (some (wasOpen, q))) :
    p.KeepsReferences q := by
  obtain ⟨found, hfound, h⟩ := bind_eq_ok.mp h
  cases found with
  | none => cases h
  | some r =>
      cases h
      rw [modifyReference_congr (g := fun r => (r.resolve type).2) hfound rfl]
      exact keepsReferences_modifyReference _ _ (Reference.later_resolve · type)

theorem keepsReferences_foldlM {ρ : Type} [Registry ρ] {places : List (TypeId × Site)}
    {s s' : Resolution ρ} (h : places.foldlM Resolution.visit s = .ok s') :
    s.program.KeepsReferences s'.program := by
  induction places generalizing s with
  | nil => cases h; exact keepsReferences_refl _
  | cons place places ih =>
      obtain ⟨context, site⟩ := place
      rw [List.foldlM_cons] at h
      obtain ⟨mid, hmid, hrest⟩ := bind_eq_ok.mp h
      refine KeepsReferences.trans ?_ (ih hrest)
      cases Resolution.visit_cases hmid with
      | missing _ | kept _ _ | missed _ _ _ => exact keepsReferences_refl _
      | found _ _ _ => exact keepsReferences_modifyReference _ _ (Reference.later_resolve · _)

/-! ## Every step -/

/-- A step adds to what is there, or writes handles. -/
theorem appends_or_resolves {p q : Program} (h : Step p q) :
    p.Appends q ∨ q.outline = p.outline ∧ p.KeepsReferences q := by
  -- a new member changes no head, and comes after the members of its sort
  have hattach : ∀ {s : Store .type Declaration} {o : TypeId} {f : Declaration → Declaration},
      (∀ d, (f d).extendsList = d.extendsList ∧ (f d).implementsList = d.implementsList) →
      ∀ id d, s.get? id = some d → ∃ d', (s.modify o f).get? id = some d' ∧ d.HeadIn d' :=
    fun hf => headIn_modify fun d => Declaration.headIn_of_eq (hf d).1 (hf d).2
  have hsame : ∀ {e : Entity} {α : Type} {s : Store e α} (id : EntityId e) (x : α),
      s.get? id = some x → s.get? id = some x := fun _ _ hx => hx
  cases h with
  | declare h => exact Or.inl (appends_declare h)
  | addExtends h =>
      exact Or.inl (appends_update h fun d =>
        ⟨fun _ _ => getElem?_push_of_getElem?, fun _ _ hr => hr⟩)
  | addImplements h =>
      exact Or.inl (appends_update h fun d =>
        ⟨fun _ _ hr => hr, fun _ _ => getElem?_push_of_getElem?⟩)
  | addField h =>
      obtain ⟨_, rfl⟩ := attach_eq_ok h
      exact Or.inl ⟨hattach fun _ => ⟨rfl, rfl⟩, get?_push_of_get?, hsame, hsame, hsame⟩
  | addMethod h =>
      obtain ⟨_, rfl⟩ := attach_eq_ok h
      exact Or.inl ⟨hattach fun _ => ⟨rfl, rfl⟩, hsame, hsame, get?_push_of_get?, hsame⟩
  | addConstructor h =>
      obtain ⟨_, rfl⟩ := attach_eq_ok h
      exact Or.inl ⟨hattach fun _ => ⟨rfl, rfl⟩, hsame, get?_push_of_get?, hsame, hsame⟩
  | addInitializer h =>
      obtain ⟨_, rfl⟩ := attach_eq_ok h
      exact Or.inl ⟨hattach fun _ => ⟨rfl, rfl⟩, hsame, hsame, hsame, get?_push_of_get?⟩
  | resolveAt h => exact Or.inr ⟨outline_resolveAt h, keepsReferences_resolveAt h⟩
  | resolveAll h =>
      obtain ⟨places, _, hfold⟩ := bind_eq_ok.mp h
      exact Or.inr ⟨outline_resolveAll h, keepsReferences_foldlM hfold⟩

/-- **No step changes a token, or a handle that is there.** -/
theorem keepsReferences_step {p q : Program} (h : Step p q) : p.KeepsReferences q := by
  rcases appends_or_resolves h with happends | ⟨_, hkeeps⟩
  · exact happends.keepsReferences
  · exact hkeeps

end Program

end ClassTable
