import ClassTable.Program.Supertypes
import ClassTable.Session
import ClassTable.Proofs.Program.Handles
import ClassTable.Proofs.Program.Signatures
import ClassTable.Proofs.Registry.Growth

/-!
# Runs of a session

A session is worked on by operations of all sorts, in any order: declaring and attaching,
resolving, asking the catalog, and asking for supertypes. Each of them makes one step of the
program or none, and some requests of the catalog or none (`advances_perform`). So all that
steps and requests keep is kept by a run: what was reachable still is, handles stay, and the
catalog grows (`Session.Advances`).
-/

namespace ClassTable

/-- What can be done in a session. -/
inductive Operation where
  | declare (scope : Scope) (head : Head)
  | addExtends (id : TypeId) (r : Reference)
  | addImplements (id : TypeId) (r : Reference)
  | addField (x : Field)
  | addMethod (x : Method)
  | addConstructor (x : Constructor)
  | addInitializer (x : Initializer)
  | resolveAt (site : Site) (type : TypeHandle)
  | resolveAll
  | request (q : Request)
  | supertypes (id : TypeId)

/-- The type whose head gets a new reference, if the operation attaches one. -/
def Operation.attachesTo : Operation → Option TypeId
  | .addExtends id _ | .addImplements id _ => some id
  | _ => none

namespace Session

/-- The session with the program that comes out of an operation. A fault changes nothing. -/
def accept (s : Session Catalog) : Except Fault Program → Session Catalog
  | .ok program => { s with program }
  | .error _ => s

/-- The session after an operation. -/
def perform (s : Session Catalog) : Operation → Session Catalog
  | .declare scope head => s.accept ((s.program.declare scope head).map Prod.snd)
  | .addExtends id r => s.accept (s.program.addExtends id r)
  | .addImplements id r => s.accept (s.program.addImplements id r)
  | .addField x => s.accept ((s.program.addField x).map Prod.snd)
  | .addMethod x => s.accept ((s.program.addMethod x).map Prod.snd)
  | .addConstructor x => s.accept ((s.program.addConstructor x).map Prod.snd)
  | .addInitializer x => s.accept ((s.program.addInitializer x).map Prod.snd)
  | .resolveAt site type =>
    match s.program.resolveAt site type with
    | .ok (some (_, program)) => { s with program }
    | _ => s
  | .resolveAll =>
    match s.program.resolveAll s.registry with
    | .ok pass => { s with program := pass.program, registry := pass.registry }
    | .error _ => s
  | .request q => { s with registry := (s.registry.answer q).2 }
  | .supertypes id => { s with registry := (s.program.supertypes s.registry id).2 }

/-- The session after a sequence of operations. -/
def run (s : Session Catalog) (ops : List Operation) : Session Catalog := ops.foldl perform s

theorem run_cons (s : Session Catalog) (op : Operation) (ops : List Operation) :
    s.run (op :: ops) = (s.perform op).run ops := rfl

theorem run_append (s : Session Catalog) (earlier later : List Operation) :
    s.run (earlier ++ later) = (s.run earlier).run later := List.foldl_append

/-! ## The catalog -/

/-- Wrapping asks for array types. -/
theorem later_wrap (c : Catalog) (dims : Nat) (type : TypeHandle) :
    c.Later (Resolution.wrap c dims type).2 := by
  induction dims generalizing c type with
  | zero => exact c.later_refl
  | succ dims ih =>
      have harray : c.Later (Registry.arrayOf c type).2 := c.later_answer (.arrayOf type)
      rw [Resolution.wrap]
      cases hanswer : Registry.arrayOf c type with
      | mk found grown =>
          rw [hanswer] at harray
          cases found with
          | none => exact harray
          | some i => exact harray.trans (ih grown (.canonical i))

theorem later_find {p : Program} {c c' : Catalog} {context : TypeId} {r : Reference}
    {found : Option TypeHandle} (h : Resolution.find p c context r = .ok (found, c')) :
    c.Later c' := by
  obtain ⟨element, _, h⟩ := bind_eq_ok.mp h
  cases element with
  | none =>
      cases h
      exact c.later_refl
  | some base =>
      have hwrap := later_wrap c r.dimensions base
      rwa [show Resolution.wrap c r.dimensions base = (found, c') from Except.ok.inj h] at hwrap

theorem later_foldlM {places : List (TypeId × Site)} {s s' : Resolution Catalog}
    (h : places.foldlM Resolution.visit s = .ok s') : s.registry.Later s'.registry := by
  induction places generalizing s with
  | nil =>
      cases h
      exact Catalog.later_refl _
  | cons place places ih =>
      obtain ⟨context, site⟩ := place
      rw [List.foldlM_cons] at h
      obtain ⟨mid, hmid, hrest⟩ := bind_eq_ok.mp h
      refine Catalog.Later.trans ?_ (ih hrest)
      cases Resolution.visit_cases hmid with
      | missing _ | kept _ _ => exact Catalog.later_refl _
      | found _ _ hfind | missed _ _ hfind => exact later_find hfind

theorem later_resolveAll {p : Program} {c : Catalog} {s : Resolution Catalog}
    (h : p.resolveAll c = .ok s) : c.Later s.registry := by
  obtain ⟨places, _, hfold⟩ := bind_eq_ok.mp h
  exact later_foldlM hfold

/-- Asking for supertypes asks for a specialization at most. -/
theorem later_supertypes (p : Program) (c : Catalog) (id : TypeId) :
    c.Later (p.supertypes c id).2 := by
  unfold Program.supertypes
  split
  · exact c.later_refl
  · split
    · have hspecialize := c.later_answer (.specialize c.enumBase [.declared id])
      simp only [Catalog.answer] at hspecialize
      simp only [Program.enumSupertypes, Registry.enumBase?]
      split <;> simp_all
    · exact c.later_refl

/-! ## One operation -/

/-- What stays from a session to a later one. -/
structure Advances (s t : Session Catalog) : Prop where
  /-- What led to the program leads on to the later one. -/
  program : s.program.Reachable → t.program.Reachable
  /-- So it is with the catalog, which was asked some more. -/
  registry : s.registry.Later t.registry
  /-- Types and code are still there. -/
  grows : s.program.Grows t.program
  /-- So are references and their handles. -/
  keeps : s.program.KeepsReferences t.program

theorem advances_of_same {s t : Session Catalog} (hprogram : t.program = s.program)
    (hregistry : s.registry.Later t.registry) : s.Advances t where
  program := fun hs => hprogram ▸ hs
  registry := hregistry
  grows := by rw [hprogram]; exact ⟨fun _ d hd => ⟨d, hd, rfl⟩, fun _ _ ho => ho⟩
  keeps := by rw [hprogram]; exact Program.keepsReferences_refl _

theorem Advances.trans {a b c : Session Catalog} (hab : a.Advances b) (hbc : b.Advances c) :
    a.Advances c where
  program := fun ha => hbc.program (hab.program ha)
  registry := hab.registry.trans hbc.registry
  grows := by
    refine ⟨fun id d hd => ?_, fun block o ho =>
      hbc.grows.owners block o (hab.grows.owners block o ho)⟩
    obtain ⟨d', hd', hinitial⟩ := hab.grows.types id d hd
    obtain ⟨d'', hd'', hinitial'⟩ := hbc.grows.types id d' hd'
    exact ⟨d'', hd'', hinitial'.trans hinitial⟩
  keeps := hab.keeps.trans hbc.keeps

/-- One step of the program, and perhaps some requests. -/
theorem advances_of_step {s t : Session Catalog} (h : Program.Step s.program t.program)
    (hregistry : s.registry.Later t.registry) : s.Advances t where
  program := fun hs => hs.tail h
  registry := hregistry
  grows := Program.grows_step h
  keeps := Program.keepsReferences_step h

theorem advances_accept {s : Session Catalog} {result : Except Fault Program}
    (h : ∀ q, result = .ok q → Program.Step s.program q) : s.Advances (s.accept result) := by
  cases result with
  | error fault => exact advances_of_same rfl s.registry.later_refl
  | ok q => exact advances_of_step (h q rfl) s.registry.later_refl

/-- Declarations and new members also have a name to give. -/
theorem advances_accept_named {s : Session Catalog} {α : Type}
    {result : Except Fault (α × Program)}
    (h : ∀ x q, result = .ok (x, q) → Program.Step s.program q) :
    s.Advances (s.accept (result.map Prod.snd)) := by
  refine advances_accept fun q hq => ?_
  obtain ⟨⟨x, _⟩, hresult, rfl⟩ := map_eq_ok.mp hq
  exact h x _ hresult

/-- **Every operation leads on.** -/
theorem advances_perform (s : Session Catalog) (op : Operation) : s.Advances (s.perform op) := by
  cases op with
  | declare scope head => exact advances_accept_named fun _ _ h => .declare h
  | addExtends id r => exact advances_accept fun _ h => .addExtends h
  | addImplements id r => exact advances_accept fun _ h => .addImplements h
  | addField x => exact advances_accept_named fun _ _ h => .addField h
  | addMethod x => exact advances_accept_named fun _ _ h => .addMethod h
  | addConstructor x => exact advances_accept_named fun _ _ h => .addConstructor h
  | addInitializer x => exact advances_accept_named fun _ _ h => .addInitializer h
  | resolveAt site type =>
      simp only [perform]
      split
      · rename_i hresolve
        exact advances_of_step (.resolveAt hresolve) s.registry.later_refl
      · exact advances_of_same rfl s.registry.later_refl
  | resolveAll =>
      simp only [perform]
      split
      · rename_i hpass
        exact advances_of_step (.resolveAll hpass) (later_resolveAll hpass)
      · exact advances_of_same rfl s.registry.later_refl
  | request q => exact advances_of_same rfl (s.registry.later_answer q)
  | supertypes id => exact advances_of_same rfl (later_supertypes s.program s.registry id)

/-- **Every run leads on.** -/
theorem advances_run (s : Session Catalog) (ops : List Operation) : s.Advances (s.run ops) := by
  induction ops generalizing s with
  | nil => exact advances_of_same rfl s.registry.later_refl
  | cons op ops ih => exact (advances_perform s op).trans (ih (s.perform op))

end Session

end ClassTable
