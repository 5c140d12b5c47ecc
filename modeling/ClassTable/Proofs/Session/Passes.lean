import ClassTable.Proofs.Program.Repetition
import ClassTable.Proofs.Session.Operations

/-!
# Pass after pass

A pass counts every reference of the program once. What it found stays, whatever happens in the
session afterwards, so a later pass meets at least that many references that have their types,
and one that follows immediately has nothing to do at all.
-/

namespace ClassTable

namespace Resolution

/--
**A pass visits every reference once, and once is enough.**

A pass over a reachable program and a reachable catalog succeeds. It visits all sites with a
reference and none of them twice; it counts the references that had their types before, and
with those that it resolved and those that it missed these are all. A second pass right after
it leaves the program and the catalog as they are, and counts everything with a type as resolved
before. Whatever happens in the session instead, no handle changes, neither by what happens nor
by the next pass, which counts at least as many references as resolved before.
-/
theorem resolveAll_twice {p : Program} {c : Catalog} (hp : p.Reachable) (hc : c.Reachable) :
    (∃ places, p.referenceSites = .ok places ∧ (places.map Prod.snd).Nodup ∧
      ∀ site, site ∈ places.map Prod.snd ↔ p.HasReference site) ∧
    ∃ s, p.resolveAll c = .ok s ∧
      s.tally.alreadyResolved = p.references.countP Reference.isResolved ∧
      s.tally.resolved + s.tally.alreadyResolved + s.tally.unresolved = p.references.length ∧
      s.program.resolveAll s.registry = .ok
        { program := s.program
          registry := s.registry
          tally := {
            resolved := 0
            alreadyResolved := s.tally.resolved + s.tally.alreadyResolved
            unresolved := s.tally.unresolved } } ∧
      ∀ (checkpoints : List Program) (ops : List Operation) (later : Session Catalog),
        Session.run { program := s.program, registry := s.registry, checkpoints } ops = later →
        ∃ s', later.program.resolveAll later.registry = .ok s' ∧
          (∀ site type, s.program.handle? site = some type →
            later.program.handle? site = some type ∧ s'.program.handle? site = some type) ∧
          s.tally.resolved + s.tally.alreadyResolved ≤ s'.tally.alreadyResolved := by
  have hrostered := Program.rostered_reachable hp
  refine ⟨?_, ?_⟩
  · obtain ⟨places, hplaces, hperm, _⟩ := Program.sites_perm hrostered
    exact ⟨places, hplaces, hperm.nodup_iff.mpr p.tableSites_nodup,
      fun site => hperm.mem_iff.trans Program.mem_tableSites⟩
  · obtain ⟨⟨s, hpass, hresolves⟩, _⟩ := resolveAll_correct hp hc
    obtain ⟨halready, hnow, htotal⟩ := tally_resolveAll hrostered hpass
    have hs : s.program.Reachable := hp.tail (.resolveAll hpass)
    have hregistry : s.registry.Reachable :=
      Catalog.reachable_later hc (Session.later_resolveAll hpass)
    refine ⟨s, hpass, halready, htotal, ?_, fun checkpoints ops later hrun => ?_⟩
    · -- the second pass changes nothing, so it counts the same references again
      have hsettled := settled_of_resolves (Catalog.sound_reachable hc)
        (Catalog.sound_reachable hregistry) hresolves
      obtain ⟨tally, hagain, hzero⟩ := resolveAll_settled hs hsettled
      obtain ⟨halready', _, htotal'⟩ := tally_resolveAll (Program.rostered_reachable hs) hagain
      have hlength : s.program.references.length = p.references.length := by
        rw [← Program.length_tableSites, ← Program.length_tableSites]
        exact (Program.tableSites_perm hresolves.outline).length_eq
      obtain ⟨resolved, alreadyResolved, unresolved⟩ := tally
      simp only at hzero halready' htotal'
      have heq : alreadyResolved = s.tally.resolved + s.tally.alreadyResolved := by omega
      have heq' : unresolved = s.tally.unresolved := by omega
      rw [hagain, hzero, heq, heq']
    · subst hrun
      have hadvances := Session.advances_run
        { program := s.program, registry := s.registry, checkpoints } ops
      have hlater := hadvances.program hs
      obtain ⟨⟨s', hpass', hresolves'⟩, _⟩ :=
        resolveAll_correct hlater (Catalog.reachable_later hregistry hadvances.registry)
      have hkept := fun site type (htype : s.program.handle? site = some type) =>
        hadvances.keeps.handle? htype
      refine ⟨s', hpass', fun site type htype => ?_, ?_⟩
      · exact ⟨hkept site type htype, hresolves'.kept site type (hkept site type htype)⟩
      · obtain ⟨halready', _, _⟩ := tally_resolveAll (Program.rostered_reachable hlater) hpass'
        rw [hnow, halready']
        exact Program.countP_references_le hkept

/-- The sample has three references, none of which has its type before the pass. The pass resolves
two of them. -/
theorem sample_resolved_twice : ∃ s, Program.sample.resolveAll (Catalog.ofCoreNames {}) = .ok s ∧
    s.tally = { resolved := 2, alreadyResolved := 0, unresolved := 1 } ∧
    s.tally.resolved + s.tally.alreadyResolved + s.tally.unresolved = 3 ∧
    s.program.resolveAll s.registry = .ok
      { program := s.program
        registry := s.registry
        tally := {
          resolved := 0
          alreadyResolved := s.tally.resolved + s.tally.alreadyResolved
          unresolved := s.tally.unresolved } } := by
  have hcounts : (Program.sample.resolveAll (Catalog.ofCoreNames {})).map Resolution.tally =
      .ok { resolved := 2, alreadyResolved := 0, unresolved := 1 } := by decide +kernel
  obtain ⟨_, s, hpass, _, htotal, hagain, _⟩ :=
    resolveAll_twice (c := Catalog.ofCoreNames {}) Program.sample_reachable ⟨_, _, .seed rfl rfl⟩
  rw [hpass] at hcounts
  exact ⟨s, hpass, Except.ok.inj hcounts, htotal, hagain⟩

end Resolution

end ClassTable
