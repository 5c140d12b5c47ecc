import ClassTable.Reference

/-!
# The extent of a reference

The span of a reference is put together from the spans of its tokens, one after the other from the
left, and a diagnostic about the reference points at it. Nobody promises that the tokens come in the
order of the source, or that their spans end after they start.

It does not matter. What carries this file is that a span covers a merged one exactly if it covers
both (`covers_merge_iff`). So a span covers that of a reference exactly if it covers those of all
tokens (`covers_span_iff`), which says nothing of an order. Spans that cover the same spans are the
same (`eq_of_covers_iff`), and so whatever is asked about the span of a reference can be asked about
the tokens.
-/

namespace ClassTable

namespace Span

/-- The second span lies within the first. For spans that end before they start, too, this compares
the ends. -/
def Covers (s t : Span) : Prop := s.start ≤ t.start ∧ t.stop ≤ s.stop

instance (s t : Span) : Decidable (s.Covers t) := inferInstanceAs (Decidable (_ ∧ _))

theorem covers_refl (s : Span) : s.Covers s := ⟨Nat.le_refl _, Nat.le_refl _⟩

/-- **To cover a merged span is to cover both.** -/
theorem covers_merge_iff {s a b : Span} : s.Covers (a.merge b) ↔ s.Covers a ∧ s.Covers b := by
  simp only [Covers, merge_start, merge_stop, Nat.le_min, Nat.max_le]
  exact and_and_and_comm

/-- A span is told by what covers it. -/
theorem eq_of_covers_iff {a b : Span} (h : ∀ s : Span, s.Covers a ↔ s.Covers b) : a = b := by
  obtain ⟨hstart, hstop⟩ := (h a).mp a.covers_refl
  obtain ⟨hstart', hstop'⟩ := (h b).mpr b.covers_refl
  cases a
  cases b
  rw [Span.mk.injEq]
  exact ⟨Nat.le_antisymm hstart hstart', Nat.le_antisymm hstop' hstop⟩

/-- To cover what some spans are merged to is to cover them all. -/
theorem covers_foldl_iff {s first : Span} {others : List Span} :
    s.Covers (others.foldl merge first) ↔ ∀ t ∈ first :: others, s.Covers t := by
  induction others generalizing first with
  | nil => simp
  | cons next others ih =>
      rw [List.foldl_cons, ih]
      simp only [List.forall_mem_cons, covers_merge_iff, and_assoc]

/-- Merging takes the least start. -/
theorem start_foldl (first : Span) (others : List Span) :
    (others.foldl merge first).start = (others.map start).foldl min first.start := by
  rw [List.foldl_map, List.foldl_hom start fun a b => (merge_start a b).symm]

/-- Merging takes the largest end. -/
theorem stop_foldl (first : Span) (others : List Span) :
    (others.foldl merge first).stop = (others.map stop).foldl max first.stop := by
  rw [List.foldl_map, List.foldl_hom stop fun a b => (merge_stop a b).symm]

end Span

namespace Reference

/-- **To cover a reference is to cover its tokens.** -/
theorem covers_span_iff {r : Reference} (h : r.tokens ≠ []) {s : Span} :
    s.Covers r.span ↔ ∀ t ∈ r.tokens, s.Covers t.span := by
  unfold span
  split
  · rename_i hnone
    exact absurd (List.map_eq_nil_iff.mp hnone) h
  · rename_i first others hspans
    rw [Span.covers_foldl_iff, ← hspans, List.forall_mem_map]

/-- The span starts where the first of the tokens starts, and ends where the last of them ends. -/
theorem ends_span {r : Reference} (h : r.tokens ≠ []) :
    (r.tokens.map fun t => t.span.start).min? = some r.span.start ∧
      (r.tokens.map fun t => t.span.stop).max? = some r.span.stop := by
  unfold span
  split
  · rename_i hnone
    exact absurd (List.map_eq_nil_iff.mp hnone) h
  · rename_i first others hspans
    have hstarts : (r.tokens.map fun t => t.span.start) = (first :: others).map Span.start := by
      rw [← hspans, List.map_map]
      rfl
    have hstops : (r.tokens.map fun t => t.span.stop) = (first :: others).map Span.stop := by
      rw [← hspans, List.map_map]
      rfl
    rw [hstarts, hstops, Span.start_foldl, Span.stop_foldl]
    exact ⟨List.min?_cons', List.max?_cons'⟩

/--
**The span of a reference is the least that covers its tokens.**

It starts at the least of their starts and ends at the largest of their ends. So it covers all
tokens, and whatever covers all tokens covers it. It depends on no more than which tokens there are:
neither their order nor repetitions change it. And if the tokens of a reference are those of two
others, its span is merged from theirs. None of this asks that spans end after they start, and
neither do the laws of merging.
-/
theorem span_least_cover (r : Reference) (h : r.tokens ≠ []) :
    ((r.tokens.map fun t => t.span.start).min? = some r.span.start ∧
      (r.tokens.map fun t => t.span.stop).max? = some r.span.stop) ∧
    (∀ t ∈ r.tokens, r.span.Covers t.span) ∧
    (∀ s : Span, (∀ t ∈ r.tokens, s.Covers t.span) → s.Covers r.span) ∧
    (∀ other : Reference, (∀ t, t ∈ other.tokens ↔ t ∈ r.tokens) → other.span = r.span) ∧
    (∀ other whole : Reference, other.tokens ≠ [] → whole.tokens = r.tokens ++ other.tokens →
      whole.span = r.span.merge other.span) ∧
    ∀ a b c : Span, (a.merge b).merge c = a.merge (b.merge c) ∧ a.merge b = b.merge a ∧
      a.merge a = a := by
  refine ⟨ends_span h, ?_, ?_, ?_, ?_, ?_⟩
  · exact (covers_span_iff h).mp r.span.covers_refl
  · exact fun s hs => (covers_span_iff h).mpr hs
  · intro other hsame
    have hother : other.tokens ≠ [] := by
      obtain ⟨t, ht⟩ := List.exists_mem_of_ne_nil _ h
      exact List.ne_nil_of_mem ((hsame t).mpr ht)
    refine Span.eq_of_covers_iff fun s => ?_
    rw [covers_span_iff hother, covers_span_iff h]
    exact forall_congr' fun t => by rw [hsame t]
  · intro other whole hother hwhole
    have hne : whole.tokens ≠ [] := by
      rw [hwhole]
      exact List.append_ne_nil_of_left_ne_nil h _
    refine Span.eq_of_covers_iff fun s => ?_
    rw [Span.covers_merge_iff, covers_span_iff hne, covers_span_iff h, covers_span_iff hother,
      hwhole, List.forall_mem_append]
  · exact fun a b c => ⟨a.merge_assoc b c, a.merge_comm b, a.merge_self⟩

/-- Three tokens, not in the order of the source, of which the last ends before it starts. -/
def sampleScattered : Reference :=
  { tokens := [⟨".", ⟨9, 10⟩⟩, ⟨"List", ⟨10, 14⟩⟩, ⟨"util", ⟨8, 3⟩⟩] }

theorem sample_extent : sampleScattered.tokens ≠ [] ∧ sampleScattered.span = ⟨8, 14⟩ ∧
    sampleScattered.span.Covers ⟨8, 3⟩ ∧
    ({ tokens := sampleScattered.tokens.reverse ++ sampleScattered.tokens } : Reference).span =
      ⟨8, 14⟩ := by
  have hne : sampleScattered.tokens ≠ [] := by decide
  obtain ⟨_, hcovers, _, hsame, _⟩ := span_least_cover sampleScattered hne
  refine ⟨hne, rfl, hcovers ⟨"util", ⟨8, 3⟩⟩ (by decide), ?_⟩
  exact hsame _ fun t => by simp

end Reference

end ClassTable
