/-!
# Spans

A span is the half-open range `start..stop` of byte positions that a piece of source text takes
up. Spans are data handed over by whoever read the source: nothing here asks that they be well
formed, so a span may also end before it starts.

Merging takes the smaller start and the larger end. It is associative, commutative and
idempotent on all spans, malformed ones included, so the span of a run of tokens depends neither
on their order nor on repetitions.
-/

namespace ClassTable

/-- The half-open byte range `start..stop`. -/
structure Span where
  /-- Position of the first byte. -/
  start : Nat
  /-- Position after the last byte. -/
  stop : Nat
  deriving DecidableEq

namespace Span

/-- The span of text that no source position belongs to. -/
def dummy : Span := ⟨0, 0⟩

/-- Number of bytes in the span, as a thirty-two bit word. This is meant for spans that do not end
before they start: for any other the difference is not checked, and wraps around. -/
def length (s : Span) : Nat := (UInt32.ofNat s.stop - UInt32.ofNat s.start).toNat

/-- A span is empty when it ends where it starts. -/
def isEmpty (s : Span) : Bool := s.start == s.stop

/-- The least span that covers both. -/
def merge (a b : Span) : Span := ⟨min a.start b.start, max a.stop b.stop⟩

/-- Written form: both ends, with two dots between them. -/
def text (s : Span) : String := toString s.start ++ ".." ++ toString s.stop

@[simp] theorem merge_start (a b : Span) : (a.merge b).start = min a.start b.start := rfl

@[simp] theorem merge_stop (a b : Span) : (a.merge b).stop = max a.stop b.stop := rfl

@[simp] theorem merge_self (a : Span) : a.merge a = a := by
  cases a
  simp [merge]

theorem merge_comm (a b : Span) : a.merge b = b.merge a := by
  simp [merge, Nat.min_comm, Nat.max_comm]

theorem merge_assoc (a b c : Span) : (a.merge b).merge c = a.merge (b.merge c) := by
  simp [merge, Nat.min_assoc, Nat.max_assoc]

end Span

end ClassTable
