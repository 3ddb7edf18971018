import Cull.Text.Basic

/-!
# Spans

A span is a half-open range of byte offsets. Its two ends are in order by
construction. `merge` brings a list of spans into the form in which they are
cut out of a text: sorted, and with a real gap between one span and the next.
-/

namespace Cull

/-- The bytes from `start` up to, but not including, `stop`. -/
structure Span where
  /-- The offset of the first byte. -/
  start : Nat
  /-- The offset after the last byte. -/
  stop : Nat
  /-- The ends are in order. -/
  ordered : start ≤ stop
  deriving DecidableEq

/-- The ends of a would-be span stand in the wrong order. -/
structure InvertedSpan where
  /-- The would-be start. -/
  start : Nat
  /-- The would-be end, which lies before the start. -/
  stop : Nat

/-- What is wrong with an inverted span, in words. -/
def InvertedSpan.message (e : InvertedSpan) : String :=
  s!"span end {e.stop} precedes span start {e.start}"

namespace Span

/-- The span with the given ends, if they are in order. -/
def ofEnds (start stop : Nat) : Except InvertedSpan Span :=
  if h : start ≤ stop then .ok ⟨start, stop, h⟩ else .error ⟨start, stop⟩

/-- The span that a text takes up when it begins at `start`. -/
def ofText (start : Nat) (t : Text) : Span := ⟨start, start + t.byteLength, Nat.le_add_right _ _⟩

/-- The other span lies inside this one. -/
def contains (s other : Span) : Bool := s.start ≤ other.start && other.stop ≤ s.stop

/-- The text that the span marks in `source`; `none` when an end is not a position of `source`. -/
def slice? (s : Span) (source : Text) : Option Text := source.slice? s.start s.stop

/-- The order of spans: by start, then by end. -/
def le (s t : Span) : Bool := s.start < t.start || (s.start = t.start && s.stop ≤ t.stop)

/-- Merges sorted spans into `last`, the span read so far. -/
def mergeInto (last : Span) : List Span → List Span
  | [] => [last]
  | s :: rest =>
    if s.start ≤ last.stop then
      mergeInto ⟨last.start, max last.stop s.stop, Nat.le_trans last.ordered (Nat.le_max_left _ _)⟩ rest
    else last :: mergeInto s rest

/-- Merges spans that are sorted by `le`. -/
def mergeSorted : List Span → List Span
  | [] => []
  | s :: rest => mergeInto s rest

/-- The spans sorted, with overlapping and touching ones joined. -/
def merge (spans : List Span) : List Span := mergeSorted (spans.mergeSort le)

end Span

end Cull
