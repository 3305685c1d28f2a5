/-!
# ObjLang.Span — where a piece of source text stands

A span is a half-open range of byte offsets together with the line and column of its start, both
counted from one.  The span of a node is the merge of the spans of its parts.  The default span
(all zero) marks things that no source text declares.
-/

namespace ObjLang

/-- A byte range of the source, with the line and column of its first byte. -/
structure Span where
  start : Nat := 0
  stop : Nat := 0
  line : Nat := 0
  column : Nat := 0
deriving DecidableEq, Inhabited

namespace Span

/-- Number of bytes covered. -/
def length (s : Span) : Nat := s.stop - s.start

/-- A span that covers no byte. -/
def isEmpty (s : Span) : Bool := s.start == s.stop

/-- The smallest span over both; its position is that of the earlier start. -/
def merge (a b : Span) : Span where
  start := min a.start b.start
  stop := max a.stop b.stop
  line := if a.start ≤ b.start then a.line else b.line
  column := if a.start ≤ b.start then a.column else b.column

theorem merge_self (s : Span) : s.merge s = s := by
  simp [merge]

theorem start_merge_le (a b : Span) : (a.merge b).start ≤ a.start := Nat.min_le_left _ _

theorem le_stop_merge (a b : Span) : a.stop ≤ (a.merge b).stop := Nat.le_max_left _ _

end Span

end ObjLang
