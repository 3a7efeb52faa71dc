/-!
# Source spans

A span names a stretch of source text by byte offsets and the line it starts on.
-/

set_option autoImplicit false

namespace TypeInference

/-- A stretch of source text; the all-zero span stands for text that has no place. -/
structure Span where
  start : Nat := 0
  stop : Nat := 0
  line : Nat := 0
deriving DecidableEq, Repr, Inhabited

namespace Span

/-- The span that is known by its line only. -/
def atLine (line : Nat) : Span := { line }

/-- The smallest span around both, placed on the earlier line. -/
def merge (a b : Span) : Span where
  start := min a.start b.start
  stop := max a.stop b.stop
  line := min a.line b.line

/-- All spans merged from left to right, or nothing when there is none. -/
def mergeAll? : List Span → Option Span
  | [] => none
  | a :: rest => some (rest.foldl merge a)

/-- Diagnostics place a span by its line. -/
def text (a : Span) : String := s!"line {a.line}"

end Span

end TypeInference
