import Lox.Text.Inspect

/-!
# Spans

A stretch of a text, in bytes of its UTF-8 form. Every place that a diagnostic can point at is one.
-/

namespace Lox

structure Span where
  start : Nat
  length : Nat
  deriving DecidableEq, Repr, Inhabited

namespace Span

/-- The stretch from one offset to another, empty where they are out of order. -/
def between (start stop : Nat) : Span :=
  ⟨start, stop - start⟩

def stop (span : Span) : Nat :=
  span.start + span.length

def inspect (span : Span) : String :=
  Inspect.record "Span" [("start", Inspect.nat span.start), ("length", Inspect.nat span.length)]

end Span

end Lox
