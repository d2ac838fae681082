/-! # Spans

A span is a half-open range of byte offsets into a text. -/

namespace CallFill.Text

structure Span where
  start : Nat
  stop : Nat
deriving DecidableEq, Repr

namespace Span

/-- Two bounds in the wrong order. -/
structure Inverted where
  start : Nat
  stop : Nat
deriving DecidableEq, Repr

def Inverted.message (e : Inverted) : String :=
  "Span start (" ++ toString e.start ++ ") must be <= end (" ++ toString e.stop ++ ")"

/-- The empty span at an offset. -/
def caret (offset : Nat) : Span := ⟨offset, offset⟩

/-- The span between two bounds, which must be in order. -/
def between (start stop : Nat) : Except Inverted Span :=
  if start ≤ stop then .ok ⟨start, stop⟩ else .error ⟨start, stop⟩

/-- The number of bytes covered; none for bounds in the wrong order. -/
def len (s : Span) : Nat := s.stop - s.start

def isEmpty (s : Span) : Bool := s.start == s.stop

/-- The inner span lies within the outer one, ends included. -/
def contains (outer inner : Span) : Bool :=
  outer.start ≤ inner.start && inner.stop ≤ outer.stop

/-- Spans are ordered by their start, then by their end. -/
def order (a b : Span) : Ordering :=
  (compare a.start b.start).then (compare a.stop b.stop)

def render (s : Span) : String :=
  "[" ++ toString s.start ++ ", " ++ toString s.stop ++ ")"

@[simp] theorem caret_start (o : Nat) : (caret o).start = o := rfl
@[simp] theorem caret_stop (o : Nat) : (caret o).stop = o := rfl

theorem contains_iff {outer inner : Span} :
    outer.contains inner = true ↔ outer.start ≤ inner.start ∧ inner.stop ≤ outer.stop := by
  simp [contains]

theorem between_eq_ok_iff {start stop : Nat} {s : Span} :
    between start stop = .ok s ↔ start ≤ stop ∧ s = ⟨start, stop⟩ := by
  unfold between
  split
  · next h => simp [h, eq_comm]
  · next h => simp [h]

end Span

end CallFill.Text
