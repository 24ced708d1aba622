import ScriptCheck.Text.Slice

/-!
# Spans

A span is a region of a script, given by the byte offset of its start and its length, so that no
span ends before it starts. A length has 32 bits: the constructors with a question mark answer
nothing for a region that is longer, or that would end before its start. A `Located` value carries
the span it came from.
-/

namespace ScriptCheck

/-- A region of a script, in bytes. -/
structure Span where
  lo : Nat
  len : Nat
  deriving DecidableEq, Repr, Inhabited

namespace Span

/-- The offset at which a span ends. -/
def hi (s : Span) : Nat := s.lo + s.len

/-- The lengths that a span can have. -/
def maxLength : Nat := Nat.pow 2 32 - 1

/-- The greatest offset. -/
def maxOffset : Nat := Nat.pow 2 64 - 1

/-- Whether the length of a span has 32 bits. -/
def Fits (s : Span) : Prop := s.len ≤ maxLength

instance (s : Span) : Decidable s.Fits := inferInstanceAs (Decidable (_ ≤ _))

/-- The span between two offsets; empty at the first if the second lies before it. -/
def between (lo hi : Nat) : Span := ⟨lo, hi - lo⟩

/-- The span from the start of one span to the end of another; empty if that lies before. -/
def through (s other : Span) : Span := between s.lo other.hi

/-- An offset moved by a signed amount, stopping at both ends of the range of offsets. -/
def moveOffset (offset : Nat) (by_ : Int) : Nat := min (offset + by_).toNat maxOffset

/-- Moves both ends of a span, the end never before the start. -/
def offset (s : Span) (lo hi : Int) : Span :=
  between (moveOffset s.lo lo) (moveOffset s.hi hi)

/-- Whether a span holds the character at an offset. -/
def contains (s : Span) (offset : Nat) : Bool := s.lo ≤ offset && offset < s.hi

/-- Whether an offset lies in a span or at its end, where a cursor stands after a word. -/
def touches (s : Span) (offset : Nat) : Bool := s.lo ≤ offset && offset ≤ s.hi

/-- The text of a span, if it lies within the text and on character boundaries. -/
def text? (s : Span) (source : List Char) : Option (List Char) :=
  Text.slice? source s.lo s.hi

/-- A span as it is shown. -/
def display (s : Span) : String := s!"{s.lo}..{s.hi}"

/-- A span with its length. -/
def detail (s : Span) : String := s!"Span({s.lo}..{s.hi}, len: {s.len})"

@[simp] theorem hi_between (lo hi : Nat) : (between lo hi).hi = max lo hi := by
  simp only [between, Span.hi]
  omega

@[simp] theorem lo_through (s t : Span) : (s.through t).lo = s.lo := rfl

@[simp] theorem hi_through (s t : Span) : (s.through t).hi = max s.lo t.hi := hi_between _ _

theorem lo_le_hi (s : Span) : s.lo ≤ s.hi := Nat.le_add_right _ _

end Span

/-- A value and the region of the script it comes from. -/
structure Located (α : Type) where
  span : Span
  value : α
  deriving DecidableEq, Repr

/-- A located value as it is shown, after its span. -/
def Located.display {α : Type} (show_ : α → String) (x : Located α) : String :=
  x.span.display ++ ": " ++ show_ x.value

end ScriptCheck
