/-!
# Text edits

A **range** is a pair of byte offsets `start ≤ stop` into one file; a **text edit** replaces the
characters of a range of a file with new text (an insertion when the range is empty). Files are
named by a `FileId`. The ways a set of edits can be unusable are the constructors of `EditError`,
and `EditError.message` is their one wording.
-/

namespace QuickFix

/-- The name of a file that edits apply to. Files are ordered by name. -/
structure FileId where
  name : String
  deriving DecidableEq, Repr, Inhabited

instance : Ord FileId := ⟨fun a b => compare a.name b.name⟩

/-- A file as it is written inside error messages. -/
def FileId.tag (f : FileId) : String := "FileId(" ++ f.name ++ ")"

/-- A range of byte offsets, from `start` up to but not including `stop`. -/
structure Range where
  start : Nat
  stop : Nat
  deriving DecidableEq, Repr, Inhabited

namespace Range

/-- The empty range at one offset. -/
def point (offset : Nat) : Range := ⟨offset, offset⟩

/-- The number of bytes in the range. -/
def size (r : Range) : Nat := r.stop - r.start

/-- A range is empty when it starts where it stops. -/
def isEmpty (r : Range) : Bool := r.start == r.stop

/-- One range covers another when it starts no later and stops no earlier. -/
def covers (r s : Range) : Bool := r.start ≤ s.start && s.stop ≤ r.stop

/-- A range as it is written inside messages: `start..stop`. -/
def display (r : Range) : String := s!"{r.start}..{r.stop}"

/-- Ranges in order of start, then of stop. -/
def le (a b : Range) : Bool := a.start < b.start || (a.start == b.start && a.stop ≤ b.stop)

end Range

/-- Replacing the characters of `range` in `file` with `text`. -/
structure TextEdit where
  file : FileId
  range : Range
  text : String
  deriving DecidableEq, Repr, Inhabited

/-- Why a set of edits cannot be normalised or applied. -/
inductive EditError where
  /-- Two edits of one file touch the same characters. -/
  | overlapping (file : FileId) (first second : Range)
  /-- An edit reaches past the end of the text, which has `len` bytes. -/
  | outOfBounds (file : FileId) (range : Range) (len : Nat)
  /-- An edit starts or stops inside the encoding of a character. -/
  | splitsCharacter (file : FileId) (offset : Nat)
  deriving DecidableEq, Repr

namespace EditError

/-- The text of an edit error. -/
def message : EditError → String
  | overlapping f a b => s!"overlapping edits in {f.tag}: {a.display} overlaps {b.display}"
  | outOfBounds f r len =>
    s!"text edit range {r.display} is outside the file bounds (len={len}) in {f.tag}"
  | splitsCharacter f o => s!"offset {o} is not on a UTF-8 character boundary in {f.tag}"

/-- The name of the kind of an edit error. -/
def kind : EditError → String
  | overlapping .. => "OverlappingEdits"
  | outOfBounds .. => "OutOfBounds"
  | splitsCharacter .. => "InvalidUtf8Boundary"

end EditError

end QuickFix
