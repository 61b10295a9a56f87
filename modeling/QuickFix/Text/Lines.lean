import QuickFix.Text.Blank
import QuickFix.Text.Bytes

/-!
# Lines of a text

Questions about the line that holds a byte offset: where it starts and ends, its indentation,
whether only indentation stands before the offset, and the nearest non-blank character on either
side. An offset past the end of the text is read as the end. The **line separator** of a text is
`"\r\n"` when its first line feed follows a carriage return, and `"\n"` otherwise.
-/

namespace QuickFix.Text

/-- Indentation is made of spaces and tabs. -/
def isIndent (c : Char) : Bool := c == ' ' || c == '\t'

/-- The offset clamped to the size of the text. -/
def clampOffset (cs : List Char) (offset : Nat) : Nat := min offset (byteSize cs)

/-- The offset of the first character of the line that holds `offset`. -/
def lineStart (cs : List Char) (offset : Nat) : Nat :=
  match rfindByte (· == '\n') (takeBytes cs (clampOffset cs offset)) with
  | some i => i + 1
  | none => 0

/-- The offset of the line feed, or the end of the text, that ends the line holding `offset`;
a carriage return just before it is not part of the line. -/
def lineEnd (cs : List Char) (offset : Nat) : Nat :=
  let o := clampOffset cs offset
  let stop := match findByte (· == '\n') (dropBytes cs o) with
    | some i => o + i
    | none => byteSize cs
  if 0 < stop && (sliceBytes cs (stop - 1) stop) == ['\r'] then stop - 1 else stop

/-- The spaces and tabs that open the line holding `offset`. -/
def lineIndent (cs : List Char) (offset : Nat) : List Char :=
  (dropBytes cs (lineStart cs offset)).takeWhile isIndent

/-- Only spaces and tabs stand between the start of the line and `offset`. -/
def startsLine (cs : List Char) (offset : Nat) : Bool :=
  let o := clampOffset cs offset
  (sliceBytes cs (lineStart cs o) o).all isIndent

/-- The offset just past the last non-blank character before `offset`. -/
def skipBlankBackward (cs : List Char) (offset : Nat) : Nat :=
  byteSize ((takeBytes cs (clampOffset cs offset)).reverse.dropWhile isBlank)

/-- The offset of the first non-blank character at or after `offset`. -/
def skipBlankForward (cs : List Char) (offset : Nat) : Nat :=
  let o := clampOffset cs offset
  o + byteSize ((dropBytes cs o).takeWhile isBlank)

/-- The separator of the first line: a line feed, with the carriage return before it if any. -/
def lineSeparator (cs : List Char) : String :=
  match cs.dropWhile (· != '\n') with
  | '\n' :: _ => if (cs.takeWhile (· != '\n')).getLast? == some '\r' then "\r\n" else "\n"
  | _ => "\n"

end QuickFix.Text
