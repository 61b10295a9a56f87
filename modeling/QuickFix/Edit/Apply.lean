import QuickFix.Edit.Basic
import QuickFix.Text.Bytes

/-!
# Applying edits to a text

`applyEdits` replaces, in one pass, the range of each edit with its text. Every edit must stop
within the text and start and stop on character boundaries; the edits are then taken in order of
range, ties in their given order, and each must start at or after the place where the one before
it stopped. The file of an edit is only used to name it in an error.
-/

namespace QuickFix

open Text

/-- Why an edit does not fit a text: it reaches past the end, or its start or its stop cuts a
character. -/
def boundsError? (cs : List Char) (e : TextEdit) : Option EditError :=
  let len := byteSize cs
  if len < e.range.stop then some (.outOfBounds e.file e.range len)
  else if !isBoundary cs e.range.start then some (.splitsCharacter e.file e.range.start)
  else if !isBoundary cs e.range.stop then some (.splitsCharacter e.file e.range.stop)
  else none

/-- The first edit that reaches past the text or cuts a character. -/
def checkBounds (cs : List Char) (edits : List TextEdit) : Option EditError :=
  edits.findSome? (boundsError? cs)

/-- Writes the sorted edits over the text, which has been read up to the offset `cursor`; `rest`
is the text after the cursor. -/
def applySorted (rest : List Char) (cursor : Nat) : List TextEdit → Except EditError (List Char)
  | [] => .ok rest
  | e :: es =>
    if e.range.start < cursor then
      .error (.overlapping e.file ⟨min cursor e.range.start, cursor⟩ e.range)
    else
      let (kept, after) := splitBytes rest (e.range.start - cursor)
      let after' := dropBytes after (e.range.stop - e.range.start)
      (applySorted after' e.range.stop es).map fun out => kept ++ e.text.toList ++ out

/-- The text after all edits, or the first reason they cannot be applied. -/
def applyEdits (source : String) (edits : List TextEdit) : Except EditError String :=
  if edits.isEmpty then .ok source
  else
    let cs := source.toList
    match checkBounds cs edits with
    | some err => .error err
    | none =>
      let sorted := edits.mergeSort fun a b => a.range.le b.range
      (applySorted cs 0 sorted).map String.ofList

end QuickFix
