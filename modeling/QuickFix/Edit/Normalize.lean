import QuickFix.Edit.Basic

/-!
# Normal form of a set of edits

A list of edits is in **normal form** when it is sorted by file and then by range, holds at most
one edit per range, and no two edits of one file overlap. `normalize` brings a list there or says
which two edits collide: edits are sorted stably, a repeat of an edit is dropped, insertions at
one offset are joined in their given order, and any other pair on one range, or any pair where the
second starts before the first stops, is an overlap.

`groupByFile` lists the edits of each file, files in order and each file's edits sorted by range,
keeping the given order among edits of one range.
-/

namespace QuickFix

namespace TextEdit

/-- Edits in order of file, then of range. -/
def le (a b : TextEdit) : Bool :=
  match compare a.file b.file with
  | .lt => true
  | .gt => false
  | .eq => a.range.le b.range

/-- Sorts edits by file and range; edits that compare equal keep their order. -/
def sort (edits : List TextEdit) : List TextEdit := edits.mergeSort le

/-- Adds one sorted edit after the joined ones, whose last edit is `last` (the rest are in `done`,
latest first). -/
def join (done : List TextEdit) (last : TextEdit) (e : TextEdit) :
    Except EditError (List TextEdit × TextEdit) :=
  if last.file == e.file && last.range == e.range then
    if last.text == e.text then .ok (done, last)
    else if last.range.isEmpty then .ok (done, { last with text := last.text ++ e.text })
    else .error (.overlapping e.file last.range e.range)
  else .ok (last :: done, e)

/-- Joins repeated edits and insertions at one offset, in a sorted list. -/
def joinAll : List TextEdit → Except EditError (List TextEdit)
  | [] => .ok []
  | e :: es => go [] e es
where
  go (done : List TextEdit) (last : TextEdit) : List TextEdit → Except EditError (List TextEdit)
    | [] => .ok (last :: done).reverse
    | e :: es => do
      let (done', last') ← join done last e
      go done' last' es

/-- Finds the first edit that starts before the edit ahead of it in the same file stops. -/
def firstOverlap : List TextEdit → Option EditError
  | a :: b :: rest =>
    if a.file == b.file && b.range.start < a.range.stop then
      some (.overlapping b.file a.range b.range)
    else firstOverlap (b :: rest)
  | _ => none

end TextEdit

/-- The normal form of a list of edits, or the first collision found. -/
def normalize (edits : List TextEdit) : Except EditError (List TextEdit) := do
  let joined ← TextEdit.joinAll (TextEdit.sort edits)
  match TextEdit.firstOverlap joined with
  | some err => .error err
  | none => .ok joined

/-- The edits of each file, files in order, each file's edits sorted by range. -/
def groupByFile (edits : List TextEdit) : List (FileId × List TextEdit) :=
  go (TextEdit.sort edits)
where
  go : List TextEdit → List (FileId × List TextEdit)
    | [] => []
    | e :: es =>
      match go es with
      | (f, group) :: rest => if f == e.file then (f, e :: group) :: rest else (e.file, [e]) :: (f, group) :: rest
      | [] => [(e.file, [e])]

end QuickFix
