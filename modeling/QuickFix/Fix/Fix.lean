import QuickFix.Fix.Operation

/-!
# Fixes

A **fix** is a named list of operations on one file. It is turned into edits by recording its
operations, in order, in one edit session; the first operation that fails stops it.

Two operations read a node before checking that it is part of the unit: a change to static
access reads the kind of its qualifier, and a change of arguments reads the children of its
invocation. When that node is not in the unit the read aborts (`FixError.abort`), and making the
change stops there with no result at all (`Fix.outcome` is `none`), rather than with an error.
-/

namespace QuickFix

/-- A named list of operations on one file. -/
structure Fix where
  name : String
  file : FileId
  ops : List Operation
  deriving Repr, Inhabited

namespace Fix

/-- A fix, unless it has no operations. -/
def mk? (name : String) (file : FileId) (ops : List Operation) : Option Fix :=
  if ops.isEmpty then none else some ⟨name, file, ops⟩

/-- The edits of the fix. -/
def change (f : Fix) (p : Project) (format : Format) : Except FixError UnitChange := do
  let s ← EditSession.start p f.file format
  let s ← f.ops.foldlM (fun s op => op.apply s) s
  s.finish f.name

/-- Records operations in order, stopping with the first error, or with no result at the first
operation that aborts. -/
def recordAll : List Operation → EditSession → Option (Except FixError EditSession)
  | [], s => some (.ok s)
  | op :: ops, s =>
    match op.apply s with
    | .ok s' => recordAll ops s'
    | .error .abort => none
    | .error e => some (.error e)

/-- The edits of the fix as making them goes: no result when an operation it reaches aborts. -/
def outcome (f : Fix) (p : Project) (format : Format) : Option (Except FixError UnitChange) :=
  match EditSession.start p f.file format with
  | .error e => some (.error e)
  | .ok s => (recordAll f.ops s).map fun r => r.bind (·.finish f.name)

end Fix

/-- The edits of each fix, each made on its own; no result when making one of them stops. -/
def applyFixes (p : Project) (fixes : List Fix) (format : Format) :
    Option (List (Except FixError UnitChange)) :=
  fixes.mapM (·.outcome p format)

end QuickFix
