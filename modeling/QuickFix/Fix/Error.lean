import QuickFix.Edit.Basic
import QuickFix.Syntax.Tree

/-!
# Why a fix cannot be made

A fix fails when its unit is not in the project, when it names a node that is not in the unit,
when two changes claim the same node, when a type or method it must edit has no declaration in
source, or when its edits cannot be normalised or applied. Where the original aborts instead
(`FixError.abort`), the run ends with no result.
-/

namespace QuickFix

/-- Why a fix cannot be turned into edits. -/
inductive FixError where
  | unknownUnit (file : FileId)
  | staleNode (file : FileId) (node : NodeId)
  | conflictingChange (file : FileId) (node : NodeId)
  | noSourceDeclaration (type : String)
  | noMethodDeclaration (method : String)
  | edit (e : EditError)
  /-- The original aborts: an assertion fails or a node outside the tree is read. It returns no
  error then; a run that meets this gives no answer at all. -/
  | abort
  deriving DecidableEq, Repr

namespace FixError

/-- The text of a fix error. -/
def message : FixError → String
  | unknownUnit f => s!"compilation unit {f.name} is not part of the project"
  | staleNode f n => s!"node NodeId({n.idx}) does not belong to {f.name}"
  | conflictingChange f n => s!"conflicting rewrites of node NodeId({n.idx}) in {f.name}"
  | noSourceDeclaration t => s!"type {t} has no source declaration"
  | noMethodDeclaration m => s!"method {m} has no source declaration"
  | edit e => e.message
  | abort => ""

/-- The name of the kind of a fix error; an edit error keeps its own. -/
def kind : FixError → String
  | unknownUnit _ => "UnknownUnit"
  | staleNode .. => "StaleNode"
  | conflictingChange .. => "ConflictingChange"
  | noSourceDeclaration _ => "NoSourceDeclaration"
  | noMethodDeclaration _ => "NoMethodDeclaration"
  | edit e => e.kind
  | abort => "panic"

end FixError

end QuickFix
