import QuickFix.Fix.Fix
import QuickFix.Fix.CodeStyle
import QuickFix.Fix.ThisQualifier
import QuickFix.Fix.StaticAccess

/-!
# Clean-ups and quick fixes for access problems

A **clean-up** of a unit collects, in this order, the qualifications the options ask for, the
static-access conversions for the problems reported in the unit, and the removals of redundant
`this.`; it is one fix named "Change code style", or nothing when it would change nothing.

The quick fixes for single problems: qualifying an unqualified field with `this`, reaching a
static member through its declaring or its instance type (one fix each), and reaching a static
member directly instead of through a subtype.
-/

namespace QuickFix

/-- The clean-up of a unit under the options. -/
def createCleanUp (p : Project) (file : FileId) (problems : List Problem) (o : CodeStyle) : Option Fix := do
  if !o.any then none
  let t ← p.unit? file
  let b := p.bindings
  let ops := if o.anyQualify then qualifyOperations b t o else []
  let ops := if o.anyStaticAccess then
      resolveStaticAccesses b t problems o.nonStaticToStatic o.indirectToDirect ops
    else ops
  let ops := if o.anyRemove then
      ops ++ ({ scope := ⟨b, t⟩, fields := o.removeFieldQualifier, methods := o.removeMethodQualifier }
        : ThisQualifierSearch).collect
    else ops
  Fix.mk? Messages.changeCodeStyle file ops

/-- Qualifies the field of an unqualified-access problem with `this` or an outer `this`. -/
def addFieldQualifierFix (p : Project) (file : FileId) (pr : Problem) : Option Fix := do
  if pr.kind != .unqualifiedFieldAccess then none
  let b := p.bindings
  let t ← p.unit? file
  let covering ← pr.coveringNode t
  let name := if t.kind covering == .qualifiedName then QualifySearch.leftmostQualifier t t.size covering
    else covering
  if t.kind name != .simpleName then none
  let some (.var v) := t.binding name | none
  let field := b.var v
  if !field.isField || field.modifiers.isStatic then none
  let declaring ← field.declaring
  let (qual, _) := thisQualifier b (ImportPlan.ofTree t b) t declaring name
  let qual ← qual
  let qual := if qual.isEmpty then none else some qual
  Fix.mk? (Messages.qualifyWithThis field.name qual) file [.addThisQualifier name field.name qual]

/-- One fix for each way to reach the static member of a non-static-access problem. -/
def nonStaticAccessFixes (p : Project) (file : FileId) (pr : Problem) : List Fix :=
  if !pr.kind.isNonStaticAccess then []
  else match p.unit? file with
    | none => []
    | some t => (staticAccessOperations p.bindings t pr false).filterMap fun op =>
      match op with
      | .toStaticAccess _ _ accessor kind =>
        let label := if kind == .instanceType then Messages.changeAccessToStaticUsingInstanceType accessor
          else Messages.changeAccessToStatic accessor
        Fix.mk? label file [op]
      | _ => none

/-- Reaches the static member of an indirect-access problem through its declaring type. -/
def indirectAccessFix (p : Project) (file : FileId) (pr : Problem) : Option Fix := do
  if !pr.kind.isIndirectStaticAccess then none
  let t ← p.unit? file
  let op ← (staticAccessOperations p.bindings t pr false).head?
  match op with
  | .toStaticAccess _ _ accessor _ => Fix.mk? (Messages.changeIndirectAccessToStatic accessor) file [op]
  | _ => none

/-- One fix for the given problems: `this` qualifications, then static-access conversions. -/
def cleanUpForProblems (p : Project) (file : FileId) (problems : List Problem)
    (addThis nonStatic indirect : Bool) : Option Fix := do
  if !addThis && !nonStatic && !indirect then none
  let t ← p.unit? file
  let ops := if addThis then
      (problems.filterMap (addFieldQualifierFix p file)).flatMap (·.ops) |>.foldl (fun acc op =>
        if acc.all (·.target? != op.target?) then acc ++ [op] else acc) []
    else []
  let ops := resolveStaticAccesses p.bindings t problems nonStatic indirect ops
  Fix.mk? Messages.changeCodeStyle file ops

end QuickFix
