import QuickFix.Project.Basic
import QuickFix.Fix.Options
import QuickFix.Fix.Error
import QuickFix.Fix.Imports
import QuickFix.Edit.Normalize
import QuickFix.Edit.Apply

/-!
# Edit sessions

An **edit session** collects changes to the nodes of one unit and turns them into text edits only
at the end. A node can be replaced by a **template** (text, the current text of a node, or a
sequence of templates), removed, or wrapped in a new block together with statements hoisted in
front of it; statements can also be inserted before a statement of a block or switch, and text
at an offset. Each change belongs to the **edit group** that was begun last.

At the end every changed node is written from its template; a change on a node takes the place of
the changes below it, which are written into its text instead, so a node that is moved carries
its own changes along. Removing a receiver also removes the dot after it; removing an argument
or parameter also removes the separator next to it.
-/

namespace QuickFix

/-- The text that replaces a node. -/
inductive Template where
  | text (s : String)
  | node (n : NodeId)
  | concat (parts : List Template)
  deriving Repr, Inhabited

mutual
/-- The number of constructors of a template. -/
def Template.weight : Template → Nat
  | .text _ | .node _ => 1
  | .concat ps => Template.weights ps + 1

/-- The number of constructors of a list of templates. -/
def Template.weights : List Template → Nat
  | [] => 0
  | t :: ts => t.weight + Template.weights ts
end

/-- What happens to a node. -/
inductive NodeChange where
  | replace (t : Template)
  | remove
  | wrapInBlock (hoisted : List Template)
  deriving Repr, Inhabited

/-- The edits of one edit group, under its description. -/
structure EditGroup where
  description : String
  edits : List TextEdit
  deriving Repr, Inhabited

/-- The normalised edits of one unit, with the groups they came from. -/
structure UnitChange where
  name : String
  file : FileId
  edits : List TextEdit
  groups : List EditGroup
  deriving Repr, Inhabited

/-- The text after the change. -/
def UnitChange.apply (c : UnitChange) (text : String) : Except FixError String :=
  (applyEdits text c.edits).mapError .edit

/-- An edit that is not yet written: a range, its new text and its group. -/
structure PendingEdit where
  range : Range
  text : String
  group : Nat
  deriving Repr, Inhabited

/-- The changes collected for one unit. -/
structure EditSession where
  bindings : Bindings
  tree : SyntaxTree
  format : Format
  changes : List (NodeId × NodeChange × Nat) := []
  insertsBefore : List (NodeId × List (Template × Nat)) := []
  rawInserts : List (Nat × String × Nat) := []
  imports : ImportPlan
  groups : List String := []
  deriving Inhabited

namespace EditSession

/-- A session on a unit of the project. -/
def start (p : Project) (file : FileId) (format : Format) : Except FixError EditSession :=
  match p.unit? file with
  | some t => .ok { bindings := p.bindings, tree := t, format, imports := ImportPlan.ofTree t p.bindings }
  | none => .error (.unknownUnit file)

variable (s : EditSession)

/-- The line separator of the session's text. -/
def separator : String := s.format.separatorFor s.tree.text

/-- Begins a new edit group. -/
def beginGroup (d : String) : EditSession := { s with groups := s.groups ++ [d] }

/-- The current group, begun unnamed if none is. -/
def group : EditSession × Nat :=
  let s := if s.groups.isEmpty then { s with groups := [""] } else s
  (s, s.groups.length - 1)

/-- The node is part of the unit. -/
def check (n : NodeId) : Except FixError Unit :=
  if s.tree.contains n then .ok () else .error (.staleNode s.tree.file n)

/-- The change recorded for a node. -/
def changeOf? (n : NodeId) : Option (NodeChange × Nat) := s.changes.lookup n

/-- Some change is recorded for the node. -/
def isChanged (n : NodeId) : Bool := (s.changeOf? n).isSome

/-- Records a change of a node that has none yet. -/
def record (n : NodeId) (c : NodeChange) : Except FixError EditSession := do
  s.check n
  if s.isChanged n then throw (.conflictingChange s.tree.file n)
  let (s, g) := s.group
  return { s with changes := s.changes ++ [(n, c, g)] }

/-- Replaces a node by a template. -/
def replace (n : NodeId) (t : Template) : Except FixError EditSession := s.record n (.replace t)

/-- Removes a node. -/
def remove (n : NodeId) : Except FixError EditSession := s.record n .remove

/-- Inserts text at an offset. -/
def insertText (offset : Nat) (text : String) : EditSession :=
  let (s, g) := s.group
  { s with rawInserts := s.rawInserts ++ [(offset, text, g)] }

/-- Puts a statement before another: into its block or switch if it is in one, else into a new
block that wraps the statement. -/
def extractBefore (stmt : NodeId) (t : Template) : Except FixError EditSession := do
  s.check stmt
  let (s, g) := s.group
  let inList : Bool := match s.tree.parent stmt with
    | some p => s.tree.kind p == .block || s.tree.kind p == .switchStatement
    | none => false
  if inList then
    let before := ((s.insertsBefore.lookup stmt).getD []) ++ [(t, g)]
    return { s with insertsBefore := (stmt, before) :: s.insertsBefore.filter (·.1 != stmt) }
  match s.changeOf? stmt with
  | some (.wrapInBlock hoisted, g0) =>
    return { s with changes := s.changes.map fun e =>
      if e.1 == stmt then (stmt, .wrapInBlock (hoisted ++ [t]), g0) else e }
  | some _ => throw (.conflictingChange s.tree.file stmt)
  | none => return { s with changes := s.changes ++ [(stmt, .wrapInBlock [t], g)] }

/-- The name to write for a type, planning an import for it in the current group if needed. -/
def addImport (ty : TypeId) : String × EditSession :=
  let (s, g) := s.group
  let (name, plan) := s.imports.addImport s.bindings ty g
  (name, { s with imports := plan })

/-! ### Writing the changes -/

/-- The range a removal takes: with the dot after a receiver, or with the separator next to an
argument or parameter. -/
def removalRange (n : NodeId) : Range :=
  let t := s.tree
  let r := t.range n
  let cs := t.text.toList
  match t.parent n with
  | none => r
  | some p =>
    let role := t.role n
    if role == .expression && t.kind p == .methodInvocation then
      let after := Text.skipBlankForward cs r.stop
      if Text.sliceBytes cs after (after + 1) == ['.'] then ⟨r.start, Text.skipBlankForward cs (after + 1)⟩
      else r
    else if role == .argument || role == .parameter then
      let sibs := t.childrenWithRole p role
      let idx := (sibs.idxOf? n).getD 0
      match sibs[idx + 1]? with
      | some next => ⟨r.start, (t.range next).start⟩
      | none =>
        if idx > 0 then ⟨(t.range (sibs[idx - 1]?.getD n)).stop, r.stop⟩ else r
    else r

/-- The size of the machine words offsets are computed in. -/
def wordSize : Nat := 18446744073709551616

/-- `a - b` computed in machine words: below zero it wraps around. -/
def wrappingSub (a b : Nat) : Nat := if b ≤ a then a - b else wordSize + a - b

/-- The range of an edit found below a node, moved to offsets from the node's start `base` as
machine words; none when its start then lies past its stop, which the original's range
refuses by aborting. -/
def rebaseRange (base : Nat) (r : Range) : Option Range :=
  let start := wrappingSub r.start base
  let stop := wrappingSub r.stop base
  if start ≤ stop then some ⟨start, stop⟩ else none

mutual

/-- The pending edits of a node and everything below it. -/
def collectNode (fuel : Nat) (n : NodeId) : Except FixError (List PendingEdit) :=
  match fuel with
  | 0 => .error (.staleNode s.tree.file n)
  | fuel + 1 => do
    let start := (s.tree.range n).start
    let before ← match s.insertsBefore.lookup n with
      | some ins =>
        let indent := String.ofList (Text.lineIndent s.tree.text.toList start)
        let texts ← ins.mapM fun (t, _) => do
          return (← render fuel t) ++ s.separator ++ indent
        pure [{ range := Range.point start, text := String.join texts,
                group := (ins.head?.map (·.2)).getD 0 : PendingEdit }]
      | none => pure []
    match s.changeOf? n with
    | some (c, g) => return before ++ [← renderChange fuel n c g]
    | none => return before ++ (← collectChildren fuel n)

/-- The pending edits of the children of a node. -/
def collectChildren (fuel : Nat) (n : NodeId) : Except FixError (List PendingEdit) :=
  match fuel with
  | 0 => .error (.staleNode s.tree.file n)
  | fuel + 1 => do
    let parts ← (s.tree.children n).mapM (collectNode fuel)
    return parts.flatten

/-- The edit that writes one change. -/
def renderChange (fuel : Nat) (n : NodeId) (c : NodeChange) (g : Nat) : Except FixError PendingEdit :=
  match fuel with
  | 0 => .error (.staleNode s.tree.file n)
  | fuel + 1 =>
    match c with
    | .replace t => do return { range := s.tree.range n, text := ← render fuel t, group := g }
    | .remove => .ok { range := s.removalRange n, text := "", group := g }
    | .wrapInBlock hoisted => do
      let cs := s.tree.text.toList
      let anchor := (s.tree.parent n).getD n
      let outer := String.ofList (Text.lineIndent cs (s.tree.range anchor).start)
      let inner := outer ++ s.format.indentUnit
      let start := Text.skipBlankBackward cs (s.tree.range n).start
      let lines ← hoisted.mapM fun h => do return inner ++ (← render fuel h) ++ s.separator
      let body ← renderNode fuel n
      let text := " \x7b" ++ s.separator ++ String.join lines ++ inner ++ body ++ s.separator ++
        outer ++ "\x7d"
      return { range := ⟨start, (s.tree.range n).stop⟩, text, group := g }

/-- The text of a template. -/
def render (fuel : Nat) (t : Template) : Except FixError String :=
  match fuel with
  | 0 => .error (.staleNode s.tree.file SyntaxTree.root)
  | fuel + 1 =>
    match t with
    | .text x => .ok x
    | .node n => renderNode fuel n
    | .concat ps => do return String.join (← ps.mapM (render fuel))

/-- The text of a node with the changes below it written in, their offsets moved to the node's
start; an edit that starts before the node and stops inside it aborts. -/
def renderNode (fuel : Nat) (n : NodeId) : Except FixError String :=
  match fuel with
  | 0 => .error (.staleNode s.tree.file n)
  | fuel + 1 => do
    s.check n
    let base := (s.tree.range n).start
    let pending ← collectChildren fuel n
    let edits ← pending.mapM fun p => match rebaseRange base p.range with
      | some r => .ok ({ file := s.tree.file, range := r, text := p.text } : TextEdit)
      | none => .error .abort
    (applyEdits (s.tree.source n) edits).mapError .edit

end

/-- Enough steps to write every change: each change is written at most once on any path of the
writing, and between two changes the walk goes down the tree or into a template. -/
def fuel : Nat :=
  let templates := s.changes.foldl (fun acc (_, c, _) => acc + match c with
      | .replace t => t.weight
      | .remove => 0
      | .wrapInBlock hs => Template.weights hs) 0 +
    s.insertsBefore.foldl (fun acc (_, ins) => acc + Template.weights (ins.map (·.1))) 0
  (s.changes.length + s.insertsBefore.length + 1) * (4 * (s.tree.size + templates) + 8)

/-- The edits of all changes, in groups, normalised. -/
def finish (name : String) : Except FixError UnitChange := do
  let pending ← s.collectNode s.fuel SyntaxTree.root
  let descriptions := if s.groups.isEmpty then [""] else s.groups
  let file := s.tree.file
  let importEdits := s.imports.edits s.tree s.separator
  let groups := descriptions.zipIdx.map fun (d, i) =>
    { description := d,
      edits := (pending.filter (·.group == i)).map (fun p => ⟨file, p.range, p.text⟩) ++
        (s.rawInserts.filter (·.2.2 == i)).map (fun (o, x, _) => ⟨file, Range.point o, x⟩) ++
        (importEdits.filter (·.1 == i)).map (·.2) : EditGroup }
  let edits ← (normalize (groups.flatMap (·.edits))).mapError .edit
  return { name, file, edits, groups }

end EditSession

end QuickFix
