import QuickFix.Fix.Session

/-!
# Member stubs

A **member stub** is a declaration to add to a type in source: a method, constructor, field or
annotation attribute with its modifiers, type and parameters. A method stub that is not abstract
gets an empty body that returns the default value of its result type. The stub goes after the
last field for a field (enum constants count, with the `;` after them), and after the last member
otherwise, one level deeper than the type.
-/

namespace QuickFix

/-- What kind of member a stub declares. -/
inductive StubKind where
  | method | constructor | field | attribute
  deriving DecidableEq, Repr, Inhabited

/-- A member to declare in a type. -/
structure MemberStub where
  kind : StubKind
  target : TypeId
  name : String
  modifiers : Modifiers
  ty : Option TypeId
  params : List (TypeId × String)
  isAbstract : Bool
  label : String
  deriving DecidableEq, Repr, Inhabited

/-- The value a method returns by default: none for `void`, `false`, `0`, or `null`. -/
def defaultValue (b : Bindings) (ty : TypeId) : Option String :=
  if ty == Bindings.void then none
  else if ty == Bindings.boolean then some "false"
  else if b.isPrimitive ty then some "0"
  else some "null"

namespace MemberStub

/-- The text of the declaration, with the names of its types. -/
def render (stub : MemberStub) (s : EditSession) (indent unit sep : String) : String × EditSession :=
  let mods := if stub.modifiers.text.isEmpty then "" else stub.modifiers.text ++ " "
  let (ty, s) := match stub.ty with
    | some t => let (n, s) := s.addImport t; (some n, s)
    | none => (none, s)
  match stub.kind with
  | .field => (mods ++ ty.getD "" ++ " " ++ stub.name ++ ";", s)
  | .attribute => (mods ++ ty.getD "" ++ " " ++ stub.name ++ "();", s)
  | _ =>
    let head := mods ++ (match ty with | some t => t ++ " " | none => "") ++ stub.name ++ "("
    let (ps, s) := stub.params.foldl (fun (acc, s) (pt, pn) =>
      let (n, s) := s.addImport pt
      (acc ++ [n ++ " " ++ pn], s)) ([], s)
    let sig := head ++ ", ".intercalate ps ++ ")"
    if stub.isAbstract then (sig ++ ";", s)
    else
      let ret := match stub.ty.bind (defaultValue s.bindings) with
        | some v => indent ++ unit ++ "return " ++ v ++ ";" ++ sep
        | none => ""
      (sig ++ " \x7b" ++ sep ++ ret ++ indent ++ "\x7d", s)

/-- Where a member ends; an enum constant list ends after its `;`. -/
def memberEnd (t : SyntaxTree) (m : NodeId) (limit : Nat) : Nat :=
  let stop := (t.range m).stop
  if t.kind m != .enumConstantDeclaration then stop
  else
    let cs := t.text.toList
    let after := Text.skipBlankForward cs stop
    if after < limit && Text.sliceBytes cs after (after + 1) == [';'] then after + 1 else stop

/-- The offset of the brace that opens a type body. -/
def bodyOpen (t : SyntaxTree) (decl : NodeId) : Option Nat :=
  let r := t.range decl
  if t.kind decl == .anonymousClassDeclaration then some r.start
  else
    let ends := ((t.children decl).filter fun c => t.role c == .name || t.role c == .type).map
      fun c => (t.range c).stop
    let headerEnd := if ends.isEmpty then r.start else ends.foldl max 0
    (Text.findByte (· == '\x7b') (Text.sliceBytes t.text.toList headerEnd r.stop)).map (headerEnd + ·)

/-- Where the declaration goes, and the text to insert there. -/
def insertion (t : SyntaxTree) (decl : NodeId) (kind : StubKind) (indent sep text : String) :
    Option (Nat × String) := do
  let opening ← bodyOpen t decl
  let stop := (t.range decl).stop
  if stop = 0 then none
  let close := stop - 1
  let members := t.childrenWithRole decl .member
  let lastEnd := fun (ns : List NodeId) => ns.getLast?.map fun m => memberEnd t m close
  match kind with
  | .field =>
    let fields := members.filter fun m =>
      t.kind m == .fieldDeclaration || t.kind m == .enumConstantDeclaration
    match lastEnd fields with
    | some e => pure (e, sep ++ indent ++ text)
    | none =>
      if members.isEmpty then pure (opening + 1, sep ++ indent ++ text)
      else pure (opening + 1, sep ++ indent ++ text ++ sep)
  | .attribute =>
    match lastEnd members with
    | some e => pure (e, sep ++ indent ++ text)
    | none => pure (opening + 1, sep ++ indent ++ text)
  | _ =>
    match lastEnd members with
    | some e => pure (e, sep ++ sep ++ indent ++ text)
    | none => pure (opening + 1, sep ++ indent ++ text)

/-- Adds the stub to the declaration of its type in the session's unit. -/
def apply (stub : MemberStub) (s : EditSession) : Except FixError EditSession := do
  let t := s.tree
  let missing := FixError.noSourceDeclaration (s.bindings.qualifiedName stub.target)
  let some decl := t.findDeclaration (.type stub.target) | throw missing
  let sep := s.separator
  let unit := s.format.indentUnit
  let indent := String.ofList (Text.lineIndent t.text.toList (t.range decl).start) ++ unit
  let (text, s) := stub.render s indent unit sep
  let some (offset, ins) := insertion t decl stub.kind indent sep text | throw missing
  return s.insertText offset ins

end MemberStub

end QuickFix
