import QuickFix.Syntax.Tree

/-!
# Problems

A **problem** is what a compiler reports at a place of a unit: its kind and the byte range it
covers. The fixes work on the node that covers that range.
-/

namespace QuickFix

/-- The kinds of problem that fixes address. -/
inductive ProblemKind where
  | unqualifiedFieldAccess
  | nonStaticAccessToStaticField | nonStaticAccessToStaticMethod | nonStaticOrAlienTypeReceiver
  | indirectAccessToStaticField | indirectAccessToStaticMethod
  | undefinedMethod | undefinedConstructor | undefinedField | undefinedName
  | undefinedAnnotationMember | parameterMismatch
  deriving DecidableEq, Repr, Inhabited

namespace ProblemKind

/-- Every kind, in declaration order. -/
def all : List ProblemKind :=
  [unqualifiedFieldAccess, nonStaticAccessToStaticField, nonStaticAccessToStaticMethod,
   nonStaticOrAlienTypeReceiver, indirectAccessToStaticField, indirectAccessToStaticMethod,
   undefinedMethod, undefinedConstructor, undefinedField, undefinedName,
   undefinedAnnotationMember, parameterMismatch]

/-- The name of a kind. -/
def label : ProblemKind → String
  | unqualifiedFieldAccess => "UnqualifiedFieldAccess"
  | nonStaticAccessToStaticField => "NonStaticAccessToStaticField"
  | nonStaticAccessToStaticMethod => "NonStaticAccessToStaticMethod"
  | nonStaticOrAlienTypeReceiver => "NonStaticOrAlienTypeReceiver"
  | indirectAccessToStaticField => "IndirectAccessToStaticField"
  | indirectAccessToStaticMethod => "IndirectAccessToStaticMethod"
  | undefinedMethod => "UndefinedMethod"
  | undefinedConstructor => "UndefinedConstructor"
  | undefinedField => "UndefinedField"
  | undefinedName => "UndefinedName"
  | undefinedAnnotationMember => "UndefinedAnnotationMember"
  | parameterMismatch => "ParameterMismatch"

/-- The kind with a given name. -/
def ofName? (s : String) : Option ProblemKind := all.find? (·.label == s)

/-- A static member reached through an instance. -/
def isNonStaticAccess : ProblemKind → Bool
  | nonStaticAccessToStaticField | nonStaticAccessToStaticMethod
  | nonStaticOrAlienTypeReceiver => true
  | _ => false

/-- A static member reached through a subtype of its declaring type. -/
def isIndirectStaticAccess : ProblemKind → Bool
  | indirectAccessToStaticField | indirectAccessToStaticMethod => true
  | _ => false

/-- A reference to something that does not exist, or a call whose arguments fit no method. -/
def isUnresolvedReference : ProblemKind → Bool
  | undefinedMethod | undefinedConstructor | undefinedField | undefinedName
  | undefinedAnnotationMember | parameterMismatch => true
  | _ => false

end ProblemKind

/-- A reported problem: its kind and the range of text it is reported at. -/
structure Problem where
  kind : ProblemKind
  offset : Nat
  length : Nat
  arguments : List String := []
  deriving Repr, Inhabited

namespace Problem

/-- The problem of a kind reported at a node. -/
def atNode (k : ProblemKind) (t : SyntaxTree) (n : NodeId) : Problem :=
  ⟨k, (t.range n).start, (t.range n).size, []⟩

/-- The range a problem is reported at. -/
def range (p : Problem) : Range := ⟨p.offset, p.offset + p.length⟩

/-- The node that covers the problem. -/
def coveringNode (p : Problem) (t : SyntaxTree) : Option NodeId := t.coveringNode p.range

end Problem

end QuickFix
