import QuickFix.Binding.Id

/-!
# Outlines of compilation units

An **outline** describes a compilation unit whose names are already resolved: each name carries
the binding that resolution attached to it, or none when it is unresolved. Rendering an outline
(`QuickFix.Outline.Render`) produces the unit's text together with its bound syntax tree, so an
outline is how a program is given to the fixes.

`SourceUnit.weight` counts the constructors of an outline; rendering never nests deeper than twice that.
-/

namespace QuickFix.Outline

/-- The kinds of literal, each with the type of its value. -/
inductive LitKind where
  | int | long | double | boolean | char | string | null
  deriving DecidableEq, Repr, Inhabited

/-- A name as written, with the declaration it refers to; an empty text stands for the name of
that declaration. -/
structure NameRef where
  text : String := ""
  binding : Option Binding := none
  deriving Repr, Inhabited

mutual

/-- An expression. -/
inductive Expr where
  | name (n : NameRef)
  | typeName (t : TypeId)
  | qualified (qualifier : Expr) (n : NameRef)
  | field (receiver : Expr) (n : NameRef)
  | superField (v : VarId)
  | thisRef (qualifier : Option TypeId)
  | call (receiver : Option Expr) (method : NameRef) (args : List Expr)
  | new (ty : TypeId) (ctor : Option MethodId) (args : List Expr) (body : Option TypeDecl)
  | assign (lhs rhs : Expr)
  | binary (lhs : Expr) (op : String) (rhs : Expr)
  | negation (operand : Expr)
  | lit (text : String) (kind : LitKind)
  | paren (inner : Expr)
  | castTo (ty : TypeId) (inner : Expr)

/-- A statement. -/
inductive Stmt where
  | expr (e : Expr)
  | localVar (v : VarId) (init : Option Expr)
  | ret (value : Option Expr)
  | ifThen (cond : Expr) (thenS : Stmt) (elseS : Option Stmt)
  | whileLoop (cond : Expr) (body : Stmt)
  | block (stmts : List Stmt)
  | switch (selector : Expr) (cases : List Case)

/-- A case of a switch; no label is the default case. -/
inductive Case where
  | mk (label : Option Expr) (body : List Stmt)

/-- A member of a type body. -/
inductive Member where
  | field (v : VarId) (init : Option Expr)
  | method (m : MethodId) (body : Option (List Stmt))
  | initializer (isStatic : Bool) (body : List Stmt)
  | nested (decl : TypeDecl)
  | constant (v : VarId)
  | attribute (m : MethodId)
  | annotated (annotations : List AnnotationUse) (member : Member)

/-- The declaration of a type with its members. -/
inductive TypeDecl where
  | mk (ty : TypeId) (members : List Member)

/-- An annotation: its type and its element values. -/
inductive AnnotationUse where
  | mk (ty : TypeId) (values : List (NameRef × Expr))

end

/-- A compilation unit: its file, package, imports (each with whether it is static) and types. -/
structure SourceUnit where
  file : String
  package : Option String := none
  imports : List (String × Bool) := []
  types : List TypeDecl := []

mutual

/-- The number of constructors in an expression. -/
def Expr.weight : Expr → Nat
  | .name _ | .typeName _ | .superField _ | .thisRef _ | .lit .. => 1
  | .qualified q _ | .field q _ => q.weight + 1
  | .call r _ args => optWeight r + listWeight args + 1
  | .new _ _ args body => listWeight args + optDeclWeight body + 1
  | .assign l r | .binary l _ r => l.weight + r.weight + 1
  | .negation e | .paren e | .castTo _ e => e.weight + 1

def optWeight : Option Expr → Nat
  | some e => e.weight
  | none => 0

def listWeight : List Expr → Nat
  | [] => 0
  | e :: es => e.weight + listWeight es

def optDeclWeight : Option TypeDecl → Nat
  | some d => d.weight
  | none => 0

def Stmt.weight : Stmt → Nat
  | .expr e => e.weight + 1
  | .localVar _ i | .ret i => optWeight i + 1
  | .ifThen c t e => c.weight + t.weight + optStmtWeight e + 1
  | .whileLoop c b => c.weight + b.weight + 1
  | .block ss => stmtsWeight ss + 1
  | .switch s cs => s.weight + casesWeight cs + 1

def optStmtWeight : Option Stmt → Nat
  | some s => s.weight
  | none => 0

def stmtsWeight : List Stmt → Nat
  | [] => 0
  | s :: ss => s.weight + stmtsWeight ss

def casesWeight : List Case → Nat
  | [] => 0
  | .mk l b :: cs => optWeight l + stmtsWeight b + casesWeight cs + 1

def Member.weight : Member → Nat
  | .field _ i => optWeight i + 1
  | .method _ b => optStmtsWeight b + 1
  | .initializer _ b => stmtsWeight b + 1
  | .nested d => d.weight + 1
  | .constant _ | .attribute _ => 1
  | .annotated as m => annotationsWeight as + m.weight + 1

def optStmtsWeight : Option (List Stmt) → Nat
  | some ss => stmtsWeight ss
  | none => 0

def membersWeight : List Member → Nat
  | [] => 0
  | m :: ms => m.weight + membersWeight ms

def TypeDecl.weight : TypeDecl → Nat
  | .mk _ ms => membersWeight ms + 1

def annotationsWeight : List AnnotationUse → Nat
  | [] => 0
  | .mk _ vs :: as => valuesWeight vs + annotationsWeight as + 1

def valuesWeight : List (NameRef × Expr) → Nat
  | [] => 0
  | (_, e) :: vs => e.weight + valuesWeight vs + 1

end

/-- The number of constructors in a unit's types. -/
def SourceUnit.weight (u : SourceUnit) : Nat := (u.types.map TypeDecl.weight).foldr (· + ·) 0 + 1

end QuickFix.Outline
