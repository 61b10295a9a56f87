/-!
# Kinds of syntax nodes and their roles

Each node of a syntax tree has a **kind** (what construct it is) and a **role** (the part it plays
in its parent). The classifiers below group the kinds: statements, expressions, names, type
bodies (a class body or an anonymous class body) and body declarations (the members of a type).
-/

namespace QuickFix

/-- The construct a syntax node stands for. -/
inductive SyntaxKind where
  | compilationUnit | packageDeclaration | importDeclaration
  | typeDeclaration | anonymousClassDeclaration | enumConstantDeclaration | fieldDeclaration
  | methodDeclaration | initializer | annotationTypeMemberDeclaration | singleVariableDeclaration
  | variableDeclarationFragment
  | block | ifStatement | expressionStatement | variableDeclarationStatement | returnStatement
  | switchStatement | switchCase | forStatement | whileStatement
  | simpleName | qualifiedName | fieldAccess | superFieldAccess | thisExpression | methodInvocation
  | superMethodInvocation | classInstanceCreation | assignment | infixExpression | prefixExpression
  | literal | castExpression | parenthesizedExpression
  | simpleType | primitiveType | annotationUse | memberValuePair
  deriving DecidableEq, Repr, Inhabited

namespace SyntaxKind

/-- Every kind, in declaration order. -/
def all : List SyntaxKind :=
  [compilationUnit, packageDeclaration, importDeclaration, typeDeclaration,
   anonymousClassDeclaration, enumConstantDeclaration, fieldDeclaration, methodDeclaration,
   initializer, annotationTypeMemberDeclaration, singleVariableDeclaration,
   variableDeclarationFragment, block, ifStatement, expressionStatement,
   variableDeclarationStatement, returnStatement, switchStatement, switchCase, forStatement,
   whileStatement, simpleName, qualifiedName, fieldAccess, superFieldAccess, thisExpression,
   methodInvocation, superMethodInvocation, classInstanceCreation, assignment, infixExpression,
   prefixExpression, literal, castExpression, parenthesizedExpression, simpleType, primitiveType,
   annotationUse, memberValuePair]

/-- The name of a kind, as written in tree dumps. -/
def label : SyntaxKind → String
  | compilationUnit => "CompilationUnit" | packageDeclaration => "PackageDeclaration"
  | importDeclaration => "ImportDeclaration" | typeDeclaration => "TypeDeclaration"
  | anonymousClassDeclaration => "AnonymousClassDeclaration"
  | enumConstantDeclaration => "EnumConstantDeclaration" | fieldDeclaration => "FieldDeclaration"
  | methodDeclaration => "MethodDeclaration" | initializer => "Initializer"
  | annotationTypeMemberDeclaration => "AnnotationTypeMemberDeclaration"
  | singleVariableDeclaration => "SingleVariableDeclaration"
  | variableDeclarationFragment => "VariableDeclarationFragment" | block => "Block"
  | ifStatement => "IfStatement" | expressionStatement => "ExpressionStatement"
  | variableDeclarationStatement => "VariableDeclarationStatement"
  | returnStatement => "ReturnStatement" | switchStatement => "SwitchStatement"
  | switchCase => "SwitchCase" | forStatement => "ForStatement" | whileStatement => "WhileStatement"
  | simpleName => "SimpleName" | qualifiedName => "QualifiedName" | fieldAccess => "FieldAccess"
  | superFieldAccess => "SuperFieldAccess" | thisExpression => "ThisExpression"
  | methodInvocation => "MethodInvocation" | superMethodInvocation => "SuperMethodInvocation"
  | classInstanceCreation => "ClassInstanceCreation" | assignment => "Assignment"
  | infixExpression => "InfixExpression" | prefixExpression => "PrefixExpression"
  | literal => "Literal" | castExpression => "CastExpression"
  | parenthesizedExpression => "ParenthesizedExpression" | simpleType => "SimpleType"
  | primitiveType => "PrimitiveType" | annotationUse => "Annotation"
  | memberValuePair => "MemberValuePair"

/-- The kind with a given name. -/
def ofName? (s : String) : Option SyntaxKind := all.find? (·.label == s)

/-- Statements; a case label of a switch is not one. -/
def isStatement : SyntaxKind → Bool
  | block | ifStatement | expressionStatement | variableDeclarationStatement | returnStatement
  | switchStatement | forStatement | whileStatement => true
  | _ => false

/-- Expressions. -/
def isExpression : SyntaxKind → Bool
  | simpleName | qualifiedName | fieldAccess | superFieldAccess | thisExpression
  | methodInvocation | superMethodInvocation | classInstanceCreation | assignment
  | infixExpression | prefixExpression | literal | castExpression | parenthesizedExpression => true
  | _ => false

/-- Simple and qualified names. -/
def isName : SyntaxKind → Bool
  | simpleName | qualifiedName => true
  | _ => false

/-- The bodies that declare members: a type declaration or an anonymous class body. -/
def isTypeBody : SyntaxKind → Bool
  | typeDeclaration | anonymousClassDeclaration => true
  | _ => false

/-- The members of a type body. -/
def isBodyDeclaration : SyntaxKind → Bool
  | typeDeclaration | enumConstantDeclaration | fieldDeclaration | methodDeclaration
  | initializer | annotationTypeMemberDeclaration => true
  | _ => false

end SyntaxKind

/-- The part a node plays in its parent. -/
inductive Role where
  | root | package | imported | member | name | expression | qualifier | argument | statement
  | thenBranch | elseBranch | body | condition | leftSide | rightSide | operand | caseLabel
  | fragment | initializer | type | returnType | parameter | forInit | forUpdate | anonymousBody
  | annotationUse | memberValue
  deriving DecidableEq, Repr, Inhabited

namespace Role

/-- Every role, in declaration order. -/
def all : List Role :=
  [root, package, imported, member, name, expression, qualifier, argument, statement, thenBranch,
   elseBranch, body, condition, leftSide, rightSide, operand, caseLabel, fragment, initializer,
   type, returnType, parameter, forInit, forUpdate, anonymousBody, annotationUse, memberValue]

/-- The name of a role, as written in tree dumps. -/
def label : Role → String
  | root => "Root" | package => "Package" | imported => "Import" | member => "Member"
  | name => "Name" | expression => "Expression" | qualifier => "Qualifier"
  | argument => "Argument" | statement => "Statement" | thenBranch => "Then"
  | elseBranch => "Else" | body => "Body" | condition => "Condition"
  | leftSide => "LeftHandSide" | rightSide => "RightHandSide" | operand => "Operand"
  | caseLabel => "SwitchCaseLabel" | fragment => "Fragment" | initializer => "Initializer"
  | type => "Type" | returnType => "ReturnType" | parameter => "Parameter"
  | forInit => "ForInit" | forUpdate => "ForUpdate" | anonymousBody => "AnonymousBody"
  | annotationUse => "Annotation" | memberValue => "MemberValue"

/-- The role with a given name. -/
def ofName? (s : String) : Option Role := all.find? (·.label == s)

end Role

end QuickFix
