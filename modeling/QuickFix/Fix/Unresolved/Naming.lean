import QuickFix.Text.Case
import QuickFix.Syntax.Tree
import QuickFix.Binding.Table

/-!
# Names of new parameters

A member created for a call needs a name for each parameter. A parameter is named after what
its argument says: the variable or field it reads, or the property an accessor call reads
(`getName()` gives `name`); else after its type, by the first letter of a primitive and by the
**decapitalised** simple name of a class (`Name` gives `name`, but `URL` stays). Names are made
distinct, and never keywords, by a number after them: `a`, `a2`, `a3`, …
-/

namespace QuickFix.Naming

/-- The keywords and literals of the language, which cannot name a parameter. -/
def keywords : List String :=
  ["abstract", "assert", "boolean", "break", "byte", "case", "catch", "char", "class", "const",
   "continue", "default", "do", "double", "else", "enum", "extends", "false", "final", "finally",
   "float", "for", "goto", "if", "implements", "import", "instanceof", "int", "interface", "long",
   "native", "new", "null", "package", "private", "protected", "public", "return", "short",
   "static", "strictfp", "super", "switch", "synchronized", "this", "throw", "throws",
   "transient", "true", "try", "void", "volatile", "while"]

def isKeyword (s : String) : Bool := keywords.contains s

/-- The name with its first letter in lower case, unless its first two letters are both upper
case. -/
def decapitalize (s : String) : String :=
  match s.toList with
  | [] => ""
  | c :: rest =>
    if ((rest.head?.map Text.isUpperCase).getD false) && Text.isUpperCase c then s
    else String.ofList (Text.lowerCase c ++ rest)

/-- The property an accessor reads: `getName` and `isName` and `toName` give `name`; other
names stay. -/
def accessorProperty (selector : String) : String :=
  let stripped := ["get", "is", "to"].findSome? fun pre =>
    if selector.startsWith pre then
      let rest := selector.toList.drop pre.length
      if (rest.head?.map Text.isUpperCase).getD false then some (decapitalize (String.ofList rest))
      else none
    else none
  stripped.getD selector

/-- A name after a type: the first letter of a primitive, `o` for a nameless class, else the
decapitalised simple name. -/
def ofType (b : Bindings) (ty : TypeId) : String :=
  let ty := b.erase ty
  let name := (b.ty ty).name
  if b.isPrimitive ty then String.ofList name.toList.head?.toList
  else if name.isEmpty then "o"
  else decapitalize name

/-- The name an argument suggests for the parameter that receives it, whose type is `ty`:
what the expression reads, seen through parentheses; else a name after the type. -/
def ofArgument (t : SyntaxTree) (b : Bindings) (ty : TypeId) : Nat → NodeId → String
  | fuel, arg =>
    let named : Option String := match t.kind arg with
      | .simpleName => match t.binding arg with
        | some (.type _) => none
        | _ => t.identifier arg
      | .qualifiedName | .fieldAccess | .superFieldAccess => (t.child arg .name).bind t.identifier
      | .methodInvocation => ((t.child arg .name).bind t.identifier).map accessorProperty
      | _ => none
    match t.kind arg, t.child arg .expression, fuel with
    | .parenthesizedExpression, some inner, fuel + 1 => ofArgument t b ty fuel inner
    | .parenthesizedExpression, _, _ | .castExpression, _, _ => ofType b ty
    | _, _, _ => match named with
      | some n => if n.isEmpty then ofType b ty else n
      | none => ofType b ty

/-- The name is neither a keyword nor taken. -/
def isFree (taken : List String) (s : String) : Bool := !isKeyword s && !taken.contains s

/-- The base name, or the first numbered one from `2` that is free. Of `base2` to `base(k+2)`,
where `k` names are taken, one is free, since a numbered name is never a keyword. -/
def unique (base : String) (taken : List String) : String :=
  if isFree taken base then base
  else ((List.range (taken.length + 1)).map (fun n => base ++ toString (n + 2))).find? (isFree taken)
    |>.getD base

/-- Distinct names for the parameters receiving the arguments, avoiding the reserved ones: each
is chosen against the reserved names and the names chosen before it. -/
def forArguments (t : SyntaxTree) (b : Bindings) : List (NodeId × TypeId) → List String → List String
  | [], _ => []
  | (arg, ty) :: rest, reserved =>
    let n := unique (ofArgument t b ty t.size arg) reserved
    n :: forArguments t b rest (reserved ++ [n])

example : decapitalize "Name" = "name" ∧ decapitalize "URL" = "URL" ∧ decapitalize "x" = "x" := by
  decide

end QuickFix.Naming
