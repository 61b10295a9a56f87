/-!
# Labels of fixes

The words shown to a user for each fix and each edit group.
-/

namespace QuickFix.Messages

def changeCodeStyle : String := "Change code style"
def qualifyFieldWithDeclaringClass : String := "Qualify field access with declaring class"
def qualifyMethodWithDeclaringClass : String := "Qualify method call with declaring class"
def removeThisQualifier : String := "Remove 'this' qualifier"
def changeAccessUsingDeclaring : String := "Change access using declaring type"

/-- Qualifying a name with `this`, or with an outer class's `this`. -/
def qualifyWithThis (name : String) : Option String → String
  | some q => s!"Qualify '{name}' with '{q}.this'"
  | none => s!"Qualify '{name}' with 'this'"

def changeAccessToStatic (accessor : String) : String :=
  s!"Change access to static using '{accessor}' (declaring type)"

def changeAccessToStaticUsingInstanceType (accessor : String) : String :=
  s!"Change access to static using '{accessor}' (instance type)"

def changeIndirectAccessToStatic (accessor : String) : String :=
  s!"Change indirect access to static using '{accessor}'"

def createMethod (signature ty : String) : String := s!"Create method '{signature}' in type '{ty}'"

def createConstructor (signature : String) : String := s!"Create constructor '{signature}'"

def createField (name ty : String) : String := s!"Create field '{name}' in type '{ty}'"

def createAttribute (name ann : String) : String :=
  s!"Create attribute '{name}' in annotation '{ann}'"

/-- Removing arguments; one argument is named in the singular. -/
def removeArguments (count : Nat) (signature : String) : String :=
  if count == 1 then s!"Remove argument to match '{signature}'"
  else s!"Remove arguments to match '{signature}'"

/-- Adding arguments; one argument is named in the singular. -/
def addArguments (count : Nat) (signature : String) : String :=
  if count == 1 then s!"Add argument to match '{signature}'"
  else s!"Add arguments to match '{signature}'"

def swapArguments (first second : String) : String := s!"Swap arguments '{first}' and '{second}'"

def changeSignature (isConstructor : Bool) (old new : String) : String :=
  let what := if isConstructor then "constructor" else "method"
  s!"Change {what} '{old}' to '{new}'"

end QuickFix.Messages
