import QuickFix.Text.Lines

/-!
# Options of the fixes

`CodeStyle` says which clean-ups to make: qualify accesses to fields and methods, static or not,
with `this` or the declaring class; remove `this.` where it is not needed; and reach static
members through their declaring type. `Format` says how inserted code is laid out: the unit of
indentation and the line separator, which by default is the one the unit already uses.
-/

namespace QuickFix

/-- Which clean-ups to make. -/
structure CodeStyle where
  qualifyField : Bool := false
  qualifyStaticField : Bool := false
  qualifyMethod : Bool := false
  qualifyStaticMethod : Bool := false
  removeFieldQualifier : Bool := false
  removeMethodQualifier : Bool := false
  nonStaticToStatic : Bool := false
  indirectToDirect : Bool := false
  deriving DecidableEq, Repr, Inhabited

namespace CodeStyle

variable (o : CodeStyle)

/-- Some kind of qualification is asked for. -/
def anyQualify : Bool := o.qualifyField || o.qualifyStaticField || o.qualifyMethod || o.qualifyStaticMethod

/-- Some removal of `this.` is asked for. -/
def anyRemove : Bool := o.removeFieldQualifier || o.removeMethodQualifier

/-- Some change of static access is asked for. -/
def anyStaticAccess : Bool := o.nonStaticToStatic || o.indirectToDirect

/-- Some clean-up is asked for. -/
def any : Bool := o.anyQualify || o.anyRemove || o.anyStaticAccess

end CodeStyle

/-- How inserted code is laid out. -/
structure Format where
  indentWidth : Nat := 4
  useTabs : Bool := false
  lineSeparator : Option String := none
  deriving DecidableEq, Repr, Inhabited

namespace Format

/-- One level of indentation: a tab, or `indentWidth` spaces. -/
def indentUnit (f : Format) : String :=
  if f.useTabs then "\t" else String.ofList (List.replicate f.indentWidth ' ')

/-- The configured line separator, or the one the text uses. -/
def separatorFor (f : Format) (text : String) : String :=
  f.lineSeparator.getD (Text.lineSeparator text.toList)

end Format

end QuickFix
