/-!
# Modifiers

The six modifiers a declaration can carry. They are written in the order `public protected
private abstract static final`, and each has the flag value the class-file format gives it; a
declaration is **package-private** when it is none of public, protected or private.
-/

namespace QuickFix

/-- The modifiers of a declaration. -/
structure Modifiers where
  isPublic : Bool := false
  isProtected : Bool := false
  isPrivate : Bool := false
  isAbstract : Bool := false
  isStatic : Bool := false
  isFinal : Bool := false
  deriving DecidableEq, Repr, Inhabited

namespace Modifiers

/-- No modifier at all. -/
def none : Modifiers := {}

/-- Only `public`. -/
def publicOnly : Modifiers := { isPublic := true }

/-- Only `static`. -/
def staticOnly : Modifiers := { isStatic := true }

/-- Every modifier that either side has. -/
def union (a b : Modifiers) : Modifiers :=
  ⟨a.isPublic || b.isPublic, a.isProtected || b.isProtected, a.isPrivate || b.isPrivate,
   a.isAbstract || b.isAbstract, a.isStatic || b.isStatic, a.isFinal || b.isFinal⟩

/-- None of public, protected or private. -/
def isPackagePrivate (m : Modifiers) : Bool := !(m.isPublic || m.isProtected || m.isPrivate)

/-- The keywords present, in their written order. -/
def keywords (m : Modifiers) : List String :=
  [(m.isPublic, "public"), (m.isProtected, "protected"), (m.isPrivate, "private"),
   (m.isAbstract, "abstract"), (m.isStatic, "static"), (m.isFinal, "final")].filterMap
    fun (on, kw) => if on then some kw else Option.none

/-- The keywords separated by single spaces. -/
def text (m : Modifiers) : String := " ".intercalate m.keywords

/-- The flag value of the set: public 1, private 2, protected 4, static 8, final 16, abstract 1024. -/
def bits (m : Modifiers) : Nat :=
  (if m.isPublic then 1 else 0) + (if m.isPrivate then 2 else 0) +
  (if m.isProtected then 4 else 0) + (if m.isStatic then 8 else 0) +
  (if m.isFinal then 16 else 0) + (if m.isAbstract then 1024 else 0)

/-- Adds the modifier named by a keyword; other words add nothing. -/
def addKeyword (m : Modifiers) : String → Option Modifiers
  | "public" => some { m with isPublic := true }
  | "protected" => some { m with isProtected := true }
  | "private" => some { m with isPrivate := true }
  | "abstract" => some { m with isAbstract := true }
  | "static" => some { m with isStatic := true }
  | "final" => some { m with isFinal := true }
  | _ => Option.none

/-- The modifiers named by a list of keywords, or `none` if a word is not a modifier. -/
def ofKeywords (words : List String) : Option Modifiers :=
  words.foldlM addKeyword {}

example : (ofKeywords ["final", "static", "private"]).map text = some "private static final" := by
  decide

end Modifiers

end QuickFix
