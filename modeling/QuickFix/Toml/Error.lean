/-!
# Errors of reading TOML

A syntax error of a TOML text carries **contexts** collected on its way out of the grammar, the
innermost first: **labels** naming the construct that is malformed ("table header", "basic
string") and **expectations** naming what would have been accepted (`` `=` ``, "newline"). It
may also carry a **cause**, the rule that a well-formed piece broke ("value is out of range").
An error is **committed** once the text can only be one construct; until then another
alternative of the grammar is tried.

Its message is `invalid ` and the innermost label, then `expected ` and every expectation, then
the cause, each part on its own line.
-/

namespace QuickFix.Toml

/-- What a syntax error says about where it happened. -/
inductive Context where
  | label (what : String)
  | expected (what : String)
  deriving DecidableEq, Repr, Inhabited

/-- A syntax error of a TOML text. -/
structure SyntaxError where
  contexts : List Context := []
  cause : Option String := none
  committed : Bool := false
  deriving DecidableEq, Repr, Inhabited

namespace SyntaxError

/-- Adds a label on the way out. -/
def label (e : SyntaxError) (what : String) : SyntaxError := { e with contexts := e.contexts ++ [.label what] }

/-- Adds an expectation on the way out. -/
def expect (e : SyntaxError) (what : String) : SyntaxError :=
  { e with contexts := e.contexts ++ [.expected what] }

/-- Commits the error: no other alternative is tried. -/
def commit (e : SyntaxError) : SyntaxError := { e with committed := true }

/-- A committed error with the given contexts. -/
def committedAt (contexts : List Context) : SyntaxError := { contexts, committed := true }

/-- The text of the error. -/
def message (e : SyntaxError) : String :=
  let label := e.contexts.findSome? fun
    | .label w => some w
    | .expected _ => none
  let expected := e.contexts.filterMap fun
    | .expected w => some w
    | .label _ => none
  let parts := (label.map ("invalid " ++ ·)).toList ++
    (if expected.isEmpty then [] else ["expected " ++ ", ".intercalate expected]) ++ e.cause.toList
  "\n".intercalate parts

end SyntaxError

end QuickFix.Toml
