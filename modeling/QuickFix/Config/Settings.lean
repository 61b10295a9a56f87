import QuickFix.Fix.Options

/-!
# Settings

The **settings** of the engine: which clean-ups run, how inserted code is laid out, and how it
logs. Settings are read from a configuration text; reading is lenient, so keys it does not know
are reported and skipped, and a value it cannot use is replaced by its default with a
**warning**: an indentation width of zero without tabs becomes four, and a line separator other
than `\n`, `\r\n` or `\r` is dropped, so that each unit keeps its own.
-/

namespace QuickFix

/-- How the engine logs: a level or filter, as lines of JSON or of text, to standard error or
nowhere. -/
structure LoggingSettings where
  level : String := "info"
  json : Bool := false
  stderr : Bool := true
  deriving DecidableEq, Repr, Inhabited

/-- The settings of the engine. -/
structure Settings where
  cleanUp : CodeStyle := {}
  format : Format := {}
  logging : LoggingSettings := {}
  deriving DecidableEq, Repr, Inhabited

/-- A value that was replaced by its default: where it was, and why. -/
structure SettingsWarning where
  path : String
  message : String
  deriving DecidableEq, Repr, Inhabited

/-- What reading the settings found: the keys it skipped, sorted, and its warnings. -/
structure SettingsReport where
  unknownKeys : List String := []
  warnings : List SettingsWarning := []
  deriving DecidableEq, Repr, Inhabited

/-- The line separators a unit can use. -/
def lineSeparators : List String := ["\n", "\r\n", "\r"]

namespace Settings

/-- Replaces the values the engine cannot use by their defaults, with a warning for each. -/
def normalize (s : Settings) : Settings × List SettingsWarning :=
  let defaults : Format := {}
  let (s, w1) : Settings × List SettingsWarning := if s.format.indentWidth == 0 && !s.format.useTabs then
      ({ s with format := { s.format with indentWidth := defaults.indentWidth } },
       [{ path := "format.indent_width",
          message := "must be at least 1; using " ++ toString defaults.indentWidth }])
    else (s, [])
  let (s, w2) : Settings × List SettingsWarning := match s.format.lineSeparator with
    | some sep => if lineSeparators.contains sep then (s, [])
      else ({ s with format := { s.format with lineSeparator := none } },
        [{ path := "format.line_separator",
           message := "must be \\n, \\r\\n or \\r; keeping the unit's separator" }])
    | none => (s, [])
  (s, w1 ++ w2)

end Settings

end QuickFix
