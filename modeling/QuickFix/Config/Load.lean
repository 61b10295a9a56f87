import QuickFix.Config.Settings
import QuickFix.Toml.Parse
import QuickFix.Text.Quoted

/-!
# Reading settings from TOML

The settings are read from a TOML document with three sections: `clean_up` (the eight
clean-up switches), `format` (`indent_width`, `use_tabs`, `line_separator`) and `logging`
(`level`, `json`, `stderr`). A missing key keeps its default. A section may also be given as an
array, whose items then set the section's keys in order.

A key that is not known is reported by its dotted path and its value is skipped; a value of the
wrong type stops the reading with an error that describes the value found and the type
expected. Once read, the settings are normalised (`Settings.normalize`).
-/

namespace QuickFix

/-- Why settings cannot be read. -/
inductive SettingsError where
  /-- The text is not well-formed TOML. -/
  | malformed (message : String)
  /-- A value of another type than its key takes. -/
  | invalidType (found expected : String)
  /-- A value of the right type that the key does not take. -/
  | invalidValue (found expected : String)
  deriving DecidableEq, Repr

/-- The text of a settings error. -/
def SettingsError.message : SettingsError → String
  | .malformed m => m
  | .invalidType f e => "invalid type: " ++ f ++ ", expected " ++ e
  | .invalidValue f e => "invalid value: " ++ f ++ ", expected " ++ e

namespace Toml

/-- A float as a message writes it: its shortest digits, with a point. -/
def withPoint (x : Binary64) : String :=
  let t := x.plain
  match x with
  | .finite .. => if t.contains '.' then t else t ++ ".0"
  | _ => t

/-- How a message describes a value of the wrong type. -/
def Node.found : Node → String
  | .string s => "string " ++ Text.quoted s
  | .integer i => "integer `" ++ toString i ++ "`"
  | .float x => "floating point `" ++ withPoint x ++ "`"
  | .boolean b => "boolean `" ++ toString b ++ "`"
  | .datetime | .table _ _ => "map"
  | .array _ | .tables _ => "sequence"

end Toml

open Toml

/-- A switch. -/
def readSwitch (n : Toml.Node) : Except SettingsError Bool :=
  match n with
  | .boolean b => .ok b
  | n => .error (.invalidType n.found "a boolean")

/-- A width: a non-negative integer. -/
def readWidth (n : Toml.Node) : Except SettingsError Nat :=
  match n with
  | .integer i => if i < 0 then .error (.invalidValue ("integer `" ++ toString i ++ "`") "usize")
    else .ok i.toNat
  | n => .error (.invalidType n.found "usize")

/-- A text. -/
def readText (n : Toml.Node) : Except SettingsError String :=
  match n with
  | .string s => .ok s
  | n => .error (.invalidType n.found "a string")

/-- How a section of the settings is read: its name, its keys in order, and how the value of a
key sets it. -/
structure SettingsSection (α : Type) where
  name : String
  keys : List String
  set : α → String → Toml.Node → Except SettingsError α

/-- The dotted path of a key below a path. -/
def childPath (path k : String) : String := if path.isEmpty then k else path ++ "." ++ k

namespace SettingsSection

variable {α : Type} (sec : SettingsSection α)

/-- Reads a section from its value, starting from its defaults, with the paths of the keys it
skipped. A date-time reads as a table of one unknown key. -/
def read (init : α) (path : String) : Toml.Node → Except SettingsError (α × List String)
  | .table entries _ => entries.foldlM (fun (a, unknown) (k, v) =>
      if sec.keys.contains k then (·, unknown) <$> sec.set a k v
      else .ok (a, unknown ++ [childPath path k])) (init, [])
  | .datetime => .ok (init, [childPath path "$__toml_private_datetime"])
  | .array items | .tables items =>
    (·, []) <$> (sec.keys.zip items).foldlM (fun a (k, v) => sec.set a k v) init
  | n => .error (.invalidType n.found ("struct " ++ sec.name))

end SettingsSection

/-- The `clean_up` section. -/
def cleanUpSection : SettingsSection CodeStyle where
  name := "CodeStyleOptions"
  keys := ["qualify_field_access", "qualify_static_field_access", "qualify_method_access",
    "qualify_static_method_access", "remove_field_qualifier", "remove_method_qualifier",
    "change_non_static_access_to_static", "change_indirect_static_access_to_direct"]
  set o k v := do
    let b ← readSwitch v
    return match k with
      | "qualify_field_access" => { o with qualifyField := b }
      | "qualify_static_field_access" => { o with qualifyStaticField := b }
      | "qualify_method_access" => { o with qualifyMethod := b }
      | "qualify_static_method_access" => { o with qualifyStaticMethod := b }
      | "remove_field_qualifier" => { o with removeFieldQualifier := b }
      | "remove_method_qualifier" => { o with removeMethodQualifier := b }
      | "change_non_static_access_to_static" => { o with nonStaticToStatic := b }
      | "change_indirect_static_access_to_direct" => { o with indirectToDirect := b }
      | _ => o

/-- The `format` section. -/
def formatSection : SettingsSection Format where
  name := "FormatOptions"
  keys := ["indent_width", "use_tabs", "line_separator"]
  set f k v := match k with
    | "indent_width" => (fun w => { f with indentWidth := w }) <$> readWidth v
    | "use_tabs" => (fun b => { f with useTabs := b }) <$> readSwitch v
    | "line_separator" => (fun s => { f with lineSeparator := some s }) <$> readText v
    | _ => .ok f

/-- The `logging` section. -/
def loggingSection : SettingsSection LoggingSettings where
  name := "LoggingConfig"
  keys := ["level", "json", "stderr"]
  set l k v := match k with
    | "level" => (fun s => { l with level := s }) <$> readText v
    | "json" => (fun b => { l with json := b }) <$> readSwitch v
    | "stderr" => (fun b => { l with stderr := b }) <$> readSwitch v
    | _ => .ok l

namespace Settings

/-- The settings of a document's root table, with the paths of the keys skipped. -/
def ofDocument (root : Toml.Node) : Except SettingsError (Settings × List String) :=
  match root with
  | .table entries _ => entries.foldlM (fun (s, unknown) (k, v) =>
      match k with
      | "clean_up" => (fun (c, u) => ({ s with cleanUp := c }, unknown ++ u)) <$>
        cleanUpSection.read {} k v
      | "format" => (fun (f, u) => ({ s with format := f }, unknown ++ u)) <$>
        formatSection.read {} k v
      | "logging" => (fun (l, u) => ({ s with logging := l }, unknown ++ u)) <$>
        loggingSection.read {} k v
      | _ => .ok (s, unknown ++ [k])) ({}, [])
  | _ => .ok ({}, [])

/-- A reported path without the dots it starts with, as a key that begins with a dot would
leave them. -/
def trimLeadingDots (path : String) : String := String.ofList (path.toList.dropWhile (· == '.'))

/-- Reads settings from a TOML text: the normalised settings, with the unknown keys, without
leading dots, sorted and each once, and the warnings. -/
def load (text : String) : Except SettingsError (Settings × SettingsReport) := do
  let root ← (Toml.parse text).mapError .malformed
  let (s, unknown) ← ofDocument root
  let (s, warnings) := s.normalize
  let unknown := unknown.map trimLeadingDots
  return (s, { unknownKeys := (unknown.mergeSort fun a b => decide (a ≤ b)).eraseDups, warnings })

end Settings

end QuickFix
