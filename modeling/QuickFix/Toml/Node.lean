import QuickFix.Number.Binary64

/-!
# TOML documents

A TOML document is a tree of **nodes**: strings, integers, floats, booleans, date-times, arrays,
tables and lists of tables. A table records how it came to be: written inline as `{ … }`,
made **implicitly** as the parent of a table named in a header (`a` for `[a.b]`), or made by a
**dotted** key (`a` for `a.b = 1`).

Reading a document goes through a **reading state**: the document's root, the table that key-value
lines currently go into, and its header path. The rules that keep a document well-formed are
the ones of the TOML format: a key is defined once; a table is named in a header once, after
which dotted keys may not reopen it; a header may take over a table made implicitly, but not one
made by dotted keys; and a dotted key or header cannot pass through a value that is not a table.
-/

namespace QuickFix.Toml

/-- How a table came to be. -/
structure TableFlags where
  inline : Bool := false
  implicit : Bool := false
  dotted : Bool := false
  deriving DecidableEq, Repr, Inhabited

/-- A value of a TOML document. -/
inductive Node where
  | string (s : String)
  | integer (i : Int)
  | float (x : Binary64)
  | boolean (b : Bool)
  | datetime
  | array (items : List Node)
  | table (entries : List (String × Node)) (flags : TableFlags)
  /-- A list of tables, each a `table`, from `[[…]]` headers. -/
  | tables (items : List Node)
  deriving Repr, Inhabited

/-- The name of the type of a value, as errors write it. -/
def Node.typeName : Node → String
  | .string _ => "string"
  | .integer _ => "integer"
  | .float _ => "float"
  | .boolean _ => "boolean"
  | .datetime => "datetime"
  | .array _ | .tables _ => "array"
  | .table _ _ => "inline table"

/-- Sets the entry of a key: in its place if the key is there, else at the end. -/
def setEntry (entries : List (String × Node)) (k : String) (v : Node) : List (String × Node) :=
  if entries.any (·.1 == k) then entries.map fun e => if e.1 == k then (k, v) else e
  else entries ++ [(k, v)]

/-- Why a document is not well-formed. -/
inductive TableError where
  /-- A key defined twice, with the table it is in when the table is named. -/
  | duplicateKey (key : String) (table : Option (List String))
  /-- A dotted key or header that passes through a value of another type. -/
  | extendWrongType (path : List String) (actual : String)
  deriving DecidableEq, Repr

/-- The text of a well-formedness error. -/
def TableError.message : TableError → String
  | .duplicateKey k none => "duplicate key `" ++ k ++ "`"
  | .duplicateKey k (some []) => "duplicate key `" ++ k ++ "` in document root"
  | .duplicateKey k (some t) => "duplicate key `" ++ k ++ "` in table `" ++ ".".intercalate t ++ "`"
  | .extendWrongType p actual =>
    "dotted key `" ++ ".".intercalate p ++ "` attempted to extend non-table type (" ++ actual ++ ")"

/-- A character allowed in a bare key. -/
def isBareKeyChar (c : Char) : Bool := c.isAlphanum || c == '-' || c == '_'

/-- Four upper-case hexadecimal digits. -/
def hex4 (n : Nat) : String :=
  let ds := (Nat.toDigits 16 n).map Char.toUpper
  String.ofList (List.replicate (4 - ds.length) '0' ++ ds)

/-- A key can be written as a one-line literal string, between apostrophes and without
escapes: it has no apostrophe, no line end, and no control character but a tab. -/
def fitsLiteral (k : String) : Bool :=
  k.all fun c => c != '\'' && c != '\n' && (c == '\t' || !(c.toNat ≤ 0x1F || c.toNat == 0x7F))

/-- A key as TOML writes it: bare when it can be; else as a literal string when it holds a
backslash or a double quote and fits one; else as a basic string with escapes. -/
def keyText (k : String) : String :=
  if !k.isEmpty && k.all isBareKeyChar then k
  else if (k.contains '\\' || k.contains '"') && fitsLiteral k then "'" ++ k ++ "'"
  else
    let escape := fun (c : Char) => match c with
      | '\x08' => "\\b"
      | '\t' => "\\t"
      | '\n' => "\\n"
      | '\x0c' => "\\f"
      | '\r' => "\\r"
      | '"' => "\\\""
      | '\\' => "\\\\"
      | c => if c.toNat ≤ 0x1F || c.toNat == 0x7F then "\\u" ++ hex4 c.toNat else c.toString
    "\"" ++ String.join (k.toList.map escape) ++ "\""

/-- The error for a header whose last key is already defined. -/
def duplicateHeader (path : List String) : TableError :=
  .duplicateKey (keyText (path.getLast?.getD "")) (some path.dropLast)

/-- Applies `f` to the table at the end of a path of keys below a table of the document.
Each missing table is made on the way, implicitly, and dotted when `dotted`; a list of tables
is entered at its last table. Passing through a value that is not a table fails, and so does a
dotted key that passes through a table named in a header. `seen` is the part of the path walked
so far. -/
def descend {α : Type} (dotted : Bool) (f : Node → Except TableError (Node × α))
    (seen : List String) : List String → Node → Except TableError (Node × α)
  | [], t => f t
  | k :: rest, t =>
    match t with
    | .table entries flags => do
      let here := seen ++ [k]
      let child := (entries.lookup k).getD (.table [] { implicit := true, dotted })
      let (child, a) ← match child with
        | .table es fl =>
          if fl.inline then throw (.extendWrongType here "inline table")
          else if dotted && !fl.implicit then throw (.duplicateKey k none)
          else descend dotted f here rest (.table es fl)
        | .tables items =>
          match items.getLast? with
          | some last => do
            let (last, a) ← descend dotted f here rest last
            pure (Node.tables (items.dropLast ++ [last]), a)
          | none => throw (.duplicateKey k none)
        | v => throw (.extendWrongType here v.typeName)
      return (.table (setEntry entries k child) flags, a)
    | _ => throw (.duplicateKey k none)

/-- Applies `f` to the table at the end of a path of keys inside an inline table. Each missing
table is made on the way as an inline, dotted one; a table written out inline cannot be reopened
by a dotted key. -/
def descendInline {α : Type} (f : Node → Except TableError (Node × α))
    (seen : List String) : List String → Node → Except TableError (Node × α)
  | [], t => f t
  | k :: rest, t =>
    match t with
    | .table entries flags => do
      let here := seen ++ [k]
      let child := (entries.lookup k).getD (.table [] { inline := true, implicit := true, dotted := true })
      let (child, a) ← match child with
        | .table es fl =>
          if !fl.implicit then throw (.duplicateKey k none)
          else descendInline f here rest (.table es fl)
        | v => throw (.extendWrongType here v.typeName)
      return (.table (setEntry entries k child) flags, a)
    | _ => throw (.duplicateKey k none)

/-- Puts a key-value pair into a table reached by its dotted path: only a table made by dotted
keys takes a dotted key, and only a key not yet there. `named` is the header path of the table
the line is in, for the message. -/
def insertPair (descendBy : (Node → Except TableError (Node × Unit)) → List String → Node →
      Except TableError (Node × Unit))
    (named : Option (List String)) (path : List String) (key : String) (v : Node) (t : Node) :
    Except TableError Node :=
  (·.1) <$> descendBy (fun target => match target with
    | .table entries flags =>
      if flags.dotted == path.isEmpty then throw (.duplicateKey key none)
      else if (entries.lookup key).isSome then throw (.duplicateKey key named)
      else pure (.table (entries ++ [(key, v)]) flags, ())
    | _ => throw (.duplicateKey key none)) path t

/-- The inline table of a list of key-value pairs, each with its dotted path. -/
def tableOfPairs (pairs : List (List String × String × Node)) : Except TableError Node :=
  pairs.foldlM (fun t (path, key, v) => insertPair (descendInline · []) none path key v t)
    (.table [] { inline := true })

/-- The state of reading a document: its root, the table being filled, and that table's header
path (empty for the root) and whether it is one of a list of tables. -/
structure ReadState where
  root : Node := .table [] {}
  current : Node := .table [] {}
  path : List String := []
  isArray : Bool := false
  deriving Inhabited

namespace ReadState

variable (s : ReadState)

/-- Puts a key-value line into the current table. -/
def onPair (path : List String) (key : String) (v : Node) : Except TableError ReadState := do
  let current ← insertPair (descend true · []) (some s.path) path key v s.current
  return { s with current }

/-- Puts the current table into the document, at its header path. -/
def finish : Except TableError ReadState := do
  match s.path.getLast? with
  | none => return { s with root := s.current }
  | some k =>
    let (root, _) ← descend false (fun parent => match parent with
      | .table entries flags =>
        match entries.lookup k, s.isArray with
        | none, true => pure (.table (entries ++ [(k, .tables [s.current])]) flags, ())
        | some (.tables items), true =>
          pure (.table (setEntry entries k (.tables (items ++ [s.current]))) flags, ())
        | none, false => pure (.table (entries ++ [(k, s.current)]) flags, ())
        | some (.table _ fl), false =>
          if fl.implicit && !fl.inline then pure (.table (setEntry entries k s.current) flags, ())
          else throw (duplicateHeader s.path)
        | some _, _ => throw (duplicateHeader s.path)
      | _ => throw (duplicateHeader s.path)) [] s.path.dropLast s.root
    return { s with root }

/-- Begins the table of a `[…]` header, taking over a table made implicitly by an earlier
header. -/
def beginTable (path : List String) : Except TableError ReadState := do
  let s ← s.finish
  let k := path.getLast?.getD ""
  let (root, taken) ← descend false (fun parent => match parent with
    | .table entries flags =>
      match entries.lookup k with
      | none => pure (parent, [])
      | some (.table es fl) =>
        if fl.implicit && !fl.dotted && !fl.inline then pure (.table (entries.filter (·.1 != k)) flags, es)
        else throw (duplicateHeader path)
      | some _ => throw (duplicateHeader path)
    | _ => throw (duplicateHeader path)) [] path.dropLast s.root
  return { root, current := .table taken {}, path, isArray := false }

/-- Begins the next table of a `[[…]]` header. -/
def beginArrayTable (path : List String) : Except TableError ReadState := do
  let s ← s.finish
  let k := path.getLast?.getD ""
  let (root, _) ← descend false (fun parent => match parent with
    | .table entries flags =>
      match entries.lookup k with
      | none => pure (.table (entries ++ [(k, .tables [])]) flags, ())
      | some (.tables _) => pure (parent, ())
      | some _ => throw (duplicateHeader path)
    | _ => throw (duplicateHeader path)) [] path.dropLast s.root
  return { root, current := .table [] {}, path, isArray := true }

end ReadState

end QuickFix.Toml
