import QuickFix.Toml.Scalar

/-!
# TOML documents

A document is a sequence of lines: blank lines and comments, key-value lines, and headers that
begin a table (`[a.b]`) or the next table of a list (`[[a.b]]`). A key is a dotted sequence of
bare or quoted keys; a value is a scalar, an array, or an inline table. Each line is put into
the reading state as it is read, so that a key defined twice is reported where it is defined
the second time.

Nested values are read with a **fuel** that every step of the reading spends, and that the
document gives as a multiple of its length: each step reads at least one character.

Arrays and inline tables nest at most `maxNesting - 1` deep, and a dotted key has fewer than
`maxNesting` parts; past that the reading stops with `nestingError`.
-/

namespace QuickFix.Toml

/-- The bound on nesting: of arrays and inline tables, and of the parts of a dotted key. -/
def maxNesting : Nat := 80

/-- The error of a value or key nested too deep. -/
def nestingError : SyntaxError := { cause := some "recursion limit exceeded" }

/-- A bare key, a basic string or a literal string. -/
def simpleKey (s : List Char) : Except SyntaxError (String × List Char) :=
  match s with
  | '"' :: r => basicString r
  | '\'' :: r => literalString r
  | _ =>
    let k := s.takeWhile isBareKeyChar
    if k.isEmpty then .error {} else .ok (String.ofList k, s.drop k.length)

/-- A key of a dotted key, with the blanks around it. -/
def keyPart (s : List Char) : Except SyntaxError (String × List Char) := do
  let (k, r) ← simpleKey (skipBlank s)
  return (k, skipBlank r)

/-- The rest of a dotted key after its first part. -/
def keyRest : Nat → List String → List Char → Except SyntaxError (List String × List Char)
  | 0, ks, s => .ok (ks, s)
  | fuel + 1, ks, s =>
    match s with
    | '.' :: r => match keyPart r with
      | .ok (k, r) => keyRest fuel (ks ++ [k]) r
      | .error e => if e.committed then .error e else .ok (ks, s)
    | _ => .ok (ks, s)

/-- A dotted key: its parts, fewer than `maxNesting`. -/
def key (s : List Char) : Except SyntaxError (List String × List Char) := do
  let read : Except SyntaxError (List String × List Char) := do
    let (k, r) ← keyPart s
    keyRest r.length [k] r
  let (ks, r) ← read.mapError (·.label "key")
  if maxNesting ≤ ks.length then throw nestingError
  return (ks, r)

/-- The contexts of a value that does not start as a value. -/
def valueExpected : List Context := [.label "string", .expected "`\"`", .expected "`'`"]

/-- The text starts with a word. -/
def startsWith (w : List Char) (s : List Char) : Bool := s.take w.length == w

/-- A number or date-time: a date-time if it is one, else a float, else an integer. -/
def number (s : List Char) : Except SyntaxError (Node × List Char) := do
  match ← dateTime s with
  | some r => return (.datetime, r)
  | none =>
    match ← float s with
    | some (x, r) => return (.float x, r)
    | none => (fun (i, r) => (Node.integer i, r)) <$> integer s

/-- A key-value pair of an inline table: the dotted path, the last key, and the value. -/
abbrev Pair := List String × String × Node

mutual

/-- A value, inside `depth` arrays and inline tables. At the end of the text there is no
character to tell what kind of value to read, and the error says no more. -/
def value : Nat → Nat → List Char → Except SyntaxError (Node × List Char)
  | 0, _, _ => .error (.committedAt [])
  | fuel + 1, depth, s =>
    match s with
    | '"' :: _ | '\'' :: _ => (fun (x, r) => (Node.string x, r)) <$> string s
    | '[' :: r => array fuel depth r
    | '{' :: r => inlineTable fuel depth r
    | c :: _ =>
      if c == '+' || c == '-' || c.isDigit then number s
      else if c == '_' then
        ((fun (i, r) => (Node.integer i, r)) <$> integer s).mapError (·.expect "leading digit")
      else if c == '.' then
        match float s with
        | .ok (some (x, r)) => .ok (.float x, r)
        | .ok none => .error { contexts := [.label "floating-point number", .expected "leading digit"] }
        | .error e => .error (e.expect "leading digit")
      else if c == 't' then
        if startsWith "true".toList s then .ok (.boolean true, s.drop 4)
        else .error (.committedAt valueExpected)
      else if c == 'f' then
        if startsWith "false".toList s then .ok (.boolean false, s.drop 5)
        else .error (.committedAt valueExpected)
      else if c == 'i' && startsWith "inf".toList s then .ok (.float (.infinite false), s.drop 3)
      else if c == 'n' && startsWith "nan".toList s then .ok (.float .nan, s.drop 3)
      else .error { contexts := valueExpected }
    | [] => .error {}

/-- A value of an array with the blank lines around it; none when there is none. -/
def arrayItem : Nat → Nat → List Char → Except SyntaxError (Option (Node × List Char))
  | 0, _, _ => .error (.committedAt [])
  | fuel + 1, depth, s =>
    match skipBlankLines s.length s with
    | .error _ => .ok none
    | .ok s =>
      match value fuel depth s with
      | .error e => if e.committed then .error e else .ok none
      | .ok (v, r) =>
        match skipBlankLines r.length r with
        | .ok r => .ok (some (v, r))
        | .error _ => .ok none

/-- The items of an array after the first one, each after a comma. -/
def arrayRest : Nat → Nat → List Node → List Char → Except SyntaxError (List Node × List Char)
  | 0, _, items, s => .ok (items, s)
  | fuel + 1, depth, items, s =>
    match s with
    | ',' :: r => do
      match ← arrayItem fuel depth r with
      | some (v, r) => arrayRest fuel depth (items ++ [v]) r
      | none => return (items, s)
    | _ => .ok (items, s)

/-- An array inside `depth` arrays and inline tables, after its opening bracket. A comma may
follow the last item. -/
def array : Nat → Nat → List Char → Except SyntaxError (Node × List Char)
  | 0, _, _ => .error (.committedAt [])
  | fuel + 1, depth, s => do
    if maxNesting ≤ depth + 1 then throw nestingError.commit
    let (items, r) ← match ← arrayItem fuel (depth + 1) s with
      | some (v, r) => do
        let (items, r) ← arrayRest fuel (depth + 1) [v] r
        pure (items, match r with
          | ',' :: r => r
          | r => r)
      | none => pure ([], s)
    let r ← (skipBlankLines r.length r).mapError (·.commit)
    match r with
    | ']' :: r => return (.array items, r)
    | _ => throw (.committedAt [.label "array", .expected "`]`"])

/-- A key-value pair of an inline table. -/
def inlinePair : Nat → Nat → List Char → Except SyntaxError (Pair × List Char)
  | 0, _, _ => .error (.committedAt [])
  | fuel + 1, depth, s => do
    let (path, r) ← key s
    match r with
    | '=' :: r =>
      let (v, r) ← (value fuel depth (skipBlank r)).mapError (·.commit)
      return ((path.dropLast, path.getLast?.getD "", v), skipBlank r)
    | _ => throw (.committedAt [.expected "`.`", .expected "`=`"])

/-- The pairs of an inline table after the first one, each after a comma. -/
def inlineRest : Nat → Nat → List Pair → List Char → Except SyntaxError (List Pair × List Char)
  | 0, _, pairs, s => .ok (pairs, s)
  | fuel + 1, depth, pairs, s =>
    match s with
    | ',' :: r =>
      match inlinePair fuel depth r with
      | .ok (p, r) => inlineRest fuel depth (pairs ++ [p]) r
      | .error e => if e.committed then .error e else .ok (pairs, s)
    | _ => .ok (pairs, s)

/-- An inline table inside `depth` arrays and inline tables, after its opening brace. -/
def inlineTable : Nat → Nat → List Char → Except SyntaxError (Node × List Char)
  | 0, _, _ => .error (.committedAt [])
  | fuel + 1, depth, s => do
    if maxNesting ≤ depth + 1 then throw nestingError.commit
    let (pairs, r) ← match inlinePair fuel (depth + 1) s with
      | .ok (p, r) => inlineRest fuel (depth + 1) [p] r
      | .error e => if e.committed then throw e else pure ([], s)
    let r := skipBlank r
    let t ← (tableOfPairs pairs).mapError fun e => { cause := some e.message, committed := true }
    match r with
    | '}' :: r => return (t, r)
    | _ => throw (.committedAt [.label "inline table", .expected "`\x7d`"])

end

/-- Lifts a well-formedness error into a syntax error. -/
def SyntaxError.ofTable (e : TableError) : SyntaxError := { cause := some e.message, committed := true }

/-- A key-value line, put into the state. -/
def pairLine (st : ReadState) (s : List Char) : Except SyntaxError (ReadState × List Char) :=
  let read : Except SyntaxError (ReadState × List Char) := do
    let (path, r) ← key s
    match r with
    | '=' :: r =>
      let (v, r) ← value (4 * r.length + 4) 0 (skipBlank r)
      match lineTrailing? r with
      | some r =>
        let st ← (st.onPair path.dropLast (path.getLast?.getD "") v).mapError SyntaxError.ofTable
        return (st, r)
      | none => throw (.committedAt lineEndExpected)
    | _ => throw (.committedAt [.expected "`.`", .expected "`=`"])
  read.mapError (·.commit)

/-- A header line, beginning its table in the state. A `[` that ends the text is too short to
tell a table from a list of tables, and fails as a header and nothing more. -/
def headerLine (st : ReadState) (s : List Char) : Except SyntaxError (ReadState × List Char) :=
  let read : Except SyntaxError (ReadState × List Char) := match s with
    | '[' :: '[' :: r => do
      let (path, r) ← key r
      match r with
      | ']' :: ']' :: r =>
        match lineTrailing? r with
        | some r => return (← (st.beginArrayTable path).mapError SyntaxError.ofTable, r)
        | none => throw (.committedAt lineEndExpected)
      | _ => throw (.committedAt [.expected "`.`", .expected "`]]`"])
    | ['['] => throw {}
    | _ => do
      let (path, r) ← key (s.drop 1)
      match r with
      | ']' :: r =>
        match lineTrailing? r with
        | some r => return (← (st.beginTable path).mapError SyntaxError.ofTable, r)
        | none => throw (.committedAt lineEndExpected)
      | _ => throw (.committedAt [.expected "`.`", .expected "`]`"])
  read.mapError fun e => (e.label "table header").commit

/-- The lines of a document from here on. -/
def lines : Nat → ReadState → List Char → Except SyntaxError ReadState
  | 0, st, _ => .ok st
  | fuel + 1, st, s =>
    match s with
    | [] => .ok st
    | '#' :: _ => match lineEnd? (skipComment s) with
      | some r => lines fuel st (skipBlank r)
      | none => .error (.committedAt [])
    | '[' :: _ => do
      let (st, r) ← headerLine st s
      lines fuel st (skipBlank r)
    | '\n' :: r => lines fuel st (skipBlank r)
    | '\r' :: '\n' :: r => lines fuel st (skipBlank r)
    | '\r' :: _ => .error {}
    | _ => do
      let (st, r) ← pairLine st s
      lines fuel st (skipBlank r)

/-- A document's root table, or the message of what is wrong with it. -/
def parse (text : String) : Except String Node :=
  let s := match text.toList with
    | '\uFEFF' :: r => r
    | s => s
  match lines (s.length + 1) {} (skipBlank s) with
  | .error e => .error e.message
  | .ok st =>
    match st.finish with
    | .error e => .error e.message
    | .ok st => .ok st.root

end QuickFix.Toml
