import QuickFix.Toml.Error
import QuickFix.Toml.Node

/-!
# TOML scalars

The pieces of a TOML text below the level of tables: white space and comments, the four kinds of
string, integers in four bases, floats, and date-times. Each reader takes the text at the start
of the piece and gives the value and the rest, or a syntax error; a reader that gives `none`
has not matched, so that the next alternative is tried.

Numbers follow the TOML grammar: underscores only between digits, no leading zeros, an
integer within 64 signed bits, and a float rounded to the nearest binary64 value, which may not
overflow to positive infinity.
-/

namespace QuickFix.Toml

/-! ### Characters -/

def isBlank (c : Char) : Bool := c == ' ' || c == '\t'

def isNonAscii (c : Char) : Bool := c.toNat ≥ 0x80

/-- A character allowed in a comment. -/
def isCommentChar (c : Char) : Bool :=
  c == '\t' || (0x20 ≤ c.toNat && c.toNat ≤ 0x7E) || isNonAscii c

/-- A character allowed as itself in a basic string. -/
def isBasicChar (c : Char) : Bool :=
  isBlank c || c.toNat == 0x21 || (0x23 ≤ c.toNat && c.toNat ≤ 0x5B) ||
    (0x5D ≤ c.toNat && c.toNat ≤ 0x7E) || isNonAscii c

/-- A character allowed in a literal string. -/
def isLiteralChar (c : Char) : Bool :=
  c == '\t' || (0x20 ≤ c.toNat && c.toNat ≤ 0x26) || (0x28 ≤ c.toNat && c.toNat ≤ 0x7E) ||
    isNonAscii c

def isHexDigit (c : Char) : Bool :=
  c.isDigit || ('a' ≤ c && c ≤ 'f') || ('A' ≤ c && c ≤ 'F')

def isOctDigit (c : Char) : Bool := '0' ≤ c && c ≤ '7'

def isBinDigit (c : Char) : Bool := c == '0' || c == '1'

/-- The value of a digit in base 16 or below. -/
def digitValue (c : Char) : Nat :=
  if c.isDigit then c.toNat - '0'.toNat
  else if 'a' ≤ c && c ≤ 'f' then c.toNat - 'a'.toNat + 10
  else c.toNat - 'A'.toNat + 10

/-- The number the digits spell in a base. -/
def digitsValue (base : Nat) (ds : List Char) : Nat := ds.foldl (fun n c => n * base + digitValue c) 0

/-! ### White space, comments and line ends -/

def skipBlank (s : List Char) : List Char := s.dropWhile isBlank

/-- A line feed, or a carriage return and a line feed. -/
def newline? : List Char → Option (List Char)
  | '\n' :: r => some r
  | '\r' :: '\n' :: r => some r
  | _ => none

/-- A line end, or the end of the text. -/
def lineEnd? : List Char → Option (List Char)
  | [] => some []
  | s => newline? s

/-- The text after a comment that starts the text. -/
def skipComment (s : List Char) : List Char := (s.drop 1).dropWhile isCommentChar

/-- The rest of a line after a value or header: blanks, a comment, and the line end. -/
def lineTrailing? (s : List Char) : Option (List Char) :=
  let s := skipBlank s
  lineEnd? (match s with
    | '#' :: _ => skipComment s
    | s => s)

/-- The expectations of a line that should end. -/
def lineEndExpected : List Context := [.expected "newline", .expected "`#`"]

/-- Blanks, line ends and comments between the values of an array. A comment must end its
line. -/
def skipBlankLines : Nat → List Char → Except SyntaxError (List Char)
  | 0, s => .ok s
  | fuel + 1, s =>
    let s := skipBlank s
    match s with
    | '#' :: _ => match newline? (skipComment s) with
      | some r => skipBlankLines fuel r
      | none => .error {}
    | '\n' :: r => skipBlankLines fuel r
    | '\r' :: r => match newline? ('\r' :: r) with
      | some r => skipBlankLines fuel r
      | none => .error {}
    | _ => .ok s

/-! ### Strings -/

/-- The escapes a basic string allows, for the message of a bad one. -/
def escapeExpected : List Context :=
  ["`b`", "`f`", "`n`", "`r`", "`t`", "`u`", "`U`", "`\\`", "`\"`"].map .expected

/-- The character of exactly `n` hexadecimal digits, which must be a Unicode scalar value. -/
def hexEscape (n : Nat) (label : String) (s : List Char) : Except SyntaxError (Char × List Char) :=
  let ds := (s.take n).takeWhile isHexDigit
  if ds.length < n then .error (.committedAt [.label label])
  else
    let v := digitsValue 16 ds
    if v < 0xD800 || (0xE000 ≤ v && v ≤ 0x10FFFF) then .ok (Char.ofNat v, s.drop n)
    else .error { contexts := [.label label], cause := some "value is out of range", committed := true }

/-- The character of the escape after a backslash; none at the end of the text. -/
def escape : List Char → Except SyntaxError (Option (Char × List Char))
  | [] => .ok none
  | c :: r =>
    let simple := fun (x : Char) => Except.ok (some (x, r))
    match c with
    | 'b' => simple '\x08'
    | 'f' => simple '\x0c'
    | 'n' => simple '\n'
    | 'r' => simple '\r'
    | 't' => simple '\t'
    | '\\' => simple '\\'
    | '"' => simple '"'
    | 'u' => some <$> hexEscape 4 "unicode 4-digit hex code" r
    | 'U' => some <$> hexEscape 8 "unicode 8-digit hex code" r
    | _ => .error (.committedAt (.label "escape sequence" :: escapeExpected))

/-- The characters of a basic string up to where they stop, reversed. -/
def basicChars : Nat → List Char → List Char → Except SyntaxError (List Char × List Char)
  | 0, acc, s => .ok (acc, s)
  | _, acc, [] => .ok (acc, [])
  | fuel + 1, acc, c :: r =>
    if isBasicChar c then basicChars fuel (c :: acc) r
    else if c == '\\' then
      match escape r with
      | .error e => .error e
      | .ok (some (x, r)) => basicChars fuel (x :: acc) r
      | .ok none => .ok (acc, c :: r)
    else .ok (acc, c :: r)

/-- A basic string, after its opening quote. -/
def basicString (s : List Char) : Except SyntaxError (String × List Char) := do
  let (cs, rest) ← basicChars (s.length + 1) [] s
  match rest with
  | '"' :: r => return (String.ofList cs.reverse, r)
  | _ => throw (.committedAt [.label "basic string"])

/-- A literal string, after its opening apostrophe. -/
def literalString (s : List Char) : Except SyntaxError (String × List Char) :=
  match s.dropWhile isLiteralChar with
  | '\'' :: r => .ok (String.ofList (s.takeWhile isLiteralChar), r)
  | _ => .error (.committedAt [.label "literal string"])

/-- Blanks and line ends after the first line end of an escaped line end. -/
def skipBlankNewlines : Nat → List Char → List Char
  | 0, s => s
  | fuel + 1, s =>
    match s with
    | c :: r => if isBlank c then skipBlankNewlines fuel r
      else match newline? s with
        | some r => skipBlankNewlines fuel r
        | none => s
    | [] => []

/-- One or more backslashes, each ending its line, with the blanks and line ends after them. -/
def escapedNewlines : Nat → List Char → Option (List Char)
  | 0, _ => none
  | fuel + 1, s =>
    match s with
    | '\\' :: r => match newline? (skipBlank r) with
      | some r => let r := skipBlankNewlines r.length r
        some ((escapedNewlines fuel r).getD r)
      | none => none
    | _ => none

/-- One piece of the body of a multi-line basic string: a run of plain characters, an escaped
line end, an escape, or a line end. -/
def multilineBasicPiece (s : List Char) : Except SyntaxError (Option (List Char × List Char)) :=
  match s with
  | [] => .ok none
  | c :: r =>
    if isBasicChar c then .ok (some (s.takeWhile isBasicChar, s.dropWhile isBasicChar))
    else if c == '\\' then
      match escapedNewlines s.length s with
      | some r => .ok (some ([], r))
      | none => match escape r with
        | .error e => .error e
        | .ok (some (x, r)) => .ok (some ([x], r))
        | .ok none => .ok none
    else .ok ((newline? s).map (['\n'], ·))

/-- Pieces of a multi-line basic string body, as many as there are. -/
def multilineBasicPieces : Nat → List Char → List Char → Except SyntaxError (List Char × List Char)
  | 0, acc, s => .ok (acc, s)
  | fuel + 1, acc, s => do
    match ← multilineBasicPiece s with
    | some (cs, r) => multilineBasicPieces fuel (acc ++ cs) r
    | none => return (acc, s)

/-- One or two quote characters followed by text that `ahead` accepts. -/
def quotesBefore (q : Char) (ahead : List Char → Bool) (s : List Char) : Option (List Char × List Char) :=
  match s with
  | a :: b :: r => if a == q && b == q && ahead r then some ([q, q], r)
    else if a == q && ahead (b :: r) then some ([q], b :: r) else none
  | [a] => if a == q && ahead [] then some ([q], []) else none
  | [] => none

/-- The text starts with three quote characters. -/
def startsWithTriple (q : Char) : List Char → Bool
  | a :: b :: c :: _ => a == q && b == q && c == q
  | _ => false

/-- The text starts with a character other than the quote character. -/
def startsWithOther (q : Char) : List Char → Bool
  | c :: _ => c != q
  | [] => false

/-- The body of a multi-line basic string: pieces, with runs of one or two quotes between them,
and one or two quotes before the closing delimiter. -/
def multilineBasicBody : Nat → List Char → List Char → Except SyntaxError (List Char × List Char)
  | 0, acc, s => .ok (acc, s)
  | fuel + 1, acc, s =>
    match quotesBefore '"' (startsWithOther '"') s with
    | some (q, r) => do
      match ← multilineBasicPiece r with
      | some (cs, r) =>
        let (more, r) ← multilineBasicPieces r.length [] r
        multilineBasicBody fuel (acc ++ q ++ cs ++ more) r
      | none => return (acc, r)
    | none => return (acc, s)

/-- A multi-line basic string, after its opening delimiter. A line end right after the
delimiter is not part of the string. -/
def multilineBasicString (s : List Char) : Except SyntaxError (String × List Char) :=
  let read : Except SyntaxError (String × List Char) := do
    let s := (newline? s).getD s
    let (cs, r) ← multilineBasicPieces s.length [] s
    let (cs, r) ← multilineBasicBody r.length cs r
    let (cs, r) := match quotesBefore '"' (startsWithTriple '"') r with
      | some (q, r) => (cs ++ q, r)
      | none => (cs, r)
    match r with
    | '"' :: '"' :: '"' :: r => return (String.ofList cs, r)
    | _ => throw (.committedAt [])
  read.mapError (·.label "multiline basic string")

/-- One piece of a multi-line literal string: a character or a line end. -/
def multilineLiteralPiece : List Char → Option (List Char × List Char)
  | c :: r => if isLiteralChar c then some ([c], r) else (newline? (c :: r)).map (['\n'], ·)
  | [] => none

/-- Pieces of a multi-line literal string body, as many as there are. -/
def multilineLiteralPieces : Nat → List Char → List Char → List Char × List Char
  | 0, acc, s => (acc, s)
  | fuel + 1, acc, s =>
    match multilineLiteralPiece s with
    | some (cs, r) => multilineLiteralPieces fuel (acc ++ cs) r
    | none => (acc, s)

/-- The body of a multi-line literal string after its first pieces: runs of one or two
apostrophes, each followed by at least one piece. -/
def multilineLiteralBody : Nat → List Char → List Char → List Char × List Char
  | 0, acc, s => (acc, s)
  | fuel + 1, acc, s =>
    match quotesBefore '\'' (startsWithOther '\'') s with
    | some (q, r) =>
      match multilineLiteralPiece r with
      | some (cs, r) =>
        let (more, r) := multilineLiteralPieces r.length [] r
        multilineLiteralBody fuel (acc ++ q ++ cs ++ more) r
      | none => (acc, s)
    | none => (acc, s)

/-- A multi-line literal string, after its opening delimiter. -/
def multilineLiteralString (s : List Char) : Except SyntaxError (String × List Char) :=
  let s := (newline? s).getD s
  let (cs, r) := multilineLiteralPieces s.length [] s
  let (cs, r) := multilineLiteralBody r.length cs r
  let (cs, r) := match quotesBefore '\'' (startsWithTriple '\'') r with
    | some (q, r) => (cs ++ q, r)
    | none => (cs, r)
  match r with
  | '\'' :: '\'' :: '\'' :: r => .ok (String.ofList cs, r)
  | _ => .error (.committedAt [.label "multiline literal string"])

/-- A string of any of the four kinds, at its opening quote. -/
def string (s : List Char) : Except SyntaxError (String × List Char) :=
  match s with
  | '"' :: '"' :: '"' :: r => multilineBasicString r
  | '"' :: r => basicString r
  | '\'' :: '\'' :: '\'' :: r => multilineLiteralString r
  | '\'' :: r => literalString r
  | _ => .error {}

/-! ### Numbers -/

/-- Digits after a first one, each possibly after one underscore. -/
def digitRun (isD : Char → Bool) : Nat → List Char → List Char → Except SyntaxError (List Char × List Char)
  | 0, acc, s => .ok (acc, s)
  | fuel + 1, acc, s =>
    match s with
    | '_' :: d :: r => if isD d then digitRun isD fuel (acc ++ ['_', d]) r
      else .error (.committedAt [.expected "digit"])
    | ['_'] => .error (.committedAt [.expected "digit"])
    | c :: r => if isD c then digitRun isD fuel (acc ++ [c]) r else .ok (acc, s)
    | [] => .ok (acc, [])

/-- A sign, if there is one. -/
def sign (s : List Char) : List Char × List Char :=
  match s with
  | '+' :: r => (['+'], r)
  | '-' :: r => (['-'], r)
  | _ => ([], s)

/-- A decimal integer's text: a sign, then `0` or digits without a leading zero. -/
def decimalInteger (s : List Char) : Except SyntaxError (List Char × List Char) :=
  let (sg, s) := sign s
  let read : Except SyntaxError (List Char × List Char) := match s with
    | c :: r =>
      if '1' ≤ c && c ≤ '9' then
        (digitRun Char.isDigit r.length [] r).map fun (ds, r) => (sg ++ c :: ds, r)
      else if c == '0' then .ok (sg ++ ['0'], r)
      else .error {}
    | [] => .error {}
  read.mapError (·.label "integer")

/-- Digits that may start with zero, with underscores between them. -/
def zeroPrefixableInt (s : List Char) : Except SyntaxError (Option (List Char × List Char)) :=
  match s with
  | c :: r => if c.isDigit then do
      let (ds, r) ← digitRun Char.isDigit r.length [] r
      return some (c :: ds, r)
    else .ok none
  | [] => .ok none

/-- An exponent, after its `e`. -/
def exponentPart (s : List Char) : Except SyntaxError (List Char × List Char) := do
  let (sg, s) := sign s
  match ← zeroPrefixableInt s with
  | some (ds, r) => return (sg ++ ds, r)
  | none => throw (.committedAt [])

/-- A fraction, after its point. -/
def fractionPart (s : List Char) : Except SyntaxError (List Char × List Char) :=
  let read : Except SyntaxError (List Char × List Char) := match zeroPrefixableInt s with
    | .ok (some r) => .ok r
    | .ok none => .error (.committedAt [])
    | .error e => .error e
  read.mapError (·.expect "digit")

/-- An exponent after a fraction, if there is one. -/
def optionalExponent (s : List Char) : Except SyntaxError (List Char × List Char) :=
  match s with
  | e :: r => if e == 'e' || e == 'E' then (exponentPart r).map fun (ex, r) => ('e' :: ex, r)
    else .ok ([], s)
  | [] => .ok ([], [])

/-- The text of a float with a fraction or an exponent; none when it is an integer. -/
def floatText (s : List Char) : Except SyntaxError (Option (List Char × List Char)) :=
  match decimalInteger s with
  | .error e => if e.committed then .error e else .ok none
  | .ok (int, r) =>
    match r with
    | c :: r' =>
      if c == 'e' || c == 'E' then
        (exponentPart r').map fun (ex, r) => some (int ++ ['e'] ++ ex, r)
      else if c == '.' then
        (fractionPart r').bind fun (fr, r) =>
          (optionalExponent r).map fun (ex, r) => some (int ++ ['.'] ++ fr ++ ex, r)
      else .ok none
    | [] => .ok none

/-- A signed decimal number in text: its sign, its digits as one number, and the power of ten
of the last digit. -/
def decimalValue (text : List Char) : Bool × Nat × Int :=
  let text := text.filter (· != '_')
  let (sg, text) := sign text
  let mant := text.takeWhile (fun c => c != 'e')
  let ex := text.dropWhile (fun c => c != 'e')
  let ip := mant.takeWhile (· != '.')
  let fp := (mant.dropWhile (· != '.')).drop 1
  let exv : Int := match ex.drop 1 with
    | '-' :: ds => -(digitsValue 10 ds : Int)
    | '+' :: ds => digitsValue 10 ds
    | ds => digitsValue 10 ds
  (sg == ['-'], digitsValue 10 (ip ++ fp), exv - fp.length)

/-- `inf` or `nan`, with a sign. -/
def specialFloat (s : List Char) : Option (Binary64 × List Char) :=
  let (sg, s) := sign s
  let neg := sg == ['-']
  match s with
  | 'i' :: 'n' :: 'f' :: r => some (.infinite neg, r)
  | 'n' :: 'a' :: 'n' :: r => some (.nan, r)
  | _ => none

/-- A float; none when the text is no float. -/
def float (s : List Char) : Except SyntaxError (Option (Binary64 × List Char)) :=
  let read : Except SyntaxError (Option (Binary64 × List Char)) := match floatText s with
    | .error e => .error e
    | .ok (some (text, r)) =>
      let (neg, digits, exp) := decimalValue text
      let x := Binary64.ofDecimal neg digits exp
      if x.isPositiveInfinity then .error (.committedAt []) else .ok (some (x, r))
    | .ok none => .ok (specialFloat s)
  read.mapError (·.label "floating-point number")

/-- The largest integer of 64 signed bits. -/
def maxInteger : Int := Int.pow 2 63 - 1

/-- An integer in base 16, 8 or 2, after its prefix. -/
def radixInteger (base : Nat) (isD : Char → Bool) (name : String) (s : List Char) : Except SyntaxError (Int × List Char) := do
  let read : Except SyntaxError (List Char × List Char) := match s with
    | c :: r => if isD c then (digitRun isD r.length [] r).map fun (ds, r) => (c :: ds, r)
      else .error (.committedAt [])
    | [] => .error (.committedAt [])
  let (ds, r) ← read.mapError fun e => (e.label name).commit
  let v : Int := digitsValue base (ds.filter (· != '_'))
  if v > maxInteger then throw { cause := some "number too large to fit in target type", committed := true }
  return (v, r)

/-- An integer: hexadecimal, octal or binary after its prefix, else decimal. -/
def integer (s : List Char) : Except SyntaxError (Int × List Char) :=
  match s with
  | '0' :: 'x' :: r => radixInteger 16 isHexDigit "hexadecimal integer" r
  | '0' :: 'o' :: r => radixInteger 8 isOctDigit "octal integer" r
  | '0' :: 'b' :: r => radixInteger 2 isBinDigit "binary integer" r
  | _ => do
    let (text, r) ← decimalInteger s
    let (neg, digits, _) := decimalValue text
    let v : Int := if neg then -(digits : Int) else digits
    if v > maxInteger then throw { cause := some "number too large to fit in target type", committed := true }
    if v < -maxInteger - 1 then
      throw { cause := some "number too small to fit in target type", committed := true }
    return (v, r)

/-! ### Date-times -/

/-- Exactly `n` digits and their value. -/
def fixedDigits (n : Nat) (s : List Char) : Option (Nat × List Char) :=
  let ds := (s.take n).takeWhile Char.isDigit
  if ds.length == n then some (digitsValue 10 ds, s.drop n) else none

/-- A committed error for a field out of its range. -/
def outOfRange : SyntaxError := { cause := some "value is out of range", committed := true }

/-- Two digits within a range, once the text is known to be a date or time. -/
def field (lo hi : Nat) (s : List Char) : Except SyntaxError (Nat × List Char) :=
  match fixedDigits 2 s with
  | some (v, r) => if lo ≤ v && v ≤ hi then .ok (v, r) else .error outOfRange
  | none => .error (.committedAt [])

/-- A character, once the text is known to be a date or time. -/
def separator (c : Char) : List Char → Except SyntaxError (List Char)
  | d :: r => if d == c then .ok r else .error (.committedAt [])
  | [] => .error (.committedAt [])

/-- A time of day: hours, minutes and seconds, and a fraction of a second. None unless it
starts with an hour and a colon. -/
def partialTime (s : List Char) : Except SyntaxError (Option (List Char)) :=
  match fixedDigits 2 s with
  | some (h, ':' :: r) =>
    if h > 23 then .ok none
    else do
      let (_, r) ← field 0 59 r
      let r ← separator ':' r
      let (_, r) ← field 0 60 r
      match r with
      | '.' :: d :: r' => return some (if d.isDigit then r'.dropWhile Char.isDigit else r)
      | _ => return some r
  | _ => .ok none

/-- Hours and minutes of an offset. -/
def hoursMinutes (s : List Char) : Except SyntaxError (List Char) := do
  let (_, r) ← field 0 23 s
  let r ← separator ':' r
  let (_, r) ← field 0 59 r
  return r

/-- An offset from UTC: `Z`, or a sign, hours and minutes. -/
def timeOffset (s : List Char) : Except SyntaxError (List Char) :=
  let read : Except SyntaxError (List Char) := match s with
    | c :: r =>
      if c == 'Z' || c == 'z' then .ok r
      else if c == '+' || c == '-' then hoursMinutes r
      else .ok s
    | [] => .ok s
  read.mapError (·.label "time offset")

/-- The number of days of a month of a year of the Gregorian calendar. -/
def daysInMonth (year month : Nat) : Nat :=
  if month == 2 then
    if year % 4 == 0 && (year % 100 != 0 || year % 400 == 0) then 29 else 28
  else if month == 4 || month == 6 || month == 9 || month == 11 then 30
  else 31

/-- The month and day of a date of a year, and the time that may follow it. A day past the end
of its month is out of range. -/
def dateRest (year : Nat) (r : List Char) : Except SyntaxError (Option (List Char)) := do
  let (month, r) ← field 1 12 r
  let r ← separator '-' r
  let (day, r) ← field 1 31 r
  if day > daysInMonth year month then throw outOfRange
  match r with
  | c :: r' =>
    if c == 'T' || c == 't' || c == ' ' then
      match ← partialTime r' with
      | some r'' => some <$> timeOffset r''
      | none => return some r
    else return some r
  | [] => return some r

example : daysInMonth 2000 2 = 29 ∧ daysInMonth 1900 2 = 28 ∧ daysInMonth 2024 4 = 30 := by decide

/-- A date-time, a date, or a time; none when the text is none of them. -/
def dateTime (s : List Char) : Except SyntaxError (Option (List Char)) :=
  match fixedDigits 4 s with
  | some (year, '-' :: r) => (dateRest year r).mapError (·.label "date-time")
  | _ => (partialTime s).mapError (·.label "time")

end QuickFix.Toml
