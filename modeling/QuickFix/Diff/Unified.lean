import QuickFix.Diff.Ops

/-!
# Unified differences

A **unified difference** of two texts shows the lines that changed with up to three lines of
context around them. Lines end after each line feed, carriage return, or carriage return and line
feed. Changes closer than twice the context share one **hunk**; each hunk starts with
`@@ -a,b +c,d @@`, where a run of one line is written without its length and an empty run starts
at the line before it. A line without a line break at the end of a text is followed by the
marker `\ No newline at end of file`.
-/

namespace QuickFix.Diff

/-- The lines of a text, each with the line break that ends it. -/
def splitLines (s : String) : Array String :=
  let (lines, cur) := go s.toList [] []
  let lines := if cur.isEmpty then lines else String.ofList cur.reverse :: lines
  lines.reverse.toArray
where
  go : List Char → List String → List Char → List String × List Char
    | [], acc, cur => (acc, cur)
    | '\r' :: '\n' :: rest, acc, cur => go rest (String.ofList ('\n' :: '\r' :: cur).reverse :: acc) []
    | '\r' :: rest, acc, cur => go rest (String.ofList ('\r' :: cur).reverse :: acc) []
    | '\n' :: rest, acc, cur => go rest (String.ofList ('\n' :: cur).reverse :: acc) []
    | c :: rest, acc, cur => go rest acc (c :: cur)

/-- Splits the operations into hunks with `n` lines of context around each change. -/
def hunks (ops : List Op) (n : Nat) : List (List Op) :=
  if ops.isEmpty then []
  else
    let ops := match ops with
      | Op.equal o m l :: rest => let cut := l - n; Op.equal (o + cut) (m + cut) (l - cut) :: rest
      | _ => ops
    let ops := match ops.getLast? with
      | some (Op.equal o m l) => ops.dropLast ++ [Op.equal o m (l - (l - n))]
      | _ => ops
    let (done, pending) := ops.foldl (fun (done, pending) op =>
      match op with
      | Op.equal o m l =>
        if l > 2 * n then
          let cut := l - n
          (done ++ [pending ++ [Op.equal o m n]], [Op.equal (o + cut) (m + cut) (l - cut)])
        else (done, pending ++ [op])
      | _ => (done, pending ++ [op])) ([], [])
    match pending with
    | [] | [Op.equal ..] => done
    | _ => done ++ [pending]

/-- A run of lines as a hunk header writes it. -/
def rangeText (start stop : Nat) : String :=
  let len := stop - start
  if len == 1 then toString (start + 1)
  else if len == 0 then s!"{start},{len}"
  else s!"{start + 1},{len}"

/-- The lines an operation shows, each with its mark. -/
def opLines (old new : Array String) : Op → List (Char × String)
  | Op.equal o _ l => (List.range l).map fun i => (' ', old[o + i]!)
  | .delete o l _ => (List.range l).map fun i => ('-', old[o + i]!)
  | .insert _ n l => (List.range l).map fun i => ('+', new[n + i]!)
  | .replace o l n m =>
    (List.range l).map (fun i => ('-', old[o + i]!)) ++ (List.range m).map fun i => ('+', new[n + i]!)

/-- One hunk: its header and its lines. -/
def hunkText (old new : Array String) (h : List Op) : String :=
  match h.head?, h.getLast? with
  | some first, some last =>
    let header := s!"@@ -{rangeText first.oldRange.1 last.oldRange.2} +{rangeText first.newRange.1 last.newRange.2} @@\n"
    header ++ String.join ((h.flatMap (opLines old new)).map fun (mark, line) =>
      let ends := line.endsWith "\n" || line.endsWith "\r"
      String.singleton mark ++ line ++ (if ends then "" else "\n\\ No newline at end of file\n"))
  | _, _ => ""

/-- The unified difference of two texts under two file headers, or nothing if no line changed. -/
def unified (oldName newName : String) (a b : String) : String :=
  let old := splitLines a
  let new := splitLines b
  match hunks (diffLines old new) 3 with
  | [] => ""
  | hs => s!"--- {oldName}\n+++ {newName}\n" ++ String.join (hs.map (hunkText old new))

end QuickFix.Diff
