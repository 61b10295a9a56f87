/-!
# Byte offsets into text

Every offset in this library counts bytes of the UTF-8 encoding. Text is handled as a list of
characters; `byteSize` measures a list, and `splitBytes` cuts it after the longest prefix that
fits in a number of bytes. An offset is a **boundary** of a text when some prefix measures exactly
that many bytes.

Main statements: the two parts of a cut put back together give the text (`splitBytes_append`),
and the prefix never measures more than asked (`byteSize_splitBytes_le`).
-/

namespace QuickFix.Text

/-- The number of bytes in the UTF-8 encoding of a list of characters. -/
def byteSize : List Char → Nat
  | [] => 0
  | c :: cs => c.utf8Size + byteSize cs

@[simp] theorem byteSize_nil : byteSize [] = 0 := rfl

@[simp] theorem byteSize_cons (c : Char) (cs : List Char) :
    byteSize (c :: cs) = c.utf8Size + byteSize cs := rfl

@[simp] theorem byteSize_append (a b : List Char) : byteSize (a ++ b) = byteSize a + byteSize b := by
  induction a with
  | nil => simp
  | cons c a ih => simp [ih, Nat.add_assoc]

/-- Cuts a list after the longest prefix whose encoding fits in `n` bytes. -/
def splitBytes : List Char → Nat → List Char × List Char
  | [], _ => ([], [])
  | c :: cs, n =>
    if c.utf8Size ≤ n then
      let r := splitBytes cs (n - c.utf8Size)
      (c :: r.1, r.2)
    else ([], c :: cs)

theorem splitBytes_append (cs : List Char) (n : Nat) :
    (splitBytes cs n).1 ++ (splitBytes cs n).2 = cs := by
  induction cs generalizing n with
  | nil => rfl
  | cons c cs ih =>
    unfold splitBytes
    split
    · simp [ih]
    · rfl

theorem byteSize_splitBytes_le (cs : List Char) (n : Nat) : byteSize (splitBytes cs n).1 ≤ n := by
  induction cs generalizing n with
  | nil => simp [splitBytes]
  | cons c cs ih =>
    unfold splitBytes
    split
    · have := ih (n - c.utf8Size)
      simp only [byteSize_cons]
      omega
    · simp

/-- The characters whose encoding lies in the first `n` bytes. -/
def takeBytes (cs : List Char) (n : Nat) : List Char := (splitBytes cs n).1

/-- The characters after the first `n` bytes. -/
def dropBytes (cs : List Char) (n : Nat) : List Char := (splitBytes cs n).2

/-- An offset is a boundary when it falls between two characters or at either end. -/
def isBoundary (cs : List Char) (n : Nat) : Bool := byteSize (takeBytes cs n) == n

/-- The characters between the byte offsets `a` and `b`. -/
def sliceBytes (cs : List Char) (a b : Nat) : List Char := takeBytes (dropBytes cs a) (b - a)

/-- The text between the byte offsets `a` and `b`. -/
def slice (s : String) (a b : Nat) : String := String.ofList (sliceBytes s.toList a b)

/-- The byte offset of the first character satisfying `p`. -/
def findByte (p : Char → Bool) : List Char → Option Nat
  | [] => none
  | c :: cs => if p c then some 0 else (findByte p cs).map (c.utf8Size + ·)

/-- The offset of the last character satisfying `p`. -/
def rfindByte (p : Char → Bool) (cs : List Char) : Option Nat :=
  go 0 none cs
where
  go (pos : Nat) (found : Option Nat) : List Char → Option Nat
    | [] => found
    | c :: cs => go (pos + c.utf8Size) (if p c then some pos else found) cs

end QuickFix.Text
