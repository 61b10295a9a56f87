/-!
# Blank characters

A character is **blank** when it has the Unicode `White_Space` property. That property lists
twenty-five code points in ten runs; `isBlank` tests them directly, so the class does not depend
on the ASCII-only `Char.isWhitespace` of core.

Main statement: every character that core calls white space is blank (`isBlank_of_isWhitespace`).
-/

namespace QuickFix.Text

/-- The runs of code points with the `White_Space` property, as inclusive bounds in increasing
order. -/
def blankRuns : List (Nat × Nat) :=
  [(0x09, 0x0D), (0x20, 0x20), (0x85, 0x85), (0xA0, 0xA0), (0x1680, 0x1680),
   (0x2000, 0x200A), (0x2028, 0x2029), (0x202F, 0x202F), (0x205F, 0x205F), (0x3000, 0x3000)]

/-- A character is blank when its code point lies in one of the `blankRuns`. -/
def isBlank (c : Char) : Bool :=
  blankRuns.any fun r => r.1 ≤ c.toNat && c.toNat ≤ r.2

theorem isBlank_of_isWhitespace (c : Char) (h : c.isWhitespace = true) : isBlank c = true := by
  simp only [Char.isWhitespace, Bool.or_eq_true, decide_eq_true_eq] at h
  rcases h with ((h | h) | h) | h <;>
    simp [isBlank, blankRuns, h, Char.toNat]

example : (blankRuns.map fun r => r.2 + 1 - r.1).sum = 25 := by decide

end QuickFix.Text
