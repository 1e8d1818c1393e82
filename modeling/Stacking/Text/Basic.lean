/-!
# Texts

A text is the list of its code points, and every length, column and offset counts code points.
This module holds the character classes that need no table and the trimming of blanks.
-/

namespace Stacking

/-- A text, as the list of its code points. -/
abbrev Text := List Char

/-! ## Character classes -/

/-- Whether a code point lies in one of the closed intervals. -/
def inIntervals (intervals : List (Nat × Nat)) (c : Char) : Bool :=
  intervals.any fun (low, high) => low ≤ c.toNat && c.toNat ≤ high

/-- The blank characters, as closed intervals of code points in ascending order. -/
def blankIntervals : List (Nat × Nat) :=
  [(0x9, 0xD), (0x1C, 0x20), (0x85, 0x85), (0xA0, 0xA0), (0x1680, 0x1680), (0x2000, 0x200A),
   (0x2028, 0x2029), (0x202F, 0x202F), (0x205F, 0x205F), (0x3000, 0x3000)]

/-- A blank character: a control that separates lines or fields, or a space of any script. -/
def isBlank (c : Char) : Bool := inIntervals blankIntervals c

namespace Text

/-! ## Trimming -/

/-- The text without the characters at its end that satisfy `p`. -/
def dropEndWhile (p : Char → Bool) (t : Text) : Text := (t.reverse.dropWhile p).reverse

/-- The text without the blanks at its start. -/
def trimStart (t : Text) : Text := t.dropWhile isBlank

/-- The text without the blanks at its end. -/
def trimEnd (t : Text) : Text := t.dropEndWhile isBlank

/-- The text without the blanks at either side. -/
def trim (t : Text) : Text := t.trimStart.trimEnd

/-- Whether the text holds blanks only. -/
def isAllBlank (t : Text) : Bool := t.all isBlank

/-! ## Splitting -/

/-- The part before the first `c` and the part after it, or `none` where `c` does not occur. -/
def cut? (c : Char) : Text → Option (Text × Text)
  | [] => none
  | d :: rest =>
    if d = c then some ([], rest)
    else (cut? c rest).map fun (before, after) => (d :: before, after)

/-- The parts of the text between the occurrences of `c`, one more than there are occurrences. -/
def splitOn (c : Char) : Text → List Text
  | [] => [[]]
  | d :: rest =>
    if d = c then [] :: splitOn c rest
    else
      match splitOn c rest with
      | [] => [[d]]
      | part :: parts => (d :: part) :: parts

theorem splitOn_ne_nil (c : Char) (t : Text) : splitOn c t ≠ [] := by
  cases t with
  | nil => simp [splitOn]
  | cons d rest =>
    rw [splitOn]
    split
    · simp
    · split <;> simp

end Text
end Stacking
