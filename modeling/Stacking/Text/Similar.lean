import Stacking.Text.Basic

/-!
# Similar words

How alike two words are, which tells the names that a mistyped one may have been meant for. The
longest block that the words have in common is matched first, then what stands before it in both
words and what stands after it in both, in the same way. The similarity of two words is twice the
number of characters matched over the number of all their characters.
-/

namespace Stacking
namespace Text

/-! ## Blocks -/

/-- The length of the longest common start of two texts. -/
def commonLength : Text → Text → Nat
  | c :: s, d :: t => if c = d then commonLength s t + 1 else 0
  | _, _ => 0

/-- A block that two texts have in common: where it starts in each, and its size. -/
structure Block where
  left : Nat := 0
  right : Nat := 0
  size : Nat := 0
deriving DecidableEq, Repr

/-- The longest of `best` and the blocks that start at the place `left` of the first text, where `s`
stands, and at the place `right` of the second or after it, where `t` stands. -/
def longestAt (s : Text) (left : Nat) : Text → Nat → Block → Block
  | [], _, best => best
  | d :: t, right, best =>
    let size := commonLength s (d :: t)
    longestAt s left t (right + 1) (if best.size < size then ⟨left, right, size⟩ else best)

/-- The longest of `best` and the blocks that start at the place `left` of the first text or after
it, where `s` stands. -/
def longestFrom (t : Text) : Text → Nat → Block → Block
  | [], _, best => best
  | c :: s, left, best => longestFrom t s (left + 1) (longestAt (c :: s) left t 0 best)

/-- The longest block that two texts have in common; of several the first in the first text, and of
those the first in the second. -/
def longestBlock (s t : Text) : Block := longestFrom t s 0 {}

/-! ## Similarity -/

/-- The number of characters matched, if `fuel` is not less than the length of the first text: both
parts that are left of it are shorter. -/
def matchedWith : Nat → Text → Text → Nat
  | 0, _, _ => 0
  | fuel + 1, s, t =>
    let b := longestBlock s t
    if b.size = 0 then 0
    else
      matchedWith fuel (s.take b.left) (t.take b.right) + b.size +
        matchedWith fuel (s.drop (b.left + b.size)) (t.drop (b.right + b.size))

/-- The number of characters matched in each of two texts. -/
def matched (s t : Text) : Nat := matchedWith s.length s t

/-- Whether the similarity of two texts is at least three fifths. -/
def isSimilar (s t : Text) : Bool := 3 * (s.length + t.length) ≤ 10 * matched s t

end Text

/-! ## Suggestions -/

/-- Whether `r` is not less similar to `word` than `s` is; of two that are as similar as each other
the one that comes later in the alphabet goes first. -/
def isNearer (word r s : String) : Bool :=
  let near := Text.matched r.toList word.toList * (s.length + word.length)
  let far := Text.matched s.toList word.toList * (r.length + word.length)
  far < near || (far == near && !(r < s))

/-- The most names that are suggested. -/
def maxSuggestions : Nat := 3

/-- The names that a word may have been meant for: the most similar ones, in alphabetical order. -/
def suggestions (names : List String) (word : String) : List String :=
  let similar := names.filter fun name => Text.isSimilar name.toList word.toList
  ((similar.mergeSort (isNearer word)).take maxSuggestions).mergeSort fun r s => !(s < r)

end Stacking
