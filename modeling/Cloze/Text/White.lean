/-!
# White space

The characters with the Unicode property `White_Space`, and the two questions that rendering
asks about them: what is left of a text without the white space at its end, and whether a text
holds anything else at all.
-/

namespace Cloze.Text

/-- The characters with the Unicode property `White_Space`. -/
def isWhite (c : Char) : Bool :=
  let n := c.toNat
  (9 ≤ n && n ≤ 13) || n == 0x20 || n == 0x85 || n == 0xA0 || n == 0x1680
    || (0x2000 ≤ n && n ≤ 0x200A) || n == 0x2028 || n == 0x2029 || n == 0x202F || n == 0x205F
    || n == 0x3000

/-- The text without the white space at its end. -/
def trimEnd (cs : List Char) : List Char :=
  (cs.reverse.dropWhile isWhite).reverse

/-- Every character is white space; in particular this holds of the empty text. -/
def allWhite (cs : List Char) : Bool :=
  cs.all isWhite

theorem trimEnd_concat_of_isWhite {c : Char} (h : isWhite c) (cs : List Char) :
    trimEnd (cs ++ [c]) = trimEnd cs := by
  simp [trimEnd, h]

theorem trimEnd_concat_of_not_isWhite {c : Char} (h : isWhite c = false) (cs : List Char) :
    trimEnd (cs ++ [c]) = cs ++ [c] := by
  simp [trimEnd, h]

end Cloze.Text
