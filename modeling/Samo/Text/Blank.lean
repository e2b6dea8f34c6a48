/-!
# Blank characters

The characters that Unicode counts as white space, and texts without the blanks around them.
-/

namespace Samo.Text

/-- Whether a character is white space. -/
def isBlank (c : Char) : Bool :=
  let n := c.toNat
  blankRanges.any fun (low, high) => low ≤ n && n ≤ high
where
  blankRanges : List (Nat × Nat) :=
    [(0x09, 0x0D), (0x20, 0x20), (0x85, 0x85), (0xA0, 0xA0), (0x1680, 0x1680), (0x2000, 0x200A),
      (0x2028, 0x2029), (0x202F, 0x202F), (0x205F, 0x205F), (0x3000, 0x3000)]

/-- Without the blanks at its end. -/
def trimEnd (cs : List Char) : List Char := (cs.reverse.dropWhile isBlank).reverse

/-- Without the blanks at its start and its end. -/
def trim (cs : List Char) : List Char := trimEnd (cs.dropWhile isBlank)

end Samo.Text
