/-!
# Quoted text

How a report shows a text so that every character can be told: between double quotes, with a
backslash before quotes and backslashes, letters for the usual control characters, and numbers for
all other characters that have no mark of their own on paper.
-/

namespace Samo.Text

/--
Characters that show as nothing or as a blank: controls, separators other than the space, format
characters, private ones and those that are no characters.
-/
def isInvisible (c : Char) : Bool :=
  let n := c.toNat
  invisibleRanges.any fun (low, high) => low ≤ n && n ≤ high
where
  invisibleRanges : List (Nat × Nat) :=
    [(0x00, 0x1F), (0x7F, 0xA0), (0xAD, 0xAD), (0x600, 0x605), (0x61C, 0x61C), (0x6DD, 0x6DD),
      (0x70F, 0x70F), (0x8E2, 0x8E2), (0x1680, 0x1680), (0x180E, 0x180E), (0x2000, 0x200F),
      (0x2028, 0x202F), (0x205F, 0x206F), (0x3000, 0x3000), (0xE000, 0xF8FF), (0xFDD0, 0xFDEF),
      (0xFEFF, 0xFEFF), (0xFFF0, 0xFFFB), (0xFFFE, 0xFFFF), (0x110BD, 0x110BD),
      (0x1D173, 0x1D17A), (0xE0000, 0xE00FF), (0xF0000, 0x10FFFF)]

/-- A number in hexadecimal with at least `width` digits. -/
def hex (width n : Nat) : String :=
  let digits := Nat.toDigits 16 n
  String.ofList (List.replicate (width - digits.length) '0' ++ digits)

/-- One character between quotes. -/
def quoteChar (c : Char) : String :=
  match c with
  | '"' => "\\\""
  | '\\' => "\\\\"
  | '\x07' => "\\a"
  | '\x08' => "\\b"
  | '\x0c' => "\\f"
  | '\n' => "\\n"
  | '\r' => "\\r"
  | '\t' => "\\t"
  | '\x0b' => "\\v"
  | c =>
    if !isInvisible c then c.toString
    else if c.toNat < 0x80 then "\\x" ++ hex 2 c.toNat
    else if c.toNat < 0x10000 then "\\u" ++ hex 4 c.toNat
    else "\\U" ++ hex 8 c.toNat

/-- A text between quotes. -/
def quote (s : String) : String := "\"" ++ String.join (s.toList.map quoteChar) ++ "\""

end Samo.Text
