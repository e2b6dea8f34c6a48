/-!
# String literals

A string literal is written between double quotes. Four characters have an escape: a backslash and
a letter for the line feed and the tab, a backslash before itself and before a quote. All others
stand for themselves, but a line feed never does. `read?` gives the characters of a literal and
`write` the literal for some characters.
-/

namespace Samo.Literal

/-- The character that an escape letter stands for. -/
def unescape? : Char → Option Char
  | 'n' => some '\n'
  | 't' => some '\t'
  | '"' => some '"'
  | '\\' => some '\\'
  | _ => none

/-- The escape letter for a character that cannot stand for itself, or is better not to. -/
def escape? : Char → Option Char
  | '\n' => some 'n'
  | '\t' => some 't'
  | '"' => some '"'
  | '\\' => some '\\'
  | _ => none

/-- Reads up to the closing quote, which must be the last character. -/
def readBody? : List Char → Option (List Char)
  | [] => none
  | [c] => if c = '"' then some [] else none
  | c :: d :: cs =>
    if c = '\\' then do
      let e ← unescape? d
      let body ← readBody? cs
      some (e :: body)
    else if c = '"' || c = '\n' then none
    else (readBody? (d :: cs)).map (c :: ·)

/-- The characters of a literal. -/
def read? : List Char → Option (List Char)
  | '"' :: cs => readBody? cs
  | _ => none

/-- The characters of a literal, or the text itself if it is none. -/
def value (text : String) : String :=
  match read? text.toList with
  | some cs => String.ofList cs
  | none => text

/-- Characters between quotes. -/
def writeBody : List Char → List Char
  | [] => ['"']
  | c :: cs =>
    match escape? c with
    | some e => '\\' :: e :: writeBody cs
    | none => c :: writeBody cs

/-- The literal for some characters. -/
def write (cs : List Char) : List Char := '"' :: writeBody cs

/-- The number that decimal digits stand for. -/
def natOfDigits (digits : List Char) : Nat :=
  digits.foldl (fun n c => n * 10 + (c.toNat - '0'.toNat)) 0

def maxInt : Nat := 2147483647

/-- The integer that digits stand for, if it is not too large. -/
def int? (text : String) : Option Int32 :=
  let n := natOfDigits text.toList
  if n ≤ maxInt then some (Int32.ofNat n) else none

end Samo.Literal
