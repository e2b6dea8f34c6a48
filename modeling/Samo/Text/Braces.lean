import Samo.Text.Utf8

/-!
# Open braces

Counts braces in a text that may not be finished, to tell whether more of it is to come. Braces in
strings and comments do not count. A string goes on to its closing quote, over the end of the line.
-/

namespace Samo.Text

/-- Where a byte stands: in code, in a string, after a backslash there, or in a comment. -/
inductive Place where
  | code
  | string
  | escape
  | comment
deriving DecidableEq, Repr

namespace Place

/-- The place after a byte, of which `next` is the one that follows. -/
def after (p : Place) (b : UInt8) (next : Option UInt8) : Place :=
  match p with
  | code =>
    if b = '"'.toUInt8 then string
    else if b = '/'.toUInt8 && next = some '/'.toUInt8 then comment
    else code
  | string =>
    if b = '\\'.toUInt8 then escape
    else if b = '"'.toUInt8 then code
    else string
  | escape => string
  | comment => if b = '\n'.toUInt8 then code else comment

/-- What a byte at the place adds to the count. -/
def weight (p : Place) (b : UInt8) : Int :=
  if p = code then
    if b = 0x7B then 1 else if b = 0x7D then -1 else 0
  else 0

end Place

/-- The count of some bytes, of which the first stands at the place. -/
def openBracesFrom : Place → Bytes → Int
  | _, [] => 0
  | p, b :: rest => p.weight b + openBracesFrom (p.after b rest.head?) rest

/-- How many more braces a text opens than it closes. -/
def openBraces (bs : Bytes) : Int := openBracesFrom .code bs

end Samo.Text
