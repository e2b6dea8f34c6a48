import Samo.Token

/-!
# From characters to tokens

`tokensFrom` cuts a text into tokens, skipping spaces. Each token is found by `scan`, which looks at
the first character and says how much of the rest belongs to it. Nothing is lost: a scan's tail and
rest are the characters it was given (`scan_append`). A token never contains a line feed
and bad text becomes an invalid token, so lexing never fails.
-/

namespace Samo

/-- Characters between tokens. -/
def isSpace (c : Char) : Bool := c == ' ' || c == '\t' || c == '\n' || c == '\r'

/-- Characters that may start a word. -/
def isLetter (c : Char) : Bool :=
  c == '_' || ('a' ≤ c && c ≤ 'z') || ('A' ≤ c && c ≤ 'Z')

def isDigit (c : Char) : Bool := '0' ≤ c && c ≤ '9'

/-- Characters that may continue a word. -/
def isWordChar (c : Char) : Bool := isLetter c || isDigit c

/-- Characters that may follow a backslash in a string literal. -/
def isEscape (c : Char) : Bool := c == 'n' || c == 't' || c == '"' || c == '\\'

/-- One token's worth of text after its first character, and the text that follows it. -/
structure Scan where
  kind : Kind
  tail : List Char
  rest : List Char

namespace Scan

/-- Takes characters as long as they belong to the token. -/
def span (kind : Kind) (p : Char → Bool) (cs : List Char) : Scan :=
  ⟨kind, cs.takeWhile p, cs.dropWhile p⟩

/-- One more character at the front of the tail. -/
def push (c : Char) (s : Scan) : Scan := { s with tail := c :: s.tail }

/-- The rest of a string literal after its opening quote, up to and with the closing one. -/
def string : List Char → Scan
  | [] => ⟨.invalid .unterminated, [], []⟩
  | [c] =>
    if c = '"' then ⟨.stringLiteral, [c], []⟩
    else if c = '\\' then ⟨.invalid .badEscape, [c], []⟩
    else if c = '\n' then ⟨.invalid .unterminated, [], [c]⟩
    else ⟨.invalid .unterminated, [c], []⟩
  | c :: d :: cs =>
    if c = '"' then ⟨.stringLiteral, [c], d :: cs⟩
    else if c = '\\' then
      if isEscape d then ((string cs).push d).push c
      else ⟨.invalid .badEscape, [c], d :: cs⟩
    else if c = '\n' then ⟨.invalid .unterminated, [], c :: d :: cs⟩
    else (string (d :: cs)).push c

/-- A word is reserved or names something. -/
def word (c : Char) (cs : List Char) : Scan :=
  let text := String.ofList (c :: cs.takeWhile isWordChar)
  span ((Keyword.ofText? text).elim .identifier .keyword) isWordChar cs

/-- Signs of one character that never join with the next one. -/
def single? : Char → Option Punct
  | '(' => some .leftParen
  | ')' => some .rightParen
  | '{' => some .leftBrace
  | '}' => some .rightBrace
  | ',' => some .comma
  | ';' => some .semicolon
  | '+' => some .plus
  | '-' => some .minus
  | '*' => some .star
  | '/' => some .slash
  | '%' => some .percent
  | _ => none

/-- Signs that an equals sign may follow: the sign with it and, where there is one, without it. -/
def paired? : Char → Option (Punct × Option Punct)
  | '<' => some (.lessEq, some .less)
  | '>' => some (.greaterEq, some .greater)
  | '=' => some (.equal, some .assign)
  | '!' => some (.notEqual, none)
  | _ => none

/-- The kind of a character that stands for itself, or is none of the language. -/
def lone (c : Char) (sign : Option Punct) : Kind := sign.elim (.invalid (.unrecognised c)) .punct

/-- A sign, or a character that is none. -/
def sign (c : Char) (cs : List Char) : Scan :=
  match paired? c with
  | none => ⟨lone c (single? c), [], cs⟩
  | some (joined, alone) =>
    match cs with
    | '=' :: rest => ⟨.punct joined, ['='], rest⟩
    | _ => ⟨lone c alone, [], cs⟩

end Scan

/-- The token that starts with `c`, which is no space. -/
def scan (c : Char) (cs : List Char) : Scan :=
  if isLetter c then .word c cs
  else if isDigit c then .span .intLiteral isDigit cs
  else if c == '"' then .string cs
  else if c == '/' && cs.head? == some '/' then .span .comment (· != '\n') cs
  else .sign c cs

namespace Scan

theorem span_append (kind : Kind) (p : Char → Bool) (cs : List Char) :
    (span kind p cs).tail ++ (span kind p cs).rest = cs :=
  List.takeWhile_append_dropWhile

theorem string_append (cs : List Char) : (string cs).tail ++ (string cs).rest = cs := by
  fun_induction string cs <;> simp_all [push]

theorem sign_append (c : Char) (cs : List Char) : (sign c cs).tail ++ (sign c cs).rest = cs := by
  unfold sign
  split
  · simp
  · split <;> simp

end Scan

/-- A scan splits the characters it was given. -/
theorem scan_append (c : Char) (cs : List Char) : (scan c cs).tail ++ (scan c cs).rest = cs := by
  unfold scan
  split
  · exact Scan.span_append ..
  split
  · exact Scan.span_append ..
  split
  · exact Scan.string_append cs
  split
  · exact Scan.span_append ..
  · exact Scan.sign_append c cs

theorem length_scan_rest (c : Char) (cs : List Char) : (scan c cs).rest.length ≤ cs.length := by
  have := congrArg List.length (scan_append c cs)
  simp at this
  omega

/-- The tokens of a text that starts at a mark, without the one that ends it. -/
def tokensFrom (m : Mark) : List Char → List Token
  | [] => []
  | c :: cs =>
    if isSpace c then tokensFrom (m.step c) cs
    else
      let s := scan c cs
      ⟨⟨s.kind, String.ofList (c :: s.tail)⟩, m⟩ :: tokensFrom (m.advance (c :: s.tail)) s.rest
termination_by cs => cs.length
decreasing_by
  · simp
  · have := length_scan_rest c cs; simp; omega

/-- Every token is a scan that starts at no space. -/
theorem exists_scan_of_mem_tokensFrom {m : Mark} {cs : List Char} {t : Token}
    (member : t ∈ tokensFrom m cs) : ∃ c cs', isSpace c = false ∧
      t.toLexeme = ⟨(scan c cs').kind, String.ofList (c :: (scan c cs').tail)⟩ := by
  fun_induction tokensFrom m cs with
  | case1 m => cases member
  | case2 m c cs space ih => exact ih member
  | case3 m c cs space s ih =>
      rcases List.mem_cons.mp member with rfl | member
      · exact ⟨c, cs, Bool.eq_false_iff.mpr space, rfl⟩
      · exact ih member

/-- The token that ends a text: it stands after the last character. -/
def endToken (cs : List Char) : Token := .endOfFile (Mark.start.advance cs)

/-- Every token of a text, comments and the end included. -/
def lex (cs : List Char) : List Token := tokensFrom .start cs ++ [endToken cs]

end Samo
