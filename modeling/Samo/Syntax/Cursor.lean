import Samo.Syntax.Fault
import Samo.Token.Lexer

/-!
# Reading tokens one by one

A `Cursor` stands before the rest of a list of tokens. The token in front of it has been looked at:
if it is invalid, its flaw has been reported. A `Parser` moves the cursor and either gives a result
or fails with a syntax error; the cursor then stays where the failure was noticed.
-/

namespace Samo

/-- The tokens that are left, the token after all of them, and the errors reported so far. -/
structure Cursor where
  rest : List Token
  eof : Token
  errors : List SyntaxError
deriving Repr

namespace Cursor

/-- The token in front. -/
def front (c : Cursor) : Token := c.rest.headD c.eof

/-- The token after the one in front. -/
def second (c : Cursor) : Token := c.rest.tail.headD c.eof

def report (c : Cursor) (e : SyntaxError) : Cursor := { c with errors := c.errors ++ [e] }

/-- Looks at the token in front: its flaw, if it has one, is reported. -/
def look (c : Cursor) : Cursor :=
  match c.front.flaw? with
  | some flaw => c.report ⟨c.front.pos, .flaw flaw⟩
  | none => c

/-- The cursor behind the front token. It never moves behind the last one. -/
def next (c : Cursor) : Cursor :=
  match c.rest with
  | [] => c
  | _ :: rest => { c with rest }.look

/-- A cursor before the tokens of a text; comments are left out. -/
def ofText (cs : List Char) : Cursor :=
  let rest := (tokensFrom .start cs).filter (!·.kind.isHidden)
  Cursor.look ⟨rest, endToken cs, []⟩

/--
Skips to where a statement may start after an error: behind a semicolon, or at a closing brace,
which is skipped too outside of all blocks. In a block it can stay in any case: no statement of a
block starts at a closing brace (`Parser.block` ends there), so something was read before it. `n`
bounds the number of tokens skipped.
-/
def skip (topLevel : Bool) : Nat → Cursor → Cursor
  | 0, c => c
  | n + 1, c =>
    match c.front.kind with
    | .endOfFile => c
    | .punct .semicolon => c.next
    | .punct .rightBrace => if topLevel then c.next else c
    | _ => skip topLevel n c.next

@[simp] theorem rest_look (c : Cursor) : c.look.rest = c.rest := by
  unfold look
  split <;> simp [report]

@[simp] theorem eof_look (c : Cursor) : c.look.eof = c.eof := by
  unfold look
  split <;> simp [report]

theorem rest_next (c : Cursor) : c.next.rest = c.rest.tail := by
  unfold next
  split <;> simp_all

@[simp] theorem eof_next (c : Cursor) : c.next.eof = c.eof := by
  unfold next
  split <;> simp

end Cursor

/-- Something that reads tokens from a cursor. -/
abbrev Parser := EStateM SyntaxError Cursor

namespace Parser

/-- The token in front. -/
def peek : Parser Token := return (← get).front

def peekKind : Parser Kind := return (← get).front.kind

/-- How many tokens are left. -/
def remaining : Parser Nat := return (← get).rest.length

/-- Takes the token in front. -/
def advance : Parser Token := modifyGet fun c => (c.front, c.next)

/-- Fails at a token. -/
def fail {α : Type} (t : Token) (fault : Fault) : Parser α := throw ⟨t.pos, fault⟩

/-- Takes the token in front if it has the kind. -/
def accept (kind : Kind) : Parser (Option Token) := do
  if (← peekKind) = kind then return some (← advance)
  else return none

/-- Takes the token in front, which must have the kind. -/
def expect (kind : Kind) : Parser Token := do
  let t ← peek
  if t.kind = kind then advance
  else fail t (.expected kind t.toLexeme)

def sign (p : Punct) : Parser Token := expect (.punct p)

/-- The items of a list behind the first one; `n` bounds their number. -/
def moreItems {α : Type} (item : Parser α) : Nat → Parser (List α)
  | 0 => return []
  | n + 1 => do
    match ← accept (.punct .comma) with
    | none => return []
    | some _ =>
      let a ← item
      let as ← moreItems item n
      return a :: as

/-- Items between parentheses with commas between them. There may be none. -/
def itemList {α : Type} (item : Parser α) : Parser (List α) := do
  let _ ← sign .leftParen
  if (← peekKind) = .punct .rightParen then
    let _ ← sign .rightParen
    return []
  else
    let a ← item
    let as ← moreItems item (← remaining)
    let _ ← sign .rightParen
    return a :: as

/-- Reads items as long as `stop` does not hold of the token in front; `n` bounds their number. -/
def itemsUntil {α : Type} (stop : Kind → Bool) (item : Parser α) : Nat → Parser (List α)
  | 0 => return []
  | n + 1 => do
    if stop (← peekKind) then return []
    else
      let a ← item
      let as ← itemsUntil stop item n
      return a :: as

end Parser

end Samo
