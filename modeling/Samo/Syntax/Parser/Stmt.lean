import Samo.Syntax.Parser.Expr

/-!
# Reading statements

A parser for each form of statement. They take the parser of `nested` statements: those in a block,
where a statement that cannot be read is reported and replaced (`recovering`), and the ones after
`maybe`, where it is not. `statement n` reads statements that are nested less than `n` deep.
-/

namespace Samo.Parser

/-- The type that a word names. -/
def typeName? : Kind → Option TypeName
  | .keyword .intWord => some (.value .int)
  | .keyword .stringWord => some (.value .string)
  | .keyword .boolieWord => some (.value .boolie)
  | .keyword .voidWord => some .void
  | _ => none

/--
Reads a statement. If it fails, the error is reported, tokens are skipped to where another statement
may start, and a bad statement takes its place.
-/
def recovering (topLevel : Bool) (p : Parser Stmt) : Parser Stmt := fun c =>
  match p c with
  | .ok s c => .ok s c
  | .error e c => .ok (.bad e.pos e.fault) ((c.report e).skip topLevel c.rest.length)

/-- Statements between braces. -/
def block (nested : Parser Stmt) : Parser Block := do
  let opening ← sign .leftBrace
  let stmts ← itemsUntil (fun k => k = .punct .rightBrace || k = .endOfFile)
    (recovering false nested) (← remaining)
  let closing ← sign .rightBrace
  return .mk opening.pos closing.pos stmts

/-- A declaration with a type, with or without an initial value. -/
def declaration (type : TypeName) : Parser Stmt := do
  let word ← advance
  let name ← expect .identifier
  let init ← match ← accept (.punct .assign) with
    | some _ => some <$> expr
    | none => pure none
  let _ ← sign .semicolon
  return .declare word.pos type name.pos name.text init

/-- A declaration whose type follows from the initial value. -/
def inference : Parser Stmt := do
  let word ← advance
  let name ← expect .identifier
  let _ ← sign .assign
  let init ← expr
  let _ ← sign .semicolon
  return .infer word.pos name.pos name.text init

def assignment : Parser Stmt := do
  let name ← advance
  let _ ← sign .assign
  let value ← expr
  let _ ← sign .semicolon
  return .assign name.pos name.text value

/-- A call for its effect. -/
def callStatement : Parser Stmt := do
  let (p, name, args) ← call
  let _ ← sign .semicolon
  return .call p name args

/-- A parameter: a type and a name. -/
def parameter : Parser Param := do
  let word ← peek
  match typeName? word.kind with
  | none => fail word (.expectedParameter word.toLexeme)
  | some type =>
    let _ ← advance
    let name ← expect .identifier
    return ⟨word.pos, type, name.pos, name.text⟩

/-- The result type of a function, if one is written. -/
def resultType : Parser (Option (Pos × TypeName)) := do
  let word ← peek
  match typeName? word.kind with
  | none => return none
  | some type =>
    let _ ← advance
    return some (word.pos, type)

def definition (nested : Parser Stmt) : Parser Stmt := do
  let word ← advance
  let name ← expect .identifier
  let params ← itemList parameter
  let returns ← resultType
  let body ← block nested
  return .define word.pos ⟨name.pos, name.text, params, returns⟩ body

/-- An expression between parentheses. -/
def condition : Parser Expr := do
  let _ ← sign .leftParen
  let e ← expr
  let _ ← sign .rightParen
  return e

/-- What follows an arm of an if statement; `n` bounds the number of arms. -/
def branches (nested : Parser Stmt) : Nat → Parser Branches
  | 0 => return .done
  | n + 1 => do
    match ← accept (.keyword .elseWord) with
    | none => return .done
    | some elseWord =>
      match ← accept (.keyword .ifWord) with
      | none => return .otherwise elseWord.pos (← block nested)
      | some ifWord =>
        let cond ← condition
        let body ← block nested
        return .elseIf ifWord.pos cond body (← branches nested n)

/-- An if statement. -/
def branching (nested : Parser Stmt) : Parser Stmt := do
  let word ← advance
  let cond ← condition
  let body ← block nested
  let rest ← branches nested (← remaining)
  return .branch word.pos cond body rest

/-- A while statement. -/
def looping (nested : Parser Stmt) : Parser Stmt := do
  let word ← advance
  let cond ← condition
  let body ← block nested
  return .loop word.pos cond body

/-- A return, with or without a value. -/
def returning : Parser Stmt := do
  let word ← advance
  let value ← if (← peekKind) = .punct .semicolon then pure none else some <$> expr
  let _ ← sign .semicolon
  return .returnWith word.pos value

/-- A request for another file. -/
def request : Parser Stmt := do
  let word ← advance
  let path ← expect .stringLiteral
  let _ ← sign .semicolon
  return .needs word.pos path.text (Literal.value path.text)

/-- A statement run by chance, with or without an alternative. -/
def uncertainty (nested : Parser Stmt) : Parser Stmt := do
  let word ← advance
  let probability ← condition
  let body ← nested
  match ← accept (.keyword .otherwiseWord) with
  | none => return .maybe word.pos probability body
  | some otherwiseWord =>
    let alternative ← nested
    return .maybeOtherwise word.pos probability body otherwiseWord.pos alternative

/-- A statement, by the word it starts with. -/
def statementWith (nested : Parser Stmt) : Parser Stmt := do
  let t ← peek
  match typeName? t.kind with
  | some type => declaration type
  | none =>
    match t.kind with
    | .keyword .letWord => inference
    | .identifier =>
      if (← get).second.kind = .punct .leftParen then callStatement else assignment
    | .keyword .fnWord => definition nested
    | .keyword .ifWord => branching nested
    | .keyword .whileWord => looping nested
    | .keyword .breakWord => do
      let _ ← advance
      let _ ← sign .semicolon
      return .breakOut t.pos
    | .keyword .continueWord => do
      let _ ← advance
      let _ ← sign .semicolon
      return .continueOn t.pos
    | .keyword .returnWord => returning
    | .keyword .needsWord => request
    | .keyword .maybeWord => uncertainty nested
    | .punct .leftBrace => return .block (← block nested)
    | _ => fail t (.noStatement t.toLexeme)

/-- A statement nested less than `n` deep. -/
def statement : Nat → Parser Stmt
  | 0 => do
    let t ← peek
    fail t (.noStatement t.toLexeme)
  | n + 1 => statementWith (statement n)

/-- Statements up to the end of the text. -/
def program : Parser Program := do
  let n ← remaining
  itemsUntil (· = .endOfFile) (recovering true (statement (n + 1))) n

/-- One expression and nothing after it. -/
def wholeExpr : Parser Expr := do
  let e ← expr
  let _ ← expect .endOfFile
  return e

end Samo.Parser

namespace Samo

/-- The tree of a text, and every error on the way to it. -/
def parse (cs : List Char) : Program × List SyntaxError :=
  match Parser.program (.ofText cs) with
  | .ok prog c => (prog, c.errors)
  | .error e c => ([], (c.report e).errors)

/-- The expression that a text is, if it is one, and every error on the way to it. -/
def parseExpr (cs : List Char) : Option Expr × List SyntaxError :=
  match Parser.wholeExpr (.ofText cs) with
  | .ok e c => (some e, c.errors)
  | .error e c => (none, (c.report e).errors)

end Samo
