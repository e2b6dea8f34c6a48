import Samo.Syntax

/-!
# Where statements stand

The statements of a program with their places, in order (`Program.located`). A `Place` says which
blocks are around it and what each of them declares, which names are declared before it, and which
function and how many loops it is in.
-/

namespace Samo

/-! ## What statements declare -/

/-- The names that a statement declares in the block it stands in. -/
def Stmt.declares : Stmt → List String
  | .declare _ _ _ name _ => [name]
  | .infer _ _ name _ => [name]
  | .define _ header _ => [header.name]
  | .maybe _ _ body => body.declares
  | .maybeOtherwise _ _ body _ alternative => body.declares ++ alternative.declares
  | .block _ | .assign .. | .call .. | .branch .. | .loop .. | .breakOut _ | .continueOn _
  | .returnWith .. | .needs .. | .bad .. => []

def Stmt.declaresAll (ss : List Stmt) : List String := ss.flatMap Stmt.declares

def Header.paramNames (h : Header) : List String := h.params.map (·.name)

mutual

/-- The opening braces in a statement, in order. -/
def Stmt.braces : Stmt → List Pos
  | .block body => body.braces
  | .define _ _ body => body.braces
  | .branch _ _ body rest => body.braces ++ rest.braces
  | .loop _ _ body => body.braces
  | .maybe _ _ body => body.braces
  | .maybeOtherwise _ _ body _ alternative => body.braces ++ alternative.braces
  | .declare .. | .infer .. | .assign .. | .call .. | .breakOut _ | .continueOn _ | .returnWith ..
  | .needs .. | .bad .. => []

/-- The opening brace of a block and those in it. -/
def Block.braces : Block → List Pos
  | .mk start _ stmts => start :: Stmt.bracesAll stmts

def Stmt.bracesAll : List Stmt → List Pos
  | [] => []
  | s :: ss => s.braces ++ Stmt.bracesAll ss

def Branches.braces : Branches → List Pos
  | .done => []
  | .otherwise _ body => body.braces
  | .elseIf _ _ body rest => body.braces ++ rest.braces

end

/-- No two blocks of the program start at one position. -/
def Program.DistinctBlocks (program : Program) : Prop := (Stmt.bracesAll program).Nodup

/-! ## Places -/

/-- A block around a place: its opening brace and everything it declares. -/
structure Frame where
  start : Pos
  names : List String
deriving DecidableEq, Repr

/--
A place in a program. `frames` are the blocks around it, innermost first. `before` are the names
declared earlier in one of these blocks or outside of all, `within` the names declared anywhere in
the blocks around it up to the function's, and those declared before the function.
-/
structure Place where
  frames : List Frame
  before : List String
  within : List String
  function : Option Header
  loops : Nat
deriving DecidableEq, Repr

namespace Place

/-- Outside of everything, before the first statement. -/
def top : Place := ⟨[], [], [], none, 0⟩

/-- Behind a statement. -/
def after (p : Place) (s : Stmt) : Place := { p with before := p.before ++ s.declares }

/-- At the start of a block. -/
def enter (p : Place) (body : Block) : Place :=
  { p with
    frames := ⟨body.start, Stmt.declaresAll body.stmts⟩ :: p.frames
    within := p.within ++ Stmt.declaresAll body.stmts }

def inLoop (p : Place) : Place := { p with loops := p.loops + 1 }

/-- At the start of a function's body, whose block has the parameters too. -/
def inFunction (p : Place) (h : Header) (body : Block) : Place where
  frames := ⟨body.start, h.paramNames ++ Stmt.declaresAll body.stmts⟩ :: p.frames
  before := p.before ++ h.name :: h.paramNames
  within := p.before ++ h.name :: h.paramNames ++ Stmt.declaresAll body.stmts
  function := some h
  loops := 0

end Place

mutual

/-- A statement at a place and the statements in it, each with its own place. -/
def Stmt.located (p : Place) : Stmt → List (Place × Stmt)
  | .block body => (p, .block body) :: body.located (p.enter body)
  | .define pos header body =>
    (p, .define pos header body) :: body.located (p.inFunction header body)
  | .branch pos cond body rest =>
    (p, .branch pos cond body rest) :: (body.located (p.enter body) ++ rest.located p)
  | .loop pos cond body => (p, .loop pos cond body) :: body.located (p.inLoop.enter body)
  | .maybe pos probability body => (p, .maybe pos probability body) :: body.located p
  | .maybeOtherwise pos probability body otherwisePos alternative =>
    (p, .maybeOtherwise pos probability body otherwisePos alternative) ::
      (body.located p ++ alternative.located (p.after body))
  | s@(.declare ..) | s@(.infer ..) | s@(.assign ..) | s@(.call ..) | s@(.breakOut _)
  | s@(.continueOn _) | s@(.returnWith ..) | s@(.needs ..) | s@(.bad ..) => [(p, s)]

/-- The statements of a block, which starts at a place. -/
def Block.located (p : Place) : Block → List (Place × Stmt)
  | .mk _ _ stmts => Stmt.locatedAll p stmts

def Stmt.locatedAll (p : Place) : List Stmt → List (Place × Stmt)
  | [] => []
  | s :: ss => s.located p ++ Stmt.locatedAll (p.after s) ss

/-- The statements in the arms after the first one of an if at a place. -/
def Branches.located (p : Place) : Branches → List (Place × Stmt)
  | .done => []
  | .otherwise _ body => body.located (p.enter body)
  | .elseIf _ _ body rest => body.located (p.enter body) ++ rest.located p

end

def Program.located (program : Program) : List (Place × Stmt) := Stmt.locatedAll .top program

end Samo
