import Samo.Syntax

/-!
# Walking a tree

A `Node` is an expression or a statement. `Node.visited` lists the nodes of a tree in source order,
a node before its parts, without the parts of the nodes that `enter` refuses.
-/

namespace Samo

/-- An expression or a statement of a tree. -/
inductive Node where
  | expr (e : Expr)
  | stmt (s : Stmt)

namespace Node

/-- The position of the first word of the node. -/
def start : Node → Pos
  | expr e => e.start
  | stmt s => s.start

end Node

mutual

/-- The nodes of an expression. -/
def Expr.visited (enter : Node → Bool) : Expr → List Node
  | .unary p op x =>
    .expr (.unary p op x) :: if enter (.expr (.unary p op x)) then x.visited enter else []
  | .binary p op x y =>
    .expr (.binary p op x y) ::
      if enter (.expr (.binary p op x y)) then x.visited enter ++ y.visited enter else []
  | .paren p x => .expr (.paren p x) :: if enter (.expr (.paren p x)) then x.visited enter else []
  | .call p f args =>
    .expr (.call p f args) ::
      if enter (.expr (.call p f args)) then Expr.visitedAll enter args else []
  | .int p s n => [.expr (.int p s n)]
  | .string p s v => [.expr (.string p s v)]
  | .boolie p b => [.expr (.boolie p b)]
  | .ident p x => [.expr (.ident p x)]

def Expr.visitedAll (enter : Node → Bool) : List Expr → List Node
  | [] => []
  | e :: es => e.visited enter ++ Expr.visitedAll enter es

end

mutual

/-- The nodes of a statement. -/
def Stmt.visited (enter : Node → Bool) : Stmt → List Node
  | .block b => b.visited enter
  | .declare p t np x init =>
    .stmt (.declare p t np x init) ::
      if enter (.stmt (.declare p t np x init)) then init.elim [] (·.visited enter) else []
  | .infer p np x init =>
    .stmt (.infer p np x init) ::
      if enter (.stmt (.infer p np x init)) then init.visited enter else []
  | .assign p x v =>
    .stmt (.assign p x v) :: if enter (.stmt (.assign p x v)) then v.visited enter else []
  | .call p f args =>
    .stmt (.call p f args) ::
      if enter (.stmt (.call p f args)) then (Expr.call p f args).visited enter else []
  | .define p h b =>
    .stmt (.define p h b) :: if enter (.stmt (.define p h b)) then b.visited enter else []
  | .branch p c b rest =>
    .stmt (.branch p c b rest) ::
      if enter (.stmt (.branch p c b rest)) then
        c.visited enter ++ b.visited enter ++ rest.visited enter
      else []
  | .loop p c b =>
    .stmt (.loop p c b) ::
      if enter (.stmt (.loop p c b)) then c.visited enter ++ b.visited enter else []
  | .returnWith p v =>
    .stmt (.returnWith p v) ::
      if enter (.stmt (.returnWith p v)) then v.elim [] (·.visited enter) else []
  | .maybe p e s =>
    .stmt (.maybe p e s) ::
      if enter (.stmt (.maybe p e s)) then e.visited enter ++ s.visited enter else []
  | .maybeOtherwise p e s op t =>
    .stmt (.maybeOtherwise p e s op t) ::
      if enter (.stmt (.maybeOtherwise p e s op t)) then
        e.visited enter ++ s.visited enter ++ t.visited enter
      else []
  | .breakOut p => [.stmt (.breakOut p)]
  | .continueOn p => [.stmt (.continueOn p)]
  | .needs p s path => [.stmt (.needs p s path)]
  | .bad p f => [.stmt (.bad p f)]

/-- The nodes of a block, the block itself first. -/
def Block.visited (enter : Node → Bool) : Block → List Node
  | .mk p q ss =>
    .stmt (.block (.mk p q ss)) ::
      if enter (.stmt (.block (.mk p q ss))) then Stmt.visitedAll enter ss else []

/-- The nodes after the first arm of an if statement; the arms are no nodes themselves. -/
def Branches.visited (enter : Node → Bool) : Branches → List Node
  | .done => []
  | .otherwise _ b => b.visited enter
  | .elseIf _ c b rest => c.visited enter ++ b.visited enter ++ rest.visited enter

def Stmt.visitedAll (enter : Node → Bool) : List Stmt → List Node
  | [] => []
  | s :: ss => s.visited enter ++ Stmt.visitedAll enter ss

end

def Program.visited (enter : Node → Bool) (prog : Program) : List Node :=
  Stmt.visitedAll enter prog

end Samo
