import Samo.Constant
import Samo.Proofs.Grammar
import Samo.Proofs.Run
import Samo.Proofs.Within
import Samo.Syntax.Parser.Stmt

/-!
# Programs at other positions

`Stmt.mapPos` moves a tree to other positions. Without its positions a program is the same wherever
it stands (`Stmt.bare_mapPos`).
-/

namespace Samo

/-! ## Trees and tokens -/

mutual

/-- An expression at other positions. -/
def Expr.mapPos (f : Pos → Pos) : Expr → Expr
  | .int p spelling value => .int (f p) spelling value
  | .string p spelling value => .string (f p) spelling value
  | .boolie p value => .boolie (f p) value
  | .ident p name => .ident (f p) name
  | .unary p op x => .unary (f p) op (x.mapPos f)
  | .binary p op x y => .binary (f p) op (x.mapPos f) (y.mapPos f)
  | .paren p x => .paren (f p) (x.mapPos f)
  | .call p name args => .call (f p) name (Expr.mapPosAll f args)

def Expr.mapPosAll (f : Pos → Pos) : List Expr → List Expr
  | [] => []
  | e :: es => e.mapPos f :: Expr.mapPosAll f es

end

def Param.mapPos (f : Pos → Pos) (p : Param) : Param :=
  { p with typePos := f p.typePos, namePos := f p.namePos }

def Header.mapPos (f : Pos → Pos) (h : Header) : Header where
  namePos := f h.namePos
  name := h.name
  params := h.params.map (Param.mapPos f)
  returns := h.returns.map fun r => (f r.1, r.2)

mutual

/-- A statement at other positions. -/
def Stmt.mapPos (f : Pos → Pos) : Stmt → Stmt
  | .block body => .block (body.mapPos f)
  | .declare p type np name init => .declare (f p) type (f np) name (init.map (Expr.mapPos f))
  | .infer p np name init => .infer (f p) (f np) name (init.mapPos f)
  | .assign p name value => .assign (f p) name (value.mapPos f)
  | .call p name args => .call (f p) name (args.map (Expr.mapPos f))
  | .define p header body => .define (f p) (header.mapPos f) (body.mapPos f)
  | .branch p cond body rest => .branch (f p) (cond.mapPos f) (body.mapPos f) (rest.mapPos f)
  | .loop p cond body => .loop (f p) (cond.mapPos f) (body.mapPos f)
  | .breakOut p => .breakOut (f p)
  | .continueOn p => .continueOn (f p)
  | .returnWith p value => .returnWith (f p) (value.map (Expr.mapPos f))
  | .needs p spelling path => .needs (f p) spelling path
  | .maybe p probability body => .maybe (f p) (probability.mapPos f) (body.mapPos f)
  | .maybeOtherwise p probability body op alternative =>
    .maybeOtherwise (f p) (probability.mapPos f) (body.mapPos f) (f op) (alternative.mapPos f)
  | .bad p fault => .bad (f p) fault

def Block.mapPos (f : Pos → Pos) : Block → Block
  | .mk start stop stmts => .mk (f start) (f stop) (Stmt.mapPosAll f stmts)

def Branches.mapPos (f : Pos → Pos) : Branches → Branches
  | .done => .done
  | .otherwise p body => .otherwise (f p) (body.mapPos f)
  | .elseIf p cond body rest => .elseIf (f p) (cond.mapPos f) (body.mapPos f) (rest.mapPos f)

def Stmt.mapPosAll (f : Pos → Pos) : List Stmt → List Stmt
  | [] => []
  | s :: ss => s.mapPos f :: Stmt.mapPosAll f ss

end

def SyntaxError.mapPos (f : Pos → Pos) (e : SyntaxError) : SyntaxError := ⟨f e.pos, e.fault⟩

/-- A token at another position. Where it stands in the whole text is forgotten. -/
def Token.mapPos (f : Pos → Pos) (t : Token) : Token := { t with start := ⟨0, f t.pos⟩ }

namespace Expr

variable (f : Pos → Pos)

theorem mapPosAll_eq_map (es : List Expr) : mapPosAll f es = es.map (mapPos f) := by
  induction es with
  | nil => rfl
  | cons e es ih => exact congrArg (e.mapPos f :: ·) ih

theorem start_mapPos (e : Expr) : (e.mapPos f).start = f e.start := by
  induction e using Expr.induction with
  | int | string | boolie | ident | unary | paren | call => rfl
  | binary p op x y left _ => exact left

theorem isBooleanForm_mapPos (e : Expr) : (e.mapPos f).isBooleanForm = e.isBooleanForm := by
  induction e using Expr.induction with
  | int | string | boolie | ident | unary | binary | call => rfl
  | paren p x ih => exact ih

theorem fold_mapPos (e : Expr) : (e.mapPos f).fold = e.fold := by
  induction e using Expr.induction with
  | int | string | boolie | ident | call => simp only [mapPos, fold]
  | unary p op x ih => simp only [mapPos, fold, ih]
  | binary p op x y left right => simp only [mapPos, fold, left, right]
  | paren p x ih => simpa only [mapPos, fold] using ih

theorem mapPos_id (e : Expr) : e.mapPos id = e := by
  induction e using Expr.induction with
  | int | string | boolie | ident => simp only [mapPos, id]
  | unary p op x ih => simp only [mapPos, id, ih]
  | binary p op x y left right => simp only [mapPos, id, left, right]
  | paren p x ih => simp only [mapPos, id, ih]
  | call p name args ih => rw [mapPos, mapPosAll_eq_map, List.map_congr_left ih, List.map_id', id]

theorem bare_mapPos (e : Expr) : (e.mapPos f).bare = e.bare := by
  induction e using Expr.induction with
  | int | string | boolie | ident => simp only [mapPos, bare]
  | unary p op x ih => simp only [mapPos, bare, ih]
  | binary p op x y left right => simp only [mapPos, bare, left, right]
  | paren p x ih => simp only [mapPos, bare, ih]
  | call p name args ih =>
      rw [mapPos, bare, bare, mapPosAll_eq_map, bareAll_eq_map, bareAll_eq_map, List.map_map]
      exact congrArg _ (List.map_congr_left ih)

end Expr

/-- An expression that may be missing, at its own positions. -/
theorem Expr.option_mapPos_id (init : Option Expr) : init.map (Expr.mapPos id) = init := by
  cases init with
  | none => rfl
  | some e => exact congrArg some e.mapPos_id

theorem Expr.option_bare_mapPos (f : Pos → Pos) (init : Option Expr) :
    (init.map (Expr.mapPos f)).map Expr.bare = init.map Expr.bare := by
  cases init with
  | none => rfl
  | some e => exact congrArg some (e.bare_mapPos f)

theorem Header.mapPos_id (h : Header) : h.mapPos id = h := by
  have params : h.params.map (Param.mapPos id) = h.params := List.map_id _
  have returns : (h.returns.map fun r => (id r.1, r.2)) = h.returns := Option.map_id'
  rw [Header.mapPos, params, returns]
  rfl

theorem Header.bare_mapPos (f : Pos → Pos) (h : Header) : (h.mapPos f).bare = h.bare := by
  simp only [mapPos, bare, List.map_map, Option.map_map]
  rfl

mutual

/-- A statement at its own positions. -/
theorem Stmt.mapPos_id : (s : Stmt) → s.mapPos id = s
  | .block body => by rw [Stmt.mapPos, body.mapPos_id]
  | .declare .. => by rw [Stmt.mapPos, Expr.option_mapPos_id]; rfl
  | .infer _ _ _ init => by rw [Stmt.mapPos, init.mapPos_id]; rfl
  | .assign _ _ value => by rw [Stmt.mapPos, value.mapPos_id]; rfl
  | .call _ _ args => by
      rw [Stmt.mapPos, List.map_congr_left fun e _ => e.mapPos_id, List.map_id']
      rfl
  | .define _ header body => by rw [Stmt.mapPos, header.mapPos_id, body.mapPos_id]; rfl
  | .branch _ cond body rest => by
      rw [Stmt.mapPos, cond.mapPos_id, body.mapPos_id, rest.mapPos_id]
      rfl
  | .loop _ cond body => by rw [Stmt.mapPos, cond.mapPos_id, body.mapPos_id]; rfl
  | .breakOut _ => by rw [Stmt.mapPos]; rfl
  | .continueOn _ => by rw [Stmt.mapPos]; rfl
  | .returnWith .. => by rw [Stmt.mapPos, Expr.option_mapPos_id]; rfl
  | .needs .. => by rw [Stmt.mapPos]; rfl
  | .maybe _ e body => by rw [Stmt.mapPos, e.mapPos_id, body.mapPos_id]; rfl
  | .maybeOtherwise _ e body _ alternative => by
      rw [Stmt.mapPos, e.mapPos_id, body.mapPos_id, alternative.mapPos_id]
      rfl
  | .bad .. => by rw [Stmt.mapPos]; rfl

theorem Block.mapPos_id : (body : Block) → body.mapPos id = body
  | .mk _ _ stmts => by rw [Block.mapPos, Stmt.mapPosAll_id stmts]; rfl

theorem Branches.mapPos_id : (rest : Branches) → rest.mapPos id = rest
  | .done => by rw [Branches.mapPos]
  | .otherwise _ body => by rw [Branches.mapPos, body.mapPos_id]; rfl
  | .elseIf _ cond body rest => by
      rw [Branches.mapPos, cond.mapPos_id, body.mapPos_id, rest.mapPos_id]
      rfl

theorem Stmt.mapPosAll_id : (stmts : List Stmt) → Stmt.mapPosAll id stmts = stmts
  | [] => by rw [Stmt.mapPosAll]
  | s :: ss => by rw [Stmt.mapPosAll, s.mapPos_id, Stmt.mapPosAll_id ss]

end

mutual

/-- Without its positions a statement is the same everywhere. -/
theorem Stmt.bare_mapPos (f : Pos → Pos) : (s : Stmt) → (s.mapPos f).bare = s.bare
  | .block body => by rw [Stmt.mapPos, Stmt.bare, Stmt.bare, body.bare_mapPos]
  | .declare .. => by rw [Stmt.mapPos, Stmt.bare, Stmt.bare, Expr.option_bare_mapPos]
  | .infer _ _ _ init => by rw [Stmt.mapPos, Stmt.bare, Stmt.bare, init.bare_mapPos]
  | .assign _ _ value => by rw [Stmt.mapPos, Stmt.bare, Stmt.bare, value.bare_mapPos]
  | .call _ _ args => by
      rw [Stmt.mapPos, Stmt.bare, Stmt.bare, List.map_map]
      exact congrArg _ (List.map_congr_left fun e _ => e.bare_mapPos f)
  | .define _ header body => by
      rw [Stmt.mapPos, Stmt.bare, Stmt.bare, header.bare_mapPos, body.bare_mapPos]
  | .branch _ cond body rest => by
      rw [Stmt.mapPos, Stmt.bare, Stmt.bare, cond.bare_mapPos, body.bare_mapPos, rest.bare_mapPos]
  | .loop _ cond body => by
      rw [Stmt.mapPos, Stmt.bare, Stmt.bare, cond.bare_mapPos, body.bare_mapPos]
  | .breakOut _ => by rw [Stmt.mapPos, Stmt.bare, Stmt.bare]
  | .continueOn _ => by rw [Stmt.mapPos, Stmt.bare, Stmt.bare]
  | .returnWith .. => by rw [Stmt.mapPos, Stmt.bare, Stmt.bare, Expr.option_bare_mapPos]
  | .needs .. => by rw [Stmt.mapPos, Stmt.bare, Stmt.bare]
  | .maybe _ e body => by
      rw [Stmt.mapPos, Stmt.bare, Stmt.bare, e.bare_mapPos, body.bare_mapPos]
  | .maybeOtherwise _ e body _ alternative => by
      rw [Stmt.mapPos, Stmt.bare, Stmt.bare, e.bare_mapPos, body.bare_mapPos,
        alternative.bare_mapPos]
  | .bad .. => by rw [Stmt.mapPos, Stmt.bare, Stmt.bare]

theorem Block.bare_mapPos (f : Pos → Pos) : (body : Block) → (body.mapPos f).bare = body.bare
  | .mk _ _ stmts => by rw [Block.mapPos, Block.bare, Block.bare, Stmt.bareAll_mapPosAll f stmts]

theorem Branches.bare_mapPos (f : Pos → Pos) :
    (rest : Branches) → (rest.mapPos f).bare = rest.bare
  | .done => by rw [Branches.mapPos]
  | .otherwise _ body => by
      rw [Branches.mapPos, Branches.bare, Branches.bare, body.bare_mapPos]
  | .elseIf _ cond body rest => by
      rw [Branches.mapPos, Branches.bare, Branches.bare, cond.bare_mapPos, body.bare_mapPos,
        rest.bare_mapPos]

theorem Stmt.bareAll_mapPosAll (f : Pos → Pos) :
    (stmts : List Stmt) → Stmt.bareAll (Stmt.mapPosAll f stmts) = Stmt.bareAll stmts
  | [] => by rw [Stmt.mapPosAll]
  | s :: ss => by
      rw [Stmt.mapPosAll, Stmt.bareAll, Stmt.bareAll, s.bare_mapPos, Stmt.bareAll_mapPosAll f ss]

end

theorem Stmt.mapPosAll_eq_map (f : Pos → Pos) (stmts : List Stmt) :
    Stmt.mapPosAll f stmts = stmts.map (Stmt.mapPos f) := by
  induction stmts with
  | nil => rw [mapPosAll, List.map_nil]
  | cons s ss ih => rw [mapPosAll, ih, List.map_cons]

end Samo
