import Samo.Proofs.Additions
import Samo.Proofs.FoldedTypes

/-!
# Regions of a program

A program is one region, and so is each of its blocks. A `Region` knows the opening braces from its
own outwards and what is declared directly in it, parameters first. `Program.regions` lists the
regions in the order in which they start, `Program.coordinates` numbers those of one depth, and
`Declaration.Describes` says which symbol stands for a declaration.
-/

namespace Samo

/-! ## Declarations -/

/-- What declares a name. -/
inductive Declaration where
  | param (p : Param)
  | variable (type : TypeName) (namePos : Pos) (name : String) (init : Option Expr)
  | inferred (namePos : Pos) (name : String) (init : Expr)
  | function (header : Header)

/-- The value of an expression, if it can be folded. -/
def Expr.value? (e : Expr) : Option Value :=
  match e.fold with
  | .ok value => value
  | .error _ => none

/--
The symbol of a declaration in the scope at some coordinates. What is known of a variable is what
its initial value folds to. Without an initial value it starts with the usual value of its type, and
nothing is known of a parameter.
-/
inductive Declaration.Describes (Γ : Bindings) (c : Coordinates) : Declaration → Symbol → Prop
  | param {p type} : p.type = .value type →
      Describes Γ c (.param p)
        (.var { name := p.name, line := p.namePos.line, value := .initial type, home := c })
  | plain {type namePos name} : Describes Γ c (.variable (.value type) namePos name none)
      (.var { name, line := namePos.line, value := .initial type, known := true, home := c })
  | initialised {type namePos name e} : e.HasType Γ (.value type) →
      Describes Γ c (.variable (.value type) namePos name (some e))
        (.var { name, line := namePos.line, value := e.value?.getD (.initial type),
                known := e.value?.isSome, initialised := true, home := c })
  | inferred {type namePos name e} : e.HasType Γ (.value type) →
      Describes Γ c (.inferred namePos name e)
        (.var { name, line := namePos.line, value := e.value?.getD (.initial type),
                known := e.value?.isSome, inferred := true, initialised := true, home := c })
  | function {h f} : h.Describes f → f.line = h.namePos.line → f.home = c →
      Describes Γ c (.function h) (.fn f)

/-- What a statement declares in the block it stands in. -/
def Stmt.declarations : Stmt → List Declaration
  | .declare _ type namePos name init => [.variable type namePos name init]
  | .infer _ namePos name init => [.inferred namePos name init]
  | .define _ header _ => [.function header]
  | .maybe _ _ body => body.declarations
  | .maybeOtherwise _ _ body _ alternative => body.declarations ++ alternative.declarations
  | .block _ | .assign .. | .call .. | .branch .. | .loop .. | .breakOut _ | .continueOn _
  | .returnWith .. | .needs .. | .bad .. => []

def Stmt.declarationsAll (stmts : List Stmt) : List Declaration := stmts.flatMap Stmt.declarations

/-! ## Regions -/

/--
A program or a block in it. `path` are the opening braces of the block and of the blocks around it,
innermost first; the program itself has none.
-/
structure Region where
  path : List Pos
  declares : List Declaration

/-- How many blocks the region is in, itself included. -/
def Region.depth (r : Region) : Nat := r.path.length

mutual

/-- The blocks in a statement that stands in a region. -/
def Stmt.regions (around : List Pos) : Stmt → List Region
  | .block body => body.regions around []
  | .define _ header body => body.regions around (header.params.map .param)
  | .branch _ _ body rest => body.regions around [] ++ rest.regions around
  | .loop _ _ body => body.regions around []
  | .maybe _ _ body => body.regions around
  | .maybeOtherwise _ _ body _ alternative => body.regions around ++ alternative.regions around
  | .declare .. | .infer .. | .assign .. | .call .. | .breakOut _ | .continueOn _ | .returnWith ..
  | .needs .. | .bad .. => []

/-- A block, which shares its region with some parameters, and the blocks in it. -/
def Block.regions (around : List Pos) (params : List Declaration) : Block → List Region
  | .mk start _ stmts =>
    ⟨start :: around, params ++ Stmt.declarationsAll stmts⟩ ::
      Stmt.regionsAll (start :: around) stmts

def Stmt.regionsAll (around : List Pos) : List Stmt → List Region
  | [] => []
  | s :: ss => s.regions around ++ Stmt.regionsAll around ss

def Branches.regions (around : List Pos) : Branches → List Region
  | .done => []
  | .otherwise _ body => body.regions around []
  | .elseIf _ _ body rest => body.regions around [] ++ rest.regions around

end

namespace Program

/-- The program and its blocks, in the order in which they start. -/
def regions (program : Program) : List Region :=
  ⟨[], Stmt.declarationsAll program⟩ :: Stmt.regionsAll [] program

/-- The regions of one depth. -/
def regionsAt (program : Program) (depth : Nat) : List Region :=
  program.regions.filter (·.depth == depth)

/-- The depth of a region, and its number among the regions of that depth. -/
def coordinates (program : Program) (path : List Pos) : Coordinates :=
  ⟨path.length, ((program.regionsAt path.length).map Region.path).idxOf path⟩

end Program

/-! ## Regions and braces -/

mutual

/-- The regions in a statement start at its opening braces. -/
theorem Stmt.heads_regions (around : List Pos) (s : Stmt) :
    (s.regions around).map (·.path.head?) = s.braces.map some := by
  cases s with
  | block body => rw [Stmt.regions, Stmt.braces, body.heads_regions]
  | define pos header body => rw [Stmt.regions, Stmt.braces, body.heads_regions]
  | branch pos cond body rest =>
      rw [Stmt.regions, Stmt.braces, List.map_append, List.map_append, body.heads_regions,
        rest.heads_regions]
  | loop pos cond body => rw [Stmt.regions, Stmt.braces, body.heads_regions]
  | maybe pos e body => rw [Stmt.regions, Stmt.braces, body.heads_regions]
  | maybeOtherwise pos e body otherwisePos alternative =>
      rw [Stmt.regions, Stmt.braces, List.map_append, List.map_append, body.heads_regions,
        alternative.heads_regions]
  | declare | infer | assign | call | breakOut | continueOn | returnWith | needs | bad =>
      rw [Stmt.regions, Stmt.braces]
      rfl

theorem Block.heads_regions (around : List Pos) (params : List Declaration) (body : Block) :
    (body.regions around params).map (·.path.head?) = body.braces.map some := by
  cases body with
  | mk start final stmts =>
      rw [Block.regions, Block.braces, List.map_cons, List.map_cons, Stmt.heads_regionsAll]
      rfl

theorem Stmt.heads_regionsAll (around : List Pos) (ss : List Stmt) :
    (Stmt.regionsAll around ss).map (·.path.head?) = (Stmt.bracesAll ss).map some := by
  cases ss with
  | nil =>
      rw [Stmt.regionsAll, Stmt.bracesAll]
      rfl
  | cons s ss =>
      rw [Stmt.regionsAll, Stmt.bracesAll, List.map_append, List.map_append, s.heads_regions,
        Stmt.heads_regionsAll]

theorem Branches.heads_regions (around : List Pos) (rest : Branches) :
    (rest.regions around).map (·.path.head?) = rest.braces.map some := by
  cases rest with
  | done =>
      rw [Branches.regions, Branches.braces]
      rfl
  | otherwise pos body => rw [Branches.regions, Branches.braces, body.heads_regions]
  | elseIf pos cond body rest =>
      rw [Branches.regions, Branches.braces, List.map_append, List.map_append, body.heads_regions,
        rest.heads_regions]

end

/-- The regions are closed under going outwards, up to a path that is around all of them. -/
def Nested (around : List Pos) (regions : List Region) : Prop :=
  ∀ r ∈ regions, ∃ start outer, r.path = start :: outer ∧
    (outer = around ∨ outer ∈ regions.map Region.path)

theorem Nested.nil (around : List Pos) : Nested around [] := by
  intro r member
  cases member

theorem Nested.append {around : List Pos} {regions regions' : List Region}
    (first : Nested around regions) (second : Nested around regions') :
    Nested around (regions ++ regions') := by
  intro r member
  rw [List.map_append]
  rcases List.mem_append.mp member with member | member
  · obtain ⟨start, outer, path, up | up⟩ := first r member
    · exact ⟨start, outer, path, .inl up⟩
    · exact ⟨start, outer, path, .inr (List.mem_append_left _ up)⟩
  · obtain ⟨start, outer, path, up | up⟩ := second r member
    · exact ⟨start, outer, path, .inl up⟩
    · exact ⟨start, outer, path, .inr (List.mem_append_right _ up)⟩

mutual

theorem Stmt.nested_regions (around : List Pos) (s : Stmt) : Nested around (s.regions around) := by
  cases s <;> rw [Stmt.regions]
  case block body => exact body.nested_regions around []
  case define pos header body => exact body.nested_regions around _
  case branch pos cond body rest =>
    exact (body.nested_regions around []).append (rest.nested_regions around)
  case loop pos cond body => exact body.nested_regions around []
  case maybe pos e body => exact body.nested_regions around
  case maybeOtherwise pos e body otherwisePos alternative =>
    exact (body.nested_regions around).append (alternative.nested_regions around)
  case declare | infer | assign | call | breakOut | continueOn | returnWith | needs | bad =>
    exact .nil around

theorem Block.nested_regions (around : List Pos) (params : List Declaration) (body : Block) :
    Nested around (body.regions around params) := by
  cases body with
  | mk start final stmts =>
      rw [Block.regions]
      intro r member
      rcases List.mem_cons.mp member with rfl | member
      · exact ⟨start, around, rfl, .inl rfl⟩
      · obtain ⟨start', outer, path, up⟩ := Stmt.nested_regionsAll (start :: around) stmts r member
        exact ⟨start', outer, path, .inr (List.mem_cons.mpr up)⟩

theorem Stmt.nested_regionsAll (around : List Pos) (ss : List Stmt) :
    Nested around (Stmt.regionsAll around ss) := by
  cases ss with
  | nil =>
      rw [Stmt.regionsAll]
      exact .nil around
  | cons s ss =>
      rw [Stmt.regionsAll]
      exact (s.nested_regions around).append (Stmt.nested_regionsAll around ss)

theorem Branches.nested_regions (around : List Pos) (rest : Branches) :
    Nested around (rest.regions around) := by
  cases rest with
  | done =>
      rw [Branches.regions]
      exact .nil around
  | otherwise pos body =>
      rw [Branches.regions]
      exact body.nested_regions around []
  | elseIf pos cond body rest =>
      rw [Branches.regions]
      exact (body.nested_regions around []).append (rest.nested_regions around)

end

/-! ## Known values -/

/-- What a check knows of an expression of a type is what it folds to. -/
theorem Expr.HasType.known?_eq {Γ : Bindings} {e : Expr} {type : ValueType}
    (typed : e.HasType Γ (.value type)) : e.known? type = e.value? := by
  unfold known? value?
  cases folded : e.fold with
  | error err => rfl
  | ok value =>
      cases value with
      | none => rfl
      | some v =>
          have same := TypeName.value.inj (typed.type_value v folded)
          simp [same]

end Samo
