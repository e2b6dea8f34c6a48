import Samo.Proofs.Demands
import Samo.Syntax.Node

/-!
# The nodes of a program

A walk that refuses no node lists every expression and every statement of a program. Each of them is
found at a place (`Program.found`): it is a block, or a statement with its place, or it stands in
one of the expressions of such a statement.
-/

namespace Samo

/-- Every node of a program. -/
def Program.nodes (program : Program) : List Node := program.visited fun _ => true

/-- Where a node is found among statements: the body of a statement is a node too. -/
inductive Found (items : List (Place × Stmt)) : Node → Prop
  | block {body : Block} : Found items (.stmt (.block body))
  | stmt {p : Place} {stmt : Stmt} (member : (p, stmt) ∈ items) : Found items (.stmt stmt)
  | expr {p : Place} {stmt : Stmt} {e : Expr} {n : Node} (member : (p, stmt) ∈ items)
      (part : e ∈ stmt.expressions) (inside : n ∈ e.nodes) : Found items n

namespace Found

variable {items items' : List (Place × Stmt)} {n : Node}

theorem mono (found : Found items n) (subset : items ⊆ items') : Found items' n := by
  cases found with
  | block => exact .block
  | stmt member => exact .stmt (subset member)
  | expr member part inside => exact .expr (subset member) part inside

theorem left (found : Found items n) : Found (items ++ items') n :=
  found.mono (List.subset_append_left _ _)

theorem right (found : Found items' n) : Found (items ++ items') n :=
  found.mono (List.subset_append_right _ _)

theorem cons {x : Place × Stmt} (found : Found items n) : Found (x :: items) n :=
  found.mono (List.subset_cons_self _ _)

/-- A node of the first statement is the statement itself or in it. -/
theorem of_cons {p : Place} {stmt : Stmt} {inner : List Node} (member : n ∈ .stmt stmt :: inner)
    (inside : n ∈ inner → Found ((p, stmt) :: items) n) : Found ((p, stmt) :: items) n := by
  rcases List.mem_cons.mp member with rfl | member
  · exact .stmt List.mem_cons_self
  · exact inside member

/-- A node of an expression of the first statement. -/
theorem first {p : Place} {stmt : Stmt} {e : Expr} (part : e ∈ stmt.expressions)
    (inside : n ∈ e.nodes) : Found ((p, stmt) :: items) n :=
  .expr List.mem_cons_self part inside

end Found

mutual

theorem Stmt.found {p : Place} {n : Node} (stmt : Stmt) (member : n ∈ stmt.visited fun _ => true) :
    Found (stmt.located p) n := by
  cases stmt <;> (rw [Stmt.visited] at member; rw [Stmt.located])
  case block body => exact (body.found member).cons
  case declare pos type namePos name init =>
    refine .of_cons member fun member => ?_
    cases init with
    | none => cases member
    | some e => exact .first (Option.mem_toList.mpr rfl) member
  case infer pos namePos name init => exact .of_cons member (.first (List.mem_singleton_self _))
  case assign pos name value => exact .of_cons member (.first (List.mem_singleton_self _))
  case call pos name args => exact .of_cons member (.first (List.mem_singleton_self _))
  case define pos header body => exact .of_cons member fun member => (body.found member).cons
  case branch pos cond body rest =>
    refine .of_cons member fun member => ?_
    rw [if_pos rfl] at member
    rcases List.mem_append.mp member with member | member
    · rcases List.mem_append.mp member with member | member
      · exact .first List.mem_cons_self member
      · exact (body.found member).left.cons
    · rcases rest.found member with ⟨e, part, inside⟩ | found
      · exact .first (List.mem_cons_of_mem cond part) inside
      · exact found.right.cons
  case loop pos cond body =>
    refine .of_cons member fun member => ?_
    rw [if_pos rfl] at member
    rcases List.mem_append.mp member with member | member
    · exact .first (List.mem_singleton_self cond) member
    · exact (body.found member).cons
  case returnWith pos value =>
    refine .of_cons member fun member => ?_
    cases value with
    | none => cases member
    | some e => exact .first (Option.mem_toList.mpr rfl) member
  case maybe pos probability body =>
    refine .of_cons member fun member => ?_
    rw [if_pos rfl] at member
    rcases List.mem_append.mp member with member | member
    · exact .first (List.mem_singleton_self probability) member
    · exact (body.found member).cons
  case maybeOtherwise pos probability body otherwisePos alternative =>
    refine .of_cons member fun member => ?_
    rw [if_pos rfl] at member
    rcases List.mem_append.mp member with member | member
    · rcases List.mem_append.mp member with member | member
      · exact .first (List.mem_singleton_self probability) member
      · exact (body.found member).left.cons
    · exact (alternative.found member).right.cons
  case breakOut | continueOn | needs | bad =>
    rw [List.mem_singleton.mp member]
    exact .stmt List.mem_cons_self

theorem Block.found {p : Place} {n : Node} (body : Block)
    (member : n ∈ body.visited fun _ => true) : Found (body.located p) n := by
  cases body with
  | mk start stop stmts =>
      rw [Block.visited] at member
      rw [Block.located]
      rcases List.mem_cons.mp member with rfl | member
      · exact .block
      · exact Stmt.foundAll stmts member

theorem Stmt.foundAll {p : Place} {n : Node} (stmts : List Stmt)
    (member : n ∈ Stmt.visitedAll (fun _ => true) stmts) : Found (Stmt.locatedAll p stmts) n := by
  cases stmts with
  | nil =>
      rw [Stmt.visitedAll] at member
      cases member
  | cons stmt stmts =>
      rw [Stmt.visitedAll] at member
      rw [Stmt.locatedAll]
      rcases List.mem_append.mp member with member | member
      · exact (stmt.found member).left
      · exact (Stmt.foundAll stmts member).right

theorem Branches.found {p : Place} {n : Node} (rest : Branches)
    (member : n ∈ rest.visited fun _ => true) :
    (∃ e ∈ rest.conditions, n ∈ e.nodes) ∨ Found (rest.located p) n := by
  cases rest with
  | done =>
      rw [Branches.visited] at member
      cases member
  | otherwise pos body =>
      rw [Branches.visited] at member
      rw [Branches.located]
      exact .inr (body.found member)
  | elseIf pos cond body rest =>
      rw [Branches.visited] at member
      rw [Branches.located, Branches.conditions]
      rcases List.mem_append.mp member with member | member
      · rcases List.mem_append.mp member with member | member
        · exact .inl ⟨cond, List.mem_cons_self, member⟩
        · exact .inr (body.found member).left
      · rcases rest.found member with ⟨e, part, inside⟩ | found
        · exact .inl ⟨e, List.mem_cons_of_mem cond part, inside⟩
        · exact .inr found.right

end

/-- Every node of a program is found at its place. -/
theorem Program.found {program : Program} {n : Node} (member : n ∈ program.nodes) :
    Found program.located n := Stmt.foundAll program member

end Samo
