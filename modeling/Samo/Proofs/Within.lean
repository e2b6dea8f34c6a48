import Samo.Syntax

/-!
# Trees in a part of a text

A tree lies in a part of a text if its positions do. Only the positions that a report may name are
asked for. `Stmt.spots` lists the positions in a statement in the order of their words, and a tree
lies where its spots are; as an extreme case, every tree lies somewhere.
-/

namespace Samo

/-- Induction over expressions, where every argument of a call may be used. -/
theorem Expr.induction {motive : Expr → Prop}
    (int : ∀ p s n, motive (.int p s n))
    (string : ∀ p s v, motive (.string p s v))
    (boolie : ∀ p b, motive (.boolie p b))
    (ident : ∀ p x, motive (.ident p x))
    (unary : ∀ p op x, motive x → motive (.unary p op x))
    (binary : ∀ p op x y, motive x → motive y → motive (.binary p op x y))
    (paren : ∀ p x, motive x → motive (.paren p x))
    (call : ∀ p f args, (∀ a ∈ args, motive a) → motive (.call p f args)) (e : Expr) :
    motive e := by
  refine @Expr.rec motive (fun es => ∀ e ∈ es, motive e) int string boolie ident unary binary
    paren call ?_ ?_ e
  · intro e member
    cases member
  · intro e es first others x member
    rcases List.mem_cons.mp member with rfl | member
    · exact first
    · exact others x member

/-- The positions of an expression lie in a part of a text. -/
inductive Expr.Within (Q : Pos → Prop) : Expr → Prop
  | int {p spelling n} : Q p → Within Q (.int p spelling n)
  | string {p spelling s} : Q p → Within Q (.string p spelling s)
  | boolie {p b} : Q p → Within Q (.boolie p b)
  | ident {p x} : Q p → Within Q (.ident p x)
  | unary {p op x} : Q p → Within Q x → Within Q (.unary p op x)
  | binary {p op x y} : Q p → Within Q x → Within Q y → Within Q (.binary p op x y)
  | paren {p x} : Q p → Within Q x → Within Q (.paren p x)
  | call {p f args} : Q p → (∀ a ∈ args, Within Q a) → Within Q (.call p f args)

/-- The positions of a parameter lie in a part of a text. -/
structure Param.Within (Q : Pos → Prop) (p : Param) : Prop where
  type : Q p.typePos
  name : Q p.namePos

/-- The positions of a definition without its body lie in a part of a text. -/
structure Header.Within (Q : Pos → Prop) (h : Header) : Prop where
  name : Q h.namePos
  params : ∀ p ∈ h.params, p.Within Q

mutual

/-- The positions of a statement lie in a part of a text. -/
inductive Stmt.Within (Q : Pos → Prop) : Stmt → Prop
  | block {body} : Block.Within Q body → Stmt.Within Q (.block body)
  | declare {p type np x init} : Q p → Q np → (∀ e ∈ init, Expr.Within Q e) →
      Stmt.Within Q (.declare p type np x init)
  | infer {p np x init} : Q np → Expr.Within Q init → Stmt.Within Q (.infer p np x init)
  | assign {p x value} : Q p → Expr.Within Q value → Stmt.Within Q (.assign p x value)
  | call {p f args} : Q p → (∀ a ∈ args, Expr.Within Q a) → Stmt.Within Q (.call p f args)
  | define {p header body} : Q p → Header.Within Q header → Block.Within Q body →
      Stmt.Within Q (.define p header body)
  | branch {p cond body rest} : Q p → Expr.Within Q cond → Block.Within Q body →
      Branches.Within Q rest → Stmt.Within Q (.branch p cond body rest)
  | loop {p cond body} : Q p → Expr.Within Q cond → Block.Within Q body →
      Stmt.Within Q (.loop p cond body)
  | breakOut {p} : Q p → Stmt.Within Q (.breakOut p)
  | continueOn {p} : Q p → Stmt.Within Q (.continueOn p)
  | returnWith {p value} : Q p → (∀ e ∈ value, Expr.Within Q e) →
      Stmt.Within Q (.returnWith p value)
  | needs {p spelling path} : Q p → Stmt.Within Q (.needs p spelling path)
  | maybe {p e body} : Q p → Expr.Within Q e → Stmt.Within Q body → Stmt.Within Q (.maybe p e body)
  | maybeOtherwise {p e body op alternative} : Q p → Expr.Within Q e → Stmt.Within Q body → Q op →
      Stmt.Within Q alternative → Stmt.Within Q (.maybeOtherwise p e body op alternative)
  | bad {p fault} : Q p → Stmt.Within Q (.bad p fault)

/-- The positions of a block lie in a part of a text. -/
inductive Block.Within (Q : Pos → Prop) : Block → Prop
  | mk {start stop stmts} : (∀ s ∈ stmts, Stmt.Within Q s) → Block.Within Q (.mk start stop stmts)

/-- The positions of the arms of an if statement lie in a part of a text. -/
inductive Branches.Within (Q : Pos → Prop) : Branches → Prop
  | done : Branches.Within Q .done
  | otherwise {p body} : Block.Within Q body → Branches.Within Q (.otherwise p body)
  | elseIf {p cond body rest} : Q p → Expr.Within Q cond → Block.Within Q body →
      Branches.Within Q rest → Branches.Within Q (.elseIf p cond body rest)

end

/-- The first word of an expression is a part of it. -/
theorem Expr.Within.start {Q : Pos → Prop} {e : Expr} (within : e.Within Q) : Q e.start := by
  induction within with
  | int here | string here | boolie here | ident here => exact here
  | unary here _ _ | paren here _ _ | call here _ _ => exact here
  | binary _ _ _ left _ => exact left

/-! ## Spots -/

mutual

/-- The positions in an expression. -/
def Expr.spots : Expr → List Pos
  | .int p .. | .string p .. | .boolie p _ | .ident p _ => [p]
  | .unary p _ x => p :: x.spots
  | .binary p _ x y => x.spots ++ p :: y.spots
  | .paren p x => p :: x.spots
  | .call p _ args => p :: Expr.spotsAll args

/-- The positions in some expressions. -/
def Expr.spotsAll : List Expr → List Pos
  | [] => []
  | e :: es => e.spots ++ Expr.spotsAll es

end

theorem Expr.spotsAll_eq_flatMap (es : List Expr) : Expr.spotsAll es = es.flatMap Expr.spots := by
  induction es with
  | nil => rw [spotsAll, List.flatMap_nil]
  | cons e es ih => rw [spotsAll, List.flatMap_cons, ih]

/-- The positions in a parameter. -/
def Param.spots (p : Param) : List Pos := [p.typePos, p.namePos]

/-- The positions in a definition between its first word and its body. -/
def Header.spots (h : Header) : List Pos :=
  h.namePos :: (h.params.flatMap Param.spots ++ (h.returns.map Prod.fst).toList)

/-- Whether the statement is a bad one at a position. -/
def Stmt.isBadAt (p : Pos) : Stmt → Bool
  | .bad q _ => p = q
  | _ => false

mutual

/-- The positions in a statement. -/
def Stmt.spots : Stmt → List Pos
  | .block body => body.spots
  | .declare p _ np _ init => p :: np :: init.elim [] Expr.spots
  | .infer p np _ init => p :: np :: init.spots
  | .assign p _ value => p :: value.spots
  | .call p _ args => p :: Expr.spotsAll args
  | .define p header body => p :: (header.spots ++ body.spots)
  | .branch p cond body rest => p :: (cond.spots ++ (body.spots ++ rest.spots))
  | .loop p cond body => p :: (cond.spots ++ body.spots)
  | .returnWith p value => p :: value.elim [] Expr.spots
  | .maybe p e body => p :: (e.spots ++ body.spots)
  | .maybeOtherwise p e body op alternative =>
    p :: (e.spots ++ (body.spots ++ op :: alternative.spots))
  | .breakOut p | .continueOn p | .needs p .. | .bad p _ => [p]

/-- The positions in a block, its braces included. -/
def Block.spots : Block → List Pos
  | .mk start stop stmts => start :: (Stmt.spotsAll stop stmts ++ [stop])

/-- The positions in some statements that end before a position. -/
def Stmt.spotsAll (stop : Pos) : List Stmt → List Pos
  | [] => []
  | s :: ss => (if ss.isEmpty && s.isBadAt stop then [] else s.spots) ++ Stmt.spotsAll stop ss

/-- The positions in the arms after the first one. -/
def Branches.spots : Branches → List Pos
  | .done => []
  | .otherwise p body => p :: body.spots
  | .elseIf p cond body rest => p :: (cond.spots ++ (body.spots ++ rest.spots))

end

theorem Stmt.spots_of_isBadAt {stop : Pos} {s : Stmt} (bad : s.isBadAt stop = true) :
    s.spots = [stop] := by
  cases s with
  | bad q fault =>
      rw [Stmt.spots, of_decide_eq_true bad]
  | block | declare | infer | assign | call | define | branch | loop | breakOut | continueOn
  | returnWith | needs | maybe | maybeOtherwise => cases bad

theorem Stmt.mem_spotsAll (stop : Pos) {p : Pos} {s : Stmt} {ss : List Stmt} (member : s ∈ ss)
    (here : p ∈ s.spots) : p ∈ Stmt.spotsAll stop ss ∨ p = stop := by
  induction ss with
  | nil => cases member
  | cons x ss ih =>
      rw [Stmt.spotsAll]
      rcases List.mem_cons.mp member with rfl | member
      · split
        · next last =>
          rw [Stmt.spots_of_isBadAt (Bool.and_eq_true_iff.mp last).2] at here
          exact .inr (List.mem_singleton.mp here)
        · exact .inl (List.mem_append_left _ here)
      · exact (ih member).imp_left (List.mem_append_right _)

/-! ## Trees lie where their spots are -/

section Within

variable {Q : Pos → Prop}

theorem Expr.within_of_spots (e : Expr) (here : ∀ p ∈ e.spots, Q p) : e.Within Q := by
  induction e using Expr.induction with
  | int p s n => exact .int (here p (by simp [spots]))
  | string p s v => exact .string (here p (by simp [spots]))
  | boolie p b => exact .boolie (here p (by simp [spots]))
  | ident p x => exact .ident (here p (by simp [spots]))
  | unary p op x ih =>
      rw [spots, List.forall_mem_cons] at here
      exact .unary here.1 (ih here.2)
  | binary p op x y left right =>
      rw [spots, List.forall_mem_append, List.forall_mem_cons] at here
      exact .binary here.2.1 (left here.1) (right here.2.2)
  | paren p x ih =>
      rw [spots, List.forall_mem_cons] at here
      exact .paren here.1 (ih here.2)
  | call p f args ih =>
      rw [spots, List.forall_mem_cons, spotsAll_eq_flatMap] at here
      exact .call here.1 fun a member =>
        ih a member fun q inside => here.2 q (List.mem_flatMap_of_mem member inside)

theorem Expr.all_within_of_spots {es : List Expr} (here : ∀ p ∈ Expr.spotsAll es, Q p) :
    ∀ e ∈ es, e.Within Q := by
  intro e member
  rw [spotsAll_eq_flatMap] at here
  exact e.within_of_spots fun q inside => here q (List.mem_flatMap_of_mem member inside)

theorem Expr.option_within_of_spots {init : Option Expr}
    (here : ∀ p ∈ init.elim [] Expr.spots, Q p) : ∀ e ∈ init, e.Within Q := by
  rintro e rfl
  exact e.within_of_spots here

theorem Header.within_of_spots {h : Header} (here : ∀ p ∈ h.spots, Q p) : h.Within Q := by
  rw [spots, List.forall_mem_cons, List.forall_mem_append] at here
  refine ⟨here.1, fun p member => ?_⟩
  have inside : ∀ q ∈ p.spots, Q q :=
    fun q inside => here.2.1 q (List.mem_flatMap_of_mem member inside)
  exact ⟨inside p.typePos (List.mem_cons_self ..),
    inside p.namePos (List.mem_cons_of_mem _ (List.mem_cons_self ..))⟩

mutual

theorem Stmt.within_of_spots (s : Stmt) (here : ∀ p ∈ s.spots, Q p) : s.Within Q := by
  cases s <;> simp only [Stmt.spots, List.forall_mem_cons, List.forall_mem_append] at here
  case block body => exact .block (body.within_of_spots here)
  case declare p type np x init =>
    exact .declare here.1 here.2.1 (Expr.option_within_of_spots here.2.2)
  case infer p np x init => exact .infer here.2.1 (init.within_of_spots here.2.2)
  case assign p x value => exact .assign here.1 (value.within_of_spots here.2)
  case call p f args => exact .call here.1 (Expr.all_within_of_spots here.2)
  case define p header body =>
    exact .define here.1 (Header.within_of_spots here.2.1)
      (body.within_of_spots here.2.2)
  case branch p cond body rest =>
    exact .branch here.1 (cond.within_of_spots here.2.1) (body.within_of_spots here.2.2.1)
      (rest.within_of_spots here.2.2.2)
  case loop p cond body =>
    exact .loop here.1 (cond.within_of_spots here.2.1) (body.within_of_spots here.2.2)
  case breakOut p => exact .breakOut here.1
  case continueOn p => exact .continueOn here.1
  case needs p spelling path => exact .needs here.1
  case bad p fault => exact .bad here.1
  case returnWith p value => exact .returnWith here.1 (Expr.option_within_of_spots here.2)
  case maybe p e body =>
    exact .maybe here.1 (e.within_of_spots here.2.1) (body.within_of_spots here.2.2)
  case maybeOtherwise p e body op alternative =>
    exact .maybeOtherwise here.1 (e.within_of_spots here.2.1) (body.within_of_spots here.2.2.1)
      here.2.2.2.1 (alternative.within_of_spots here.2.2.2.2)

theorem Block.within_of_spots (body : Block) (here : ∀ p ∈ body.spots, Q p) : body.Within Q := by
  cases body with
  | mk start stop stmts =>
      rw [Block.spots, List.forall_mem_cons, List.forall_mem_append] at here
      have last := here.2.2 stop (List.mem_singleton_self _)
      exact .mk (Stmt.all_within_of_spots stmts here.2.1 last)

theorem Stmt.all_within_of_spots {stop : Pos} (ss : List Stmt)
    (here : ∀ p ∈ Stmt.spotsAll stop ss, Q p) (there : Q stop) : ∀ s ∈ ss, s.Within Q := by
  cases ss with
  | nil => exact List.forall_mem_nil _
  | cons s ss =>
      rw [Stmt.spotsAll, List.forall_mem_append] at here
      refine List.forall_mem_cons.mpr ⟨?_, Stmt.all_within_of_spots ss here.2 there⟩
      apply s.within_of_spots
      intro p member
      by_cases closing : (ss.isEmpty && s.isBadAt stop) = true
      · rw [Stmt.spots_of_isBadAt (Bool.and_eq_true_iff.mp closing).2, List.mem_singleton] at member
        rw [member]
        exact there
      · rw [if_neg closing] at here
        exact here.1 p member

theorem Branches.within_of_spots (rest : Branches) (here : ∀ p ∈ rest.spots, Q p) :
    rest.Within Q := by
  cases rest with
  | done => exact .done
  | otherwise p body =>
      rw [Branches.spots, List.forall_mem_cons] at here
      exact .otherwise (body.within_of_spots here.2)
  | elseIf p cond body rest =>
      rw [Branches.spots, List.forall_mem_cons, List.forall_mem_append, List.forall_mem_append]
        at here
      exact .elseIf here.1 (cond.within_of_spots here.2.1) (body.within_of_spots here.2.2.1)
        (rest.within_of_spots here.2.2.2)

end

/-- Every expression lies somewhere. -/
theorem Expr.within_anywhere (e : Expr) : e.Within fun _ => True :=
  e.within_of_spots fun _ _ => trivial

theorem Header.within_anywhere (h : Header) : h.Within fun _ => True :=
  Header.within_of_spots fun _ _ => trivial

theorem Stmt.within_anywhere (s : Stmt) : s.Within fun _ => True :=
  s.within_of_spots fun _ _ => trivial

theorem Block.within_anywhere (body : Block) : body.Within fun _ => True :=
  body.within_of_spots fun _ _ => trivial

theorem Stmt.all_within_anywhere (stmts : List Stmt) : ∀ s ∈ stmts, s.Within fun _ => True :=
  fun s _ => s.within_anywhere

theorem Branches.within_anywhere (rest : Branches) : rest.Within fun _ => True :=
  rest.within_of_spots fun _ _ => trivial

end Within

end Samo
