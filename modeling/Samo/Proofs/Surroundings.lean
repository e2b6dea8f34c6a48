import Samo.Proofs.Balance

/-!
# What is around a statement

A statement stands in blocks, in loops and in functions. `Program.surrounded` lists the statements
of a program in order, each with what is around it, the innermost first. A check comes to a
statement through just that: an `Occasion` is a moment of a check with what it went into on the way.
Where the check of a part gets to its end, it has come to every statement of the part
(`Occasion.reaches`).
-/

namespace Samo

open Check

/-! ## Surroundings -/

/-- Something that a statement can stand in. -/
inductive Surrounding where
  | block (start : Pos)
  | loop
  | function (header : Header)
deriving DecidableEq

namespace Surrounding

/-- Whether this is a function. -/
def isFunction : Surrounding → Bool
  | function _ => true
  | _ => false

/-- How many of the surroundings are loops, up to the innermost function. -/
def loops (around : List Surrounding) : Nat :=
  (around.takeWhile fun a => !a.isFunction).count .loop

/-- How many functions there are around. -/
def functions (around : List Surrounding) : Nat := around.countP isFunction

theorem functions_cons_function (header : Header) (around : List Surrounding) :
    functions (.function header :: around) = functions around + 1 :=
  List.countP_cons_of_pos rfl

theorem functions_le {around around' : List Surrounding} (outer : around <:+ around') :
    functions around ≤ functions around' := outer.sublist.countP_le

end Surrounding

mutual

/-- A statement and the statements in it, each with what is around it. -/
def Stmt.surrounded (around : List Surrounding) : Stmt → List (List Surrounding × Stmt)
  | .block body => body.surrounded around
  | .define pos header body =>
    (around, .define pos header body) :: body.surrounded (.function header :: around)
  | .branch pos cond body rest =>
    (around, .branch pos cond body rest) :: (body.surrounded around ++ rest.surrounded around)
  | .loop pos cond body => (around, .loop pos cond body) :: body.surrounded (.loop :: around)
  | .maybe pos probability body => (around, .maybe pos probability body) :: body.surrounded around
  | .maybeOtherwise pos probability body otherwisePos alternative =>
    (around, .maybeOtherwise pos probability body otherwisePos alternative) ::
      (body.surrounded around ++ alternative.surrounded around)
  | s@(.declare ..) | s@(.infer ..) | s@(.assign ..) | s@(.call ..) | s@(.breakOut _)
  | s@(.continueOn _) | s@(.returnWith ..) | s@(.needs ..) | s@(.bad ..) => [(around, s)]

/-- A block and the statements in it. -/
def Block.surrounded (around : List Surrounding) : Block → List (List Surrounding × Stmt)
  | .mk start stop stmts =>
    (around, .block (.mk start stop stmts)) :: Stmt.surroundedAll (.block start :: around) stmts

/-- Some statements in a row and the statements in them. -/
def Stmt.surroundedAll (around : List Surrounding) : List Stmt → List (List Surrounding × Stmt)
  | [] => []
  | s :: ss => s.surrounded around ++ Stmt.surroundedAll around ss

/-- The statements in the arms after the first one. -/
def Branches.surrounded (around : List Surrounding) : Branches → List (List Surrounding × Stmt)
  | .done => []
  | .otherwise _ body => body.surrounded around
  | .elseIf _ _ body rest => body.surrounded around ++ rest.surrounded around

end

/-- Every statement of a program with what is around it. -/
def Program.surrounded (program : Program) : List (List Surrounding × Stmt) :=
  Stmt.surroundedAll [] program

/-! ## Statements among nodes -/

/-- The node as a statement, if it is one. -/
def Node.stmt? : Node → Option Stmt
  | stmt s => some s
  | expr _ => none

/-- The statements among some nodes. -/
def Node.stmts (nodes : List Node) : List Stmt := nodes.filterMap stmt?

namespace Node

@[simp] theorem stmts_nil : stmts [] = [] := rfl

@[simp] theorem stmts_cons_stmt (s : Stmt) (ns : List Node) :
    stmts (.stmt s :: ns) = s :: stmts ns := rfl

@[simp] theorem stmts_cons_expr (e : Expr) (ns : List Node) :
    stmts (.expr e :: ns) = stmts ns := rfl

@[simp] theorem stmts_append (ns ms : List Node) : stmts (ns ++ ms) = stmts ns ++ stmts ms :=
  List.filterMap_append

end Node

/-- There are no statements in an expression. -/
@[simp] theorem Expr.stmts_visited (enter : Node → Bool) (e : Expr) :
    Node.stmts (e.visited enter) = [] := by
  have step {e : Expr} {ns : List Node} (none : Node.stmts ns = []) :
      Node.stmts (.expr e :: if enter (.expr e) then ns else []) = [] := by
    split
    · exact none
    · rfl
  induction e using Expr.induction with
  | int | string | boolie | ident =>
      rw [Expr.visited]
      rfl
  | unary p op x ih =>
      rw [Expr.visited]
      exact step ih
  | binary p op x y left right =>
      rw [Expr.visited]
      exact step (by rw [Node.stmts_append, left, right, List.append_nil])
  | paren p x ih =>
      rw [Expr.visited]
      exact step ih
  | call p f args ih =>
      rw [Expr.visited]
      refine step ?_
      induction args with
      | nil =>
          rw [Expr.visitedAll]
          rfl
      | cons a args others =>
          obtain ⟨first, rest⟩ := List.forall_mem_cons.mp ih
          rw [Expr.visitedAll, Node.stmts_append, first, others rest, List.append_nil]

theorem Expr.stmts_visited_elim (enter : Node → Bool) (init : Option Expr) :
    Node.stmts (init.elim [] (·.visited enter)) = [] := by
  cases init with
  | none => rfl
  | some e => exact e.stmts_visited enter

mutual

theorem Stmt.map_surrounded (around : List Surrounding) (stmt : Stmt) :
    (stmt.surrounded around).map Prod.snd = Node.stmts (stmt.visited fun _ => true) := by
  cases stmt with
  | block body =>
      rw [Stmt.surrounded, Stmt.visited]
      exact body.map_surrounded around
  | define pos header body => simp [Stmt.surrounded, Stmt.visited, body.map_surrounded]
  | branch pos cond body rest =>
      simp [Stmt.surrounded, Stmt.visited, body.map_surrounded, rest.map_surrounded]
  | loop pos cond body => simp [Stmt.surrounded, Stmt.visited, body.map_surrounded]
  | maybe pos probability body => simp [Stmt.surrounded, Stmt.visited, body.map_surrounded]
  | maybeOtherwise pos probability body otherwisePos alternative =>
      simp [Stmt.surrounded, Stmt.visited, body.map_surrounded, alternative.map_surrounded]
  | declare pos type namePos name init | returnWith pos init =>
      simp [Stmt.surrounded, Stmt.visited, Expr.stmts_visited_elim]
  | infer | assign | call | breakOut | continueOn | needs | bad =>
      simp [Stmt.surrounded, Stmt.visited]

theorem Block.map_surrounded (around : List Surrounding) (body : Block) :
    (body.surrounded around).map Prod.snd = Node.stmts (body.visited fun _ => true) := by
  cases body with
  | mk start stop stmts => simp [Block.surrounded, Block.visited, Stmt.map_surroundedAll]

theorem Stmt.map_surroundedAll (around : List Surrounding) (stmts : List Stmt) :
    (Stmt.surroundedAll around stmts).map Prod.snd =
      Node.stmts (Stmt.visitedAll (fun _ => true) stmts) := by
  cases stmts with
  | nil => simp [Stmt.surroundedAll, Stmt.visitedAll]
  | cons stmt stmts =>
      simp [Stmt.surroundedAll, Stmt.visitedAll, stmt.map_surrounded, Stmt.map_surroundedAll]

theorem Branches.map_surrounded (around : List Surrounding) (rest : Branches) :
    (rest.surrounded around).map Prod.snd = Node.stmts (rest.visited fun _ => true) := by
  cases rest with
  | done => simp [Branches.surrounded, Branches.visited]
  | otherwise pos body => simp [Branches.surrounded, Branches.visited, body.map_surrounded]
  | elseIf pos cond body rest =>
      simp [Branches.surrounded, Branches.visited, body.map_surrounded, rest.map_surrounded]

end

/-! ## Surroundings only grow inwards -/

mutual

theorem Stmt.around_suffix {around : List Surrounding} (stmt : Stmt) :
    ∀ x ∈ stmt.surrounded around, around <:+ x.1 := by
  cases stmt <;> rw [Stmt.surrounded]
  case block body => exact body.around_suffix
  case define pos header body =>
    refine List.forall_mem_cons.mpr ⟨List.suffix_refl _, fun x member => ?_⟩
    exact (List.suffix_cons _ _).trans (body.around_suffix x member)
  case branch pos cond body rest =>
    exact List.forall_mem_cons.mpr ⟨List.suffix_refl _,
      List.forall_mem_append.mpr ⟨body.around_suffix, rest.around_suffix⟩⟩
  case loop pos cond body =>
    refine List.forall_mem_cons.mpr ⟨List.suffix_refl _, fun x member => ?_⟩
    exact (List.suffix_cons _ _).trans (body.around_suffix x member)
  case maybe pos probability body =>
    exact List.forall_mem_cons.mpr ⟨List.suffix_refl _, body.around_suffix⟩
  case maybeOtherwise pos probability body otherwisePos alternative =>
    exact List.forall_mem_cons.mpr ⟨List.suffix_refl _,
      List.forall_mem_append.mpr ⟨body.around_suffix, alternative.around_suffix⟩⟩
  case declare | infer | assign | call | breakOut | continueOn | returnWith | needs | bad =>
    exact List.forall_mem_singleton.mpr (List.suffix_refl _)

theorem Block.around_suffix {around : List Surrounding} (body : Block) :
    ∀ x ∈ body.surrounded around, around <:+ x.1 := by
  cases body with
  | mk start stop stmts =>
      rw [Block.surrounded]
      refine List.forall_mem_cons.mpr ⟨List.suffix_refl _, fun x member => ?_⟩
      exact (List.suffix_cons _ _).trans (Stmt.around_suffixAll stmts x member)

theorem Stmt.around_suffixAll {around : List Surrounding} (stmts : List Stmt) :
    ∀ x ∈ Stmt.surroundedAll around stmts, around <:+ x.1 := by
  cases stmts with
  | nil =>
      rw [Stmt.surroundedAll]
      exact List.forall_mem_nil _
  | cons stmt stmts =>
      rw [Stmt.surroundedAll]
      exact List.forall_mem_append.mpr ⟨stmt.around_suffix, Stmt.around_suffixAll stmts⟩

theorem Branches.around_suffix {around : List Surrounding} (rest : Branches) :
    ∀ x ∈ rest.surrounded around, around <:+ x.1 := by
  cases rest with
  | done =>
      rw [Branches.surrounded]
      exact List.forall_mem_nil _
  | otherwise pos body =>
      rw [Branches.surrounded]
      exact body.around_suffix
  | elseIf pos cond body rest =>
      rw [Branches.surrounded]
      exact List.forall_mem_append.mpr ⟨body.around_suffix, rest.around_suffix⟩

end

namespace Part

/-- What a part is for the parts in it. -/
def surrounds : Part → List Surrounding
  | block _ body => [.block body.start]
  | stmt (.loop ..) => [.loop]
  | stmt (.define _ header _) => [.function header]
  | _ => []

/-- The statements of a part, each with what is around it. -/
def surrounded (around : List Surrounding) : Part → List (List Surrounding × Stmt)
  | stmt st => st.surrounded around
  | block _ body => body.surrounded around
  | stmts sts => Stmt.surroundedAll around sts
  | branches rest => rest.surrounded around

/-- The statement that the part is, if it is one. -/
def stmt? : Part → Option Stmt
  | stmt st => some st
  | block _ body => some (.block body)
  | _ => none

theorem around_suffix {around : List Surrounding} {part : Part} :
    ∀ x ∈ part.surrounded around, around <:+ x.1 := by
  cases part with
  | stmt st => exact st.around_suffix
  | block mode body => exact body.around_suffix
  | stmts sts => exact Stmt.around_suffixAll sts
  | branches rest => exact rest.around_suffix

theorem mem_surrounded {around : List Surrounding} {part : Part} {st : Stmt}
    (shown : part.stmt? = some st) : (around, st) ∈ part.surrounded around := by
  have head : ∀ body : Block, (around, .block body) ∈ body.surrounded around := by
    rintro ⟨start, stop, stmts⟩
    rw [Block.surrounded]
    exact List.mem_cons_self
  cases part with
  | block mode body =>
      cases shown
      exact head body
  | stmts sts | branches rest => cases shown
  | stmt st =>
      cases shown
      show _ ∈ st.surrounded around
      cases st with
      | block body =>
          rw [Stmt.surrounded]
          exact head body
      | _ =>
          rw [Stmt.surrounded]
          exact List.mem_cons_self

/-- Only a block is also a part of another kind. -/
theorem eq_stmt_of_stmt? {part : Part} {st : Stmt} (shown : part.stmt? = some st)
    (plain : ∀ body, st ≠ .block body) : part = .stmt st := by
  cases part with
  | stmt st => cases shown; rfl
  | block mode body =>
      cases shown
      exact absurd rfl (plain body)
  | stmts sts | branches rest => cases shown

end Part

/-! ## Occasions -/

/-- A moment of a check, and what the check went into on the way to it, the innermost first. -/
structure Occasion where
  around : List Surrounding
  moment : Moment

namespace Occasion

/-- The check comes from one part to a part in it. -/
structure Next (x y : Occasion) : Prop where
  moment : x.moment.Next y.moment
  around : y.around = x.moment.part.surrounds ++ x.around

/-- The occasions of the check of a program. -/
def Of (program : Program) (s : State) (x : Occasion) : Prop :=
  Relation.ReflTransGen Next ⟨[], ⟨.stmts program, s⟩⟩ x

variable {program : Program} {s : State} {x y : Occasion}

theorem moments_of_steps (steps : Relation.ReflTransGen Next x y) :
    Relation.ReflTransGen Moment.Next x.moment y.moment :=
  steps.lift Occasion.moment fun _ _ next => next.moment

theorem Of.moment (reached : Of program s x) : Moment.Of program s x.moment :=
  moments_of_steps reached

/-- Every moment of a check is an occasion of it. -/
theorem exists_of {m : Moment} (reached : Moment.Of program s m) :
    ∃ around, Of program s ⟨around, m⟩ := by
  induction reached with
  | refl => exact ⟨[], .refl⟩
  | @tail m m' _ next ih =>
      obtain ⟨around, before⟩ := ih
      exact ⟨m.part.surrounds ++ around, before.tail ⟨next, rfl⟩⟩

/-- What stands in the next part stands in the part it comes from. -/
theorem Next.surrounded_subset (next : x.Next y) :
    y.moment.part.surrounded y.around ⊆ x.moment.part.surrounded x.around := by
  obtain ⟨around, m⟩ := x
  obtain ⟨around', m'⟩ := y
  obtain ⟨next, rfl⟩ := next
  dsimp only at next ⊢
  cases next with
  | first =>
      dsimp only [Part.surrounded]
      rw [Stmt.surroundedAll]
      exact List.subset_append_left _ _
  | others =>
      dsimp only [Part.surrounded]
      rw [Stmt.surroundedAll]
      exact List.subset_append_right _ _
  | enter =>
      dsimp only [Part.surrounded]
      rw [Block.surrounded]
      exact List.subset_cons_self _ _
  | block =>
      dsimp only [Part.surrounded]
      rw [Stmt.surrounded]
      exact List.Subset.refl _
  | function | loop | maybe =>
      dsimp only [Part.surrounded]
      rw [Stmt.surrounded]
      exact List.subset_cons_self _ _
  | branch | maybeBody =>
      dsimp only [Part.surrounded]
      rw [Stmt.surrounded]
      exact List.subset_cons_of_subset _ (List.subset_append_left _ _)
  | arms | alternative =>
      dsimp only [Part.surrounded]
      rw [Stmt.surrounded]
      exact List.subset_cons_of_subset _ (List.subset_append_right _ _)
  | otherwise =>
      dsimp only [Part.surrounded]
      rw [Branches.surrounded]
      exact List.Subset.refl _
  | elseIf =>
      dsimp only [Part.surrounded]
      rw [Branches.surrounded]
      exact List.subset_append_left _ _
  | moreArms =>
      dsimp only [Part.surrounded]
      rw [Branches.surrounded]
      exact List.subset_append_right _ _

theorem surrounded_subset (steps : Relation.ReflTransGen Next x y) :
    y.moment.part.surrounded y.around ⊆ x.moment.part.surrounded x.around := by
  induction steps with
  | refl => exact List.Subset.refl _
  | tail _ next ih => exact List.Subset.trans next.surrounded_subset ih

/-- A check comes to the statements of its program, each in what is around it there. -/
theorem Of.listed (reached : Of program s x) {st : Stmt}
    (shown : x.moment.part.stmt? = some st) : (x.around, st) ∈ program.surrounded :=
  surrounded_subset reached (Part.mem_surrounded shown)

end Occasion

/-! ## A check that gets to its end comes to every statement -/

namespace Moment

variable {m m' : Moment} {around : List Surrounding} {z : List Surrounding × Stmt} {r : State}

/-- What is known when a check gets to its end and a statement of its part is looked for: the
statement is the part, or it stands in the next part. -/
def Leads (m : Moment) (around : List Surrounding) (z : List Surrounding × Stmt) : Prop :=
  (z.1 = around ∧ m.part.stmt? = some z.2) ∨
    ∃ m', m.Next m' ∧ z ∈ m'.part.surrounded (m.part.surrounds ++ around)

/-- A statement in a function is not found in a definition that begins no function. On the way to a
quiet end every definition begins one. -/
def Seeks (r : State) (around : List Surrounding) (z : List Surrounding × Stmt) : Prop :=
  r.Quiet ∨ Surrounding.functions z.1 = Surrounding.functions around

section

variable {s : State}

/-- No function is begun only with a report. -/
theorem begins_of_quiet {pos : Pos} {header : Header} {found : Option Function}
    (run : beginFunction pos header s = .ok found r) (quiet : r.Quiet) : found.isSome = true := by
  obtain ⟨r', begun⟩ := (Disciplined.beginFunction pos header).stopping_ok run quiet
  exact beginFunction_isSome (policy_stopping s) begun

theorem define_leads {pos : Pos} {header : Header} {body : Block}
    (run : (Stmt.define pos header body).check s = .ok () r) (seeks : Seeks r around z)
    (member : z ∈ (Stmt.define pos header body).surrounded around) :
    Leads ⟨.stmt (.define pos header body), s⟩ around z := by
  rw [Stmt.surrounded] at member
  rw [Stmt.check] at run
  rcases List.mem_cons.mp member with rfl | inside
  · exact .inl ⟨rfl, rfl⟩
  obtain ⟨found, s₁, begun, run⟩ := bind_eq_ok_iff.mp run
  cases found with
  | none =>
      rcases seeks with quiet | same
      · cases run
        cases begins_of_quiet begun quiet
      · have more := Surrounding.functions_le (body.around_suffix z inside)
        rw [Surrounding.functions_cons_function, same] at more
        exact absurd more (Nat.not_succ_le_self _)
  | some f => exact .inr ⟨_, .function begun, inside⟩

theorem stmt_leads (st : Stmt) (run : st.check s = .ok () r) (seeks : Seeks r around z)
    (member : z ∈ st.surrounded around) : Leads ⟨.stmt st, s⟩ around z := by
  cases st <;> rw [Stmt.surrounded] at member
  case block body => exact .inr ⟨_, .block, member⟩
  case define pos header body => exact define_leads run seeks member
  case branch pos cond body rest =>
    rw [Stmt.check] at run
    obtain ⟨u, s₁, condition, run⟩ := bind_eq_ok_iff.mp run
    obtain ⟨u, s₂, checked, -⟩ := bind_eq_ok_iff.mp run
    rcases List.mem_cons.mp member with rfl | inside
    · exact .inl ⟨rfl, rfl⟩
    rcases List.mem_append.mp inside with first | others
    · exact .inr ⟨_, .branch condition, first⟩
    · exact .inr ⟨_, .arms condition checked, others⟩
  case loop pos cond body =>
    rw [Stmt.check] at run
    obtain ⟨u, s₁, condition, -⟩ := bind_eq_ok_iff.mp run
    rcases List.mem_cons.mp member with rfl | inside
    · exact .inl ⟨rfl, rfl⟩
    · exact .inr ⟨_, .loop condition, inside⟩
  case maybe pos probability body =>
    rw [Stmt.check] at run
    obtain ⟨u, s₁, chance, run⟩ := bind_eq_ok_iff.mp run
    obtain ⟨u, s₂, probable, -⟩ := bind_eq_ok_iff.mp run
    rcases List.mem_cons.mp member with rfl | inside
    · exact .inl ⟨rfl, rfl⟩
    · exact .inr ⟨_, .maybe chance probable, inside⟩
  case maybeOtherwise pos probability body otherwisePos alternative =>
    rw [Stmt.check] at run
    obtain ⟨u, s₁, chance, run⟩ := bind_eq_ok_iff.mp run
    obtain ⟨u, s₂, feasible, run⟩ := bind_eq_ok_iff.mp run
    obtain ⟨s₃, inner, -⟩ := inUncertainty_ok run
    obtain ⟨u, s₄, checked, -⟩ := bind_eq_ok_iff.mp inner
    rcases List.mem_cons.mp member with rfl | inside
    · exact .inl ⟨rfl, rfl⟩
    rcases List.mem_append.mp inside with first | second
    · exact .inr ⟨_, .maybeBody chance feasible, first⟩
    · exact .inr ⟨_, .alternative chance feasible checked, second⟩
  case declare | infer | assign | call | breakOut | continueOn | returnWith | needs | bad =>
    cases List.mem_singleton.mp member
    exact .inl ⟨rfl, rfl⟩

end

/-- A check that gets to its end leads to each statement of its part. -/
theorem leads (wf : m.state.symbols.WellFormed) (run : m.part.check m.state = .ok () r)
    (seeks : Seeks r around z) (member : z ∈ m.part.surrounded around) : m.Leads around z := by
  obtain ⟨part, s⟩ := m
  cases part with
  | stmt st => exact stmt_leads st run seeks member
  | block mode body =>
      cases body with
      | mk start stop stmts =>
          dsimp only [Part.surrounded] at member
          rw [Block.surrounded] at member
          -- either the block itself is looked for, or something in it
          rcases List.mem_cons.mp member with rfl | inside
          · exact .inl ⟨rfl, rfl⟩
          · exact .inr ⟨_, .enter, inside⟩
  | stmts sts =>
      cases sts with
      | nil =>
          dsimp only [Part.surrounded] at member
          rw [Stmt.surroundedAll] at member
          cases member
      | cons st sts =>
          dsimp only [Part.surrounded] at member
          dsimp only [Part.check] at run
          rw [Stmt.surroundedAll] at member
          rw [Stmt.checkAll] at run
          obtain ⟨u, s₁, done, -⟩ := bind_eq_ok_iff.mp run
          rcases List.mem_append.mp member with first | later
          · exact .inr ⟨_, .first, first⟩
          · exact .inr ⟨_, .others done, later⟩
  | branches rest =>
      dsimp only [Part.surrounded] at member
      dsimp only [Part.check] at run
      cases rest with
      | done =>
          rw [Branches.surrounded] at member
          cases member
      | otherwise pos body =>
          rw [Branches.surrounded] at member
          exact .inr ⟨_, .otherwise, member⟩
      | elseIf pos cond body rest =>
          rw [Branches.surrounded] at member
          rw [Branches.check] at run
          obtain ⟨u, s₁, condition, run⟩ := bind_eq_ok_iff.mp run
          obtain ⟨u, s₂, checked, -⟩ := bind_eq_ok_iff.mp run
          rcases List.mem_append.mp member with first | others
          · exact .inr ⟨_, .elseIf condition, first⟩
          · exact .inr ⟨_, .moreArms condition checked, others⟩

/-- What is looked for in a part is looked for in the next one. -/
theorem Seeks.next (seeks : Seeks r around z) {r' : State} (later : r'.Extends r)
    (member : z ∈ m'.part.surrounded (m.part.surrounds ++ around)) :
    Seeks r' (m.part.surrounds ++ around) z := by
  rcases seeks with quiet | same
  · exact .inl (quiet.earlier later)
  · refine .inr (Nat.le_antisymm ?_ (Surrounding.functions_le (Part.around_suffix z member)))
    rw [same]
    exact Surrounding.functions_le (List.suffix_append _ _)

end Moment

/-- A check that gets to its end has come to each statement of its part, through what is around it.
-/
theorem Occasion.reaches {x : Occasion} {z : List Surrounding × Stmt} {r : State}
    (sound : x.moment.Sound) (run : x.moment.part.check x.moment.state = .ok () r)
    (seeks : Moment.Seeks r x.around z) (member : z ∈ x.moment.part.surrounded x.around) :
    ∃ m, Relation.ReflTransGen Next x ⟨z.1, m⟩ ∧ m.part.stmt? = some z.2 := by
  obtain ⟨around, m⟩ := x
  dsimp only at sound run seeks member
  generalize size : m.part.size = n
  induction n using Nat.strong_induction_on generalizing m around r with
  | _ n ih =>
      rcases m.leads sound.wellFormed run seeks member with ⟨rfl, shown⟩ | ⟨m', next, inside⟩
      · exact ⟨m, .refl, shown⟩
      · obtain ⟨r', run', -, later⟩ := next.finishes sound run
        obtain ⟨m'', steps, shown⟩ := ih _ (size ▸ next.size_lt) _ m' (next.sound sound) run'
          (seeks.next later inside) inside rfl
        exact ⟨m'', steps.head ⟨next, rfl⟩, shown⟩

/-- The check of an accepted program comes to each of its statements. -/
theorem Program.Accepted.reaches {program : Program} {o : Options} {file : String}
    {builtins : Registry} {log : Log} {z : List Surrounding × Stmt}
    (accepted : program.Accepted (o.initialState file builtins log))
    (member : z ∈ program.surrounded) :
    ∃ m, Occasion.Of program (o.initialState file builtins log) ⟨z.1, m⟩ ∧
      m.part.stmt? = some z.2 := by
  obtain ⟨r, run, quiet⟩ := accepted.quiet
  have sound := Moment.sound_init o file builtins log program
  exact Occasion.reaches (x := ⟨[], ⟨.stmts program, _⟩⟩) sound run (.inl quiet) member

end Samo
