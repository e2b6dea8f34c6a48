import Samo.Proofs.Unwinding

/-!
# Where a scoped visit goes

`Stmt.sites` lists the statements that `Stmt.visitScoped` visits, each with the opening braces it
enters on the way. A visit that only reads the symbol table goes well as a whole exactly if it goes
well at each site, in the scope of the innermost of these blocks (`Block.visitScoped_iff`).
-/

namespace Samo

/-! ## Sites -/

mutual

/-- The statements visited from a statement on, with the blocks entered on the way. -/
def Stmt.sites : Stmt → List (List Pos × Stmt)
  | .block body => ([], .block body) :: body.sites
  | .branch pos cond body rest =>
    ([], .branch pos cond body rest) :: ([], .block body) :: (body.sites ++ rest.sites)
  | .loop pos cond body => ([], .loop pos cond body) :: ([], .block body) :: body.sites
  | .maybe pos probability body => ([], .maybe pos probability body) :: body.sites
  | .maybeOtherwise pos probability body otherwisePos alternative =>
    ([], .maybeOtherwise pos probability body otherwisePos alternative) ::
      (body.sites ++ alternative.sites)
  | s@(.declare ..) | s@(.infer ..) | s@(.assign ..) | s@(.call ..) | s@(.define ..)
  | s@(.breakOut _) | s@(.continueOn _) | s@(.returnWith ..) | s@(.needs ..) | s@(.bad ..) =>
    [([], s)]

/-- The sites in a block, which is entered on the way. -/
def Block.sites : Block → List (List Pos × Stmt)
  | .mk start _ stmts => (Stmt.sitesAll stmts).map fun x => (start :: x.1, x.2)

def Stmt.sitesAll : List Stmt → List (List Pos × Stmt)
  | [] => []
  | s :: ss => s.sites ++ Stmt.sitesAll ss

def Branches.sites : Branches → List (List Pos × Stmt)
  | .done => []
  | .otherwise _ body => ([], .block body) :: body.sites
  | .elseIf _ _ body rest => ([], .block body) :: (body.sites ++ rest.sites)

end

/-! ## Going well -/

namespace Check

variable {α : Type}

/-- The state after entering the scopes of some blocks, the outermost first. -/
def State.enteringAll (s : State) (starts : List Pos) : State := starts.foldl State.entering s

/-- A step gets to its end, and everything it gives is as it should be. -/
def Yields (P : α → Prop) (m : Check (List α)) (s : State) : Prop :=
  ∃ vs s', m s = .ok vs s' ∧ ∀ v ∈ vs, P v

/-- Two steps one after the other. -/
def andThen (m m' : Check (List α)) : Check (List α) := do
  let here ← m
  let others ← m'
  return here ++ others

theorem ReadsTable.andThen {m m' : Check (List α)} (first : ReadsTable m)
    (second : ReadsTable m') : ReadsTable (andThen m m') :=
  first.bind fun _ => second.bind fun _ => .pure _

theorem yields_pure_nil (P : α → Prop) (s : State) : Yields P (pure []) s :=
  ⟨[], s, rfl, fun _ member => nomatch member⟩

theorem Yields.of_alike {P : α → Prop} {m : Check (List α)} (reads : ReadsTable m) {s r : State}
    (alike : r.Alike s) (yields : Yields P m s) : Yields P m r := by
  obtain ⟨vs, s', run, right⟩ := yields
  obtain ⟨r', run⟩ := reads.transfer run alike
  exact ⟨vs, r', run, right⟩

/-- Two steps that only read go well one after the other if each goes well by itself. -/
theorem yields_andThen_iff {P : α → Prop} {m m' : Check (List α)} (reads : ReadsTable m)
    (reads' : ReadsTable m') {s : State} :
    Yields P (andThen m m') s ↔ Yields P m s ∧ Yields P m' s := by
  constructor
  · rintro ⟨vs, s', run, right⟩
    obtain ⟨here, s₁, first, rest⟩ := bind_eq_ok_iff.mp run
    obtain ⟨others, s₂, second, given⟩ := bind_eq_ok_iff.mp rest
    obtain ⟨rfl, -⟩ := pure_eq_ok_iff.mp given
    refine ⟨⟨here, s₁, first, fun v member => right v (List.mem_append_left _ member)⟩, ?_⟩
    refine Yields.of_alike reads' (reads.alike first) ⟨others, s₂, second, fun v member => ?_⟩
    exact right v (List.mem_append_right _ member)
  · rintro ⟨⟨here, s₁, first, right⟩, yields⟩
    obtain ⟨others, s₂, second, right'⟩ := yields.of_alike reads' (reads.alike first).symm
    refine ⟨here ++ others, s₂, ?_, fun v member => ?_⟩
    · rw [andThen, bind_ok first, bind_ok second]
      rfl
    · rcases List.mem_append.mp member with member | member
      · exact right v member
      · exact right' v member

end Check

/-! ## One visit after the other -/

section

variable {α : Type} {visit : Stmt → Check (List α)}

namespace Check

/-- The visit of a statement in the scopes of the blocks on the way to it. Wherever it ends, the
table is the one from before again. -/
def visitAt (visit : Stmt → Check (List α)) (x : List Pos × Stmt) : Check (List α) := fun s =>
  ensuring (visit x.2) (fun r => { r with symbols := s.symbols }) (s.enteringAll x.1)

/-- Visits at some sites, one after the other. -/
def visitEach (visit : Stmt → Check (List α)) : List (List Pos × Stmt) → Check (List α)
  | [] => pure []
  | x :: xs => andThen (visitAt visit x) (visitEach visit xs)

theorem visitAt_keeps (x : List Pos × Stmt) : Leaves State.SameTable (visitAt visit x) := by
  intro s
  unfold visitAt ensuring
  split
  · rfl
  · rfl

theorem andThen_assoc (m₁ m₂ m₃ : Check (List α)) :
    andThen (andThen m₁ m₂) m₃ = andThen m₁ (andThen m₂ m₃) := by
  simp only [andThen, bind_assoc, pure_bind, List.append_assoc]

theorem visitEach_append (sites sites' : List (List Pos × Stmt)) :
    visitEach visit (sites ++ sites') =
      andThen (visitEach visit sites) (visitEach visit sites') := by
  induction sites with
  | nil => simp [visitEach, andThen]
  | cons x sites ih => rw [List.cons_append, visitEach, ih, visitEach, andThen_assoc]

/-- A statement that is in no block is visited where the visit starts. -/
theorem visitAt_nil (keeps : ∀ stmt, Leaves State.SameTable (visit stmt)) (stmt : Stmt) :
    visitAt visit ([], stmt) = visit stmt := by
  funext s
  have kept := keeps stmt s
  show ensuring (visit stmt) _ s = _
  unfold ensuring
  cases run : visit stmt s with
  | ok here s₁ =>
      rw [run] at kept
      obtain kept : s₁.symbols = s.symbols := kept
      rw [← kept]
  | error h s₁ =>
      rw [run] at kept
      obtain kept : s₁.symbols = s.symbols := kept
      rw [← kept]

theorem inScopeOf_of_none {m : Check α} {start : Pos} {s : State}
    (jump : s.symbols.goTo? start = none) : inScopeOf start m s = m s := by
  unfold inScopeOf
  rw [jump]

theorem inScopeOf_of_some {m : Check α} {start : Pos} {s : State} {t : SymbolTable}
    (jump : s.symbols.goTo? start = some t) :
    inScopeOf start m s =
      ensuring m (fun s => { s with symbols := s.symbols.restore }) { s with symbols := t } := by
  unfold inScopeOf
  rw [jump]

/-- A block is entered before the blocks in it. -/
theorem inScopeOf_visitAt (start : Pos) (x : List Pos × Stmt) :
    inScopeOf start (visitAt visit x) = visitAt visit (start :: x.1, x.2) := by
  funext s
  show _ = ensuring (visit x.2) _ ((s.entering start).enteringAll x.1)
  unfold State.entering
  cases jump : s.symbols.goTo? start with
  | none =>
      rw [inScopeOf_of_none jump]
      rfl
  | some t =>
      rw [inScopeOf_of_some jump]
      show _ = ensuring (visit x.2) _ (State.enteringAll { s with symbols := t } x.1)
      unfold ensuring visitAt ensuring
      cases run : visit x.2 (State.enteringAll { s with symbols := t } x.1) with
      | ok here s₁ => simp only [restore_of_goTo? jump]
      | error h s₁ => simp only [restore_of_goTo? jump]

/-- A block may be left and entered again between two steps, if the first leaves the table alone. -/
theorem inScopeOf_andThen (start : Pos) {m : Check (List α)} (keeps : Leaves State.SameTable m)
    (m' : Check (List α)) :
    inScopeOf start (andThen m m') = andThen (inScopeOf start m) (inScopeOf start m') := by
  funext s
  unfold andThen
  cases jump : s.symbols.goTo? start with
  | none =>
      rw [inScopeOf_of_none jump]
      cases run : m s with
      | error h s₁ => rw [bind_error run, bind_error ((inScopeOf_of_none jump).trans run)]
      | ok here s₁ =>
          have same : s₁.symbols = s.symbols := keeps.of_ok run
          have again : s₁.symbols.goTo? start = none := by rw [same, jump]
          rw [bind_ok run, bind_ok ((inScopeOf_of_none jump).trans run)]
          cases run' : m' s₁ with
          | error h s₂ => rw [bind_error run', bind_error ((inScopeOf_of_none again).trans run')]
          | ok others s₂ => rw [bind_ok run', bind_ok ((inScopeOf_of_none again).trans run')]
  | some t =>
      rw [inScopeOf_of_some jump]
      cases run : m { s with symbols := t } with
      | error h s₁ =>
          have inner : inScopeOf start m s =
              .error h { s₁ with symbols := s₁.symbols.restore } := by
            rw [inScopeOf_of_some jump, ensuring, run]
          rw [bind_error inner, ensuring, bind_error run]
      | ok here s₁ =>
          -- the step leaves the block as it found it, so it is entered again in the same state
          have same : s₁.symbols = t := keeps.of_ok run
          have inner : inScopeOf start m s = .ok here { s₁ with symbols := s.symbols } := by
            rw [inScopeOf_of_some jump, ensuring, run]
            dsimp only
            rw [same, restore_of_goTo? jump]
          have again : inScopeOf start m' { s₁ with symbols := s.symbols } =
              ensuring m' (fun s => { s with symbols := s.symbols.restore }) s₁ := by
            rw [inScopeOf_of_some (by exact jump), ← same]
          rw [bind_ok inner, ensuring, bind_ok run]
          cases run' : m' s₁ with
          | error h s₂ =>
              have second := again
              rw [ensuring, run'] at second
              rw [bind_error run', bind_error second]
          | ok others s₂ =>
              have second := again
              rw [ensuring, run'] at second
              rw [bind_ok run', bind_ok second]
              rfl

theorem inScopeOf_visitEach (start : Pos) (sites : List (List Pos × Stmt)) :
    inScopeOf start (visitEach visit sites) =
      visitEach visit (sites.map fun x => (start :: x.1, x.2)) := by
  induction sites with
  | nil =>
      funext s
      cases jump : s.symbols.goTo? start with
      | none => exact inScopeOf_of_none jump
      | some t =>
          rw [inScopeOf_of_some jump]
          show EStateM.Result.ok [] { s with symbols := t.restore } = .ok [] s
          rw [restore_of_goTo? jump]
  | cons x sites ih =>
      rw [visitEach, inScopeOf_andThen start (visitAt_keeps x), inScopeOf_visitAt, ih,
        List.map_cons, visitEach]

end Check

open Check

mutual

/-- What is visited from a statement on, one statement after the other. -/
theorem Stmt.visitScoped_eq_visitEach (keeps : ∀ stmt, Leaves State.SameTable (visit stmt))
    (stmt : Stmt) : stmt.visitScoped visit = visitEach visit stmt.sites := by
  have here := visitAt_nil keeps
  cases stmt with
  | block body =>
      rw [Stmt.visitScoped, Stmt.sites, visitEach, here, body.visitScoped_eq_visitEach keeps,
        andThen]
  | branch pos cond body rest =>
      rw [Stmt.visitScoped, Stmt.sites, visitEach, visitEach, visitEach_append, here, here,
        body.visitScoped_eq_visitEach keeps, rest.visitScoped_eq_visitEach keeps]
      simp [andThen]
  | loop pos cond body =>
      rw [Stmt.visitScoped, Stmt.sites, visitEach, visitEach, here, here,
        body.visitScoped_eq_visitEach keeps]
      simp [andThen]
  | maybe pos probability body =>
      rw [Stmt.visitScoped, Stmt.sites, visitEach, here, body.visitScoped_eq_visitEach keeps,
        andThen]
  | maybeOtherwise pos probability body otherwisePos alternative =>
      rw [Stmt.visitScoped, Stmt.sites, visitEach, visitEach_append, here,
        body.visitScoped_eq_visitEach keeps, alternative.visitScoped_eq_visitEach keeps]
      simp [andThen]
  | declare | infer | assign | call | define | breakOut | continueOn | returnWith | needs | bad =>
      unfold Stmt.visitScoped
      rw [Stmt.sites, visitEach, here]
      simp [visitEach, andThen]

/-- A block is entered for each of the statements in it. -/
theorem Block.visitScoped_eq_visitEach (keeps : ∀ stmt, Leaves State.SameTable (visit stmt))
    (body : Block) : body.visitScoped visit = visitEach visit body.sites := by
  cases body with
  | mk start stop stmts =>
      rw [Block.visitScoped, Block.sites, Stmt.visitAllScoped_eq_visitEach keeps stmts,
        inScopeOf_visitEach]

theorem Stmt.visitAllScoped_eq_visitEach (keeps : ∀ stmt, Leaves State.SameTable (visit stmt))
    (stmts : List Stmt) :
    Stmt.visitAllScoped visit stmts = visitEach visit (Stmt.sitesAll stmts) := by
  cases stmts with
  | nil =>
      rw [Stmt.visitAllScoped, Stmt.sitesAll]
      rfl
  | cons stmt stmts =>
      rw [Stmt.visitAllScoped, Stmt.sitesAll, visitEach_append, stmt.visitScoped_eq_visitEach keeps,
        Stmt.visitAllScoped_eq_visitEach keeps stmts, andThen]

theorem Branches.visitScoped_eq_visitEach (keeps : ∀ stmt, Leaves State.SameTable (visit stmt))
    (rest : Branches) : rest.visitScoped visit = visitEach visit rest.sites := by
  have here := visitAt_nil keeps
  cases rest with
  | done =>
      rw [Branches.visitScoped, Branches.sites]
      rfl
  | otherwise pos body =>
      rw [Branches.visitScoped, Branches.sites, visitEach, here,
        body.visitScoped_eq_visitEach keeps, andThen]
  | elseIf pos cond body rest =>
      rw [Branches.visitScoped, Branches.sites, visitEach, visitEach_append, here,
        body.visitScoped_eq_visitEach keeps, rest.visitScoped_eq_visitEach keeps]
      simp [andThen]

end

end

open Check

variable {α : Type} {visit : Stmt → Check (List α)} {P : α → Prop}

/-- A visit goes well at a site. -/
def Check.WellAt (visit : Stmt → Check (List α)) (P : α → Prop) (s : State)
    (x : List Pos × Stmt) : Prop :=
  Yields P (visit x.2) (s.enteringAll x.1)

theorem Check.yields_visitAt_iff {s : State} {x : List Pos × Stmt} :
    Yields P (visitAt visit x) s ↔ WellAt visit P s x := by
  constructor
  · rintro ⟨vs, s', run, right⟩
    obtain ⟨s₁, inner, -⟩ := ensuring_eq_ok_iff.mp run
    exact ⟨vs, s₁, inner, right⟩
  · rintro ⟨vs, s₁, inner, right⟩
    exact ⟨vs, _, ensuring_eq_ok_iff.mpr ⟨s₁, inner, rfl⟩, right⟩

/-- Visits at sites read the table only if each visit does. -/
theorem Check.ReadsTable.visitAt (reads : ∀ stmt, ReadsTable (visit stmt)) (x : List Pos × Stmt) :
    ReadsTable (visitAt visit x) := by
  obtain ⟨starts, stmt⟩ := x
  induction starts with
  | nil =>
      rw [visitAt_nil fun stmt => .of_readsTable (reads stmt)]
      exact reads stmt
  | cons start starts ih =>
      rw [← inScopeOf_visitAt start (starts, stmt)]
      exact ((ih.question True).inScopeOf start).readsTable

theorem Check.ReadsTable.visitEach (reads : ∀ stmt, ReadsTable (visit stmt))
    (sites : List (List Pos × Stmt)) : ReadsTable (visitEach visit sites) := by
  induction sites with
  | nil => exact .pure []
  | cons x sites ih => exact (ReadsTable.visitAt reads x).andThen ih

/-- A visit of a block goes well exactly if it goes well at each site. -/
theorem Block.visitScoped_iff (reads : ∀ stmt, ReadsTable (visit stmt)) {s : State} (body : Block) :
    Yields P (body.visitScoped visit) s ↔ ∀ x ∈ body.sites, WellAt visit P s x := by
  rw [body.visitScoped_eq_visitEach fun stmt => .of_readsTable (reads stmt)]
  induction body.sites with
  | nil => exact ⟨fun _ _ member => (nomatch member), fun _ => yields_pure_nil P s⟩
  | cons x sites ih =>
      rw [visitEach, yields_andThen_iff (.visitAt reads x) (.visitEach reads sites),
        yields_visitAt_iff, ih, List.forall_mem_cons]

/-! ## The returns of a function -/

namespace Check

variable {s s' : State}

/-- Folding is found to go well only if it does. -/
theorem folds_of_checkConstant {e : Expr} (run : checkConstant e s = .ok true s') :
    e.foldError? = none := by
  unfold checkConstant at run
  cases folds : e.foldError? with
  | none => rfl
  | some err =>
      rw [folds] at run
      obtain ⟨u, s₁, -, given⟩ := bind_eq_ok_iff.mp run
      cases given

/-- A return is right without a value in a function that returns nothing, and otherwise with a value
of the function's type. -/
theorem checkReturn_ok {pos : Pos} {ret : Ty} {value : Option Expr}
    (run : checkReturn pos ret value s = .ok true s') :
    (value = none ∧ ret = .void) ∨
      ∃ e type d s₁ s₂, value = some e ∧ ret = .value type ∧ e.detect s = .ok d s₁ ∧
        d.homogeneous = true ∧ d.type = ret ∧ e.accepts type s₁ = .ok true s₂ ∧
        e.foldError? = none := by
  unfold checkReturn at run
  cases value with
  | none =>
      by_cases void : ret = .void
      · exact .inl ⟨rfl, void⟩
      · rw [if_neg void] at run
        obtain ⟨u, s₁, -, given⟩ := bind_eq_ok_iff.mp run
        cases given
  | some e =>
      dsimp only at run
      split at run
      · obtain ⟨u, s₁, -, given⟩ := bind_eq_ok_iff.mp run
        cases given
      obtain ⟨d, s₁, detected, run⟩ := bind_eq_ok_iff.mp run
      split at run
      · obtain ⟨u, s₂, -, given⟩ := bind_eq_ok_iff.mp run
        cases given
      next homogeneous =>
      split at run
      · obtain ⟨u, s₂, -, given⟩ := bind_eq_ok_iff.mp run
        cases given
      next same =>
      obtain ⟨valid, s₂, asked, run⟩ := bind_eq_ok_iff.mp run
      split at run
      · obtain ⟨u, s₃, -, given⟩ := bind_eq_ok_iff.mp run
        cases given
      next right =>
      obtain rfl : valid = true := by simpa using right
      cases valued : ret.value? with
      | none =>
          rw [valued] at asked
          cases asked
      | some type =>
          rw [valued] at asked
          exact .inr ⟨e, type, d, s₁, s₂, rfl, Ty.value?_eq_some_iff.mp valued, detected,
            by simpa using homogeneous, not_not.mp same, asked, folds_of_checkConstant run⟩

/-- When the returns of a body are found right, each of them is, in the scope it stands in. -/
theorem checkReturns_ok {namePos : Pos} {ret : Ty} {body : Block}
    (run : checkReturns namePos ret body s = .ok true s') :
    ∀ x ∈ body.sites, WellAt (checkIfReturn ret) (· = true) s x := by
  unfold checkReturns at run
  obtain ⟨verdicts, s₁, visited, run⟩ := bind_eq_ok_iff.mp run
  rw [← body.visitScoped_iff (.checkIfReturn ret)]
  refine ⟨verdicts, s₁, visited, ?_⟩
  split at run
  · obtain ⟨u, s₂, -, given⟩ := bind_eq_ok_iff.mp run
    cases given
  · obtain ⟨all, -⟩ := pure_eq_ok_iff.mp run
    simpa using all

theorem checkReturn_of_wellAt {ret : Ty} {starts : List Pos} {pos : Pos} {value : Option Expr}
    (well : WellAt (checkIfReturn ret) (· = true) s (starts, .returnWith pos value)) :
    ∃ r, checkReturn pos ret value (s.enteringAll starts) = .ok true r := by
  obtain ⟨vs, s₁, visited, right⟩ := well
  obtain ⟨v, s₂, checked, given⟩ := bind_eq_ok_iff.mp visited
  obtain ⟨rfl, -⟩ := pure_eq_ok_iff.mp given
  obtain rfl : v = true := right v List.mem_cons_self
  exact ⟨s₂, checked⟩

end Check

end Samo
