import Samo.Proofs.Nodes
import Samo.Proofs.Returns

/-!
# Division by a known zero

Every expression of an accepted program was folded, and so was every argument of a call in it, at any
depth. So nowhere in such a program a known integer is divided by a known zero, a returned value
included: it is folded only when its function ends.
-/

namespace Samo

open Check

/-- A return in the body of a function that gets to its end is folded. -/
theorem DefineRun.zeroFree {h : Header} {body : Block} {s s' s₁ s₂ : State} {f : Function}
    {q p : Place} {pos : Pos} {e : Expr} (whole : DefineRun h body s s' f s₁ s₂)
    (standing : Standing q s)
    (member : (p, Stmt.returnWith pos (some e)) ∈ body.located (q.inFunction h body)) :
    e.ZeroFree := by
  obtain ⟨stop, -, ⟨r, right⟩, -⟩ := whole.returns
  obtain ⟨a, a', fs, visit⟩ := (whole.visits standing False.elim).2 _ member
  have site := whole.site standing member visit.frames
  obtain ⟨r', checked⟩ := checkReturn_of_wellAt (checkReturns_ok right _ site)
  -- the scope it is looked at in does not matter, only that it stops at what is fatal
  obtain ⟨c, resume, same⟩ := s₂.enteringAll_eq (body.start :: (fs.map Frame.start).reverse)
  rw [same] at checked
  exact ((sane_of_checkReturn (by exact stop) checked).2 e rfl).zeroFree

/-- The expressions of an accepted program are folded. -/
theorem Program.Accepted.zeroFree {program : Program} {o : Options} {file : String}
    {builtins : Registry} {log : Log}
    (accepted : program.Accepted (o.initialState file builtins log)) {p : Place} {stmt : Stmt}
    (member : (p, stmt) ∈ program.located) : ∀ e ∈ stmt.expressions, e.ZeroFree := by
  intro e part
  obtain ⟨s, s', fs, visit⟩ := accepted.visits _ member
  by_cases returns : ∃ pos value, stmt = .returnWith pos value
  · obtain ⟨pos, value, rfl⟩ := returns
    obtain rfl : value = some e := Option.mem_toList.mp part
    obtain ⟨q, pos', h, body, defined, member⟩ := accepted.defined member
    obtain ⟨s, s', fs, visit⟩ := accepted.visits _ defined
    obtain ⟨f, s₁, s₂, whole⟩ :=
      Stmt.define_ok visit.standing.stop visit.standing.wellFormed visit.run
    exact whole.zeroFree visit.standing member
  · have other : ∀ pos value, stmt ≠ .returnWith pos value := fun pos value same =>
      returns ⟨pos, value, same⟩
    obtain ⟨type, typed⟩ :=
      (stmt.check_demands visit.standing visit.run other).exists_type e part
    exact typed.zeroFree

/--
No known division by zero. Nowhere in an accepted program, however deep inside of statements and of
arguments of calls, a known integer is divided by a known zero or its remainder taken.
-/
theorem no_known_division_by_zero (program : Program) (o : Options) (file : String)
    (builtins : Registry) (log : Log)
    (accepted : program.Accepted (o.initialState file builtins log))
    (pos : Pos) (op : BinaryOp) (x y : Expr)
    (member : Node.expr (.binary pos op x y) ∈ program.nodes) (divides : op = .div ∨ op = .mod) :
    ¬ ((∃ n, x.fold = .ok (some (.int n))) ∧ y.fold = .ok (some (.int 0))) := by
  rintro ⟨known, zero⟩
  cases Program.found member with
  | expr located part inside =>
      exact accepted.zeroFree located _ part _ inside ⟨divides, known, zero⟩

/-- A division in an argument of a call that is an argument itself. -/
def nestedDivision : Expr :=
  .binary ⟨4, 16⟩ .div (.int ⟨4, 14⟩ "6" 6)
    (.paren ⟨4, 18⟩ (.binary ⟨4, 21⟩ .sub (.int ⟨4, 19⟩ "1" 1) (.int ⟨4, 23⟩ "2" 2)))

/-- The definition of a function that gives its argument back, and two calls of it. -/
def nestedCalls : Program :=
  [.define ⟨1, 0⟩
    ⟨⟨1, 3⟩, "same", [⟨⟨1, 8⟩, .value .int, ⟨1, 12⟩, "n"⟩], some (⟨1, 15⟩, .value .int)⟩
    (.mk ⟨1, 19⟩ ⟨3, 0⟩ [.returnWith ⟨2, 2⟩ (some (.ident ⟨2, 9⟩ "n"))]),
  .infer ⟨4, 0⟩ ⟨4, 4⟩ "a"
    (.call ⟨4, 8⟩ "same" [.call ⟨4, 11⟩ "same" [nestedDivision]])]

/-- The program is accepted, and what it divides by is known but not zero. -/
theorem nestedCalls_divides :
    nestedCalls.Accepted (({} : Options).initialState "main" .empty ({} : Options).newLog) ∧
      Node.expr nestedDivision ∈ nestedCalls.nodes ∧
      ∃ pos x y, nestedDivision = .binary pos .div x y ∧ x.fold = .ok (some (.int 6)) ∧
        y.fold = .ok (some (.int (-1))) ∧
        ¬ ((∃ n, x.fold = .ok (some (.int n))) ∧ y.fold = .ok (some (.int 0))) := by
  have accepted : nestedCalls.Accepted
      (({} : Options).initialState "main" .empty ({} : Options).newLog) := by
    unfold Program.Accepted
    decide +kernel
  have member : Node.expr nestedDivision ∈ nestedCalls.nodes := by
    simp [nestedCalls, nestedDivision, Program.nodes, Program.visited, Stmt.visitedAll,
      Stmt.visited, Block.visited, Expr.visited, Expr.visitedAll]
  exact ⟨accepted, member, _, _, _, rfl, rfl, rfl,
    no_known_division_by_zero nestedCalls _ _ _ _ accepted _ .div _ _ member (.inl rfl)⟩

end Samo
