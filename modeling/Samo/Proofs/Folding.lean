import Samo.Constant
import Samo.Proofs.Questions
import Samo.Syntax.Node

/-!
# Where folding fails

Folding fails at a division of two known integers, the second of which is zero, whatever stands
around it (`fold_errors_exact`). It does not look into the arguments of a call, so an expression
holds no such division anywhere exactly if folding it goes well and no argument of a call in it
holds one (`Expr.zeroFree_iff`).
-/

namespace Samo

/-- Whether the node is a call in an expression. -/
def Node.isCall : Node → Bool
  | expr (.call ..) => true
  | _ => false

namespace Expr

variable {n : Node} {e x y : Expr} {p : Pos} {op : BinaryOp} {v : Value}

/-! ## Nodes of expressions -/

/-- Every node of an expression, itself first. -/
def nodes (e : Expr) : List Node := e.visited fun _ => true

theorem mem_visitedAll {enter : Node → Bool} {es : List Expr} :
    n ∈ visitedAll enter es ↔ ∃ e ∈ es, n ∈ e.visited enter := by
  induction es with
  | nil => simp [visitedAll]
  | cons e es ih => simp [visitedAll, ih]

/-- The expressions that an expression is put together from. -/
def parts : Expr → List Expr
  | unary _ _ x => [x]
  | binary _ _ x y => [x, y]
  | paren _ x => [x]
  | call _ _ args => args
  | int .. | string .. | boolie .. | ident .. => []

/-- The nodes of an expression are itself and those of its parts. -/
theorem mem_nodes_iff : n ∈ e.nodes ↔ n = .expr e ∨ ∃ x ∈ e.parts, n ∈ x.nodes := by
  cases e <;> simp [nodes, visited, parts, mem_visitedAll]

/-- Induction over expressions from their parts. -/
theorem induction_parts {motive : Expr → Prop}
    (whole : ∀ e, (∀ x ∈ e.parts, motive x) → motive e) (e : Expr) : motive e := by
  induction e using Expr.induction with
  | int p s n => exact whole _ (List.forall_mem_nil _)
  | string p s v => exact whole _ (List.forall_mem_nil _)
  | boolie p b => exact whole _ (List.forall_mem_nil _)
  | ident p x => exact whole _ (List.forall_mem_nil _)
  | unary p op x ih => exact whole _ (by simpa [parts] using ih)
  | binary p op x y left right => exact whole _ (by simpa [parts] using ⟨left, right⟩)
  | paren p x ih => exact whole _ (by simpa [parts] using ih)
  | call p f args ih => exact whole _ ih

/-- The nodes that folding gets to. A call is one of them, but nothing in its arguments is. -/
def reached (e : Expr) : List Node := e.visited (!·.isCall)

/-- Folding gets from an expression to its parts, unless it is a call. -/
theorem mem_reached_iff : n ∈ e.reached ↔
      n = .expr e ∨ (Node.expr e).isCall = false ∧ ∃ x ∈ e.parts, n ∈ x.reached := by
  cases e <;> simp [reached, visited, parts, Node.isCall]

/-! ## Divisions by zero -/

/-- A division or a remainder of two known integers, the second of which is zero. -/
def DividesByZero : Expr → Prop
  | binary _ op x y =>
    (op = .div ∨ op = .mod) ∧ (∃ n, x.fold = .ok (some (.int n))) ∧ y.fold = .ok (some (.int 0))
  | _ => False

/-- No known integer is divided by a known zero, anywhere in the expression. -/
def ZeroFree (e : Expr) : Prop := ∀ x, Node.expr x ∈ e.nodes → ¬ x.DividesByZero

/-- Divisions by zero are looked for in the expression itself and in its parts. -/
theorem zeroFree_iff_parts : e.ZeroFree ↔ ¬ e.DividesByZero ∧ ∀ x ∈ e.parts, x.ZeroFree := by
  constructor
  · intro free
    refine ⟨free e (mem_nodes_iff.mpr (.inl rfl)), fun x part y inside => ?_⟩
    exact free y (mem_nodes_iff.mpr (.inr ⟨x, part, inside⟩))
  · rintro ⟨whole, parts⟩ y inside
    rcases mem_nodes_iff.mp inside with same | ⟨x, part, inside⟩
    · cases same
      exact whole
    · exact parts x part y inside

/-- Without parts there is nothing to divide. -/
theorem zeroFree_of_parts_eq_nil (atom : e.parts = []) (divides : ¬ e.DividesByZero) :
    e.ZeroFree := by
  rw [zeroFree_iff_parts, atom]
  exact ⟨divides, List.forall_mem_nil _⟩

theorem zeroFree_int {s : String} {n : Int32} : (int p s n).ZeroFree :=
  zeroFree_of_parts_eq_nil rfl id

theorem zeroFree_string {s v : String} : (string p s v).ZeroFree :=
  zeroFree_of_parts_eq_nil rfl id

theorem zeroFree_boolie {b : Bool} : (boolie p b).ZeroFree :=
  zeroFree_of_parts_eq_nil rfl id

theorem zeroFree_ident {name : String} : (ident p name).ZeroFree :=
  zeroFree_of_parts_eq_nil rfl id

theorem zeroFree_unary {op : UnaryOp} : (unary p op x).ZeroFree ↔ x.ZeroFree := by
  rw [zeroFree_iff_parts]
  show (¬ False ∧ ∀ y ∈ [x], y.ZeroFree) ↔ x.ZeroFree
  simp

theorem zeroFree_binary : (binary p op x y).ZeroFree ↔
      ¬ (binary p op x y).DividesByZero ∧ x.ZeroFree ∧ y.ZeroFree := by
  rw [zeroFree_iff_parts]
  show (_ ∧ ∀ z ∈ [x, y], z.ZeroFree) ↔ _
  simp

theorem zeroFree_paren : (paren p x).ZeroFree ↔ x.ZeroFree := by
  rw [zeroFree_iff_parts]
  show (¬ False ∧ ∀ y ∈ [x], y.ZeroFree) ↔ x.ZeroFree
  simp

theorem zeroFree_call {f : String} {args : List Expr} :
    (call p f args).ZeroFree ↔ ∀ a ∈ args, a.ZeroFree := by
  rw [zeroFree_iff_parts]
  show (¬ False ∧ ∀ a ∈ args, a.ZeroFree) ↔ ∀ a ∈ args, a.ZeroFree
  simp

/-! ## Folding -/

/-- The arguments of every call in the expression hold no division by zero. -/
def ArgumentsFree : Expr → Prop
  | unary _ _ x => x.ArgumentsFree
  | binary _ _ x y => x.ArgumentsFree ∧ y.ArgumentsFree
  | paren _ x => x.ArgumentsFree
  | call _ _ args => ∀ a ∈ args, a.ZeroFree
  | int .. | string .. | boolie .. | ident .. => True

theorem fold_unary_eq (p : Pos) (op : UnaryOp) (x : Expr) :
    (unary p op x).fold = x.fold >>= fun v => .ok (v.bind (Constant.unary op)) := rfl

/-- The values of both operands are asked for, and then for what is made of them. -/
theorem fold_binary_eq (p : Pos) (op : BinaryOp) (x y : Expr) :
    (binary p op x y).fold = x.fold >>= fun v => y.fold >>= fun w =>
      v.elim (.ok none) fun v => w.elim (.ok none) (Constant.binary op v) := by
  show (x.fold >>= fun v => y.fold >>= fun w => _) = _
  cases x.fold with
  | error err => rfl
  | ok v =>
      cases y.fold with
      | error err => rfl
      | ok w => cases v <;> cases w <;> rfl

/-- An operation on known values. -/
theorem fold_of_operands {w : Value} (left : x.fold = .ok (some v))
    (right : y.fold = .ok (some w)) : (binary p op x y).fold = Constant.binary op v w := by
  rw [fold_binary_eq, left, right]
  rfl

theorem fold_unary {op : UnaryOp} (folded : (unary p op x).fold = .ok (some v)) :
    ∃ w, x.fold = .ok (some w) ∧ Constant.unary op w = some v := by
  rw [fold_unary_eq] at folded
  cases inner : x.fold with
  | error err =>
      rw [inner] at folded
      cases folded
  | ok w =>
      rw [inner] at folded
      have both : w.bind (Constant.unary op) = some v := Except.ok.inj folded
      obtain ⟨w, rfl, made⟩ := Option.bind_eq_some_iff.mp both
      exact ⟨w, rfl, made⟩

/-- The value of an operation is known only if the values of both operands are. -/
theorem fold_binary (folded : (binary p op x y).fold = .ok (some v)) :
    ∃ u w, x.fold = .ok (some u) ∧ y.fold = .ok (some w) ∧
      Constant.binary op u w = .ok (some v) := by
  rw [fold_binary_eq] at folded
  cases left : x.fold with
  | error err =>
      rw [left] at folded
      cases folded
  | ok u =>
      cases right : y.fold with
      | error err =>
          rw [left, right] at folded
          cases folded
      | ok w =>
          rw [left, right] at folded
          cases u with
          | none => cases Except.ok.inj folded
          | some u =>
              cases w with
              | none => cases Except.ok.inj folded
              | some w => exact ⟨u, w, rfl, rfl, folded⟩

theorem foldError?_eq_none_iff : e.foldError? = none ↔ ∃ v, e.fold = .ok v := by
  unfold foldError?
  cases e.fold <;> simp

theorem foldError?_eq_some_iff {err : FoldError} :
    e.foldError? = some err ↔ e.fold = .error err := by
  unfold foldError?
  cases e.fold <;> simp

theorem known?_eq_some_iff {type : ValueType} :
    e.known? type = some v ↔ e.fold = .ok (some v) ∧ v.type = type := by
  unfold known?
  split
  · next w folded =>
    rw [Option.ite_none_right_eq_some, folded]
    constructor
    · rintro ⟨same, ⟨⟩⟩
      exact ⟨rfl, same⟩
    · rintro ⟨⟨⟩, same⟩
      exact ⟨same, rfl⟩
  · next unknown => exact iff_of_false (by simp) fun both => unknown v both.1

theorem foldError?_unary {op : UnaryOp} : (unary p op x).foldError? = x.foldError? := by
  unfold foldError?
  rw [fold_unary_eq]
  cases x.fold with
  | error err => rfl
  | ok v => rfl

theorem foldError?_paren : (paren p x).foldError? = x.foldError? := rfl

/-- An operation on two known values goes well unless it divides an integer by zero. -/
theorem binary_eq_ok_iff {w : Value} : (∃ r, Constant.binary op v w = .ok r) ↔
      ¬ ((op = .div ∨ op = .mod) ∧ (∃ n, v = .int n) ∧ w = .int 0) := by
  cases v with
  | int m =>
      cases w with
      | int n =>
          by_cases zero : n = 0 <;> cases op <;>
            simp [Constant.binary, Constant.arithmetic, BinaryOp.isArithmetic, BinaryOp.family,
              zero]
      | string t => simp [Constant.binary]
      | boolie c => simp [Constant.binary]
  | string s => cases w <;> simp [Constant.binary]
  | boolie b => cases w <;> simp [Constant.binary]

/-- Folding an operation goes well if it does for both operands and there is no division by zero. -/
theorem foldError?_binary : (binary p op x y).foldError? = none ↔
      x.foldError? = none ∧ y.foldError? = none ∧ ¬ (binary p op x y).DividesByZero := by
  simp only [foldError?_eq_none_iff, DividesByZero, fold_binary_eq]
  cases left : x.fold with
  | error err => simp [bind, Except.bind]
  | ok v =>
      cases right : y.fold with
      | error err => simp [bind, Except.bind]
      | ok w =>
          cases v with
          | none => simp [bind, Except.bind]
          | some v =>
              cases w with
              | none => simp [bind, Except.bind]
              | some w => simp [bind, Except.bind, binary_eq_ok_iff]

/-- Folding goes well if it does for the parts and the expression itself divides nothing by zero. -/
theorem foldError?_eq_none_iff_parts : e.foldError? = none ↔
    ¬ e.DividesByZero ∧ ((Node.expr e).isCall = false → ∀ x ∈ e.parts, x.foldError? = none) := by
  cases e with
  | int | string | boolie | ident =>
      exact iff_of_true rfl ⟨id, fun _ => List.forall_mem_nil _⟩
  | call p f args => exact iff_of_true rfl ⟨id, fun entered => Bool.noConfusion entered⟩
  | unary p op x => simp [foldError?_unary, DividesByZero, parts, Node.isCall]
  | paren p x => simp [foldError?_paren, DividesByZero, parts, Node.isCall]
  | binary p op x y =>
      rw [foldError?_binary]
      simp only [parts, Node.isCall, List.forall_mem_cons, List.not_mem_nil]
      tauto

/-- Folding goes well exactly if nothing that it gets to is a division by zero. -/
theorem foldError?_eq_none_iff_reached (e : Expr) :
    e.foldError? = none ↔ ∀ x, Node.expr x ∈ e.reached → ¬ x.DividesByZero := by
  induction e using induction_parts with
  | whole e ih =>
      rw [foldError?_eq_none_iff_parts]
      constructor
      · rintro ⟨whole, parts⟩ y inside
        rcases mem_reached_iff.mp inside with same | ⟨entered, x, part, inside⟩
        · cases same
          exact whole
        · exact (ih x part).mp (parts entered x part) y inside
      · intro free
        refine ⟨free e (mem_reached_iff.mpr (.inl rfl)), fun entered x part => ?_⟩
        refine (ih x part).mpr fun y inside => ?_
        exact free y (mem_reached_iff.mpr (.inr ⟨entered, x, part, inside⟩))

theorem fold_eq_error_iff : e.fold = .error .divisionByZero ↔ e.foldError? ≠ none := by
  unfold foldError?
  cases e.fold with
  | ok v => simp
  | error err =>
      cases err
      simp

/-- An expression is free of divisions by zero if folding it finds none and the arguments of its
calls, where folding does not look, hold none either. -/
theorem zeroFree_iff (e : Expr) : e.ZeroFree ↔ e.foldError? = none ∧ e.ArgumentsFree := by
  induction e using Expr.induction with
  | int => exact iff_of_true zeroFree_int ⟨rfl, trivial⟩
  | string => exact iff_of_true zeroFree_string ⟨rfl, trivial⟩
  | boolie => exact iff_of_true zeroFree_boolie ⟨rfl, trivial⟩
  | ident => exact iff_of_true zeroFree_ident ⟨rfl, trivial⟩
  | unary p op x ih => rw [zeroFree_unary, ih, foldError?_unary, ArgumentsFree]
  | binary p op x y left right =>
      rw [zeroFree_binary, left, right, foldError?_binary, ArgumentsFree]
      tauto
  | paren p x ih => rw [zeroFree_paren, ih, foldError?_paren, ArgumentsFree]
  | call p f args ih => exact zeroFree_call.trans ⟨fun free => ⟨rfl, free⟩, And.right⟩

end Expr

/--
Errors of folding are found exactly. Folding fails with a division by zero if and only if some part
of the expression outside of the arguments of calls divides a known integer by a known zero, or takes
the remainder, whatever else the expression holds. Both evaluators tell what folding comes to: one
the error, the other the value if it is of the type asked for. So if there is an error, no value of
any type is known.
-/
theorem fold_errors_exact (e : Expr) :
    (e.fold = .error .divisionByZero ↔ ∃ x, Node.expr x ∈ e.reached ∧ x.DividesByZero) ∧
      (∀ err, e.foldError? = some err ↔ e.fold = .error err) ∧
      (∀ type v, e.known? type = some v ↔ e.fold = .ok (some v) ∧ v.type = type) ∧
      ∀ err, e.foldError? = some err → ∀ type, e.known? type = none := by
  refine ⟨?_, fun err => Expr.foldError?_eq_some_iff, fun type v => Expr.known?_eq_some_iff, ?_⟩
  · rw [Expr.fold_eq_error_iff, ne_eq, Expr.foldError?_eq_none_iff_reached]
    push Not
    rfl
  · intro err failed type
    rw [Option.eq_none_iff_forall_ne_some]
    intro v known
    have folded := (Expr.known?_eq_some_iff.mp known).1
    rw [Expr.foldError?_eq_some_iff.mp failed] at folded
    cases folded

/-- `1 % (2 - 2)`. -/
def vainRemainder : Expr :=
  .binary ⟨1, 2⟩ .mod (.int ⟨1, 0⟩ "1" 1)
    (.paren ⟨1, 4⟩ (.binary ⟨1, 7⟩ .sub (.int ⟨1, 5⟩ "2" 2) (.int ⟨1, 9⟩ "2" 2)))

/-- `x and -(1 % (2 - 2)) == "a"`: a name and a wrong type stand around the remainder. -/
def surroundedRemainder : Expr :=
  .binary ⟨2, 2⟩ .and (.ident ⟨2, 0⟩ "x")
    (.binary ⟨2, 23⟩ .eq (.unary ⟨2, 6⟩ .negate (.paren ⟨2, 7⟩ vainRemainder))
      (.string ⟨2, 26⟩ "\"a\"" "a"))

/-- The remainder is found where it is not an argument of a call, and no value is known then. -/
theorem vainRemainder_found :
    (Node.expr vainRemainder ∈ surroundedRemainder.reached ∧ vainRemainder.DividesByZero ∧
        surroundedRemainder.fold = .error .divisionByZero ∧
        ∀ type, surroundedRemainder.known? type = none) ∧
      (Expr.call ⟨3, 0⟩ "f" [vainRemainder]).fold = .ok none ∧
      ¬ ∃ x, Node.expr x ∈ (Expr.call ⟨3, 0⟩ "f" [vainRemainder]).reached ∧ x.DividesByZero := by
  have inside : Node.expr vainRemainder ∈ surroundedRemainder.reached := by
    simp [surroundedRemainder, vainRemainder, Expr.reached, Expr.visited, Node.isCall]
  have divides : vainRemainder.DividesByZero := ⟨.inr rfl, ⟨1, rfl⟩, rfl⟩
  have failed := (fold_errors_exact surroundedRemainder).1.mpr ⟨_, inside, divides⟩
  obtain ⟨-, told, -, unknown⟩ := fold_errors_exact surroundedRemainder
  refine ⟨⟨inside, divides, failed, unknown _ ((told _).mpr failed)⟩, rfl, fun found => ?_⟩
  have failed' := (fold_errors_exact _).1.mpr found
  rw [Expr.fold] at failed'
  cases failed'

end Samo
