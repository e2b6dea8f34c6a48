import Mathlib.Data.Int.ModEq
import Samo.Proofs.Folding

/-!
# Integers of 32 bits

Folding computes with integers of 32 bits, which wrap around. Wrapping at every step of a
computation with sums, differences and products is the same as wrapping once at its end, however far
the steps between are out of bounds (`Expr.fold_of_unbounded?`). A quotient is rounded toward zero,
and there is only one that does not fit, that of the least integer by `-1` (`Constant.Divides`).
-/

namespace Samo

/-! ## Integers without bounds -/

/-- What an operator makes of two integers that have no bounds. Quotients are left out. -/
def BinaryOp.unbounded? : BinaryOp → Option (Int → Int → Int)
  | add => some (· + ·)
  | sub => some (· - ·)
  | mul => some (· * ·)
  | _ => none

/-- What an expression of integer literals, parentheses, signs, sums, differences and products is
worth if integers have no bounds. -/
def Expr.unbounded? : Expr → Option Int
  | int _ _ n => some n.toInt
  | paren _ x => x.unbounded?
  | unary _ .negate x => x.unbounded?.map (-·)
  | binary _ op x y => do
    let f ← op.unbounded?
    let m ← x.unbounded?
    let n ← y.unbounded?
    return f m n
  | unary _ .not _ | string .. | boolie .. | ident .. | call .. => none

theorem BinaryOp.isArithmetic_of_unbounded? {op : BinaryOp} {f : Int → Int → Int}
    (known : op.unbounded? = some f) : op.isArithmetic = true := by
  cases op with
  | add | sub | mul | div | mod => rfl
  | and | or | xor | lt | le | gt | ge | eq | ne => cases known

namespace Constant

/-! ## Wrapping around -/

/-- The integer of 32 bits that an integer wraps around to: the only one congruent to it. -/
structure Wraps (z : Int) (n : Int32) : Prop where
  lower : -2 ^ 31 ≤ n.toInt
  upper : n.toInt < 2 ^ 31
  congruent : n.toInt ≡ z [ZMOD 2 ^ 32]
  unique : ∀ m : Int, -2 ^ 31 ≤ m → m < 2 ^ 31 → m ≡ z [ZMOD 2 ^ 32] → m = n.toInt

/-- Integers of 32 bits that are congruent are equal. -/
theorem eq_of_modEq {m n : Int} (lower : -2 ^ 31 ≤ m) (upper : m < 2 ^ 31) (lower' : -2 ^ 31 ≤ n)
    (upper' : n < 2 ^ 31) (congruent : m ≡ n [ZMOD 2 ^ 32]) : m = n := by
  unfold Int.ModEq at congruent
  omega

theorem bmod_modEq (z : Int) : z.bmod (2 ^ 32) ≡ z [ZMOD 2 ^ 32] := Int.bmod_emod

theorem wraps_ofInt (z : Int) : Wraps z (.ofInt z) := by
  have congruent : (Int32.ofInt z).toInt ≡ z [ZMOD 2 ^ 32] := by
    rw [Int32.toInt_ofInt]
    exact bmod_modEq z
  refine ⟨Int32.le_toInt _, Int32.toInt_lt _, congruent, fun m lower upper same => ?_⟩
  exact eq_of_modEq lower upper (Int32.le_toInt _) (Int32.toInt_lt _) (same.trans congruent.symm)

/-- Operands may wrap around before a sum, a difference or a product is taken. -/
theorem arithmetic_ofInt {op : BinaryOp} {f : Int → Int → Int} (known : op.unbounded? = some f)
    (m n : Int) : arithmetic (.ofInt m) (.ofInt n) op = .ok (some (.int (.ofInt (f m n)))) := by
  cases op with
  | add =>
      cases known
      rw [arithmetic, Int32.ofInt_add]
  | sub =>
      cases known
      rw [arithmetic, Int32.ofInt_sub]
  | mul =>
      cases known
      rw [arithmetic, Int32.ofInt_mul]
  | div | mod | and | or | xor | lt | le | gt | ge | eq | ne => cases known

/-! ## Quotients and remainders -/

/-- A quotient of integers of 32 bits, rounded toward zero, and the remainder. -/
structure Divides (x y q r : Int32) : Prop where
  quotient : -2 ^ 31 ≤ q.toInt ∧ q.toInt < 2 ^ 31
  remainder : -2 ^ 31 ≤ r.toInt ∧ r.toInt < 2 ^ 31
  congruent : x.toInt ≡ q.toInt * y.toInt + r.toInt [ZMOD 2 ^ 32]
  small : r.toInt.natAbs < y.toInt.natAbs
  sign : r.toInt = 0 ∨ r.toInt.sign = x.toInt.sign
  equal : ¬ (x.toInt = -2 ^ 31 ∧ y.toInt = -1) → x.toInt = q.toInt * y.toInt + r.toInt
  overflow : x.toInt = -2 ^ 31 → y.toInt = -1 → q.toInt = -2 ^ 31 ∧ r.toInt = 0

/-- Every other quotient fits. -/
theorem toInt_div_eq {x y : Int32} (fits : ¬ (x.toInt = -2 ^ 31 ∧ y.toInt = -1)) :
    (x / y).toInt = x.toInt.tdiv y.toInt := by
  by_cases least : x = Int32.minValue
  · refine Int32.toInt_div_of_ne_right x y fun minus => fits ⟨?_, ?_⟩
    · rw [least]
      rfl
    · rw [minus]
      rfl
  · exact Int32.toInt_div_of_ne_left x y least

theorem divides (x : Int32) {y : Int32} (nonzero : y ≠ 0) : Divides x y (x / y) (x % y) := by
  have parts : x.toInt.tdiv y.toInt * y.toInt + x.toInt.tmod y.toInt = x.toInt :=
    Int.tdiv_mul_add_tmod ..
  refine ⟨⟨Int32.le_toInt _, Int32.toInt_lt _⟩, ⟨Int32.le_toInt _, Int32.toInt_lt _⟩, ?_, ?_, ?_,
    ?_, ?_⟩
  · rw [Int32.toInt_div, Int32.toInt_mod]
    calc x.toInt
      _ = x.toInt.tdiv y.toInt * y.toInt + x.toInt.tmod y.toInt := parts.symm
      _ ≡ _ [ZMOD 2 ^ 32] := ((bmod_modEq _).symm.mul_right _).add_right _
  · have nonzero' : y.toInt ≠ 0 := fun zero => nonzero (Int32.toInt_inj.mp zero)
    rw [Int32.toInt_mod, Int.natAbs_tmod]
    exact Nat.mod_lt _ (Int.natAbs_pos.mpr nonzero')
  · rw [Int32.toInt_mod, ← Int.sign_eq_zero_iff_zero, Int.sign_tmod]
    split
    · exact .inl rfl
    · exact .inr rfl
  · intro fits
    rw [toInt_div_eq fits, Int32.toInt_mod, parts]
  · intro least minus
    rw [Int32.toInt_div, Int32.toInt_mod, least, minus]
    decide

end Constant

open Constant

namespace Expr

/-- Known integers are added, subtracted, multiplied and divided. -/
theorem fold_arithmetic {pos : Pos} {op : BinaryOp} {a b : Expr} {x y : Int32}
    (left : a.fold = .ok (some (.int x))) (right : b.fold = .ok (some (.int y)))
    (family : op.isArithmetic = true) : (binary pos op a b).fold = arithmetic x y op := by
  rw [fold_of_operands left right, Constant.binary, if_pos family]

/-- Wrapping at every step is wrapping once at the end. -/
theorem fold_of_unbounded? {e : Expr} {z : Int} (worth : e.unbounded? = some z) :
    e.fold = .ok (some (.int (.ofInt z))) := by
  fun_induction unbounded? e generalizing z with
  | case1 pos spelling n =>
      cases worth
      rw [fold, Int32.ofInt_toInt]
  | case2 pos x ih =>
      rw [fold]
      exact ih worth
  | case3 pos x ih =>
      obtain ⟨m, inner, rfl⟩ := Option.map_eq_some_iff.mp worth
      rw [fold, ih inner, Int32.ofInt_neg]
      rfl
  | case4 pos op x y left right =>
      simp only [Option.bind_eq_bind, Option.bind_eq_some_iff] at worth
      obtain ⟨f, known, m, first, n, second, same⟩ := worth
      cases same
      rw [fold_arithmetic (left first) (right second) (BinaryOp.isArithmetic_of_unbounded? known),
        arithmetic_ofInt known]
  | case5 | case6 | case7 | case8 | case9 => cases worth

end Expr

/--
Integers wrap around at 32 bits. An expression of integer literals, parentheses, signs, sums,
differences and products, of any size, folds to the integer of 32 bits that its exact value wraps
around to. A quotient and a remainder of known integers are known if the divisor is not zero; the
quotient is rounded toward zero, and wraps around too where it does not fit.
-/
theorem folding_wraps :
    (∀ (e : Expr) (z : Int), e.unbounded? = some z →
        ∃ n, e.fold = .ok (some (.int n)) ∧ Wraps z n) ∧
      ∀ (a b : Expr) (x y : Int32), a.fold = .ok (some (.int x)) → b.fold = .ok (some (.int y)) →
        y ≠ 0 → ∀ pos pos', ∃ q r, (Expr.binary pos .div a b).fold = .ok (some (.int q)) ∧
          (Expr.binary pos' .mod a b).fold = .ok (some (.int r)) ∧ Divides x y q r := by
  constructor
  · intro e z worth
    exact ⟨.ofInt z, Expr.fold_of_unbounded? worth, wraps_ofInt z⟩
  · intro a b x y left right nonzero pos pos'
    refine ⟨x / y, x % y, ?_, ?_, divides x nonzero⟩
    · rw [Expr.fold_arithmetic left right rfl, arithmetic, if_neg nonzero]
    · rw [Expr.fold_arithmetic left right rfl, arithmetic, if_neg nonzero]

/-- `2147483647 * 3 + 5`. -/
def largeProduct : Expr :=
  .binary ⟨1, 15⟩ .add
    (.binary ⟨1, 11⟩ .mul (.int ⟨1, 0⟩ "2147483647" 2147483647) (.int ⟨1, 13⟩ "3" 3))
    (.int ⟨1, 17⟩ "5" 5)

/-- `-2147483647 - 1`. -/
def leastInteger : Expr :=
  .binary ⟨2, 12⟩ .sub (.unary ⟨2, 0⟩ .negate (.int ⟨2, 1⟩ "2147483647" 2147483647))
    (.int ⟨2, 14⟩ "1" 1)

/-- `-1`. -/
def minusOne : Expr := .unary ⟨3, 0⟩ .negate (.int ⟨3, 1⟩ "1" 1)

/-- A product that is out of bounds and a sum that is not back in them, and the quotient that does
not fit. -/
theorem leastInteger_wraps :
    (largeProduct.unbounded? = some 6442450946 ∧
        ∃ n, largeProduct.fold = .ok (some (.int n)) ∧ Wraps 6442450946 n) ∧
      leastInteger.fold = .ok (some (.int Int32.minValue)) ∧
      minusOne.fold = .ok (some (.int (-1))) ∧
      ∃ q r, (Expr.binary ⟨4, 0⟩ .div leastInteger minusOne).fold = .ok (some (.int q)) ∧
        (Expr.binary ⟨5, 0⟩ .mod leastInteger minusOne).fold = .ok (some (.int r)) ∧
        q.toInt = -2 ^ 31 ∧ r.toInt = 0 := by
  have worth : largeProduct.unbounded? = some 6442450946 := by decide +kernel
  have least : leastInteger.fold = .ok (some (.int Int32.minValue)) := rfl
  have minus : minusOne.fold = .ok (some (.int (-1))) := rfl
  obtain ⟨q, r, quotient, remainder, divides⟩ :=
    folding_wraps.2 _ _ _ _ least minus (by decide) ⟨4, 0⟩ ⟨5, 0⟩
  exact ⟨⟨worth, folding_wraps.1 _ _ worth⟩, least, minus, q, r, quotient, remainder,
    divides.overflow rfl rfl⟩

end Samo
