import Samo.Proofs.Grammar

/-!
# Values and their spellings

Every text has a string literal, and the numbers that have a numeral are the ones that are not
negative.
-/

namespace Samo

namespace Literal

/-! ## String literals -/

theorem unescape?_of_escape? {c e : Char} (escaped : escape? c = some e) : unescape? e = some c := by
  unfold escape? at escaped
  split at escaped <;> cases escaped <;> rfl

theorem plain_of_escape? {c : Char} (plain : escape? c = none) :
    c ≠ '\\' ∧ c ≠ '"' ∧ c ≠ '\n' := by
  refine ⟨?_, ?_, ?_⟩ <;>
  · rintro rfl
    cases plain

theorem readBody?_writeBody (cs : List Char) : readBody? (writeBody cs) = some cs := by
  induction cs with
  | nil => rfl
  | cons c cs ih =>
      rw [writeBody]
      cases escaped : escape? c with
      | some e =>
          dsimp only
          rw [readBody?, if_pos rfl, unescape?_of_escape? escaped, ih]
          rfl
      | none =>
          obtain ⟨slash, quote, feed⟩ := plain_of_escape? escaped
          obtain ⟨d, ds, more⟩ : ∃ d ds, writeBody cs = d :: ds := by
            cases cs with
            | nil => exact ⟨_, _, rfl⟩
            | cons b cs =>
                rw [writeBody]
                split <;> exact ⟨_, _, rfl⟩
          dsimp only
          rw [more] at ih ⊢
          rw [readBody?, if_neg slash, if_neg (by simp [quote, feed]), ih]
          rfl

/-- Every text has a literal. -/
theorem exists_spelling (text : String) :
    ∃ spelling : String, read? spelling.toList = some text.toList := by
  refine ⟨String.ofList (write text.toList), ?_⟩
  rw [String.toList_ofList, write]
  exact readBody?_writeBody _

/-! ## Numerals -/

theorem isDigit_of_mem_toDigits {n : Nat} {c : Char} (member : c ∈ Nat.toDigits 10 n) :
    isDigit c = true := by
  have digit := Nat.isDigit_of_mem_toDigits (by decide) (by decide) member
  unfold Char.isDigit at digit
  unfold isDigit
  simp only [Bool.and_eq_true, decide_eq_true_eq] at digit ⊢
  exact ⟨digit.1, digit.2⟩

theorem natOfDigits_toDigits (n : Nat) : natOfDigits (Nat.toDigits 10 n) = n := by
  have same : natOfDigits (Nat.toDigits 10 n) = Nat.ofDigitChars 10 (Nat.toDigits 10 n) 0 := by
    unfold natOfDigits Nat.ofDigitChars
    simp only [Nat.mul_comm]
  rw [same, Nat.ofDigitChars_toDigits (by decide) (by decide)]

theorem toInt_ofNat_of_le {n : Nat} (small : n ≤ maxInt) : (Int32.ofNat n).toInt = n :=
  Int32.toInt_ofNat_of_lt (Nat.lt_succ_of_le small)

/-- The integers that have a numeral are the ones that are not negative. -/
theorem nonneg_iff_exists_numeral (n : Int32) :
    0 ≤ n ↔ ∃ spelling, isNumeral spelling = true ∧ int? spelling = some n := by
  constructor
  · intro nonneg
    have lower : 0 ≤ n.toInt := Int32.le_iff_toInt_le.mp nonneg
    have upper : n.toInt ≤ 2147483647 := Int32.toInt_le n
    refine ⟨String.ofList (Nat.toDigits 10 n.toInt.toNat), ?_, ?_⟩
    · unfold isNumeral
      rw [String.toList_ofList, Bool.and_eq_true]
      refine ⟨?_, List.all_eq_true.mpr fun c member => isDigit_of_mem_toDigits member⟩
      simp [Nat.toDigits_ne_nil]
    · unfold int?
      rw [String.toList_ofList, natOfDigits_toDigits]
      have small : n.toInt.toNat ≤ maxInt := by
        unfold maxInt
        omega
      dsimp only
      rw [if_pos small]
      refine congrArg some (Int32.toInt_inj.mp ?_)
      rw [toInt_ofNat_of_le small]
      omega
  · rintro ⟨spelling, -, read⟩
    unfold int? at read
    dsimp only at read
    split at read
    · next small =>
      cases read
      rw [Int32.le_iff_toInt_le, toInt_ofNat_of_le small]
      exact Int.natCast_nonneg _
    · cases read

end Literal

end Samo
