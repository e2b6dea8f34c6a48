import Mathlib.Algebra.Group.Nat.Defs
import Samo.Proofs.TokenOrder
import Samo.Text.Lines

/-!
# Texts are read line by line

A line feed is a byte and a character of its own: no group of bytes and no token goes over one. So
the characters of two texts with a line feed between them are those of the first, the line feed and
those of the second (`Text.decode_append_lineFeed`). The tokens are those of the first and then
those of the second (`tokensFrom_append_newline`), which stand below all line feeds of the first.
-/

namespace Samo

namespace Text

variable {a low high : UInt8} {c : Char} {bs rest : Bytes} {n code code' : Nat}

/-! ## Characters -/

/-- The bytes behind the first of a group are none of the small ones. -/
theorem le_low_lead? {l : Lead} (found : lead? a = some l) : 0x80 ≤ l.low := by
  unfold lead? at found
  split at found
  · cases found
    exact UInt8.le_refl _
  split at found
  · cases found
  split at found
  · cases found
    exact UInt8.le_refl _
  split at found
  · cases found
    dsimp only
    split <;> decide
  split at found
  · cases found
    dsimp only
    split <;> decide
  · cases found

theorem not_le_lineFeed (bound : 0x80 ≤ low) : ¬ low ≤ lineFeed := by
  intro below
  exact absurd (UInt8.le_trans bound below) (by decide)

theorem group?_lineFeed (bs : Bytes) : group? lineFeed bs = some ('\n', bs) := rfl

/-- The bytes behind the first of a group are found before a line feed or not at all. -/
theorem following?_append (bound : 0x80 ≤ low) (n code : Nat) (bs more : Bytes) :
    following? n low high code (bs ++ lineFeed :: more) =
      (following? n low high code bs).map fun found => (found.1, found.2 ++ lineFeed :: more) := by
  induction n generalizing low high code bs with
  | zero => rfl
  | succ n ih =>
      cases bs with
      | nil => simp [following?, not_le_lineFeed bound]
      | cons b bs =>
          simp only [List.cons_append, following?]
          split
          · exact ih (by decide) _ bs
          · rfl

theorem group?_append (a : UInt8) (bs more : Bytes) :
    group? a (bs ++ lineFeed :: more) =
      (group? a bs).map fun found => (found.1, found.2 ++ lineFeed :: more) := by
  unfold group?
  cases found : lead? a with
  | none => rfl
  | some l =>
      simp only [Option.bind_eq_bind, Option.bind_some, following?_append (le_low_lead? found)]
      cases following? l.following l.low l.high l.bits bs with
      | none => rfl
      | some inner => rfl

theorem decode_of_group? (found : group? a bs = some (c, rest)) :
    decode (a :: bs) = c :: decode rest := by
  rw [decode]
  split
  · next found' =>
    rw [found] at found'
    cases found'
    rfl
  · next none =>
    rw [found] at none
    cases none

theorem decode_of_none (found : group? a bs = none) :
    decode (a :: bs) = replacement :: decode bs := by
  rw [decode]
  split
  · next some =>
    rw [found] at some
    cases some
  · rfl

/-- The characters of two texts with a line feed between them. -/
theorem decode_append_lineFeed (bs more : Bytes) :
    decode (bs ++ lineFeed :: more) = decode bs ++ '\n' :: decode more := by
  fun_induction decode bs with
  | case1 => exact decode_of_group? (group?_lineFeed more)
  | case2 a bs c rest found ih =>
      have found' := group?_append a bs more
      rw [found] at found'
      rw [List.cons_append, decode_of_group? found', ih]
      rfl
  | case3 a bs found ih =>
      have found' := group?_append a bs more
      rw [found] at found'
      rw [List.cons_append, decode_of_none found', ih]
      rfl

/-- Whole lines are read one after the other. -/
theorem decode_append_of_lines (whole : bs = [] ∨ ∃ lines, bs = lines ++ [lineFeed])
    (more : Bytes) : decode (bs ++ more) = decode bs ++ decode more := by
  rcases whole with rfl | ⟨lines, rfl⟩
  · rw [decode.eq_1]
    rfl
  · rw [List.append_assoc, List.singleton_append, decode_append_lineFeed, decode_append_lineFeed,
      decode.eq_1, List.append_assoc]
    rfl

theorem lines_decode (whole : bs = [] ∨ ∃ lines, bs = lines ++ [lineFeed]) :
    decode bs = [] ∨ ∃ lines, decode bs = lines ++ ['\n'] := by
  rcases whole with rfl | ⟨lines, rfl⟩
  · exact .inl decode.eq_1
  · refine .inr ⟨decode lines, ?_⟩
    rw [decode_append_lineFeed, decode.eq_1]

/-- The bytes behind the first of a group are large. -/
theorem append_of_following? (bound : 0x80 ≤ low)
    (found : following? n low high code bs = some (code', rest)) :
    ∃ tail, bs = tail ++ rest ∧ ∀ b ∈ tail, 0x80 ≤ b := by
  induction n generalizing low high code bs with
  | zero =>
      cases found
      exact ⟨[], rfl, List.forall_mem_nil _⟩
  | succ n ih =>
      cases bs with
      | nil => cases found
      | cons b bs =>
          simp only [following?] at found
          split at found
          · next fits =>
            rw [Bool.and_eq_true, decide_eq_true_eq] at fits
            obtain ⟨tail, rfl, large⟩ := ih (by decide) found
            exact ⟨b :: tail, rfl,
              List.forall_mem_cons.mpr ⟨UInt8.le_trans bound fits.1, large⟩⟩
          · cases found

theorem eq_of_ofNat_newline (feed : Char.ofNat n = '\n') : n = 10 := by
  have value : (Char.ofNat n).toNat = 10 := by
    rw [feed]
    rfl
  by_cases valid : n.isValidChar
  · rw [Char.ofNat, dif_pos valid] at value
    exact value
  · rw [Char.ofNat, dif_neg valid] at value
    exact absurd value (by decide)

/-- Each byte behind the first of a group makes the number at least 64 times as large. -/
theorem le_following? (found : following? n low high code bs = some (code', rest)) :
    code * 64 ^ n ≤ code' := by
  induction n generalizing low high code bs with
  | zero =>
      cases found
      omega
  | succ n ih =>
      cases bs with
      | nil => cases found
      | cons b bs =>
          simp only [following?] at found
          split at found
          · calc code * 64 ^ (n + 1) = code * 64 * 64 ^ n := by rw [Nat.pow_succ', Nat.mul_assoc]
              _ ≤ (code * 64 + b.toNat % 64) * 64 ^ n :=
                Nat.mul_le_mul_right _ (Nat.le_add_right _ _)
              _ ≤ code' := ih found
          · cases found

/-- The bounds on the second byte of a group leave out small numbers. -/
theorem large_of_following? (found : following? (n + 1) low high code bs = some (code', rest))
    (large : 128 ≤ (code * 64 + low.toNat % 64) * 64 ^ n) (least : 128 ≤ low.toNat)
    (most : high.toNat < 192) : 128 ≤ code' := by
  cases bs with
  | nil => cases found
  | cons b bs =>
      simp only [following?] at found
      split at found
      · next fits =>
        rw [Bool.and_eq_true, decide_eq_true_eq, decide_eq_true_eq, UInt8.le_iff_toNat_le,
          UInt8.le_iff_toNat_le] at fits
        have digit : low.toNat % 64 ≤ b.toNat % 64 := by omega
        calc 128 ≤ (code * 64 + low.toNat % 64) * 64 ^ n := large
          _ ≤ (code * 64 + b.toNat % 64) * 64 ^ n := Nat.mul_le_mul_right _ (by omega)
          _ ≤ code' := le_following? found
      · cases found

/-- A first byte that stands alone is the number itself; any other starts a large number. -/
theorem lead?_cases {l : Lead} (found : lead? a = some l) :
    l.following = 0 ∧ l.bits = a.toNat ∨ ∃ n, l.following = n + 1 ∧
      128 ≤ (l.bits * 64 + l.low.toNat % 64) * 64 ^ n ∧ 128 ≤ l.low.toNat ∧
        l.high.toNat < 192 := by
  have apart : ∀ {b : UInt8}, a ≠ b → a.toNat ≠ b.toNat := by
    intro b other same
    exact other (UInt8.toNat_inj.mp same)
  unfold lead? at found
  simp only [UInt8.lt_iff_toNat_lt] at found
  split at found
  · cases found
    exact .inl ⟨rfl, rfl⟩
  split at found
  · cases found
  split at found
  · cases found
    simp only [UInt8.toNat_ofNat] at *
    exact .inr ⟨0, rfl, by omega, by decide, by decide⟩
  split at found
  · cases found
    refine .inr ⟨1, rfl, ?_, ?_, ?_⟩
    · -- the least first byte of three holds no bits, but then the second one is bounded
      by_cases least : a = 0xE0
      · simp [least]
      · have other := apart least
        simp only [UInt8.toNat_ofNat, if_neg least] at *
        omega
    · dsimp only
      split <;> decide
    · dsimp only
      split <;> decide
  split at found
  · cases found
    refine .inr ⟨2, rfl, ?_, ?_, ?_⟩
    · by_cases least : a = 0xF0
      · simp [least]
      · have other := apart least
        simp only [UInt8.toNat_ofNat, if_neg least] at *
        omega
    · dsimp only
      split <;> decide
    · dsimp only
      split <;> decide
  · cases found

/-- The number of a group is that of its first byte or a large one; the other bytes are large. -/
theorem group?_cases (found : group? a bs = some (c, rest)) :
    ∃ code tail, Char.ofNat code = c ∧ (code = a.toNat ∨ 128 ≤ code) ∧ bs = tail ++ rest ∧
      ∀ b ∈ tail, 0x80 ≤ b := by
  unfold group? at found
  simp only [Option.bind_eq_bind, Option.bind_eq_some_iff, Option.some.injEq, Prod.mk.injEq]
    at found
  obtain ⟨l, lead, ⟨code, left⟩, inner, given, rfl⟩ := found
  obtain ⟨tail, split, large⟩ := append_of_following? (le_low_lead? lead) inner
  refine ⟨code, tail, given, ?_, split, large⟩
  rcases lead?_cases lead with ⟨alone, bits⟩ | ⟨n, more, above, low, high⟩
  · rw [alone] at inner
    cases inner
    exact .inl bits
  · rw [more] at inner
    exact .inr (large_of_following? inner above low high)

/-- Only the byte of a line feed is read as one, and none is among the others of a group. -/
theorem count_group? (other : a ≠ lineFeed) (found : group? a bs = some (c, rest)) :
    c ≠ '\n' ∧ rest.count lineFeed = bs.count lineFeed := by
  obtain ⟨code, tail, given, number, rfl, large⟩ := group?_cases found
  constructor
  · rintro rfl
    have small := eq_of_ofNat_newline given
    rcases number with same | above
    · exact other (UInt8.toNat_inj.mp (same.symm.trans small))
    · omega
  · have none : lineFeed ∉ tail := fun member => not_le_lineFeed (large _ member) (UInt8.le_refl _)
    rw [List.count_append, List.count_eq_zero_of_not_mem none, Nat.zero_add]

/-- A text has as many line feeds as its bytes. -/
theorem count_decode (bs : Bytes) : (decode bs).count '\n' = bs.count lineFeed := by
  fun_induction decode bs with
  | case1 => rfl
  | case2 a bs c rest found ih =>
      by_cases feed : a = lineFeed
      · subst feed
        rw [group?_lineFeed] at found
        cases found
        rw [List.count_cons_self, List.count_cons_self, ih]
      · obtain ⟨other, same⟩ := count_group? feed found
        rw [List.count_cons_of_ne other, List.count_cons_of_ne feed, ih, same]
  | case3 a bs found ih =>
      have other : a ≠ lineFeed := by
        rintro rfl
        rw [group?_lineFeed] at found
        cases found
      rw [List.count_cons_of_ne other, List.count_cons_of_ne (by decide), ih]

end Text

/-! ## Tokens -/

namespace Scan

/-- What follows a token that was found. -/
def followedBy (s : Scan) (more : List Char) : Scan := { s with rest := s.rest ++ more }

theorem span_append_newline (kind : Kind) {p : Char → Bool} (stops : p '\n' = false)
    (cs more : List Char) :
    span kind p (cs ++ '\n' :: more) = (span kind p cs).followedBy ('\n' :: more) := by
  have taken : (cs ++ '\n' :: more).takeWhile p = cs.takeWhile p := by
    induction cs with
    | nil => simp [stops]
    | cons c cs ih => rw [List.cons_append, List.takeWhile_cons, List.takeWhile_cons, ih]
  have left : (cs ++ '\n' :: more).dropWhile p = cs.dropWhile p ++ '\n' :: more := by
    rw [List.dropWhile_append]
    split
    · next none =>
      rw [List.isEmpty_iff.mp none, List.nil_append, List.dropWhile_cons_of_neg (by simp [stops])]
    · rfl
  rw [span, taken, left]
  rfl

theorem string_append_newline (cs more : List Char) :
    string (cs ++ '\n' :: more) = (string cs).followedBy ('\n' :: more) := by
  have open_ended : string ('\n' :: more) = ⟨.invalid .unterminated, [], '\n' :: more⟩ := by
    cases more with
    | nil => rfl
    | cons d more => rfl
  fun_induction string cs with
  | case1 => exact open_ended
  | case2 => simp [string, followedBy]
  | case3 => simp [string, followedBy, isEscape]
  | case4 => simp [string, followedBy]
  | case5 c quote slash feed =>
      simp [string, quote, slash, feed, open_ended, followedBy, push]
  | case6 => simp [string, followedBy]
  | case7 d cs escape quote ih => simp [string, escape, ih, followedBy, push]
  | case8 d cs escape quote => simp [string, escape, followedBy]
  | case9 => simp [string, followedBy]
  | case10 c d cs quote slash feed ih =>
      rw [List.cons_append] at ih
      simp [string, quote, slash, feed, ih, followedBy, push]

theorem word_append_newline (c : Char) (cs more : List Char) :
    word c (cs ++ '\n' :: more) = (word c cs).followedBy ('\n' :: more) := by
  have taken : (cs ++ '\n' :: more).takeWhile isWordChar = cs.takeWhile isWordChar :=
    congrArg tail (span_append_newline .identifier (by decide) cs more)
  unfold word
  rw [taken]
  exact span_append_newline _ (by decide) cs more

theorem sign_append_newline (c : Char) (cs more : List Char) :
    sign c (cs ++ '\n' :: more) = (sign c cs).followedBy ('\n' :: more) := by
  unfold sign
  cases paired? c with
  | none => rfl
  | some both =>
      obtain ⟨joined, alone⟩ := both
      cases cs with
      | nil => rfl
      | cons d cs =>
          dsimp only [List.cons_append]
          by_cases equals : d = '='
          · subst equals
            rfl
          · split
            · next same => cases same; exact absurd rfl equals
            · split
              · next same => cases same; exact absurd rfl equals
              · rfl

end Scan

/-- A token ends before a line feed. -/
theorem scan_append_newline (c : Char) (cs more : List Char) :
    scan c (cs ++ '\n' :: more) = (scan c cs).followedBy ('\n' :: more) := by
  unfold scan
  split
  · exact Scan.word_append_newline c cs more
  split
  · exact Scan.span_append_newline _ (by decide) cs more
  split
  · exact Scan.string_append_newline cs more
  have same : ((cs ++ '\n' :: more).head? == some '/') = (cs.head? == some '/') := by
    cases cs with
    | nil => rfl
    | cons d cs => rfl
  rw [same]
  split
  · exact Scan.span_append_newline _ (by decide) cs more
  · exact Scan.sign_append_newline c cs more

/-- The tokens of two texts with a line feed between them. -/
theorem tokensFrom_append_newline (m : Mark) (cs more : List Char) :
    tokensFrom m (cs ++ '\n' :: more) =
      tokensFrom m cs ++ tokensFrom (m.advance (cs ++ ['\n'])) more := by
  fun_induction tokensFrom m cs with
  | case1 m =>
      rw [List.nil_append, tokensFrom, if_pos (by decide)]
      rfl
  | case2 m c cs space ih =>
      rw [List.cons_append, tokensFrom, if_pos space, ih]
      rfl
  | case3 m c cs space s ih =>
      have whole : m.advance (c :: cs ++ ['\n']) =
          (m.advance (c :: s.tail)).advance (s.rest ++ ['\n']) := by
        have split : c :: s.tail ++ s.rest = c :: cs := congrArg (c :: ·) (scan_append c cs)
        rw [← Mark.advance_append, ← List.append_assoc, split]
      rw [List.cons_append, tokensFrom, if_neg space, scan_append_newline, whole]
      exact congrArg (_ :: ·) ih

/-! ## Lines -/

/-- Every line feed starts a new line, and nothing else does. -/
theorem Mark.line_advance (m : Mark) (cs : List Char) :
    (m.advance cs).pos.line = m.pos.line + cs.count '\n' := by
  induction cs generalizing m with
  | nil => simp
  | cons c cs ih =>
      rw [advance_cons, ih, step]
      by_cases feed : c = '\n'
      · simp [feed]
        omega
      · simp [feed]

theorem line_le_of_mem_tokensFrom {m : Mark} {cs : List Char} {t : Token}
    (member : t ∈ tokensFrom m cs) : m.pos.line ≤ t.pos.line := by
  rcases (tokensFrom_ordered m cs).1 t member with same | behind
  · exact Int.le_of_eq (congrArg Pos.line same.symm)
  · unfold Pos.Before at behind
    omega

end Samo
