import Samo.Proofs.FlawReports

/-!
# Where tokens stand

Nothing of a text is lost between its tokens but spaces. A mark counts what is before it: the
characters, the line feeds, and the characters behind the last line feed (`Mark.Behind`). A token
starts at such a mark and covers the characters that are its text (`Token.Covers`); a character that
no token covers is a space (`isSpace_of_uncovered`).
-/

namespace Samo

/-! ## Marks count what is before them -/

/-- What a mark says about the characters before it. -/
structure Mark.Behind (m : Mark) (before : List Char) : Prop where
  offset : m.offset = before.length
  line : m.pos.line = 1 + before.count '\n'
  column : m.pos.column = (before.reverse.takeWhile (· != '\n')).length

namespace Mark.Behind

variable {m : Mark} {before : List Char}

theorem start : Mark.start.Behind [] := ⟨rfl, rfl, rfl⟩

theorem step (behind : m.Behind before) (c : Char) : (m.step c).Behind (before ++ [c]) := by
  obtain ⟨offset, line, column⟩ := behind
  refine ⟨?_, ?_, ?_⟩
  · rw [List.length_append, ← offset]
    rfl
  · rw [Mark.step, List.count_append]
    by_cases feed : c = '\n'
    · rw [if_pos feed, feed, line, List.count_singleton_self]
      push_cast
      omega
    · rw [if_neg feed, line, List.count_singleton, if_neg (by simpa using feed), Nat.add_zero]
  · rw [Mark.step, List.reverse_append, List.reverse_singleton, List.singleton_append]
    by_cases feed : c = '\n'
    · rw [if_pos feed, feed, List.takeWhile_cons_of_neg (by decide)]
      rfl
    · rw [if_neg feed, List.takeWhile_cons_of_pos (by simpa using feed), column, List.length_cons]
      push_cast
      rfl

theorem advance (behind : m.Behind before) (cs : List Char) :
    (m.advance cs).Behind (before ++ cs) := by
  induction cs generalizing m before with
  | nil =>
      rw [List.append_nil]
      exact behind
  | cons c cs ih =>
      rw [List.append_cons]
      exact ih (behind.step c)

end Mark.Behind

/-! ## Tokens cover their text -/

/-- The character at an offset belongs to a token. -/
def Token.Holds (t : Token) (i : Nat) : Prop := t.start.offset ≤ i ∧ (i : Int) ≤ t.stop

/-- A token covers some characters of a text, from its start to its stop, and these are its text. -/
structure Token.Covers (t : Token) (cs : List Char) : Prop where
  nonempty : (t.start.offset : Int) ≤ t.stop
  inside : t.stop < cs.length
  text : t.text = String.ofList (cs.extract t.start.offset (t.stop + 1).toNat)

/-- The token that a scan finds stops at the last of the characters that were taken. -/
theorem stop_scan (m : Mark) (c : Char) (cs : List Char) :
    Token.stop ⟨⟨(scan c cs).kind, String.ofList (c :: (scan c cs).tail)⟩, m⟩ =
      m.offset + (scan c cs).tail.length := by
  rw [Token.stop, Token.width, if_neg (Lexeme.kind_ne_endOfFile (scan_isWord c cs)),
    String.length_ofList, List.length_cons]
  push_cast
  omega

/-- What a scan finds at a mark covers its text. -/
theorem covers_scan {m : Mark} {before : List Char} (behind : m.Behind before) (c : Char)
    (cs : List Char) :
    Token.Covers ⟨⟨(scan c cs).kind, String.ofList (c :: (scan c cs).tail)⟩, m⟩
      (before ++ c :: (scan c cs).tail ++ (scan c cs).rest) := by
  refine ⟨?_, ?_, ?_⟩
  · rw [stop_scan]
    exact Int.le_add_of_nonneg_right (Int.natCast_nonneg _)
  · rw [stop_scan, behind.offset, List.length_append, List.length_append, List.length_cons]
    push_cast
    omega
  · have stop : (m.offset + (scan c cs).tail.length + 1 : Int).toNat =
        before.length + (c :: (scan c cs).tail).length := by
      rw [behind.offset, List.length_cons]
      omega
    rw [stop_scan, stop, behind.offset, List.extract_eq_take_drop, List.append_assoc,
      List.drop_left, Nat.add_sub_cancel_left, List.take_left]

/-- The tokens behind some characters cover their text, and their marks count what is before it. -/
theorem tokensFrom_covers (m : Mark) (cs : List Char) :
    ∀ before, m.Behind before → ∀ t ∈ tokensFrom m cs, before.length ≤ t.start.offset ∧
      t.Covers (before ++ cs) ∧ t.start.Behind ((before ++ cs).take t.start.offset) := by
  fun_induction tokensFrom m cs with
  | case1 m => simp
  | case2 m c cs space ih =>
      intro before behind t member
      obtain ⟨later, covers⟩ := ih (before ++ [c]) (behind.step c) t member
      rw [List.append_cons]
      rw [List.length_append] at later
      exact ⟨Nat.le_of_add_right_le later, covers⟩
  | case3 m c cs space s ih =>
      intro before behind t member
      have whole : before ++ c :: cs = before ++ c :: s.tail ++ s.rest := by
        rw [List.append_assoc, List.cons_append, scan_append]
      rw [whole]
      rcases List.mem_cons.mp member with rfl | member
      · refine ⟨Nat.le_of_eq behind.offset.symm, covers_scan behind c cs, ?_⟩
        rw [behind.offset, List.append_assoc, List.take_left]
        exact behind
      · obtain ⟨later, covers⟩ := ih (before ++ c :: s.tail) (behind.advance _) t member
        rw [List.length_append] at later
        exact ⟨Nat.le_of_add_right_le later, covers⟩

/-- A token stops before the next one starts. -/
theorem tokensFrom_disjoint (m : Mark) (cs : List Char) :
    ∀ before, m.Behind before →
      (tokensFrom m cs).Pairwise fun t u => t.stop < u.start.offset := by
  fun_induction tokensFrom m cs with
  | case1 m => simp
  | case2 m c cs space ih =>
      intro before behind
      exact ih (before ++ [c]) (behind.step c)
  | case3 m c cs space s ih =>
      intro before behind
      have moved := behind.advance (c :: s.tail)
      refine List.pairwise_cons.mpr ⟨fun t member => ?_, ih _ moved⟩
      have later := (tokensFrom_covers _ _ _ moved t member).1
      have stop : Token.stop ⟨⟨s.kind, String.ofList (c :: s.tail)⟩, m⟩ =
          m.offset + s.tail.length :=
        stop_scan m c cs
      rw [List.length_append, List.length_cons] at later
      rw [stop, behind.offset]
      omega

/-- A character behind some others that belongs to no token is a space. -/
theorem isSpace_of_uncovered (m : Mark) (cs : List Char) :
    ∀ before, m.Behind before → ∀ i c, cs[i]? = some c →
      (∀ t ∈ tokensFrom m cs, ¬ t.Holds (before.length + i)) → isSpace c = true := by
  fun_induction tokensFrom m cs with
  | case1 m => simp
  | case2 m d cs space ih =>
      intro before behind i c found free
      cases i with
      | zero =>
          cases found
          exact space
      | succ i =>
          refine ih (before ++ [d]) (behind.step d) i c found fun t member held => ?_
          rw [List.length_append, List.length_singleton, Nat.add_assoc, Nat.add_comm 1] at held
          exact free t member held
  | case3 m d cs space s ih =>
      intro before behind i c found free
      -- the first token ends where the rest of the scan starts
      have long : s.tail.length + 1 ≤ i := by
        have stop : Token.stop ⟨⟨s.kind, String.ofList (d :: s.tail)⟩, m⟩ =
            m.offset + s.tail.length := stop_scan m d cs
        refine Nat.lt_of_not_le fun short => free _ List.mem_cons_self ⟨?_, ?_⟩
        · exact behind.offset ▸ Nat.le_add_right _ _
        · rw [stop, behind.offset]
          omega
      obtain ⟨j, rfl⟩ := Nat.exists_eq_add_of_le long
      have there : s.rest[j]? = some c := by
        have split : d :: cs = d :: s.tail ++ s.rest := congrArg (d :: ·) (scan_append d cs).symm
        rw [split, List.getElem?_append_right long, List.length_cons, Nat.add_sub_cancel_left]
          at found
        exact found
      refine ih (before ++ d :: s.tail) (behind.advance _) j c there fun t member held => ?_
      rw [List.length_append, List.length_cons, Nat.add_assoc] at held
      exact free t (List.mem_cons_of_mem _ member) held

/-! ## The end of a text -/

/-- The tokens of a text stand one behind the other, and its end behind all of them. -/
theorem lex_ordered (cs : List Char) : (lex cs).Pairwise fun t u => t.pos.Before u.pos := by
  refine List.pairwise_append.mpr
    ⟨(tokensFrom_ordered .start cs).2, List.pairwise_singleton _ _, ?_⟩
  intro t member u last
  rw [List.mem_singleton.mp last]
  exact before_end_of_mem_tokensFrom member

/-- The marks of a text count what is before them, also the one at its end. -/
theorem behind_of_mem_lex {cs : List Char} {t : Token} (member : t ∈ lex cs) :
    t.start.Behind (cs.take t.start.offset) := by
  rcases List.mem_append.mp member with inner | last
  · exact (tokensFrom_covers .start cs [] .start t inner).2.2
  · have counts : (Mark.start.advance cs).Behind cs := Mark.Behind.start.advance cs
    rw [List.mem_singleton.mp last]
    show (Mark.start.advance cs).Behind (cs.take (Mark.start.advance cs).offset)
    rw [counts.offset, List.take_length]
    exact counts

/-! ## Errors -/

/-- An error is the report on an invalid token. -/
def SyntaxError.On (e : SyntaxError) (t : Token) : Prop :=
  e.pos = t.pos ∧ ∃ flaw, t.kind = .invalid flaw ∧ e.fault = .flaw flaw

/-- There is one error for each invalid token, in the order of the tokens. -/
theorem lexErrors_on (cs : List Char) :
    List.Forall₂ SyntaxError.On (lexErrors cs) ((lex cs).filter (·.flaw?.isSome)) := by
  unfold lexErrors
  induction lex cs with
  | nil => exact .nil
  | cons t ts ih =>
      rw [List.filterMap_cons, List.filter_cons, Token.error?]
      cases found : t.flaw? with
      | none => exact ih
      | some flaw =>
          refine .cons ⟨rfl, flaw, ?_, rfl⟩ ih
          unfold Token.flaw? at found
          split at found
          · next kind =>
            cases found
            exact kind
          · cases found

/--
Lexing loses nothing, whatever the text is. Its tokens and an end behind them are found. Each token
covers at least one character, its text is what it covers, and the next one starts behind it; what
no token covers is a space. The end stands behind all characters. Every mark counts the characters,
the lines and the columns before it, so the tokens stand at different positions, one behind the
other. There is one error for each invalid token, at its position and in the order of the tokens,
and these are the flaws that are reported when the text is read.
-/
theorem lexing_lossless (cs : List Char) :
    (∃ ts eof, lex cs = ts ++ [eof] ∧
      (∀ t ∈ ts, t.kind ≠ .endOfFile ∧ t.Covers cs) ∧
      (ts.Pairwise fun t u => t.stop < u.start.offset) ∧
      (∀ i c, cs[i]? = some c → (∀ t ∈ ts, ¬ t.Holds i) →
        c = ' ' ∨ c = '\t' ∨ c = '\n' ∨ c = '\r') ∧
      eof.kind = .endOfFile ∧ eof.start.offset = cs.length) ∧
    (∀ t ∈ lex cs, t.start.Behind (cs.take t.start.offset)) ∧
    ((lex cs).Pairwise fun t u => t.pos.Before u.pos) ∧
    List.Forall₂ SyntaxError.On (lexErrors cs) ((lex cs).filter (·.flaw?.isSome)) ∧
    (parse cs).2.filter (·.fault.isFlaw) = lexErrors cs := by
  refine ⟨⟨tokensFrom .start cs, endToken cs, rfl, ?_, ?_, ?_, rfl, ?_⟩,
    fun t member => behind_of_mem_lex member, lex_ordered cs, lexErrors_on cs, flaws_parse cs⟩
  · intro t member
    exact ⟨Lexeme.kind_ne_endOfFile (tokensFrom_isWord .start cs t member),
      (tokensFrom_covers .start cs [] .start t member).2.1⟩
  · exact tokensFrom_disjoint .start cs [] .start
  · intro i c found free
    have space := isSpace_of_uncovered .start cs [] .start i c found fun t member held =>
      free t member (by rwa [List.length_nil, Nat.zero_add] at held)
    simpa [isSpace, or_assoc] using space
  · exact (Mark.Behind.start.advance cs).offset

end Samo
