import Samo.Proofs.LineBreaks
import Samo.Syntax.Fault

/-!
# Lexing composes over lines

A text is lexed line by line: no token goes over a line feed, and what stands behind one is lexed as
a text of its own, some lines further down. So the tokens of two texts with a line feed between them
are those of the first without its end and then those of the second, moved down (`lexing_composes`).
The errors of the lexer are those of its invalid tokens and move with them.
-/

namespace Samo

/-! ## Tokens lie on one line -/

/-- A scan stops before the first line feed. -/
theorem newline_notMem_scan_tail (c : Char) (cs : List Char) : '\n' ∉ (scan c cs).tail := by
  have tail_subset : ∀ ds, ∀ d ∈ (scan c ds).tail, d ∈ ds := by
    intro ds d member
    rw [← scan_append c ds]
    exact List.mem_append_left _ member
  by_cases feed : '\n' ∈ cs
  · -- what is scanned up to the first line feed is all that is scanned
    obtain ⟨line, more, rfl, none⟩ := List.eq_append_cons_of_mem feed
    rw [scan_append_newline]
    intro member
    exact none (tail_subset line _ member)
  · intro member
    exact feed (tail_subset cs _ member)

theorem newline_notMem_of_mem_tokensFrom {m : Mark} {cs : List Char} {t : Token}
    (member : t ∈ tokensFrom m cs) : '\n' ∉ t.text.toList := by
  obtain ⟨c, cs', space, scanned⟩ := exists_scan_of_mem_tokensFrom member
  rw [congrArg Lexeme.text scanned, String.toList_ofList, List.mem_cons, not_or]
  refine ⟨?_, newline_notMem_scan_tail c cs'⟩
  rintro rfl
  exact absurd space (by decide)

theorem newline_notMem_of_mem_lex {cs : List Char} {t : Token} (member : t ∈ lex cs) :
    '\n' ∉ t.text.toList := by
  rcases List.mem_append.mp member with inner | last
  · exact newline_notMem_of_mem_tokensFrom inner
  · rw [List.mem_singleton.mp last]
    show '\n' ∉ "<EOF>".toList
    decide

/-! ## Moving down -/

/-- The position some lines further down. -/
def Pos.below (lines : Nat) (p : Pos) : Pos := ⟨p.line + lines, p.column⟩

/-- The mark behind some more characters, the last of them a line feed. -/
def Mark.below (chars lines : Nat) (m : Mark) : Mark := ⟨m.offset + chars, m.pos.below lines⟩

/-- The token behind some more characters, the last of them a line feed. -/
def Token.below (chars lines : Nat) (t : Token) : Token :=
  { t with start := t.start.below chars lines }

def SyntaxError.below (lines : Nat) (e : SyntaxError) : SyntaxError :=
  { e with pos := e.pos.below lines }

namespace Mark

theorem step_below (chars lines : Nat) (m : Mark) (c : Char) :
    (m.below chars lines).step c = (m.step c).below chars lines := by
  simp only [step, below, Mark.mk.injEq]
  refine ⟨by omega, ?_⟩
  by_cases feed : c = '\n'
  · simp only [Pos.below, if_pos feed, Pos.mk.injEq, and_true]
    omega
  · simp only [Pos.below, if_neg feed]

theorem advance_below (chars lines : Nat) (m : Mark) (cs : List Char) :
    (m.below chars lines).advance cs = (m.advance cs).below chars lines := by
  induction cs generalizing m with
  | nil => rfl
  | cons c cs ih => rw [advance_cons, advance_cons, step_below, ih]

/-- Behind a line feed a text starts again, in the first column. -/
theorem start_advance_newline (cs : List Char) :
    start.advance (cs ++ ['\n']) = start.below (cs.length + 1) (cs.count '\n' + 1) := by
  have line := line_advance start cs
  have offset := offset_advance start cs
  rw [advance_append]
  show (start.advance cs).step '\n' = _
  simp only [step, below, Pos.below, if_pos, Mark.mk.injEq, Pos.mk.injEq]
  rw [line, offset]
  exact ⟨by omega, by omega, rfl⟩

end Mark

/-- Where a text starts is where its tokens are counted from. -/
theorem tokensFrom_below (chars lines : Nat) (m : Mark) (cs : List Char) :
    tokensFrom (m.below chars lines) cs = (tokensFrom m cs).map (Token.below chars lines) := by
  fun_induction tokensFrom m cs with
  | case1 m => rw [tokensFrom, List.map_nil]
  | case2 m c cs space ih => rw [tokensFrom, if_pos space, Mark.step_below, ih]
  | case3 m c cs space s ih =>
      rw [tokensFrom, if_neg space]
      show _ :: tokensFrom ((m.below chars lines).advance (c :: s.tail)) s.rest = _
      rw [Mark.advance_below, ih]
      rfl

theorem endToken_append_newline (cs more : List Char) :
    endToken (cs ++ '\n' :: more) =
      (endToken more).below (cs.length + 1) (cs.count '\n' + 1) := by
  have split : cs ++ '\n' :: more = (cs ++ ['\n']) ++ more := by simp
  unfold endToken
  rw [split, Mark.advance_append, Mark.start_advance_newline, Mark.advance_below]
  rfl

theorem dropLast_lex (cs : List Char) : (lex cs).dropLast = tokensFrom .start cs :=
  List.dropLast_concat

theorem lex_append_newline (cs more : List Char) :
    lex (cs ++ '\n' :: more) =
      (lex cs).dropLast ++ (lex more).map (Token.below (cs.length + 1) (cs.count '\n' + 1)) := by
  rw [dropLast_lex, lex, lex, tokensFrom_append_newline, endToken_append_newline,
    Mark.start_advance_newline, tokensFrom_below, List.map_append, List.map_singleton,
    List.append_assoc]

/-! ## Errors of the lexer -/

/-- What there is to report about a token. -/
def Token.error? (t : Token) : Option SyntaxError := t.flaw?.map fun flaw => ⟨t.pos, .flaw flaw⟩

/-- The errors of the lexer, in order: those of the invalid tokens. -/
def lexErrors (cs : List Char) : List SyntaxError := (lex cs).filterMap Token.error?

theorem Token.error?_below (chars lines : Nat) (t : Token) :
    (t.below chars lines).error? = t.error?.map (SyntaxError.below lines) := by
  have same : (t.below chars lines).flaw? = t.flaw? := rfl
  unfold Token.error?
  rw [same]
  cases t.flaw? with
  | none => rfl
  | some flaw => rfl

/-- There is nothing to report about the end of a text. -/
theorem lexErrors_eq (cs : List Char) :
    lexErrors cs = (lex cs).dropLast.filterMap Token.error? := by
  unfold lexErrors
  rw [dropLast_lex, lex, List.filterMap_append]
  exact List.append_nil _

theorem lexErrors_append_newline (cs more : List Char) :
    lexErrors (cs ++ '\n' :: more) =
      lexErrors cs ++ (lexErrors more).map (SyntaxError.below (cs.count '\n' + 1)) := by
  have moved : Token.error? ∘ Token.below (cs.length + 1) (cs.count '\n' + 1) =
      fun t => t.error?.map (SyntaxError.below (cs.count '\n' + 1)) := by
    funext t
    exact t.error?_below _ _
  rw [lexErrors_eq cs]
  unfold lexErrors
  rw [lex_append_newline, List.filterMap_append, List.filterMap_map, moved, List.map_filterMap]

/--
Lexing composes over lines, whatever the two texts are. No token contains a line feed. The tokens of
two texts with a line feed between them are those of the first without its end, and those of the
second with its end: these keep their columns and stand further down by the line feeds before them,
and further on by the characters before them. The errors are those of the first text and those of
the second one, moved down by as many lines.
-/
theorem lexing_composes (first second : Bytes) :
    (∀ t ∈ lex (Text.decode first), '\n' ∉ t.text.toList) ∧
      lex (Text.decode (first ++ Text.lineFeed :: second)) =
        (lex (Text.decode first)).dropLast ++
          (lex (Text.decode second)).map (Token.below ((Text.decode first).length + 1)
            (first.count Text.lineFeed + 1)) ∧
      lexErrors (Text.decode (first ++ Text.lineFeed :: second)) =
        lexErrors (Text.decode first) ++ (lexErrors (Text.decode second)).map
          (SyntaxError.below (first.count Text.lineFeed + 1)) := by
  rw [Text.decode_append_lineFeed, ← Text.count_decode]
  exact ⟨fun _ => newline_notMem_of_mem_lex, lex_append_newline _ _, lexErrors_append_newline _ _⟩

end Samo
