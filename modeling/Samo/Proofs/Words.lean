import Samo.Proofs.Grammar

/-!
# Words are written and read

What the lexer cuts out of a text is a word, a comment or invalid (`tokensFrom_isWord`). The other way
round, words with a space between them are cut out of their text again (`tokensFrom_written`).
-/

namespace Samo

/-! ## Scanning a string literal -/

theorem Literal.isSome_unescape? (c : Char) : (unescape? c).isSome = isEscape c := by
  unfold unescape? isEscape
  split
  · rfl
  · rfl
  · rfl
  · rfl
  · next n t q b =>
    have n : (c == 'n') = false := beq_false_of_ne n
    have t : (c == 't') = false := beq_false_of_ne t
    have q : (c == '"') = false := beq_false_of_ne q
    have b : (c == '\\') = false := beq_false_of_ne b
    rw [n, t, q, b]
    rfl

namespace Scan

/-- The rest of a string literal can be read, unless it is invalid. -/
theorem string_cases (cs : List Char) :
    ((string cs).kind = .stringLiteral ∧ (Literal.readBody? (string cs).tail).isSome = true) ∨
      ∃ flaw, (string cs).kind = .invalid flaw := by
  fun_induction string cs with
  | case2 | case6 => exact .inl ⟨rfl, rfl⟩
  | case1 | case3 | case4 | case5 | case8 | case9 => exact .inr ⟨_, rfl⟩
  | case7 d cs escape plain ih =>
      rcases ih with ⟨kind, read⟩ | flawed
      · refine .inl ⟨kind, ?_⟩
        obtain ⟨e, found⟩ := Option.isSome_iff_exists.mp
          ((Literal.isSome_unescape? d).trans escape)
        obtain ⟨body, inner⟩ := Option.isSome_iff_exists.mp read
        simp [push, Literal.readBody?, found, inner]
      · exact .inr flawed
  | case10 c d cs quote backslash feed ih =>
      rcases ih with ⟨kind, read⟩ | flawed
      · refine .inl ⟨kind, ?_⟩
        show (Literal.readBody? (c :: (string (d :: cs)).tail)).isSome = true
        cases tail : (string (d :: cs)).tail with
        | nil =>
            rw [tail] at read
            cases read
        | cons e es =>
            rw [tail] at read
            simp [Literal.readBody?, quote, backslash, feed, read]
      · exact .inr flawed

/-- A literal that can be read is scanned to its closing quote. -/
theorem string_of_read {body : List Char} (read : (Literal.readBody? body).isSome = true)
    (rest : List Char) : string (body ++ rest) = ⟨.stringLiteral, body, rest⟩ := by
  fun_induction Literal.readBody? body with
  | case1 => cases read
  | case2 =>
      cases rest with
      | nil => rfl
      | cons d ds => rfl
  | case3 => cases read
  | case4 d cs ih =>
      obtain ⟨body, found⟩ := Option.isSome_iff_exists.mp read
      obtain ⟨e, escape, found⟩ := Option.bind_eq_some_iff.mp found
      obtain ⟨inner, found, -⟩ := Option.bind_eq_some_iff.mp found
      have escape : isEscape d = true := by
        rw [← Literal.isSome_unescape?, escape]
        rfl
      show string ('\\' :: d :: (cs ++ rest)) = _
      rw [string, if_neg (by decide), if_pos rfl, if_pos escape,
        ih (by rw [found]; rfl)]
      rfl
  | case5 => cases read
  | case6 c d cs backslash other ih =>
      rw [Option.isSome_map] at read
      simp only [Bool.or_eq_true, decide_eq_true_eq, not_or] at other
      show string (c :: d :: (cs ++ rest)) = _
      rw [string, if_neg other.1, if_neg backslash, if_neg other.2, ← List.cons_append, ih read]
      rfl

/-- A span ends where its characters do. -/
theorem span_of_ends {kind : Kind} {p : Char → Bool} {cs rest : List Char}
    (all : ∀ c ∈ cs, p c = true) (ends : ∀ c ∈ rest.head?, p c = false) :
    span kind p (cs ++ rest) = ⟨kind, cs, rest⟩ := by
  have stops : rest.takeWhile p = [] ∧ rest.dropWhile p = rest := by
    cases rest with
    | nil => exact ⟨rfl, rfl⟩
    | cons c rest =>
        have last : ¬ p c = true := by rw [ends c rfl]; exact Bool.false_ne_true
        exact ⟨List.takeWhile_cons_of_neg last, List.dropWhile_cons_of_neg last⟩
  rw [span, List.takeWhile_append_of_pos all, List.dropWhile_append_of_pos all, stops.1, stops.2,
    List.append_nil]

end Scan

/-! ## Every token is a word -/

namespace Scan

theorem text_of_single? {c : Char} {p : Punct} (found : single? c = some p) :
    p.text.toList = [c] := by
  unfold single? at found
  split at found <;> cases found <;> rfl

theorem text_of_paired? {c : Char} {joined : Punct} {alone : Option Punct}
    (found : paired? c = some (joined, alone)) :
    joined.text.toList = [c, '='] ∧ ∀ p ∈ alone, p.text.toList = [c] := by
  unfold paired? at found
  split at found <;> cases found <;> simp <;> decide

theorem lone_cases {c : Char} {found : Option Punct} (text : ∀ p ∈ found, p.text.toList = [c]) :
    (∃ p, lone c found = .punct p ∧ [c] = p.text.toList) ∨ ∃ flaw, lone c found = .invalid flaw := by
  cases found with
  | none => exact .inr ⟨_, rfl⟩
  | some p => exact .inl ⟨p, rfl, (text p rfl).symm⟩

theorem sign_cases (c : Char) (cs : List Char) :
    (∃ p, (sign c cs).kind = .punct p ∧ c :: (sign c cs).tail = p.text.toList) ∨
      ∃ flaw, (sign c cs).kind = .invalid flaw := by
  unfold sign
  split
  · exact lone_cases fun p => text_of_single?
  · next joined alone found =>
    obtain ⟨both, single⟩ := text_of_paired? found
    split
    · exact .inl ⟨joined, rfl, both.symm⟩
    · exact lone_cases single

end Scan

/-- What a scan finds is a word, a comment or invalid. -/
theorem scan_isWord (c : Char) (cs : List Char) :
    Lexeme.IsWord ⟨(scan c cs).kind, String.ofList (c :: (scan c cs).tail)⟩ ∨
      (scan c cs).kind = .comment ∨ ∃ flaw, (scan c cs).kind = .invalid flaw := by
  unfold scan
  split
  · next letter =>
    refine .inl ?_
    unfold Scan.word
    dsimp only
    cases known : Keyword.ofText? (String.ofList (c :: cs.takeWhile isWordChar)) with
    | some w => exact (Keyword.text_of_ofText? known).symm
    | none =>
        show isName _ = true
        unfold isName
        rw [String.toList_ofList]
        show (isLetter c && (cs.takeWhile isWordChar).all isWordChar &&
          (Keyword.ofText? (String.ofList (c :: cs.takeWhile isWordChar))).isNone) = true
        rw [letter, known, List.all_takeWhile]
        rfl
  split
  · next digit =>
    refine .inl ?_
    show isNumeral _ = true
    unfold isNumeral
    rw [String.toList_ofList]
    show (c :: cs.takeWhile isDigit).all isDigit = true
    rw [List.all_cons, digit, List.all_takeWhile]
    rfl
  split
  · next quote =>
    obtain rfl : c = '"' := eq_of_beq quote
    rcases Scan.string_cases cs with ⟨kind, read⟩ | flawed
    · refine .inl ?_
      unfold Lexeme.IsWord
      rw [kind]
      show (Literal.read? (String.ofList _).toList).isSome = true
      rw [String.toList_ofList]
      exact read
    · exact .inr (.inr flawed)
  split
  · exact .inr (.inl rfl)
  · rcases Scan.sign_cases c cs with ⟨p, kind, text⟩ | flawed
    · refine .inl ?_
      unfold Lexeme.IsWord
      rw [kind]
      show String.ofList _ = p.text
      rw [text, String.ofList_toList]
    · exact .inr (.inr flawed)

/-- Every token of a text is a word, a comment or invalid. -/
theorem tokensFrom_isWord (m : Mark) (cs : List Char) :
    ∀ t ∈ tokensFrom m cs,
      t.toLexeme.IsWord ∨ t.kind = .comment ∨ ∃ flaw, t.kind = .invalid flaw := by
  intro t member
  obtain ⟨c, cs', -, scanned⟩ := exists_scan_of_mem_tokensFrom member
  rw [scanned]
  exact scan_isWord c cs'

/-- What is found in a text is not its end. -/
theorem Lexeme.kind_ne_endOfFile {l : Lexeme}
    (found : l.IsWord ∨ l.kind = .comment ∨ ∃ flaw, l.kind = .invalid flaw) :
    l.kind ≠ .endOfFile := by
  intro ends
  rcases found with word | comment | ⟨flaw, invalid⟩
  · unfold Lexeme.IsWord at word
    rw [ends] at word
    exact word
  · rw [ends] at comment
    cases comment
  · rw [ends] at invalid
    cases invalid

/-! ## Every word is a token -/

/-- The text of words with a space between them. -/
def Lexeme.written (ls : List Lexeme) : List Char :=
  List.intercalate [' '] (ls.map (·.text.toList))

/-- Nothing follows a word, or a space. -/
def EndsWord (rest : List Char) : Prop := ∀ c ∈ rest.head?, c = ' '

theorem Keyword.text_isWord (w : Keyword) :
    ∃ c cs, w.text.toList = c :: cs ∧ isLetter c = true ∧ cs.all isWordChar = true := by
  cases w <;> exact ⟨_, _, rfl, by decide, by decide⟩

theorem Scan.word_of_ends {c : Char} {cs rest : List Char} {kind : Kind}
    (all : cs.all isWordChar = true) (ends : EndsWord rest)
    (found : (Keyword.ofText? (String.ofList (c :: cs))).elim .identifier .keyword = kind) :
    word c (cs ++ rest) = ⟨kind, cs, rest⟩ := by
  have all := List.all_eq_true.mp all
  have ends : ∀ d ∈ rest.head?, isWordChar d = false := by
    intro d member
    rw [ends d member]
    decide
  have tail : (span kind isWordChar (cs ++ rest)).tail = cs := by rw [span_of_ends all ends]
  have taken : (cs ++ rest).takeWhile isWordChar = cs := tail
  unfold word
  rw [taken]
  dsimp only
  rw [found, span_of_ends all ends]

theorem Punct.scan_text (p : Punct) {rest : List Char} (ends : EndsWord rest) :
    ∃ c cs, p.text.toList = c :: cs ∧ isSpace c = false ∧
      scan c (cs ++ rest) = ⟨.punct p, cs, rest⟩ := by
  cases rest with
  | nil => cases p <;> exact ⟨_, _, rfl, rfl, rfl⟩
  | cons d ds =>
      obtain rfl : d = ' ' := ends d rfl
      cases p <;> exact ⟨_, _, rfl, rfl, rfl⟩

theorem not_isWordChar_of_isSpace {c : Char} (space : isSpace c = true) : isWordChar c = false := by
  simp only [isSpace, Bool.or_eq_true, beq_iff_eq] at space
  rcases space with ((rfl | rfl) | rfl) | rfl <;> decide

theorem not_isSpace_of_isWordChar {c : Char} (letter : isWordChar c = true) : isSpace c = false := by
  cases space : isSpace c with
  | false => rfl
  | true =>
      rw [not_isWordChar_of_isSpace space] at letter
      cases letter

theorem not_isLetter_of_isDigit {c : Char} (digit : isDigit c = true) : isLetter c = false := by
  cases letter : isLetter c with
  | false => rfl
  | true =>
      simp only [isDigit, isLetter, Bool.or_eq_true, Bool.and_eq_true, decide_eq_true_eq,
        beq_iff_eq, Char.le_def, UInt32.le_iff_toNat_le] at digit letter
      rcases letter with (rfl | letter) | letter
      · revert digit
        decide
      all_goals
        have high : '9'.val.toNat = 57 := rfl
        have small : 'a'.val.toNat = 97 := rfl
        have large : 'A'.val.toNat = 65 := rfl
        omega

/-- A word is scanned to its end. -/
theorem Lexeme.IsWord.scan {l : Lexeme} (word : l.IsWord) {rest : List Char}
    (ends : EndsWord rest) :
    ∃ c cs, l.text.toList = c :: cs ∧ isSpace c = false ∧
      Samo.scan c (cs ++ rest) = ⟨l.kind, cs, rest⟩ := by
  obtain ⟨kind, text⟩ := l
  -- keywords and names are scanned alike; only the table of keywords tells them apart
  have letters : ∀ {c : Char} {cs : List Char}, text.toList = c :: cs → isLetter c = true →
      cs.all isWordChar = true → (Keyword.ofText? text).elim .identifier .keyword = kind →
      ∃ c cs, text.toList = c :: cs ∧ isSpace c = false ∧
        Samo.scan c (cs ++ rest) = ⟨kind, cs, rest⟩ := by
    intro c cs split letter all found
    refine ⟨c, cs, split, not_isSpace_of_isWordChar (by rw [isWordChar, letter]; rfl), ?_⟩
    rw [Samo.scan, if_pos letter]
    refine Scan.word_of_ends all ends ?_
    rw [← split, String.ofList_toList, found]
  cases kind with
  | keyword w =>
      obtain rfl : text = w.text := word
      obtain ⟨c, cs, split, letter, all⟩ := w.text_isWord
      exact letters split letter all (by rw [w.ofText?_text]; rfl)
  | punct p =>
      obtain rfl : text = p.text := word
      exact p.scan_text ends
  | identifier =>
      have word : isName text = true := word
      unfold isName at word
      split at word
      · cases word
      · next c cs split =>
        simp only [Bool.and_eq_true, Option.isNone_iff_eq_none] at word
        exact letters split word.1.1 word.1.2 (by rw [word.2]; rfl)
  | intLiteral =>
      have word : isNumeral text = true := word
      unfold isNumeral at word
      cases split : text.toList with
      | nil =>
          rw [split] at word
          cases word
      | cons c cs =>
          rw [split] at word
          simp only [List.all_cons, Bool.and_eq_true] at word
          obtain ⟨-, digit, all⟩ := word
          refine ⟨c, cs, rfl, ?_, ?_⟩
          · exact not_isSpace_of_isWordChar (by rw [isWordChar, digit, Bool.or_true])
          · rw [Samo.scan, if_neg (by rw [not_isLetter_of_isDigit digit]; exact Bool.false_ne_true),
              if_pos digit]
            refine Scan.span_of_ends (List.all_eq_true.mp all) fun d member => ?_
            rw [ends d member]
            decide
  | stringLiteral =>
      have word : (Literal.read? text.toList).isSome = true := word
      unfold Literal.read? at word
      split at word
      · next cs split =>
        refine ⟨'"', cs, split, rfl, ?_⟩
        exact Scan.string_of_read word rest
      · cases word
  | endOfFile | comment | invalid => cases word

/-- The first of some words is a token, and the others follow. -/
theorem tokensFrom_word {l : Lexeme} (word : l.IsWord) {rest : List Char} (ends : EndsWord rest)
    (m : Mark) :
    ∃ m', tokensFrom m (l.text.toList ++ rest) = ⟨l, m⟩ :: tokensFrom m' rest := by
  obtain ⟨c, cs, split, space, scanned⟩ := word.scan ends
  have text : String.ofList (c :: cs) = l.text := by rw [← split, String.ofList_toList]
  rw [split, List.cons_append, tokensFrom, if_neg (by rw [space]; exact Bool.false_ne_true)]
  dsimp only
  rw [scanned]
  dsimp only
  rw [text]
  exact ⟨_, rfl⟩

/-- Words with a space between them are the tokens of their text. -/
theorem tokensFrom_written {ls : List Lexeme} (words : ∀ l ∈ ls, l.IsWord) (m : Mark) :
    (tokensFrom m (Lexeme.written ls)).map Token.toLexeme = ls := by
  induction ls generalizing m with
  | nil =>
      rw [Lexeme.written, List.map_nil, List.intercalate_nil, tokensFrom]
      rfl
  | cons l ls ih =>
      have word := words l List.mem_cons_self
      have others := fun m => ih (fun l member => words l (List.mem_cons_of_mem _ member)) m
      cases ls with
      | nil =>
          have ends : EndsWord [] := by
            intro c member
            cases member
          obtain ⟨m', tokens⟩ := tokensFrom_word word ends m
          rw [Lexeme.written, List.map_singleton, List.intercalate_singleton,
            ← List.append_nil l.text.toList, tokens, tokensFrom]
          rfl
      | cons k ls =>
          have written : Lexeme.written (l :: k :: ls) =
              l.text.toList ++ ' ' :: Lexeme.written (k :: ls) := by
            rw [Lexeme.written, List.map_cons, List.map_cons, List.intercalate_cons_cons,
              List.append_assoc]
            rfl
          -- the space between two words ends the first one
          have ends : EndsWord (' ' :: Lexeme.written (k :: ls)) := by
            intro c member
            cases member
            rfl
          obtain ⟨m', tokens⟩ := tokensFrom_word word ends m
          rw [written, tokens, List.map_cons, tokensFrom, if_pos (by decide), others]

end Samo
