import Samo.Proofs.Progress
import Samo.Proofs.RoundTrip
import Samo.Proofs.Semicolons

/-!
# A bad statement ends at its semicolon

A statement that fails is skipped up to the next semicolon, if no brace comes before it. So tokens
up to a lone semicolon stand for one statement (`Parser.contained`), and the statements behind them
are read as if they stood alone: reading depends on the tokens that are left, not on what was
reported (`Parser.anyStatements_alike`). The statement is bad unless the tokens are those of a
grammatical one.
-/

namespace Samo

/-- A statement before the others of a block. -/
def Block.cons (s : Stmt) : Block → Block
  | .mk start stop stmts => .mk start stop (s :: stmts)

namespace Parser

variable {α β : Type} {more : List Token} {last : Token}

/-! ## The statements behind it -/

/-- The statement that stands for the tokens up to a lone semicolon. -/
def contained (c : Cursor) : Stmt :=
  match anyStatement c with
  | .ok s _ => s
  | .error e _ => .bad e.pos e.fault

/-- Whether it is read or replaced, the next statement is read from behind the semicolon. -/
theorem recovering_contained {c d : Cursor} (lone : c.Lone) (longer : c.Longer more last d)
    (fresh : Fresh more last) (topLevel : Bool) :
    ∃ d', recovering topLevel anyStatement d = .ok (contained c) d' ∧ d'.rest = more ∧
      d'.eof = last := by
  have closing := Closes.anyStatement fresh c.rest.length c d lone longer (Nat.le_refl _)
  unfold recovering contained
  generalize anyStatement c = ended at closing
  generalize anyStatement d = ended' at closing
  cases closing with
  | @ok s c₁ d₁ done good longer₁ =>
      refine ⟨d₁, rfl, ?_, longer₁.eof⟩
      rw [longer₁.rest, done, List.nil_append]
  | @error e c₁ d₁ lone₁ longer₁ =>
      have skipped := (lone₁.report e).skip (longer₁.report e) topLevel (Nat.le_refl _)
      exact ⟨_, rfl, skipped.1, skipped.2⟩

/--
Two parsers end at the same place, both with the same error, or the second one with what `f` makes
of the first one's result.
-/
inductive Alike (f : α → β) :
    EStateM.Result SyntaxError Cursor α → EStateM.Result SyntaxError Cursor β → Prop
  | ok {a c d} : d.rest = c.rest → d.eof = c.eof → Alike f (.ok a c) (.ok (f a) d)
  | error {e c d} : d.rest = c.rest → d.eof = c.eof → Alike f (.error e c) (.error e d)

theorem Alike.bind {γ δ : Type} {f : α → β} {g : γ → δ} {p : Parser α} {q : Parser β}
    {k : α → Parser γ} {k' : β → Parser δ} {c d : Cursor} (first : Alike f (p c) (q d))
    (second : ∀ a c₁ d₁, d₁.rest = c₁.rest → d₁.eof = c₁.eof → Alike g (k a c₁) (k' (f a) d₁)) :
    Alike g ((p >>= k) c) ((q >>= k') d) := by
  generalize run : p c = ended at first
  generalize run' : q d = ended' at first
  cases first with
  | ok rest eof =>
      rw [bind_ok run, bind_ok run']
      exact second _ _ _ rest eof
  | error rest eof =>
      rw [bind_error run, bind_error run']
      exact .error rest eof

/-- A list of statements depends on the tokens that are left, not on what was reported. -/
theorem anyStatements_alike (topLevel : Bool) {c d : Cursor} (ends : c.eof.kind = .endOfFile)
    (rest : d.rest = c.rest) (eof : d.eof = c.eof) :
    Alike id (anyStatements topLevel c) (anyStatements topLevel d) := by
  -- both are read as from the same place with nothing reported yet
  have start : (⟨c.rest, c.eof, []⟩ : Cursor).eof.kind = .endOfFile := ends
  have same : ∀ c' : Cursor, c'.rest = c.rest → c'.eof = c.eof →
      anyStatements topLevel c' =
        resultAfter c'.errors (anyStatements topLevel ⟨c.rest, c.eof, []⟩) := by
    rintro ⟨rest', eof', errors'⟩ rfl rfl
    rw [← anyStatements_after start]
    simp [Cursor.after]
  rw [same c rfl rfl, same d rest eof]
  cases anyStatements topLevel ⟨c.rest, c.eof, []⟩ with
  | ok ss c' => exact .ok rfl rfl
  | error e c' => exact .error rfl rfl

/-- Tokens up to a lone semicolon put one statement before the ones that are read without them. -/
theorem anyStatements_contained {c d x : Cursor} (lone : c.Lone) (longer : c.Longer more last d)
    (fresh : Fresh more last) (rest : x.rest = more) (eof : x.eof = last) (topLevel : Bool) :
    Alike (contained c :: ·) (anyStatements topLevel x) (anyStatements topLevel d) := by
  obtain ⟨d', run, rest', eof'⟩ := recovering_contained lone longer fresh topLevel
  have goes : stops topLevel d.front.kind = false := by
    rw [longer.front lone.rest_ne_nil]
    have some : c.front.kind ≠ .endOfFile := lone.front_ne rfl (by decide)
    have inside : c.front.kind ≠ .punct .rightBrace := lone.front_ne rfl (by decide)
    cases topLevel <;> simp [stops, some, inside]
  have ends : d.eof.kind = .endOfFile := longer.eof ▸ fresh.last
  have alike : Alike id (anyStatements topLevel x) (anyStatements topLevel d') :=
    anyStatements_alike topLevel (eof ▸ fresh.last) (rest'.trans rest.symm) (eof'.trans eof.symm)
  have first : Alike (contained c :: ·) ((anyStatements topLevel >>= pure) x)
      ((anyStatements topLevel >>= fun ss => pure (contained c :: ss)) d') :=
    alike.bind fun ss c₁ d₁ rest₁ eof₁ => .ok rest₁ eof₁
  rw [anyStatements_go ends goes run]
  rwa [bind_pure] at first

theorem sign_alike (p : Punct) {c d : Cursor} (rest : d.rest = c.rest) (eof : d.eof = c.eof) :
    Alike id (sign p c) (sign p d) := by
  have front : d.front = c.front := by rw [Cursor.front, Cursor.front, rest, eof]
  by_cases same : c.front.kind = .punct p
  · rw [sign_pos same, sign_pos (front ▸ same), front]
    exact .ok (by rw [Cursor.rest_next, Cursor.rest_next, rest]) (by simpa using eof)
  · rw [sign_neg same, sign_neg (front ▸ same), front]
    exact .error rest eof

/-- In a block, too. -/
theorem block_contained {c d x : Cursor} {opening : Token} (lone : c.Lone) (fresh : Fresh more last)
    (opens : opening.kind = .punct .leftBrace) (rest : x.rest = opening :: more)
    (eof : x.eof = last) (rest' : d.rest = opening :: (c.rest ++ more)) (eof' : d.eof = last)
    {k k' : Nat} (enough : x.rest.length ≤ k) (enough' : d.rest.length ≤ k') :
    Alike (Block.cons (contained c)) (block (statement k) x) (block (statement k') d) := by
  have front : x.front = opening := by rw [Cursor.front, rest, List.headD_cons]
  have front' : d.front = opening := by rw [Cursor.front, rest', List.headD_cons]
  have longer : c.Longer more last d.next :=
    ⟨by rw [Cursor.rest_next, rest', List.tail_cons], by rw [Cursor.eof_next, eof'], lone.eof⟩
  have stmts := anyStatements_contained lone longer fresh
    (show x.next.rest = more by rw [Cursor.rest_next, rest, List.tail_cons])
    (show x.next.eof = last by rw [Cursor.eof_next, eof]) false
  rw [block_run (eof ▸ fresh.last) (front ▸ opens) enough,
    block_run (eof' ▸ fresh.last) (front' ▸ opens) enough', front, front']
  refine stmts.bind fun ss c₁ d₁ rest₁ eof₁ => ?_
  exact (sign_alike _ rest₁ eof₁).bind fun closing c₂ d₂ rest₂ eof₂ => .ok rest₂ eof₂

/-! ## What stands for the tokens -/

section

variable {c : Cursor} (lone : c.Lone) (clean : c.Clean)
include lone clean

/-- What is read up to a lone semicolon is a statement with just these words. -/
theorem grammatical_of_anyStatement {s : Stmt} {c' : Cursor} (run : anyStatement c = .ok s c') :
    s.Grammatical ∧ s.lexemes = c.lexemes := by
  have alone : Fresh [] c.eof := ⟨lone.eof, fun t member => by cases member⟩
  have same : c.Longer [] c.eof c := ⟨(List.append_nil _).symm, rfl, lone.eof⟩
  have closing := Closes.anyStatement alone c.rest.length c c lone same (Nat.le_refl _)
  rw [run] at closing
  cases closing with
  | ok done good =>
      rcases Covers.statement _ c s c' clean run with ⟨takes, right, -⟩ | ⟨-, bad⟩
      · have split := takes.split
        rw [show c'.lexemes = [] by rw [Cursor.lexemes, done]; rfl, List.append_nil] at split
        exact ⟨right, split.symm⟩
      · exact absurd bad good

/-- A grammatical statement with these words is what is read, but for its positions. -/
theorem contained_of_grammatical {g : Stmt} (right : g.Grammatical)
    (written : g.lexemes = c.lexemes) :
    (contained c).Grammatical ∧ (contained c).lexemes = c.lexemes ∧
      (contained c).bare = g.bare := by
  have before : c.Before (g.lexemes ++ []) :=
    ⟨clean, by rw [List.append_nil, written], by rw [List.append_nil]; exact Stmt.allWords g right⟩
  have short : g.lexemes.length ≤ c.rest.length + 1 := by
    rw [written, Cursor.lexemes, List.length_map]
    exact Nat.le_succ _
  have stops : g.StopsAt (Lexeme.frontKind []) :=
    ⟨Kind.noConfusion, fun _ => Kind.noConfusion⟩
  obtain ⟨s, c', run, same, -⟩ :=
    RereadsStmts.statement (c.rest.length + 1) g right short c [] before stops
  have read : anyStatement c = .ok s c' := run
  obtain ⟨right', words⟩ := grammatical_of_anyStatement lone clean read
  unfold contained
  rw [read]
  exact ⟨right', words, same⟩

/-- Words that are no statement are replaced by a bad one. -/
theorem contained_of_not_grammatical (none : ∀ g : Stmt, g.Grammatical → g.lexemes ≠ c.lexemes) :
    ∃ pos fault, contained c = .bad pos fault := by
  unfold contained
  cases run : anyStatement c with
  | ok s c' =>
      obtain ⟨right, words⟩ := grammatical_of_anyStatement lone clean run
      exact absurd words (none s right)
  | error e c' => exact ⟨e.pos, e.fault, rfl⟩

end

end Parser

/-! ## Tokens up to a semicolon -/

theorem visible_append (ts us : List Token) : visible (ts ++ us) = visible ts ++ visible us :=
  List.filter_append ..

theorem visible_cons {t : Token} (shown : t.kind.isHidden = false) (ts : List Token) :
    visible (t :: ts) = t :: visible ts :=
  List.filter_cons_of_pos (by rw [shown]; rfl)

/-- A token as a text has them: a word, a comment, or something invalid. -/
def Token.Proper (t : Token) : Prop :=
  t.toLexeme.IsWord ∨ t.kind = .comment ∨ ∃ flaw, t.kind = .invalid flaw

namespace Cursor

theorem clean_ofTokens {tokens : List Token} {last : Token} (proper : ∀ t ∈ tokens, t.Proper)
    (ends : last.kind = .endOfFile) : (ofTokens tokens last).Clean := by
  refine ⟨by rw [eof_ofTokens, ends], ?_, ?_⟩
  · intro t member
    rw [rest_ofTokens] at member
    obtain ⟨member, shown⟩ := List.mem_filter.mp member
    rcases proper t member with word | hidden | flawed
    · exact .inl word
    · rw [hidden] at shown
      cases shown
    · exact .inr flawed
  · rw [ofTokens, errors_look, pending_look]
    rfl

theorem lone_ofTokens {garbage : List Token} {semicolon : Token}
    (plain : ∀ t ∈ garbage, t.kind.isPlain = true) (ends : semicolon.kind = .punct .semicolon) :
    (ofTokens (garbage ++ [semicolon]) (endToken [])).Lone := by
  refine ⟨by rw [eof_ofTokens]; rfl, visible garbage, semicolon, ?_, ?_, ends⟩
  · rw [rest_ofTokens, visible_append, visible_cons (by rw [ends]; rfl)]
    rfl
  · exact fun t member => plain t (List.mem_filter.mp member).1

end Cursor

namespace Parser

/--
A bad statement ends at its semicolon. Tokens without a semicolon, a brace or the end of a text
among them are read up to the next semicolon as one statement, and this statement does not depend on
what follows. As long as that does not start with `otherwise`, the statements of a program, and of a
block, are this one and then the ones that are read without these tokens. If the tokens are the
words of a grammatical statement, it is that statement, and if not, it is a bad one.
-/
theorem recovery_contained (garbage : List Token) (semicolon : Token)
    (plain : ∀ t ∈ garbage, t.kind.isPlain = true) (ends : semicolon.kind = .punct .semicolon) :
    ∃ s : Stmt,
      (∀ (rest : List Token) (last : Token), last.kind = .endOfFile →
        (∀ t ∈ (visible rest).head?, t.kind ≠ .keyword .otherwiseWord) →
        Alike (s :: ·) (program (.ofTokens rest last))
          (program (.ofTokens (garbage ++ semicolon :: rest) last)) ∧
        ∀ (opening : Token) (c d : Cursor) (k k' : Nat), opening.kind = .punct .leftBrace →
          c.eof = last → c.rest = visible (opening :: rest) → c.rest.length ≤ k →
          d.eof = last → d.rest = visible (opening :: (garbage ++ semicolon :: rest)) →
          d.rest.length ≤ k' →
          Alike (Block.cons s) (block (statement k) c) (block (statement k') d)) ∧
      ((∀ t ∈ garbage ++ [semicolon], t.Proper) →
        (∀ g : Stmt, g.Grammatical →
          g.lexemes = (visible (garbage ++ [semicolon])).map Token.toLexeme →
          s.Grammatical ∧ s.lexemes = g.lexemes ∧ s.bare = g.bare) ∧
        ((∀ g : Stmt, g.Grammatical →
          g.lexemes ≠ (visible (garbage ++ [semicolon])).map Token.toLexeme) →
          ∃ pos fault, s = .bad pos fault)) := by
  have lone := Cursor.lone_ofTokens plain ends
  have shown : semicolon.kind.isHidden = false := by rw [ends]; rfl
  -- the tokens up to the semicolon, in a text of their own
  generalize start : Cursor.ofTokens (garbage ++ [semicolon]) (endToken []) = c₀ at lone
  have words : c₀.rest = visible (garbage ++ [semicolon]) := by
    rw [← start, Cursor.rest_ofTokens]
  have split : ∀ rest : List Token,
      visible (garbage ++ semicolon :: rest) = c₀.rest ++ visible rest := by
    intro rest
    rw [words, ← visible_append, List.append_assoc, List.singleton_append]
  refine ⟨contained c₀, fun rest last atEnd alone => ?_, fun proper => ?_⟩
  · have fresh : Fresh (visible rest) last := ⟨atEnd, alone⟩
    refine ⟨?_, fun opening c d k k' opens eof rest' enough eof' rest'' enough' => ?_⟩
    · rw [program_eq (by rw [Cursor.eof_ofTokens, atEnd]),
        program_eq (by rw [Cursor.eof_ofTokens, atEnd])]
      refine anyStatements_contained lone ?_ fresh (Cursor.rest_ofTokens ..)
        (Cursor.eof_ofTokens ..) true
      exact ⟨(Cursor.rest_ofTokens ..).trans (split rest), Cursor.eof_ofTokens .., lone.eof⟩
    · have visibly : opening.kind.isHidden = false := by rw [opens]; rfl
      rw [visible_cons visibly] at rest' rest''
      rw [split rest] at rest''
      exact block_contained lone fresh opens rest' eof rest'' eof' enough enough'
  · have clean : c₀.Clean := start ▸ Cursor.clean_ofTokens proper rfl
    rw [← words]
    refine ⟨fun g right written => ?_, contained_of_not_grammatical lone clean⟩
    obtain ⟨right', same, bare⟩ := contained_of_grammatical lone clean right written
    exact ⟨right', same.trans written.symm, bare⟩

/-- A number too large for its type, a parenthesis too many, and a comment. -/
def slip : List Token := tokensFrom .start "maybe (1) x = 99999999999 ) // off by one\n".toList

/-- The semicolon behind it. -/
def slipEnd : Token := ⟨.sign .semicolon, .start⟩

/-- What follows a slip is read as if it stood alone. -/
theorem slip_contained :
    (∀ t ∈ slip, t.kind.isPlain = true) ∧ slipEnd.kind = .punct .semicolon ∧
    ∃ s : Stmt, Alike (s :: ·)
      (program (.ofTokens (tokensFrom .start "x = 2; \x7b".toList) (endToken [])))
      (program (.ofTokens (slip ++ slipEnd :: tokensFrom .start "x = 2; \x7b".toList)
        (endToken []))) := by
  have plain : ∀ t ∈ slip, t.kind.isPlain = true := by decide +kernel
  obtain ⟨s, contained, -⟩ := recovery_contained slip slipEnd plain rfl
  have alone : ∀ t ∈ (visible (tokensFrom .start "x = 2; \x7b".toList)).head?,
      t.kind ≠ .keyword .otherwiseWord := by
    decide +kernel
  exact ⟨plain, rfl, s, (contained _ (endToken []) rfl alone).1⟩

end Parser

end Samo
