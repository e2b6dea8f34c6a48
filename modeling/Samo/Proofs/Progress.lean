import Samo.Proofs.Bounds
import Samo.Proofs.FlawReports

/-!
# Reading always gets on

No loop of a parser is cut short by its bound (`Parser.Unbounded`), so what is read is what the same
loops without bounds read. A list of statements is read in rounds (`Parser.Rounds`): each one reads
or replaces one statement and takes at least one token. At the outermost level the rounds take all
tokens of a text, one after the other (`Parser.program_rounds`).
-/

namespace Samo

/-- The tokens that take part in the grammar; comments do not. -/
def visible (tokens : List Token) : List Token := tokens.filter (!·.kind.isHidden)

/-- A cursor before a list of tokens; comments are left out. -/
def Cursor.ofTokens (tokens : List Token) (last : Token) : Cursor :=
  Cursor.look ⟨visible tokens, last, []⟩

@[simp] theorem Cursor.rest_ofTokens (tokens : List Token) (last : Token) :
    (ofTokens tokens last).rest = visible tokens := rest_look _

@[simp] theorem Cursor.eof_ofTokens (tokens : List Token) (last : Token) :
    (ofTokens tokens last).eof = last := eof_look _

namespace Parser

/-! ## No bound is reached -/

/-- The operators of the levels that group to the left, and what stands between them. -/
def operandLevels : List ((Kind → Option BinaryOp) × Parser Expr) :=
  [(productOp?, factor expr), (sumOp?, product expr), (andOp?, negation expr),
    (eitherOp?, conjunction expr)]

/--
No bound is reached from a place in a text. Each loop gives the same with every bound from the
number of tokens left on, and what is nested in expressions and statements is read by the same
rules.
-/
structure Unbounded (c : Cursor) : Prop where
  arguments : ∀ k, c.rest.length ≤ k → moreItems expr k c = moreItems expr c.rest.length c
  parameters : ∀ k, c.rest.length ≤ k →
    moreItems parameter k c = moreItems parameter c.rest.length c
  signs : ∀ k, c.rest.length ≤ k →
    signed (.punct .minus) .negate (primary expr) k c = factor expr c
  negations : ∀ k, c.rest.length ≤ k →
    signed (.keyword .notWord) .not (comparison expr) k c = negation expr c
  operands : ∀ level ∈ operandLevels, ∀ x k, c.rest.length ≤ k →
    moreOperands level.1 level.2 k x c = moreOperands level.1 level.2 c.rest.length x c
  parentheses : ∀ k, c.rest.length ≤ k → expression k c = expr c
  expr : expr c = disjunction expr c
  skipped : ∀ topLevel k, c.rest.length ≤ k → c.skip topLevel k = c.skip topLevel c.rest.length
  arms : ∀ k, c.rest.length ≤ k →
    branches anyStatement k c = branches anyStatement c.rest.length c
  statements : ∀ topLevel k, c.rest.length ≤ k →
    itemsUntil (stops topLevel) (recovering topLevel anyStatement) k c = anyStatements topLevel c
  nesting : ∀ k, c.rest.length ≤ k → statement k c = anyStatement c
  statement : anyStatement c = statementWith anyStatement c
  program : program c = anyStatements true c

theorem Unbounded.of_ends {c : Cursor} (ends : c.eof.kind = .endOfFile) : Unbounded c := by
  have enough := Nat.le_refl c.rest.length
  have le := Nat.le_succ c.rest.length
  have value : Lockstep id 0 c.rest.length (Expr.mapPos id) Parser.expr Parser.expr := .expr
  have inner : Nests id 0 c.rest.length (Parser.statement c.rest.length) anyStatement :=
    .anyStatement enough
  constructor
  · intro k more
    exact (value.moreItems more enough).eq (List.map_id'' Expr.mapPos_id) ends enough
  · intro k more
    exact (Lockstep.moreItems .parameter more enough).eq (List.map_id'' fun _ => rfl) ends enough
  · intro k more
    have tight := value.primary.mono le
    exact (Lockstep.signed Kind.noConfusion .negate tight more enough).eq Expr.mapPos_id ends enough
  · intro k more
    have tight := value.comparison.mono le
    exact (Lockstep.signed Kind.noConfusion .not tight more enough).eq Expr.mapPos_id ends enough
  · intro level member x k more
    -- every level has operators of its own, and none of them is the end of the text
    have known : level.1 .endOfFile = none ∧
        Lockstep id 0 c.rest.length (Expr.mapPos id) level.2 level.2 := by
      simp only [operandLevels, List.mem_cons, List.not_mem_nil, or_false] at member
      rcases member with rfl | rfl | rfl | rfl
      · exact ⟨rfl, value.factor.mono le⟩
      · exact ⟨rfl, value.product.mono le⟩
      · exact ⟨rfl, value.negation.mono le⟩
      · exact ⟨rfl, value.conjunction.mono le⟩
    have same := (Lockstep.moreOperands known.1 known.2 more enough x).eq Expr.mapPos_id ends enough
    rwa [x.mapPos_id] at same
  · intro k more
    exact (Lockstep.expression more le).eq Expr.mapPos_id ends enough
  · exact expr_eq ends
  · intro topLevel k more
    exact Cursor.skip_bound ends topLevel more enough
  · intro k more
    have first := (inner.branches enough more).eq Branches.mapPos_id ends enough
    have second := (inner.branches enough enough).eq Branches.mapPos_id ends enough
    exact first.symm.trans second
  · intro topLevel k more
    have first := (inner.statements topLevel enough more).eq (List.map_id'' Stmt.mapPos_id) ends
      enough
    exact first.symm.trans (statements_bound ends topLevel enough enough)
  · intro k more
    exact (Nests.anyStatement more).paired.eq Stmt.mapPos_id ends enough
  · exact anyStatement_eq ends
  · exact program_eq ends

/-! ## Rounds -/

/-- A statement is read, or replaced, from at least one token, and the others are left. -/
theorem recovering_takes (topLevel : Bool) (k : Nat) {c : Cursor} (ends : c.eof.kind = .endOfFile)
    (some : c.front.kind ≠ .endOfFile)
    (inside : topLevel = false → c.front.kind ≠ .punct .rightBrace) :
    ∃ s c' taken, recovering topLevel (statement k) c = .ok s c' ∧ taken ≠ [] ∧
      c.rest = taken ++ c'.rest ∧ c'.eof = c.eof := by
  obtain ⟨s, c', run⟩ := recovering_total topLevel (statement k) c
  have fewer := (Leads.statement k).length_recovering topLevel ends some inside
  have accounts := ((Stepwise.statement k).recovering topLevel |>.accounts c).1
  rw [run] at fewer accounts
  obtain ⟨taken, split⟩ := accounts.rest
  refine ⟨s, c', taken, run, ?_, split.symm, accounts.eof⟩
  rintro rfl
  rw [List.nil_append] at split
  rw [show (ending (.ok s c' : EStateM.Result SyntaxError Cursor Stmt)).rest = c.rest from split]
    at fewer
  exact Nat.lt_irrefl _ fewer

/--
The rounds of a list of statements from one place in a text to another: each statement with the
tokens taken for it. There is no bound on their number.
-/
inductive Rounds (topLevel : Bool) : Cursor → List (Stmt × List Token) → Cursor → Prop
  | done {c} : stops topLevel c.front.kind = true → Rounds topLevel c [] c
  | more {c s taken c₁ rounds c'} : stops topLevel c.front.kind = false →
      recovering topLevel anyStatement c = .ok s c₁ → taken ≠ [] → c.rest = taken ++ c₁.rest →
      Rounds topLevel c₁ rounds c' → Rounds topLevel c ((s, taken) :: rounds) c'

namespace Rounds

variable {topLevel : Bool} {c c' : Cursor} {rounds : List (Stmt × List Token)}

theorem stopped (read : Rounds topLevel c rounds c') : stops topLevel c'.front.kind = true := by
  induction read with
  | done ended => exact ended
  | more _ _ _ _ _ ih => exact ih

/-- The rounds take the tokens one after the other. -/
theorem tokens (read : Rounds topLevel c rounds c') :
    c.rest = (rounds.map (·.2)).flatten ++ c'.rest := by
  induction read with
  | done => rfl
  | more _ _ _ split _ ih =>
      rw [split, ih]
      simp

theorem taken_ne_nil (read : Rounds topLevel c rounds c') : ∀ round ∈ rounds, round.2 ≠ [] := by
  induction read with
  | done =>
      intro round member
      cases member
  | more _ _ some _ _ ih => exact List.forall_mem_cons.mpr ⟨some, ih⟩

end Rounds

/-- From every place there are rounds to where a list of statements ends, and they read the list. -/
theorem exists_rounds (topLevel : Bool) {c : Cursor} (ends : c.eof.kind = .endOfFile) :
    ∃ rounds c', Rounds topLevel c rounds c' ∧ c'.eof = c.eof ∧
      anyStatements topLevel c = .ok (rounds.map (·.1)) c' := by
  -- every round takes a token, so there are at most as many rounds as tokens
  induction bound : c.rest.length using Nat.strongRecOn generalizing c with
  | _ n ih =>
      cases goes : stops topLevel c.front.kind with
      | true => exact ⟨[], c, .done goes, rfl, anyStatements_stop goes⟩
      | false =>
          obtain ⟨some, inside⟩ := stops_eq_false goes
          obtain ⟨s, c₁, taken, run, real, split, same⟩ :=
            recovering_takes topLevel (c.rest.length + 1) ends some inside
          have fewer : c₁.rest.length < n := by
            have := List.length_pos_iff.mpr real
            rw [← bound, split, List.length_append]
            omega
          obtain ⟨rounds, c', read, same', others⟩ := ih _ fewer (same ▸ ends) rfl
          have first : recovering topLevel anyStatement c = .ok s c₁ := run
          refine ⟨(s, taken) :: rounds, c', .more goes first real split read, same'.trans same, ?_⟩
          rw [anyStatements_go ends goes first, bind_ok others]
          rfl

/-- The statements of a block are read in rounds, and then it has to be closed. -/
theorem block_rounds {c : Cursor} (ends : c.eof.kind = .endOfFile)
    (opens : c.front.kind = .punct .leftBrace) {k : Nat} (enough : c.rest.length ≤ k) :
    ∃ rounds c', Rounds false c.next rounds c' ∧ block (statement k) c =
      (sign .rightBrace >>= fun closing =>
        pure (Block.mk c.front.pos closing.pos (rounds.map (·.1)))) c' := by
  obtain ⟨rounds, c', read, -, run⟩ := exists_rounds false (c := c.next) (by simpa using ends)
  refine ⟨rounds, c', read, ?_⟩
  rw [block_run ends opens enough, bind_ok run]

/-- A program is read in rounds that take all tokens. -/
theorem program_rounds {tokens : List Token} {last : Token}
    (inner : ∀ t ∈ tokens, t.kind ≠ .endOfFile) (ends : last.kind = .endOfFile) :
    ∃ rounds c', Rounds true (.ofTokens tokens last) rounds c' ∧
      program (.ofTokens tokens last) = .ok (rounds.map (·.1)) c' ∧ c'.rest = [] := by
  have atEnd : (Cursor.ofTokens tokens last).eof.kind = .endOfFile := by
    rw [Cursor.eof_ofTokens, ends]
  obtain ⟨rounds, c', read, -, run⟩ := exists_rounds true atEnd
  refine ⟨rounds, c', read, (program_eq atEnd).trans run, ?_⟩
  -- the token in front of what is left would be an end of the text among the tokens
  cases left : c'.rest with
  | nil => rfl
  | cons t ts =>
      have front : t.kind = .endOfFile := by
        have stopped := of_decide_eq_true read.stopped
        rwa [Cursor.front, left] at stopped
      have member : t ∈ (Cursor.ofTokens tokens last).rest := by
        rw [read.tokens, left]
        simp
      have real : t ∈ tokens := by
        rw [Cursor.rest_ofTokens] at member
        exact (List.mem_filter.mp member).1
      exact absurd front (inner t real)

/--
Reading always gets on. No loop is ended by its bound. Where there is a token other than the end of
the text, and in a block other than a closing brace, reading a statement takes at least one token
and leaves the ones behind it, also when the statement is bad. So the statements of a block are read
in rounds up to its closing brace or the end of the text, and those of a program in rounds that take
all its tokens, none of them twice.
-/
theorem parsing_progresses :
    (∀ c : Cursor, c.eof.kind = .endOfFile → Unbounded c) ∧
    (∀ (topLevel : Bool) (k : Nat) (c : Cursor), c.eof.kind = .endOfFile →
      c.front.kind ≠ .endOfFile → (topLevel = false → c.front.kind ≠ .punct .rightBrace) →
      ∃ s c' taken, recovering topLevel (statement k) c = .ok s c' ∧ taken ≠ [] ∧
        c.rest = taken ++ c'.rest) ∧
    (∀ (k : Nat) (c : Cursor), c.eof.kind = .endOfFile → c.rest.length ≤ k →
      c.front.kind = .punct .leftBrace →
      ∃ rounds c', Rounds false c.next rounds c' ∧ block (statement k) c =
        (sign .rightBrace >>= fun closing =>
          pure (Block.mk c.front.pos closing.pos (rounds.map (·.1)))) c') ∧
    ∀ (tokens : List Token) (last : Token), (∀ t ∈ tokens, t.kind ≠ .endOfFile) →
      last.kind = .endOfFile →
      ∃ rounds c', Rounds true (.ofTokens tokens last) rounds c' ∧
        program (.ofTokens tokens last) = .ok (rounds.map (·.1)) c' ∧ c'.rest = [] ∧
        (∀ round ∈ rounds, round.2 ≠ []) ∧
        (rounds.map (·.2)).flatten = visible tokens := by
  refine ⟨fun c ends => .of_ends ends, ?_, ?_, ?_⟩
  · intro topLevel k c ends some inside
    obtain ⟨s, c', taken, run, real, split, -⟩ := recovering_takes topLevel k ends some inside
    exact ⟨s, c', taken, run, real, split⟩
  · intro k c ends enough opens
    exact block_rounds ends opens enough
  · intro tokens last inner ends
    obtain ⟨rounds, c', read, run, done⟩ := program_rounds inner ends
    have tokens := read.tokens
    rw [done, List.append_nil, Cursor.rest_ofTokens] at tokens
    exact ⟨rounds, c', read, run, done, read.taken_ne_nil, tokens.symm⟩

/-- Signs where no statement can start, a comment, and a statement that is not finished. -/
def strayWords : List Token := tokensFrom .start "\x7d x ) ; // note\n int".toList

/-- Stray words are taken in rounds too: a brace, up to a semicolon, and up to the end. -/
theorem strayWords_taken :
    (∀ t ∈ strayWords, t.kind ≠ .endOfFile) ∧
    (parse "\x7d x ) ; // note\n int".toList).1.length = 3 ∧
    ∃ rounds c', Rounds true (.ofTokens strayWords (endToken [])) rounds c' ∧
      program (.ofTokens strayWords (endToken [])) = .ok (rounds.map (·.1)) c' ∧
      c'.rest = [] ∧ (∀ round ∈ rounds, round.2 ≠ []) ∧
      (rounds.map (·.2)).flatten = visible strayWords := by
  have inner : ∀ t ∈ strayWords, t.kind ≠ .endOfFile := by decide +kernel
  exact ⟨inner, by decide +kernel, parsing_progresses.2.2.2 strayWords (endToken []) inner rfl⟩

end Parser

end Samo
