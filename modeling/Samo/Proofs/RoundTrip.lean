import Samo.Proofs.Rereading
import Samo.Proofs.Spellings
import Samo.Proofs.SyntaxErrors

/-!
# Written programs are read back

A grammatical statement is read back from its words, but for its positions
(`Parser.RereadsStmts.statement`). What follows must not go on with it: no `else`, and no `otherwise`
if a `maybe` at its end waits for one. So reading accepts exactly the programs of the grammar, and
loses nothing of them.
-/

namespace Samo

/-! ## Where a statement starts and ends -/

/-- Whether a statement can start with a word of the kind. -/
def Kind.startsStmt : Kind → Bool
  | identifier | punct .leftBrace | keyword .intWord | keyword .stringWord | keyword .boolieWord
  | keyword .voidWord | keyword .letWord | keyword .fnWord | keyword .ifWord | keyword .whileWord
  | keyword .breakWord | keyword .continueWord | keyword .returnWord | keyword .needsWord
  | keyword .maybeWord => true
  | _ => false

theorem Stmt.exists_lexemes {s : Stmt} (right : s.Grammatical) :
    ∃ l ls, s.lexemes = l :: ls ∧ l.kind.startsStmt = true := by
  cases s with
  | block body =>
      obtain ⟨opening, closing, stmts⟩ := body
      rw [lexemes, Block.lexemes]
      exact ⟨_, _, rfl, rfl⟩
  | declare pos type namePos name init =>
      rw [lexemes]
      refine ⟨_, _, rfl, ?_⟩
      cases type with
      | void => rfl
      | value type => cases type <;> rfl
  | call pos name args =>
      rw [lexemes, Expr.lexemes]
      exact ⟨_, _, rfl, rfl⟩
  | bad pos fault =>
      rw [Grammatical] at right
      exact right.elim
  | infer | assign | define | branch | loop | breakOut | continueOn | returnWith | needs | maybe
  | maybeOtherwise =>
      rw [lexemes]
      exact ⟨_, _, rfl, rfl⟩

/-- A word of the kind does not go on with the statement. -/
def Stmt.StopsAt (s : Stmt) (kind : Kind) : Prop :=
  kind ≠ .keyword .elseWord ∧ (s.endsOpen = true → kind ≠ .keyword .otherwiseWord)

theorem Stmt.StopsAt.of_startsStmt {s : Stmt} {kind : Kind} (starts : kind.startsStmt = true) :
    s.StopsAt kind := by
  constructor
  · rintro rfl
    cases starts
  · rintro - rfl
    cases starts

namespace Parser

variable {nested : Parser Stmt} {bound : Nat}

/-! ## Statements without statements in them -/

namespace Rereads

theorem condition {e : Expr} (right : e.Grammatical) :
    Rereads condition Expr.bare e (Lexeme.inParens e.lexemes) fun _ => True := by
  intro c tail before _
  replace before : c.Before (.sign .leftParen :: (e.lexemes ++ .sign .rightParen :: tail)) := by
    simpa [Lexeme.inParens] using before
  obtain ⟨e', c', run, same, before'⟩ :=
    Rereads.expr right c.next _ before.next (.sign (.inr (.inl rfl)))
  refine ⟨e', c'.next, ?_, same, before'.next⟩
  unfold Parser.condition
  rw [bind_ok (sign_of_before before), bind_ok run, bind_ok (sign_of_before before')]
  rfl

theorem declaration {pos namePos : Pos} {type : TypeName} {name : String} {init : Option Expr}
    (right : ∀ e ∈ init, e.Grammatical) :
    Rereads (declaration type) Stmt.bare (.declare pos type namePos name init)
      (Stmt.declare pos type namePos name init).lexemes fun _ => True := by
  intro c tail before _
  rw [Stmt.lexemes] at before
  unfold Parser.declaration
  cases init with
  | none =>
      have before₁ : c.next.Before (.name name :: .sign .semicolon :: tail) := before.next
      have before₂ := before₁.next
      rw [bind_ok (advance_run c), bind_ok (expectName_of_before before₁),
        bind_ok (accept_of_ne before₂ (by rintro ⟨⟩))]
      dsimp only
      rw [bind_ok (pure_run _ _), bind_ok (sign_of_before before₂), before₁.text]
      exact ⟨_, _, rfl, by simp only [Stmt.bare, Option.map_none]; rfl, before₂.next⟩
  | some e =>
      have before₁ : c.next.Before
          (.name name :: .sign .assign :: (e.lexemes ++ .sign .semicolon :: tail)) := by
        simpa using before.next
      have before₂ := before₁.next
      obtain ⟨e', c', run, same, before'⟩ :=
        Rereads.expr (right e rfl) _ _ before₂.next (.sign (.inr (.inr rfl)))
      rw [bind_ok (advance_run c), bind_ok (expectName_of_before before₁),
        bind_ok (acceptSign_of_before before₂)]
      dsimp only
      rw [← bind_pure_comp, bind_assoc, bind_ok run, bind_ok (pure_run _ _),
        bind_ok (sign_of_before before'), before₁.text]
      exact ⟨_, _, rfl, by simp only [Stmt.bare, Option.map_some, same]; rfl, before'.next⟩

theorem inference {pos namePos : Pos} {name : String} {init : Expr} (right : init.Grammatical) :
    Rereads inference Stmt.bare (.infer pos namePos name init)
      (Stmt.infer pos namePos name init).lexemes fun _ => True := by
  intro c tail before _
  replace before : c.Before (.word .letWord :: .name name :: .sign .assign ::
      (init.lexemes ++ .sign .semicolon :: tail)) := by
    simpa [Stmt.lexemes] using before
  have before₁ := before.next
  have before₂ := before₁.next
  obtain ⟨init', c', run, same, before'⟩ :=
    Rereads.expr right _ _ before₂.next (.sign (.inr (.inr rfl)))
  unfold Parser.inference
  rw [bind_ok (advance_run c), bind_ok (expectName_of_before before₁),
    bind_ok (sign_of_before before₂), bind_ok run, bind_ok (sign_of_before before'), before₁.text]
  exact ⟨_, _, rfl, by simp only [Stmt.bare, same]; rfl, before'.next⟩

theorem assignment {pos : Pos} {name : String} {value : Expr} (right : value.Grammatical) :
    Rereads assignment Stmt.bare (.assign pos name value) (Stmt.assign pos name value).lexemes
      fun _ => True := by
  intro c tail before _
  replace before : c.Before (.name name :: .sign .assign ::
      (value.lexemes ++ .sign .semicolon :: tail)) := by
    simpa [Stmt.lexemes] using before
  have before₁ := before.next
  obtain ⟨value', c', run, same, before'⟩ :=
    Rereads.expr right _ _ before₁.next (.sign (.inr (.inr rfl)))
  unfold Parser.assignment
  rw [bind_ok (advance_run c), bind_ok (sign_of_before before₁), bind_ok run,
    bind_ok (sign_of_before before'), before.text]
  exact ⟨_, _, rfl, by simp only [Stmt.bare, same]; rfl, before'.next⟩

theorem callStatement {pos : Pos} {name : String} {args : List Expr}
    (right : (Expr.call pos name args).Grammatical) :
    Rereads callStatement Stmt.bare (.call pos name args) (Stmt.call pos name args).lexemes
      fun _ => True := by
  intro c tail before _
  rw [Stmt.lexemes, List.append_assoc] at before
  obtain ⟨⟨pos', name', args'⟩, c', run, same, before'⟩ := Rereads.call right c _ before trivial
  have before' : c'.Before (.sign .semicolon :: tail) := before'
  refine ⟨.call pos' name' args', c'.next, ?_, ?_, before'.next⟩
  · unfold Parser.callStatement
    rw [bind_ok run]
    dsimp only
    rw [bind_ok (sign_of_before before')]
    rfl
  · simp only [Expr.bare, Expr.bareAll_eq_map, Expr.call.injEq, true_and] at same
    rw [Stmt.bare, Stmt.bare, same.1, same.2]

theorem returning {pos : Pos} {value : Option Expr} (right : ∀ e ∈ value, e.Grammatical) :
    Rereads returning Stmt.bare (.returnWith pos value) (Stmt.returnWith pos value).lexemes
      fun _ => True := by
  intro c tail before _
  rw [Stmt.lexemes] at before
  unfold Parser.returning
  rw [bind_ok (advance_run c), bind_ok (peekKind_run c.next)]
  dsimp only
  cases value with
  | none =>
      have before₁ : c.next.Before (.sign .semicolon :: tail) := before.next
      have front : c.next.front.kind = .punct .semicolon := before₁.front_kind
      rw [if_pos front, bind_ok (pure_run _ _), bind_ok (sign_of_before before₁)]
      exact ⟨_, _, rfl, by simp only [Stmt.bare, Option.map_none], before₁.next⟩
  | some e =>
      have before₁ : c.next.Before (e.lexemes ++ .sign .semicolon :: tail) := by
        simpa using before.next
      obtain ⟨l, ls, written, starts, -⟩ := e.exists_lexemes (right e rfl)
      have front : c.next.front.kind ≠ .punct .semicolon := by
        rw [before₁.front_kind, written]
        intro (ended : l.kind = .punct .semicolon)
        rw [ended] at starts
        cases starts
      obtain ⟨e', c', run, same, before'⟩ :=
        Rereads.expr (right e rfl) _ _ before₁ (.sign (.inr (.inr rfl)))
      rw [if_neg front, ← bind_pure_comp, bind_assoc, bind_ok run, bind_ok (pure_run _ _),
        bind_ok (sign_of_before before')]
      exact ⟨_, _, rfl, by simp only [Stmt.bare, Option.map_some, same], before'.next⟩

theorem request {pos : Pos} {spelling path : String}
    (right : Literal.read? spelling.toList = some path.toList) :
    Rereads request Stmt.bare (.needs pos spelling path) (Stmt.needs pos spelling path).lexemes
      fun _ => True := by
  intro c tail before _
  rw [Stmt.lexemes] at before
  have before₁ : c.next.Before (⟨.stringLiteral, spelling⟩ :: .sign .semicolon :: tail) :=
    before.next
  have text : c.next.front.text = spelling := before₁.text
  have read : Literal.value spelling = path := by
    rw [Literal.value, right]
    exact String.ofList_toList
  unfold Parser.request
  rw [bind_ok (advance_run c), bind_ok (expect_of_before before₁ rfl),
    bind_ok (sign_of_before before₁.next), text, read]
  exact ⟨_, _, rfl, by rw [Stmt.bare, Stmt.bare], before₁.next.next⟩

theorem parameter (p : Param) : Rereads parameter Param.bare p p.lexemes fun _ => True := by
  intro c tail before _
  replace before : c.Before (.word p.type.keyword :: .name p.name :: tail) := before
  have before₁ := before.next
  have named : typeName? c.front.kind = some p.type :=
    typeName?_eq_some_iff.mpr before.front_kind
  unfold Parser.parameter
  rw [bind_ok (peek_run c), named]
  dsimp only
  rw [bind_ok (advance_run c), bind_ok (expectName_of_before before₁), before₁.text]
  exact ⟨_, _, rfl, rfl, before₁.next⟩

theorem resultType (returns : Option (Pos × TypeName)) :
    Rereads resultType (Option.map fun r => (Pos.nowhere, r.2)) returns
      (returns.elim [] fun r => [.word r.2.keyword]) fun kind => typeName? kind = none := by
  intro c tail before ended
  unfold Parser.resultType
  rw [bind_ok (peek_run c)]
  cases returns with
  | none =>
      have none : typeName? c.front.kind = none := before.front_kind ▸ ended
      rw [none]
      exact ⟨_, _, rfl, rfl, before⟩
  | some r =>
      have named : typeName? c.front.kind = some r.2 :=
        typeName?_eq_some_iff.mpr before.front_kind
      rw [named]
      dsimp only
      rw [bind_ok (advance_run c)]
      exact ⟨_, _, rfl, rfl, before.next⟩

end Rereads

/-- A statement of one word and a semicolon. -/
theorem jump_of_before {c : Cursor} {tail : List Lexeme} {w : Keyword}
    (before : c.Before ([.word w, .sign .semicolon] ++ tail)) (s : Stmt) :
    (do let _ ← advance; let _ ← sign .semicolon; return s : Parser Stmt) c =
        .ok s c.next.next ∧ c.next.next.Before tail := by
  have before₁ : c.next.Before (.sign .semicolon :: tail) := before.next
  rw [bind_ok (advance_run c), bind_ok (sign_of_before before₁)]
  exact ⟨rfl, before₁.next⟩

/-! ## Statements in statements -/

/-- A parser reads back the statements that are at most so long. -/
def RereadsStmts (bound : Nat) (p : Parser Stmt) : Prop :=
  ∀ s : Stmt, s.Grammatical → s.lexemes.length ≤ bound → Rereads p Stmt.bare s s.lexemes s.StopsAt

/-- Nothing has to be recovered from. -/
theorem RereadsStmts.recovering (rereads : RereadsStmts bound nested) (topLevel : Bool) :
    RereadsStmts bound (recovering topLevel nested) := by
  intro s right short c tail before ends
  obtain ⟨s', c', run, same, before'⟩ := rereads s right short c tail before ends
  refine ⟨s', c', ?_, same, before'⟩
  unfold Parser.recovering
  rw [run]

theorem Stmt.length_le_lexemesAll {ss : List Stmt} (right : Stmt.GrammaticalAll ss) :
    ss.length ≤ (Stmt.lexemesAll ss).length := by
  induction ss with
  | nil => exact Nat.zero_le _
  | cons s ss ih =>
      rw [Stmt.GrammaticalAll] at right
      obtain ⟨l, ls, written, -⟩ := Stmt.exists_lexemes right.1
      have := ih right.2
      rw [Stmt.lexemesAll, written]
      simp only [List.length_cons, List.length_append]
      omega

namespace RereadsStmts

/-- Statements up to a closing brace or the end. -/
theorem itemsUntil (rereads : RereadsStmts bound nested) {stop : Kind → Bool}
    (stops : ∀ kind, stop kind = true → kind = .punct .rightBrace ∨ kind = .endOfFile)
    {ss : List Stmt} (right : Stmt.GrammaticalAll ss) (short : (Stmt.lexemesAll ss).length ≤ bound)
    {n : Nat} (enough : ss.length ≤ n) :
    Rereads (itemsUntil stop nested n) Stmt.bareAll ss (Stmt.lexemesAll ss)
      fun kind => stop kind = true := by
  induction ss generalizing n with
  | nil =>
      intro c tail before stopped
      rw [Stmt.lexemesAll, List.nil_append] at before
      refine ⟨[], c, ?_, rfl, before⟩
      cases n with
      | zero => rfl
      | succ n =>
          unfold Parser.itemsUntil
          rw [bind_ok (peekKind_run c), if_pos (before.front_kind ▸ stopped)]
          rfl
  | cons s ss ih =>
      intro c tail before stopped
      obtain ⟨n, rfl⟩ : ∃ k, n = k + 1 :=
        Nat.exists_eq_add_one.mpr (Nat.lt_of_lt_of_le (by simp) enough)
      rw [Stmt.GrammaticalAll] at right
      rw [Stmt.lexemesAll, List.length_append] at short
      rw [Stmt.lexemesAll, List.append_assoc] at before
      obtain ⟨l, ls, written, starts⟩ := Stmt.exists_lexemes right.1
      have front : ¬ stop c.front.kind = true := by
        rw [before.front_kind, written]
        intro (stopped : stop l.kind = true)
        rcases stops _ stopped with closing | closing <;>
        · rw [closing] at starts
          cases starts
      have ends : s.StopsAt (Lexeme.frontKind (Stmt.lexemesAll ss ++ tail)) := by
        cases ss with
        | nil =>
            rw [Stmt.lexemesAll, List.nil_append]
            rcases stops _ stopped with closing | closing <;>
            · rw [closing]
              exact ⟨by rintro ⟨⟩, fun _ => by rintro ⟨⟩⟩
        | cons t ss =>
            rw [Stmt.GrammaticalAll] at right
            obtain ⟨k, ks, written', starts'⟩ := Stmt.exists_lexemes right.2.1
            rw [Stmt.lexemesAll, written']
            exact .of_startsStmt starts'
      obtain ⟨s', c₁, first, same, before₁⟩ := rereads s right.1 (by omega) c _ before ends
      obtain ⟨ss', c₂, others, same', before₂⟩ :=
        ih right.2 (by omega) (Nat.le_of_succ_le_succ enough) c₁ tail before₁ stopped
      refine ⟨s' :: ss', c₂, ?_, ?_, before₂⟩
      · unfold Parser.itemsUntil
        rw [bind_ok (peekKind_run c), if_neg front, bind_ok first, bind_ok others]
        rfl
      · rw [Stmt.bareAll, Stmt.bareAll, same, same']

theorem block (rereads : RereadsStmts bound nested) {body : Block} (right : body.Grammatical)
    (short : body.lexemes.length ≤ bound + 1) :
    Rereads (block nested) Block.bare body body.lexemes fun _ => True := by
  intro c tail before _
  obtain ⟨opening, closing, ss⟩ := body
  rw [Block.Grammatical] at right
  rw [Block.lexemes, List.length_append, List.length_cons] at short
  rw [Block.lexemes, List.append_assoc] at before
  replace before : c.Before (.sign .leftBrace ::
      (Stmt.lexemesAll ss ++ .sign .rightBrace :: tail)) := before
  have enough : ss.length ≤ c.next.rest.length := by
    rw [before.next.length, List.length_append]
    exact Nat.le_trans (Stmt.length_le_lexemesAll right) (Nat.le_add_right _ _)
  have stops : ∀ kind : Kind, (kind = .punct .rightBrace || kind = .endOfFile) = true →
      kind = .punct .rightBrace ∨ kind = .endOfFile := fun kind stopped => by simpa using stopped
  obtain ⟨ss', c', run, same, before'⟩ := (rereads.recovering false).itemsUntil stops right
    (by omega) enough c.next _ before.next rfl
  refine ⟨.mk c.front.pos c'.front.pos ss', c'.next, ?_, ?_, before'.next⟩
  · unfold Parser.block
    rw [bind_ok (sign_of_before before), bind_ok (remaining_run _), bind_ok run,
      bind_ok (sign_of_before before')]
    rfl
  · rw [Block.bare, Block.bare, same]

theorem definition (rereads : RereadsStmts bound nested) {pos : Pos} {header : Header}
    {body : Block} (right : body.Grammatical)
    (short : (Stmt.define pos header body).lexemes.length ≤ bound + 1) :
    Rereads (definition nested) Stmt.bare (.define pos header body)
      (Stmt.define pos header body).lexemes fun _ => True := by
  intro c tail before _
  obtain ⟨namePos, name, params, returns⟩ := header
  replace before : c.Before (.word .fnWord :: .name name ::
      (Lexeme.inParens (Lexeme.commaSeparated (params.map Param.lexemes)) ++
        ((returns.elim [] fun r => [.word r.2.keyword]) ++ (body.lexemes ++ tail)))) := by
    simpa [Stmt.lexemes, Header.lexemes] using before
  have before₁ := before.next
  have starts : ∀ p ∈ params, ∃ l ls, p.lexemes = l :: ls ∧ l.kind ≠ .punct .rightParen :=
    fun p _ => ⟨_, _, rfl, by rintro ⟨⟩⟩
  obtain ⟨params', c₂, listed, same, before₂⟩ := Rereads.itemList trivial trivial starts
    (fun p _ => Rereads.parameter p) _ _ before₁.next trivial
  have opening : typeName? (Lexeme.frontKind (body.lexemes ++ tail)) = none := by
    obtain ⟨p, q, ss⟩ := body
    rw [Block.lexemes]
    rfl
  obtain ⟨returns', c₃, typed, same', before₃⟩ :=
    Rereads.resultType returns c₂ _ before₂ opening
  have part : body.lexemes.length ≤ bound + 1 := by
    rw [Stmt.lexemes, List.length_append] at short
    omega
  obtain ⟨body', c₄, inner, same'', before₄⟩ := rereads.block right part c₃ tail before₃ trivial
  refine ⟨.define c.front.pos ⟨c.next.front.pos, name, params', returns'⟩ body', c₄, ?_, ?_, before₄⟩
  · unfold Parser.definition
    rw [bind_ok (advance_run c), bind_ok (expectName_of_before before₁), bind_ok listed,
      bind_ok typed, bind_ok inner, before₁.text]
    rfl
  · rw [Stmt.bare, Stmt.bare, Header.bare, Header.bare, same, same', same'']

/-- The arms after the first one. Each has a word, so their number is bounded by their length. -/
theorem branches (rereads : RereadsStmts bound nested) :
    ∀ (rest : Branches), rest.Grammatical → rest.lexemes.length ≤ bound → ∀ {n : Nat},
      rest.lexemes.length ≤ n →
      Rereads (branches nested n) Branches.bare rest rest.lexemes (· ≠ .keyword .elseWord)
  | .done, _, _, n, _ => by
      intro c tail before ended
      rw [Branches.lexemes, List.nil_append] at before
      refine ⟨.done, c, ?_, rfl, before⟩
      cases n with
      | zero => rfl
      | succ n =>
          unfold Parser.branches
          rw [bind_ok (accept_of_ne before ended)]
          rfl
  | .otherwise pos body, right, short, n, enough => by
      intro c tail before _
      rw [Branches.Grammatical] at right
      rw [Branches.lexemes] at before
      rw [Branches.lexemes, List.length_cons] at short enough
      obtain ⟨n, rfl⟩ : ∃ k, n = k + 1 := Nat.exists_eq_add_one.mpr (by omega)
      have before₁ : c.next.Before (body.lexemes ++ tail) := before.next
      have plain : Lexeme.frontKind (body.lexemes ++ tail) ≠ .keyword .ifWord := by
        obtain ⟨p, q, ss⟩ := body
        rw [Block.lexemes]
        rintro ⟨⟩
      obtain ⟨body', c', inner, same, before'⟩ :=
        rereads.block right (by omega) c.next tail before₁ trivial
      refine ⟨.otherwise c.front.pos body', c', ?_, ?_, before'⟩
      · unfold Parser.branches
        rw [bind_ok (acceptWord_of_before before)]
        dsimp only
        rw [bind_ok (accept_of_ne before₁ plain)]
        dsimp only
        rw [bind_ok inner]
        rfl
      · rw [Branches.bare, Branches.bare, same]
  | .elseIf pos cond body rest, right, short, n, enough => by
      intro c tail before ended
      rw [Branches.Grammatical] at right
      replace before : c.Before (.word .elseWord :: .word .ifWord ::
          (Lexeme.inParens cond.lexemes ++ (body.lexemes ++ (rest.lexemes ++ tail)))) := by
        simpa [Branches.lexemes] using before
      simp only [Branches.lexemes, List.length_append, List.length_cons] at short enough
      obtain ⟨n, rfl⟩ : ∃ k, n = k + 1 := Nat.exists_eq_add_one.mpr (by omega)
      obtain ⟨cond', c₁, asked, same, before₁⟩ :=
        Rereads.condition right.1 _ _ before.next.next trivial
      obtain ⟨body', c₂, inner, same', before₂⟩ :=
        rereads.block right.2.1 (by omega) c₁ _ before₁ trivial
      obtain ⟨rest', c₃, others, same'', before₃⟩ :=
        rereads.branches rest right.2.2 (by omega) (n := n) (by omega) c₂ tail before₂ ended
      refine ⟨.elseIf c.next.front.pos cond' body' rest', c₃, ?_, ?_, before₃⟩
      · unfold Parser.branches
        rw [bind_ok (acceptWord_of_before before)]
        dsimp only
        rw [bind_ok (acceptWord_of_before before.next)]
        dsimp only
        rw [bind_ok asked, bind_ok inner, bind_ok others]
        rfl
      · rw [Branches.bare, Branches.bare, same, same', same'']

theorem branching (rereads : RereadsStmts bound nested) {pos : Pos} {cond : Expr} {body : Block}
    {rest : Branches} (right : (Stmt.branch pos cond body rest).Grammatical)
    (short : (Stmt.branch pos cond body rest).lexemes.length ≤ bound + 1) :
    Rereads (branching nested) Stmt.bare (.branch pos cond body rest)
      (Stmt.branch pos cond body rest).lexemes (· ≠ .keyword .elseWord) := by
  intro c tail before ended
  rw [Stmt.Grammatical] at right
  replace before : c.Before (.word .ifWord ::
      (Lexeme.inParens cond.lexemes ++ (body.lexemes ++ (rest.lexemes ++ tail)))) := by
    simpa [Stmt.lexemes] using before
  simp only [Stmt.lexemes, List.length_append, List.length_cons] at short
  obtain ⟨cond', c₁, asked, same, before₁⟩ := Rereads.condition right.1 _ _ before.next trivial
  obtain ⟨body', c₂, inner, same', before₂⟩ :=
    rereads.block right.2.1 (by omega) c₁ _ before₁ trivial
  have enough : rest.lexemes.length ≤ c₂.rest.length := by
    rw [before₂.length, List.length_append]
    exact Nat.le_add_right _ _
  obtain ⟨rest', c₃, others, same'', before₃⟩ :=
    rereads.branches rest right.2.2 (by omega) enough c₂ tail before₂ ended
  refine ⟨.branch c.front.pos cond' body' rest', c₃, ?_, ?_, before₃⟩
  · unfold Parser.branching
    rw [bind_ok (advance_run c), bind_ok asked, bind_ok inner, bind_ok (remaining_run c₂),
      bind_ok others]
    rfl
  · rw [Stmt.bare, Stmt.bare, same, same', same'']

theorem looping (rereads : RereadsStmts bound nested) {pos : Pos} {cond : Expr} {body : Block}
    (right : (Stmt.loop pos cond body).Grammatical)
    (short : (Stmt.loop pos cond body).lexemes.length ≤ bound + 1) :
    Rereads (looping nested) Stmt.bare (.loop pos cond body) (Stmt.loop pos cond body).lexemes
      fun _ => True := by
  intro c tail before _
  rw [Stmt.Grammatical] at right
  replace before : c.Before (.word .whileWord ::
      (Lexeme.inParens cond.lexemes ++ (body.lexemes ++ tail))) := by
    simpa [Stmt.lexemes] using before
  simp only [Stmt.lexemes, List.length_append, List.length_cons] at short
  obtain ⟨cond', c₁, asked, same, before₁⟩ := Rereads.condition right.1 _ _ before.next trivial
  obtain ⟨body', c₂, inner, same', before₂⟩ :=
    rereads.block right.2 (by omega) c₁ _ before₁ trivial
  refine ⟨.loop c.front.pos cond' body', c₂, ?_, ?_, before₂⟩
  · unfold Parser.looping
    rw [bind_ok (advance_run c), bind_ok asked, bind_ok inner]
    rfl
  · rw [Stmt.bare, Stmt.bare, same, same']

/-- A `maybe` without an `otherwise` must not be followed by one. -/
theorem uncertainty (rereads : RereadsStmts bound nested) {pos : Pos} {probability : Expr}
    {body : Stmt} (right : (Stmt.maybe pos probability body).Grammatical)
    (short : (Stmt.maybe pos probability body).lexemes.length ≤ bound + 1) :
    Rereads (uncertainty nested) Stmt.bare (.maybe pos probability body)
      (Stmt.maybe pos probability body).lexemes (Stmt.maybe pos probability body).StopsAt := by
  intro c tail before ends
  rw [Stmt.Grammatical] at right
  replace before : c.Before (.word .maybeWord ::
      (Lexeme.inParens probability.lexemes ++ (body.lexemes ++ tail))) := by
    simpa [Stmt.lexemes] using before
  simp only [Stmt.lexemes, List.length_append, List.length_cons] at short
  obtain ⟨probability', c₁, asked, same, before₁⟩ :=
    Rereads.condition right.1 _ _ before.next trivial
  obtain ⟨body', c₂, inner, same', before₂⟩ :=
    rereads body right.2 (by omega) c₁ tail before₁ ⟨ends.1, fun _ => ends.2 rfl⟩
  refine ⟨.maybe c.front.pos probability' body', c₂, ?_, ?_, before₂⟩
  · unfold Parser.uncertainty
    rw [bind_ok (advance_run c), bind_ok asked, bind_ok inner,
      bind_ok (accept_of_ne before₂ (ends.2 rfl))]
    rfl
  · rw [Stmt.bare, Stmt.bare, same, same']

/-- An `otherwise` belongs to the `maybe` if none at the end of its body waits for it. -/
theorem alternative (rereads : RereadsStmts bound nested) {pos pos' : Pos} {probability : Expr}
    {body other : Stmt} (right : (Stmt.maybeOtherwise pos probability body pos' other).Grammatical)
    (short : (Stmt.maybeOtherwise pos probability body pos' other).lexemes.length ≤ bound + 1) :
    Rereads (Parser.uncertainty nested) Stmt.bare (.maybeOtherwise pos probability body pos' other)
      (Stmt.maybeOtherwise pos probability body pos' other).lexemes other.StopsAt := by
  intro c tail before ends
  rw [Stmt.Grammatical] at right
  replace before : c.Before (.word .maybeWord :: (Lexeme.inParens probability.lexemes ++
      (body.lexemes ++ .word .otherwiseWord :: (other.lexemes ++ tail)))) := by
    simpa [Stmt.lexemes] using before
  simp only [Stmt.lexemes, List.length_append, List.length_cons] at short
  obtain ⟨probability', c₁, asked, same, before₁⟩ :=
    Rereads.condition right.1 _ _ before.next trivial
  have closed : body.StopsAt (.keyword .otherwiseWord) := by
    refine ⟨by rintro ⟨⟩, fun waits => ?_⟩
    rw [right.2.2.1] at waits
    cases waits
  obtain ⟨body', c₂, inner, same', before₂⟩ :=
    rereads body right.2.1 (by omega) c₁ _ before₁ closed
  obtain ⟨other', c₃, last, same'', before₃⟩ :=
    rereads other right.2.2.2 (by omega) c₂.next tail before₂.next ends
  refine ⟨.maybeOtherwise c.front.pos probability' body' c₂.front.pos other', c₃, ?_, ?_, before₃⟩
  · unfold Parser.uncertainty
    rw [bind_ok (advance_run c), bind_ok asked, bind_ok inner,
      bind_ok (acceptWord_of_before before₂)]
    dsimp only
    rw [bind_ok last]
    rfl
  · rw [Stmt.bare, Stmt.bare, same, same', same'']

theorem statementWith (rereads : RereadsStmts bound nested) :
    RereadsStmts (bound + 1) (statementWith nested) := by
  intro s right short c tail before ends
  unfold Parser.statementWith
  -- The word in front decides which form of statement is read.
  have front : ∀ {l ls}, s.lexemes = l :: ls → c.front.kind = l.kind := by
    intro l ls written
    rw [before.front_kind, written]
    rfl
  rw [bind_ok (peek_run c)]
  cases s with
  | block body =>
      obtain ⟨opening, closing, ss⟩ := body
      rw [front (by rw [Stmt.lexemes, Block.lexemes]; rfl)]
      rw [Stmt.Grammatical] at right
      rw [Stmt.lexemes] at before short
      obtain ⟨body', c', run, same, before'⟩ := rereads.block right short c tail before trivial
      refine ⟨.block body', c', ?_, by rw [Stmt.bare, Stmt.bare, same], before'⟩
      show (Parser.block nested >>= fun body => pure (Stmt.block body)) c = _
      rw [bind_ok run]
      rfl
  | declare pos type namePos name init =>
      have word : typeName? c.front.kind = some type :=
        typeName?_eq_some_iff.mpr (front (by rw [Stmt.lexemes]; rfl))
      rw [Stmt.Grammatical] at right
      rw [word]
      exact Rereads.declaration right.2 c tail before trivial
  | infer pos namePos name init =>
      rw [front (by rw [Stmt.lexemes]; rfl)]
      rw [Stmt.Grammatical] at right
      exact Rereads.inference right.2 c tail before trivial
  | assign pos name value =>
      rw [front (by rw [Stmt.lexemes]; rfl)]
      rw [Stmt.Grammatical] at right
      have plain : c.second.kind ≠ .punct .leftParen := by
        rw [Stmt.lexemes] at before
        rw [before.second_kind]
        rintro ⟨⟩
      show ∃ s c', (get >>= fun c => if c.second.kind = .punct .leftParen then Parser.callStatement
        else Parser.assignment : Parser Stmt) c = .ok s c' ∧ _
      rw [bind_ok (get_run c), if_neg plain]
      exact Rereads.assignment right.2 c tail before trivial
  | call pos name args =>
      rw [front (by rw [Stmt.lexemes, Expr.lexemes]; rfl)]
      rw [Stmt.Grammatical] at right
      have called : c.second.kind = .punct .leftParen := by
        rw [Stmt.lexemes, Expr.lexemes] at before
        exact before.second_kind
      show ∃ s c', (get >>= fun c => if c.second.kind = .punct .leftParen then Parser.callStatement
        else Parser.assignment : Parser Stmt) c = .ok s c' ∧ _
      rw [bind_ok (get_run c), if_pos called]
      exact Rereads.callStatement right c tail before trivial
  | define pos header body =>
      rw [front (by rw [Stmt.lexemes, Header.lexemes]; rfl)]
      rw [Stmt.Grammatical] at right
      exact rereads.definition right.2.2 short c tail before trivial
  | branch pos cond body rest =>
      rw [front (by rw [Stmt.lexemes]; rfl)]
      exact rereads.branching right short c tail before ends.1
  | loop pos cond body =>
      rw [front (by rw [Stmt.lexemes]; rfl)]
      exact rereads.looping right short c tail before trivial
  | breakOut pos =>
      rw [front (by rw [Stmt.lexemes])]
      rw [Stmt.lexemes] at before
      obtain ⟨run, before'⟩ := jump_of_before before (.breakOut c.front.pos)
      exact ⟨_, _, run, by rw [Stmt.bare, Stmt.bare], before'⟩
  | continueOn pos =>
      rw [front (by rw [Stmt.lexemes])]
      rw [Stmt.lexemes] at before
      obtain ⟨run, before'⟩ := jump_of_before before (.continueOn c.front.pos)
      exact ⟨_, _, run, by rw [Stmt.bare, Stmt.bare], before'⟩
  | returnWith pos value =>
      rw [front (by rw [Stmt.lexemes]; rfl)]
      rw [Stmt.Grammatical] at right
      exact Rereads.returning right c tail before trivial
  | needs pos spelling path =>
      rw [front (by rw [Stmt.lexemes])]
      rw [Stmt.Grammatical] at right
      exact Rereads.request right c tail before trivial
  | maybe pos probability body =>
      rw [front (by rw [Stmt.lexemes]; rfl)]
      exact rereads.uncertainty right short c tail before ends
  | maybeOtherwise pos probability body pos' other =>
      rw [front (by rw [Stmt.lexemes]; rfl)]
      exact rereads.alternative right short c tail before ends
  | bad pos fault =>
      rw [Stmt.Grammatical] at right
      exact right.elim

theorem statement (n : Nat) : RereadsStmts n (statement n) := by
  induction n with
  | zero =>
      intro s right short
      obtain ⟨l, ls, written, -⟩ := Stmt.exists_lexemes right
      rw [written] at short
      exact absurd short (Nat.not_succ_le_zero _)
  | succ n ih => exact ih.statementWith

end RereadsStmts

/-- A grammatical program is read back from its words. -/
theorem program_of_before {program : Program} (right : program.Grammatical) {c : Cursor}
    (before : c.Before program.lexemes) :
    ∃ program' c', Parser.program c = .ok program' c' ∧ program'.bare = program.bare ∧
      c'.Before [] := by
  have length := before.length
  have short : program.lexemes.length ≤ c.rest.length + 1 := by omega
  have enough : program.length ≤ c.rest.length := by
    rw [length]
    exact Stmt.length_le_lexemesAll right
  have stops : ∀ kind : Kind, decide (kind = .endOfFile) = true →
      kind = .punct .rightBrace ∨ kind = .endOfFile := fun kind stopped => .inr (by simpa using stopped)
  rw [← List.append_nil program.lexemes] at before
  obtain ⟨program', c', run, same, before'⟩ :=
    ((RereadsStmts.statement (c.rest.length + 1)).recovering true).itemsUntil stops right short enough
      c [] before rfl
  refine ⟨program', c', ?_, same, before'⟩
  unfold Parser.program
  rw [bind_ok (remaining_run c), run]

end Parser

/-! ## The words of a grammatical tree -/

namespace Lexeme

/-- All of some lexemes are words. -/
def AllWords (ls : List Lexeme) : Prop := ∀ l ∈ ls, l.IsWord

@[simp] theorem isWord_name {x : String} : (name x).IsWord ↔ isName x = true := Iff.rfl

@[simp] theorem allWords_nil : AllWords [] := fun _ member => nomatch member

@[simp] theorem allWords_cons {l : Lexeme} {ls : List Lexeme} :
    AllWords (l :: ls) ↔ l.IsWord ∧ AllWords ls := List.forall_mem_cons

@[simp] theorem allWords_append {ls ks : List Lexeme} :
    AllWords (ls ++ ks) ↔ AllWords ls ∧ AllWords ks := List.forall_mem_append

@[simp] theorem allWords_inParens {ls : List Lexeme} : AllWords (inParens ls) ↔ AllWords ls := by
  simp [inParens]

theorem allWords_commaSeparated {ls : List (List Lexeme)} (words : ∀ ks ∈ ls, AllWords ks) :
    AllWords (commaSeparated ls) := by
  intro l member
  cases ls with
  | nil => cases member
  | cons ks ls =>
      rcases List.mem_append.mp member with member | member
      · exact words ks List.mem_cons_self l member
      · obtain ⟨js, listed, member⟩ := List.mem_flatMap.mp member
        rcases List.mem_cons.mp member with rfl | member
        · exact .ofSign .comma
        · exact words js (List.mem_cons_of_mem ks listed) l member

/-- What can be read as a literal is a word. -/
theorem isWord_literal {spelling : String} {value : List Char}
    (read : Literal.read? spelling.toList = some value) :
    (⟨.stringLiteral, spelling⟩ : Lexeme).IsWord := by
  show (Literal.read? spelling.toList).isSome = true
  rw [read]
  rfl

end Lexeme

theorem Expr.allWords (e : Expr) (right : e.Grammatical) : Lexeme.AllWords e.lexemes := by
  induction e using Expr.induction with
  | int p spelling value =>
      rw [Grammatical] at right
      rw [lexemes, Lexeme.allWords_cons]
      exact ⟨right.1, Lexeme.allWords_nil⟩
  | string p spelling value =>
      rw [Grammatical] at right
      simp [lexemes, Lexeme.isWord_literal right]
  | boolie p value => simp [lexemes]
  | ident p name =>
      rw [Grammatical] at right
      simp [lexemes, right]
  | unary p op x ih =>
      rw [Grammatical] at right
      simp [lexemes, op.isWord_lexeme, ih right.2]
  | binary p op x y left right' =>
      rw [Grammatical] at right
      simp [lexemes, op.isWord_lexeme, left right.2.2.1, right' right.2.2.2]
  | paren p x ih =>
      rw [Grammatical] at right
      simp [lexemes, ih right]
  | call p name args ih =>
      rw [Grammatical, grammaticalAll_iff] at right
      rw [lexemes, lexemesEach_eq_map, Lexeme.allWords_cons, Lexeme.allWords_inParens]
      refine ⟨right.1, Lexeme.allWords_commaSeparated ?_⟩
      intro ks listed
      obtain ⟨a, member, rfl⟩ := List.mem_map.mp listed
      exact ih a member (right.2 a member)

theorem Header.allWords {h : Header} (named : isName h.name = true)
    (params : ∀ p ∈ h.params, isName p.name = true) : Lexeme.AllWords h.lexemes := by
  have items : Lexeme.AllWords (Lexeme.commaSeparated (h.params.map Param.lexemes)) := by
    refine Lexeme.allWords_commaSeparated fun ks listed => ?_
    obtain ⟨p, member, rfl⟩ := List.mem_map.mp listed
    simp [Param.lexemes, params p member]
  cases typed : h.returns <;> simp [lexemes, typed, named, items]

mutual

theorem Stmt.allWords : ∀ s : Stmt, s.Grammatical → Lexeme.AllWords s.lexemes
  | .block body, right => by
      rw [Stmt.Grammatical] at right
      rw [Stmt.lexemes]
      exact body.allWords right
  | .declare _ _ _ _ none, right => by
      rw [Stmt.Grammatical] at right
      simp [Stmt.lexemes, right.1]
  | .declare _ _ _ _ (some e), right => by
      rw [Stmt.Grammatical] at right
      simp [Stmt.lexemes, right.1, e.allWords (right.2 e rfl)]
  | .infer _ _ _ init, right => by
      rw [Stmt.Grammatical] at right
      simp [Stmt.lexemes, right.1, init.allWords right.2]
  | .assign _ _ value, right => by
      rw [Stmt.Grammatical] at right
      simp [Stmt.lexemes, right.1, value.allWords right.2]
  | .call pos name args, right => by
      rw [Stmt.Grammatical] at right
      simp [Stmt.lexemes, (Expr.call pos name args).allWords right]
  | .define _ header body, right => by
      rw [Stmt.Grammatical] at right
      simp [Stmt.lexemes, header.allWords right.1 right.2.1, body.allWords right.2.2]
  | .branch _ cond body rest, right => by
      rw [Stmt.Grammatical] at right
      simp [Stmt.lexemes, cond.allWords right.1, body.allWords right.2.1, rest.allWords right.2.2]
  | .loop _ cond body, right => by
      rw [Stmt.Grammatical] at right
      simp [Stmt.lexemes, cond.allWords right.1, body.allWords right.2]
  | .breakOut _, _ | .continueOn _, _ | .returnWith _ none, _ => by simp [Stmt.lexemes]
  | .returnWith _ (some e), right => by
      rw [Stmt.Grammatical] at right
      simp [Stmt.lexemes, e.allWords (right e rfl)]
  | .needs _ _ _, right => by
      rw [Stmt.Grammatical] at right
      simp [Stmt.lexemes, Lexeme.isWord_literal right]
  | .maybe _ probability body, right => by
      rw [Stmt.Grammatical] at right
      simp [Stmt.lexemes, probability.allWords right.1, body.allWords right.2]
  | .maybeOtherwise _ probability body _ other, right => by
      rw [Stmt.Grammatical] at right
      simp [Stmt.lexemes, probability.allWords right.1, body.allWords right.2.1,
        other.allWords right.2.2.2]
  | .bad _ _, _ => by simp [Stmt.lexemes]

theorem Block.allWords : ∀ b : Block, b.Grammatical → Lexeme.AllWords b.lexemes
  | .mk _ _ ss, right => by
      rw [Block.Grammatical] at right
      simp [Block.lexemes, Stmt.allWords_all ss right]

theorem Branches.allWords : ∀ b : Branches, b.Grammatical → Lexeme.AllWords b.lexemes
  | .done, _ => by simp [Branches.lexemes]
  | .otherwise _ body, right => by
      rw [Branches.Grammatical] at right
      simp [Branches.lexemes, body.allWords right]
  | .elseIf _ cond body rest, right => by
      rw [Branches.Grammatical] at right
      simp [Branches.lexemes, cond.allWords right.1, body.allWords right.2.1,
        rest.allWords right.2.2]

theorem Stmt.allWords_all :
    ∀ ss : List Stmt, Stmt.GrammaticalAll ss → Lexeme.AllWords (Stmt.lexemesAll ss)
  | [], _ => by simp [Stmt.lexemesAll]
  | s :: ss, right => by
      rw [Stmt.GrammaticalAll] at right
      simp [Stmt.lexemesAll, s.allWords right.1, Stmt.allWords_all ss right.2]

end

/-! ## Texts and programs -/

theorem Cursor.lexemes_ofText (text : List Char) :
    (ofText text).lexemes =
      ((tokensFrom .start text).filter (!·.kind.isHidden)).map Token.toLexeme := by
  rw [lexemes, ofText, rest_look]

/-- Written words are what is left to read at the start. -/
theorem Cursor.before_ofText {ls : List Lexeme} (words : Lexeme.AllWords ls) :
    (ofText (Lexeme.written ls)).Before ls := by
  refine ⟨clean_ofText _, ?_, words⟩
  have tokens := tokensFrom_written words .start
  have visible : (tokensFrom .start (Lexeme.written ls)).filter (!·.kind.isHidden) =
      tokensFrom .start (Lexeme.written ls) := by
    refine List.filter_eq_self.mpr fun t member => ?_
    have word : t.toLexeme.IsWord := words _ (tokens ▸ List.mem_map_of_mem member)
    have kind : t.kind.isWord = true := word.isWord_kind
    cases found : t.kind with
    | comment =>
        rw [found] at kind
        cases kind
    | endOfFile | invalid | intLiteral | stringLiteral | identifier | keyword | punct => rfl
  rw [lexemes_ofText, visible, tokens]

/-- A written program is read back without errors. -/
theorem parse_written {program : Program} (right : program.Grammatical) :
    (parse (Lexeme.written program.lexemes)).2 = [] ∧
      (parse (Lexeme.written program.lexemes)).1.bare = program.bare := by
  have before := Cursor.before_ofText (Stmt.allWords_all program right)
  obtain ⟨program', c, run, same, before'⟩ := Parser.program_of_before right before
  unfold parse
  rw [Program.lexemes, run]
  exact ⟨before'.clean.errors_eq_nil before'.front_kind, same⟩

/--
Reading accepts exactly the grammar, and loses nothing. What is read without an error is a grammatical
program whose words are the tokens of the text but for its comments. A grammatical program is read
back from its words, up to positions, and without an error. Its literals can have any text, and any
number that is not negative.
-/
theorem parse_exactly_grammatical :
    (∀ text, (parse text).2 = [] →
      ((tokensFrom .start text).filter (!·.kind.isHidden)).map Token.toLexeme =
          (parse text).1.lexemes ∧
        (parse text).1.Grammatical) ∧
    (∀ program : Program, program.Grammatical →
      (parse (Lexeme.written program.lexemes)).2 = [] ∧
        (parse (Lexeme.written program.lexemes)).1.bare = program.bare) ∧
    (∀ n : Int32, 0 ≤ n ↔ ∃ spelling, isNumeral spelling = true ∧ Literal.int? spelling = some n) ∧
    ∀ text : String, ∃ spelling : String, Literal.read? spelling.toList = some text.toList := by
  refine ⟨fun text none => ?_, fun program right => parse_written right,
    Literal.nonneg_iff_exists_numeral, Literal.exists_spelling⟩
  rcases parse_cases text with ⟨-, right, split⟩ | ⟨some, -⟩
  · rw [← Cursor.lexemes_ofText]
    exact ⟨split, right⟩
  · exact absurd none some

/-- A difference of a difference and a product, in which the second operands bind tighter. -/
def difference : Expr :=
  .binary .nowhere .sub
    (.binary .nowhere .sub (.ident .nowhere "x") (.int .nowhere "1" 1))
    (.binary .nowhere .mul (.unary .nowhere .negate (.ident .nowhere "x"))
      (.paren .nowhere (.binary .nowhere .add (.ident .nowhere "x") (.int .nowhere "02" 2))))

/-- A function with an operator of each level, and two `maybe`s with an `otherwise` each. -/
def levels : Program :=
  [.define .nowhere
    ⟨.nowhere, "pick", [⟨.nowhere, .value .int, .nowhere, "x"⟩], some (.nowhere, .value .boolie)⟩
    (.mk .nowhere .nowhere
      [.returnWith .nowhere (some
        (.binary .nowhere .or
          (.binary .nowhere .xor (.boolie .nowhere true) (.ident .nowhere "y"))
          (.binary .nowhere .and (.boolie .nowhere false)
            (.unary .nowhere .not
              (.binary .nowhere .lt difference (.int .nowhere "2147483647" 2147483647))))))]),
  .maybeOtherwise .nowhere (.int .nowhere "50" 50)
    (.maybeOtherwise .nowhere (.int .nowhere "9" 9)
      (.call .nowhere "print" [.string .nowhere "\"a\\n\"" "a\n"]) .nowhere
      (.block (.mk .nowhere .nowhere [])))
    .nowhere (.maybe .nowhere (.int .nowhere "1" 1) (.breakOut .nowhere))]

/-- A declaration with a comment behind it. -/
def commented : List Char := "int x = 1; // one\n".toList

/-- The tree is read back from its words, and the comment is no word of the declaration. -/
theorem levels_read_back :
    levels.Grammatical ∧ (parse (Lexeme.written levels.lexemes)).2 = [] ∧
      (parse (Lexeme.written levels.lexemes)).1.bare = levels.bare ∧
      (parse commented).2 = [] ∧
      ((tokensFrom .start commented).filter (!·.kind.isHidden)).map Token.toLexeme =
        (parse commented).1.lexemes := by
  have right : levels.Grammatical := by
    simp [levels, difference, Program.Grammatical, Stmt.GrammaticalAll, Stmt.Grammatical,
      Block.Grammatical, Expr.Grammatical, Expr.GrammaticalAll, Stmt.endsOpen, Expr.level,
      BinaryOp.level, BinaryOp.leftLevel, UnaryOp.level]
    decide
  have none : (parse commented).2 = [] := by decide +kernel
  obtain ⟨same, rest⟩ := parse_exactly_grammatical.2.1 levels right
  exact ⟨right, same, rest, none, (parse_exactly_grammatical.1 commented none).1⟩

end Samo
