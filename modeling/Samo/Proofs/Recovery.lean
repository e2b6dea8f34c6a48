import Samo.Proofs.Folding
import Samo.Proofs.Reading

/-!
# What a statement was read from

A statement that is read either takes exactly its own words, without a report, or something was
reported on the way and a bad statement stands somewhere in it (`Parser.Covers.statement`). A report
never gets lost: once there is one besides the flaw of the token in front, it stays.
-/

namespace Samo

/-! ## Bad statements -/

/-- There is a bad statement among some nodes. -/
def HasBad (nodes : List Node) : Prop := ∃ pos fault, Node.stmt (.bad pos fault) ∈ nodes

@[simp] theorem hasBad_append {ns ms : List Node} : HasBad (ns ++ ms) ↔ HasBad ns ∨ HasBad ms := by
  simp only [HasBad, List.mem_append, exists_or]

@[simp] theorem hasBad_cons {s : Stmt} {ns : List Node} :
    HasBad (.stmt s :: ns) ↔ (∃ pos fault, s = .bad pos fault) ∨ HasBad ns := by
  simp only [HasBad, List.mem_cons, exists_or, Node.stmt.injEq, eq_comm]

@[simp] theorem hasBad_nil : ¬ HasBad [] := by
  rintro ⟨pos, fault, member⟩
  cases member

/-- There are no statements in an expression. -/
@[simp] theorem Expr.not_hasBad (e : Expr) : ¬ HasBad (e.visited fun _ => true) := by
  rintro ⟨pos, fault, member⟩
  induction e using Expr.induction_parts with
  | whole e ih =>
      rcases Expr.mem_nodes_iff.mp member with same | ⟨x, part, inside⟩
      · cases same
      · exact ih x part inside

mutual

/-- A statement that can be written has nothing bad in it. -/
theorem Stmt.Grammatical.not_hasBad {stmt : Stmt} (right : stmt.Grammatical) :
    ¬ HasBad (stmt.visited fun _ => true) := by
  cases stmt <;> rw [Stmt.Grammatical] at right
  case block body =>
    rw [Stmt.visited]
    exact right.not_hasBad
  case declare pos type namePos name init => cases init <;> simp [Stmt.visited]
  case returnWith pos value => cases value <;> simp [Stmt.visited]
  case define pos header body => simp [Stmt.visited, right.2.2.not_hasBad]
  case branch pos cond body rest => simp [Stmt.visited, right.2.1.not_hasBad, right.2.2.not_hasBad]
  case loop pos cond body => simp [Stmt.visited, right.2.not_hasBad]
  case maybe pos probability body => simp [Stmt.visited, right.2.not_hasBad]
  case maybeOtherwise pos probability body otherwisePos alternative =>
    simp [Stmt.visited, right.2.1.not_hasBad, right.2.2.2.not_hasBad]
  case bad pos fault => cases right
  case infer | assign | call | breakOut | continueOn | needs => simp [Stmt.visited]

theorem Block.Grammatical.not_hasBad {body : Block} (right : body.Grammatical) :
    ¬ HasBad (body.visited fun _ => true) := by
  cases body with
  | mk start stop stmts =>
      rw [Block.Grammatical] at right
      simp [Block.visited, right.not_hasBad]

theorem Stmt.GrammaticalAll.not_hasBad {stmts : List Stmt} (right : Stmt.GrammaticalAll stmts) :
    ¬ HasBad (Stmt.visitedAll (fun _ => true) stmts) := by
  cases stmts with
  | nil => simp [Stmt.visitedAll]
  | cons stmt stmts =>
      rw [Stmt.GrammaticalAll] at right
      simp [Stmt.visitedAll, right.1.not_hasBad, right.2.not_hasBad]

theorem Branches.Grammatical.not_hasBad {rest : Branches} (right : rest.Grammatical) :
    ¬ HasBad (rest.visited fun _ => true) := by
  cases rest <;> rw [Branches.Grammatical] at right
  case done => simp [Branches.visited]
  case otherwise pos body =>
    rw [Branches.visited]
    exact right.not_hasBad
  case elseIf pos cond body rest =>
    simp [Branches.visited, right.2.1.not_hasBad, right.2.2.not_hasBad]

end

theorem Stmt.Grammatical.lexemes_ne_nil {s : Stmt} (right : s.Grammatical) : s.lexemes ≠ [] := by
  cases s with
  | block body =>
      cases body with
      | mk start stop stmts => simp [Stmt.lexemes, Block.lexemes]
  | call pos name args => simp [Stmt.lexemes]
  | define pos header body => simp [Stmt.lexemes, Header.lexemes]
  | bad pos fault =>
      rw [Stmt.Grammatical] at right
      cases right
  | declare | infer | assign | branch | loop | breakOut | continueOn | returnWith | needs | maybe
  | maybeOtherwise => simp [Stmt.lexemes]

/-! ## Reports that stay -/

/-- Something was reported besides the flaw of the token in front. -/
structure Cursor.Spoiled (c : Cursor) : Prop where
  eof : c.eof.kind = .endOfFile
  marred : c.Marred

namespace Parser

variable {α : Type} {c c' : Cursor}

/-- What was reported stays when more is read. -/
theorem Stepwise.spoiled {p : Parser α} {a : α} (stepwise : Stepwise p) (spoiled : c.Spoiled)
    (run : p c = .ok a c') : c'.Spoiled := by
  have onward := stepwise.onward_of_ok run
  exact ⟨by rw [onward.eof]; exact spoiled.eof, onward.marred spoiled.marred⟩

/-- A parser that fails leaves a cursor at which the failure is one more report. -/
theorem Stepwise.spoiled_report {p : Parser α} {e : SyntaxError} (stepwise : Stepwise p)
    (clean : c.Clean) (run : p c = .error e c') : (c'.report e).Spoiled := by
  have onward := stepwise.onward c
  rw [run] at onward
  have onward : c.Onward c' := onward
  refine ⟨?_, Cursor.marred_report (onward.looked clean.looked) e⟩
  show c'.eof.kind = .endOfFile
  rw [onward.eof]
  exact clean.eof

/-! ## Statements without statements in them -/

/-- What a statement in a row leaves: a `maybe` at its end found no `otherwise`. -/
def Closed (s : Stmt) (c : Cursor) : Prop :=
  s.endsOpen = true → c.front.kind ≠ .keyword .otherwiseWord

/-- A statement takes its own words, and waits for nothing. -/
def Whole (c : Cursor) (s : Stmt) (c' : Cursor) : Prop :=
  c.Takes c' s.lexemes ∧ s.Grammatical ∧ Closed s c'

theorem typeName?_eq_some_iff {kind : Kind} {type : TypeName} :
    typeName? kind = some type ↔ kind = .keyword type.keyword := by
  constructor
  · intro found
    unfold typeName? at found
    split at found <;> cases found <;> rfl
  · rintro rfl
    cases type with
    | void => rfl
    | value type => cases type <;> rfl

theorem condition_ok {e : Expr} (clean : c.Clean) (run : condition c = .ok e c') :
    c.Takes c' (Lexeme.inParens e.lexemes) ∧ e.Grammatical := by
  obtain ⟨t, c₁, opening, rest⟩ := bind_eq_ok_iff.mp run
  obtain ⟨e', c₂, inner, rest⟩ := bind_eq_ok_iff.mp rest
  obtain ⟨t', c₃, closing, rest⟩ := bind_eq_ok_iff.mp rest
  obtain ⟨rfl, rfl⟩ := pure_eq_ok_iff.mp rest
  have opens := sign_ok clean opening
  obtain ⟨takes, right, -⟩ := SpellsAt.expr c₁ e' c₂ opens.clean inner
  exact ⟨opens.trans (takes.trans (sign_ok takes.clean closing)), right⟩

theorem declaration_ok {type : TypeName} {s : Stmt} (clean : c.Clean)
    (front : typeName? c.front.kind = some type) (run : declaration type c = .ok s c') :
    Whole c s c' := by
  unfold declaration at run
  rw [bind_ok (advance_run c)] at run
  have word := clean.nextFixed (.ofKeyword type.keyword) (typeName?_eq_some_iff.mp front) rfl
  obtain ⟨t, c₁, named, more⟩ := bind_eq_ok_iff.mp run
  obtain ⟨takes, right⟩ := expect_name_ok word.clean named
  obtain ⟨found, c₂, accepted, rest⟩ := bind_eq_ok_iff.mp more
  rcases accept_ok takes.clean rfl accepted with ⟨rfl, rfl, -⟩ | ⟨rfl, kind, mark, fixed⟩
  · dsimp only at rest
    rw [bind_ok (pure_run _ _)] at rest
    obtain ⟨v, c₃, closing, rest⟩ := bind_eq_ok_iff.mp rest
    obtain ⟨rfl, rfl⟩ := pure_eq_ok_iff.mp rest
    have whole := word.trans (takes.trans (sign_ok takes.clean closing))
    refine ⟨by simpa [Stmt.lexemes] using whole, ?_, nofun⟩
    rw [Stmt.Grammatical]
    exact ⟨right, fun e member => nomatch member⟩
  · rw [fixed.eq_of_kind (.ofSign .assign) kind rfl] at mark
    obtain ⟨init, c₃, inner, rest⟩ := bind_eq_ok_iff.mp rest
    rw [← bind_pure_comp] at inner
    obtain ⟨e, c₄, given, wrapped⟩ := bind_eq_ok_iff.mp inner
    obtain ⟨rfl, rfl⟩ := pure_eq_ok_iff.mp wrapped
    obtain ⟨v, c₅, closing, rest⟩ := bind_eq_ok_iff.mp rest
    obtain ⟨rfl, rfl⟩ := pure_eq_ok_iff.mp rest
    obtain ⟨takes', right', -⟩ := SpellsAt.expr c₂ e c₄ mark.clean given
    have whole := word.trans
      (takes.trans (mark.trans (takes'.trans (sign_ok takes'.clean closing))))
    refine ⟨by simpa [Stmt.lexemes] using whole, ?_, nofun⟩
    rw [Stmt.Grammatical]
    refine ⟨right, fun e' member => ?_⟩
    cases member
    exact right'

theorem inference_ok {s : Stmt} (clean : c.Clean) (front : c.front.kind = .keyword .letWord)
    (run : inference c = .ok s c') : Whole c s c' := by
  unfold inference at run
  rw [bind_ok (advance_run c)] at run
  have word := clean.nextFixed (.ofKeyword .letWord) front rfl
  obtain ⟨t, c₁, named, rest⟩ := bind_eq_ok_iff.mp run
  obtain ⟨u, c₂, marked, rest⟩ := bind_eq_ok_iff.mp rest
  obtain ⟨e, c₃, inner, rest⟩ := bind_eq_ok_iff.mp rest
  obtain ⟨v, c₄, closing, rest⟩ := bind_eq_ok_iff.mp rest
  obtain ⟨rfl, rfl⟩ := pure_eq_ok_iff.mp rest
  obtain ⟨takes, right⟩ := expect_name_ok word.clean named
  have mark := sign_ok takes.clean marked
  obtain ⟨takes', right', -⟩ := SpellsAt.expr c₂ e c₃ mark.clean inner
  have whole := word.trans (takes.trans (mark.trans (takes'.trans (sign_ok takes'.clean closing))))
  refine ⟨by simpa [Stmt.lexemes] using whole, ?_, nofun⟩
  rw [Stmt.Grammatical]
  exact ⟨right, right'⟩

theorem assignment_ok {s : Stmt} (clean : c.Clean) (front : c.front.kind = .identifier)
    (run : assignment c = .ok s c') : Whole c s c' := by
  unfold assignment at run
  rw [bind_ok (advance_run c)] at run
  obtain ⟨takes, word⟩ := clean.next (front ▸ rfl)
  obtain ⟨written, named⟩ := word.name front
  rw [written] at takes
  obtain ⟨u, c₁, marked, rest⟩ := bind_eq_ok_iff.mp run
  obtain ⟨e, c₂, inner, rest⟩ := bind_eq_ok_iff.mp rest
  obtain ⟨v, c₃, closing, rest⟩ := bind_eq_ok_iff.mp rest
  obtain ⟨rfl, rfl⟩ := pure_eq_ok_iff.mp rest
  have mark := sign_ok takes.clean marked
  obtain ⟨takes', right, -⟩ := SpellsAt.expr c₁ e c₂ mark.clean inner
  have whole := takes.trans (mark.trans (takes'.trans (sign_ok takes'.clean closing)))
  refine ⟨by simpa [Stmt.lexemes] using whole, ?_, nofun⟩
  rw [Stmt.Grammatical]
  exact ⟨named, right⟩

theorem callStatement_ok {s : Stmt} (clean : c.Clean) (front : c.front.kind = .identifier)
    (run : callStatement c = .ok s c') : Whole c s c' := by
  obtain ⟨⟨pos, name, args⟩, c₁, called, rest⟩ := bind_eq_ok_iff.mp run
  obtain ⟨v, c₂, closing, rest⟩ := bind_eq_ok_iff.mp rest
  obtain ⟨rfl, rfl⟩ := pure_eq_ok_iff.mp rest
  obtain ⟨takes, right⟩ := SpellsAt.expr.callWith clean front called
  refine ⟨?_, ?_, nofun⟩
  · rw [Stmt.lexemes]
    exact takes.trans (sign_ok takes.clean closing)
  · rw [Stmt.Grammatical]
    exact right

theorem returning_ok {s : Stmt} (clean : c.Clean) (front : c.front.kind = .keyword .returnWord)
    (run : returning c = .ok s c') : Whole c s c' := by
  unfold returning at run
  rw [bind_ok (advance_run c), bind_ok (peekKind_run c.next)] at run
  have word := clean.nextFixed (.ofKeyword .returnWord) front rfl
  dsimp only at run
  split at run
  · rw [bind_ok (pure_run _ _)] at run
    obtain ⟨v, c₁, closing, rest⟩ := bind_eq_ok_iff.mp run
    obtain ⟨rfl, rfl⟩ := pure_eq_ok_iff.mp rest
    have whole := word.trans (sign_ok word.clean closing)
    refine ⟨by simpa [Stmt.lexemes] using whole, ?_, nofun⟩
    rw [Stmt.Grammatical]
    exact fun e member => nomatch member
  · obtain ⟨value, c₁, inner, rest⟩ := bind_eq_ok_iff.mp run
    rw [← bind_pure_comp] at inner
    obtain ⟨e, c₂, given, wrapped⟩ := bind_eq_ok_iff.mp inner
    obtain ⟨rfl, rfl⟩ := pure_eq_ok_iff.mp wrapped
    obtain ⟨v, c₃, closing, rest⟩ := bind_eq_ok_iff.mp rest
    obtain ⟨rfl, rfl⟩ := pure_eq_ok_iff.mp rest
    obtain ⟨takes, right, -⟩ := SpellsAt.expr _ e c₂ word.clean given
    have whole := word.trans (takes.trans (sign_ok takes.clean closing))
    refine ⟨by simpa [Stmt.lexemes] using whole, ?_, nofun⟩
    rw [Stmt.Grammatical]
    intro e' member
    cases member
    exact right

theorem request_ok {s : Stmt} (clean : c.Clean) (front : c.front.kind = .keyword .needsWord)
    (run : request c = .ok s c') : Whole c s c' := by
  unfold request at run
  rw [bind_ok (advance_run c)] at run
  have word := clean.nextFixed (.ofKeyword .needsWord) front rfl
  obtain ⟨t, c₁, quoted, rest⟩ := bind_eq_ok_iff.mp run
  obtain ⟨v, c₂, closing, rest⟩ := bind_eq_ok_iff.mp rest
  obtain ⟨rfl, rfl⟩ := pure_eq_ok_iff.mp rest
  obtain ⟨kind, takes, own⟩ := expect_ok word.clean rfl quoted
  obtain ⟨written, read⟩ := own.literal kind
  rw [written] at takes
  have whole := word.trans (takes.trans (sign_ok takes.clean closing))
  refine ⟨by simpa [Stmt.lexemes] using whole, ?_, nofun⟩
  rw [Stmt.Grammatical]
  exact read

/-! ## Statements in statements -/

/-- A statement takes its own words, or something was reported and is bad in it. -/
def Covers (p : Parser Stmt) : Prop :=
  ∀ c s c', c.Clean → p c = .ok s c' →
    Whole c s c' ∨ c'.Spoiled ∧ HasBad (s.visited fun _ => true)

/-- What takes the place of a statement that cannot be read is bad, and it is reported. -/
theorem Covers.recovering {p : Parser Stmt} (topLevel : Bool) (covers : Covers p)
    (stepwise : Stepwise p) : Covers (recovering topLevel p) := by
  intro c s c' clean run
  unfold Parser.recovering at run
  cases first : p c with
  | ok s₁ c₁ =>
      rw [first] at run
      cases run
      exact covers c s c' clean first
  | error e c₁ =>
      rw [first] at run
      cases run
      have spoiled := stepwise.spoiled_report clean first
      have onward := Cursor.Onward.skip topLevel c₁.rest.length (c₁.report e)
      refine .inr ⟨⟨?_, onward.marred spoiled.marred⟩, ?_⟩
      · rw [onward.eof]
        exact spoiled.eof
      · simp [Stmt.visited]

/-- Statements up to a token that stops them. The bound on their number does not stop them sooner if
it is the number of tokens that are left. -/
theorem Covers.itemsUntil {stop : Kind → Bool} {item : Parser Stmt} (covers : Covers item)
    (stepwise : Stepwise item) (ends : stop .endOfFile = true) (n : Nat) {ss : List Stmt}
    (clean : c.Clean) (run : itemsUntil stop item n c = .ok ss c') :
    (c.Takes c' (Stmt.lexemesAll ss) ∧ Stmt.GrammaticalAll ss ∧
        (c.rest.length ≤ n → stop c'.front.kind = true)) ∨
      c'.Spoiled ∧ HasBad (Stmt.visitedAll (fun _ => true) ss) := by
  induction n generalizing c ss with
  | zero =>
      obtain ⟨rfl, rfl⟩ := pure_eq_ok_iff.mp run
      rw [Stmt.lexemesAll, Stmt.GrammaticalAll]
      refine .inl ⟨.refl clean, trivial, fun none => ?_⟩
      rw [Cursor.front, List.eq_nil_of_length_eq_zero (Nat.le_zero.mp none), List.headD_nil,
        clean.eof, ends]
  | succ n ih =>
      unfold Parser.itemsUntil at run
      rw [bind_ok (peekKind_run c)] at run
      by_cases stops : stop c.front.kind = true
      · rw [if_pos stops] at run
        obtain ⟨rfl, rfl⟩ := pure_eq_ok_iff.mp run
        rw [Stmt.lexemesAll, Stmt.GrammaticalAll]
        exact .inl ⟨.refl clean, trivial, fun _ => stops⟩
      · rw [if_neg stops] at run
        obtain ⟨s, c₁, first, more⟩ := bind_eq_ok_iff.mp run
        obtain ⟨ss', c₂, others, rest⟩ := bind_eq_ok_iff.mp more
        obtain ⟨rfl, rfl⟩ := pure_eq_ok_iff.mp rest
        rw [Stmt.lexemesAll, Stmt.GrammaticalAll, Stmt.visitedAll, hasBad_append]
        rcases covers c s c₁ clean first with ⟨takes, right, -⟩ | ⟨spoiled, bad⟩
        · rcases ih takes.clean others with ⟨takes', right', stopped⟩ | ⟨spoiled, bad⟩
          · refine .inl ⟨takes.trans takes', ⟨right, right'⟩, fun bound => stopped ?_⟩
            have taken := List.length_pos_iff.mpr right.lexemes_ne_nil
            have length := takes.length
            omega
          · exact .inr ⟨spoiled, .inr bad⟩
        · exact .inr ⟨(stepwise.itemsUntil stop n).spoiled spoiled others, .inl bad⟩

section

variable {nested : Parser Stmt}

theorem block_ok (covers : Covers nested) (stepwise : Stepwise nested) {body : Block}
    (clean : c.Clean) (run : block nested c = .ok body c') :
    c.Takes c' body.lexemes ∧ body.Grammatical ∨
      c'.Spoiled ∧ HasBad (body.visited fun _ => true) := by
  obtain ⟨t, c₁, opening, more⟩ := bind_eq_ok_iff.mp run
  rw [bind_ok (remaining_run c₁)] at more
  obtain ⟨ss, c₂, inner, rest⟩ := bind_eq_ok_iff.mp more
  obtain ⟨t', c₃, closing, last⟩ := bind_eq_ok_iff.mp rest
  obtain ⟨rfl, rfl⟩ := pure_eq_ok_iff.mp last
  have opens := sign_ok clean opening
  rw [Block.lexemes, Block.Grammatical, Block.visited]
  rcases (covers.recovering false stepwise).itemsUntil (.recovering false stepwise) rfl _ opens.clean
    inner with ⟨takes, right, -⟩ | ⟨spoiled, bad⟩
  · exact .inl ⟨opens.trans (takes.trans (sign_ok takes.clean closing)), right⟩
  · exact .inr ⟨(Stepwise.sign _).spoiled spoiled closing, by simpa using bad⟩

theorem parameter_spells :
    Spells parameter Param.lexemes fun p => isName p.name = true := by
  intro c p c' clean run
  unfold parameter at run
  rw [bind_ok (peek_run c)] at run
  cases found : typeName? c.front.kind with
  | none =>
      rw [found] at run
      exact absurd run fail_ne_ok
  | some type =>
      rw [found] at run
      dsimp only at run
      rw [bind_ok (advance_run c)] at run
      obtain ⟨t, c₁, named, rest⟩ := bind_eq_ok_iff.mp run
      obtain ⟨rfl, rfl⟩ := pure_eq_ok_iff.mp rest
      have word := clean.nextFixed (.ofKeyword type.keyword) (typeName?_eq_some_iff.mp found) rfl
      obtain ⟨takes, right⟩ := expect_name_ok word.clean named
      exact ⟨word.trans takes, right⟩

theorem resultType_ok {returns : Option (Pos × TypeName)} (clean : c.Clean)
    (run : resultType c = .ok returns c') :
    c.Takes c' (returns.elim [] fun r => [.word r.2.keyword]) := by
  unfold resultType at run
  rw [bind_ok (peek_run c)] at run
  cases found : typeName? c.front.kind with
  | none =>
      rw [found] at run
      obtain ⟨rfl, rfl⟩ := pure_eq_ok_iff.mp run
      exact .refl clean
  | some type =>
      rw [found] at run
      dsimp only at run
      rw [bind_ok (advance_run c)] at run
      obtain ⟨rfl, rfl⟩ := pure_eq_ok_iff.mp run
      exact clean.nextFixed (.ofKeyword type.keyword) (typeName?_eq_some_iff.mp found) rfl

theorem definition_ok (covers : Covers nested) (stepwise : Stepwise nested) {s : Stmt}
    (clean : c.Clean) (front : c.front.kind = .keyword .fnWord)
    (run : definition nested c = .ok s c') :
    Whole c s c' ∨ c'.Spoiled ∧ HasBad (s.visited fun _ => true) := by
  unfold definition at run
  rw [bind_ok (advance_run c)] at run
  obtain ⟨t, c₁, named, more⟩ := bind_eq_ok_iff.mp run
  obtain ⟨params, c₂, listed, more⟩ := bind_eq_ok_iff.mp more
  obtain ⟨returns, c₃, typed, more⟩ := bind_eq_ok_iff.mp more
  obtain ⟨body, c₄, inner, last⟩ := bind_eq_ok_iff.mp more
  obtain ⟨rfl, rfl⟩ := pure_eq_ok_iff.mp last
  have word := clean.nextFixed (.ofKeyword .fnWord) front rfl
  obtain ⟨name, right⟩ := expect_name_ok word.clean named
  obtain ⟨items, right'⟩ := Spells.itemList parameter_spells c₁ params c₂ name.clean listed
  have result := resultType_ok items.clean typed
  rcases block_ok covers stepwise result.clean inner with ⟨takes, right''⟩ | ⟨spoiled, bad⟩
  · have whole := word.trans (name.trans (items.trans (result.trans takes)))
    refine .inl ⟨by simpa [Stmt.lexemes, Header.lexemes] using whole, ?_, nofun⟩
    rw [Stmt.Grammatical]
    exact ⟨right, right', right''⟩
  · exact .inr ⟨spoiled, by simpa [Stmt.visited] using bad⟩

theorem branches_ok (covers : Covers nested) (stepwise : Stepwise nested) (n : Nat)
    {rest : Branches} (clean : c.Clean) (run : branches nested n c = .ok rest c') :
    c.Takes c' rest.lexemes ∧ rest.Grammatical ∨
      c'.Spoiled ∧ HasBad (rest.visited fun _ => true) := by
  induction n generalizing c rest with
  | zero =>
      obtain ⟨rfl, rfl⟩ := pure_eq_ok_iff.mp run
      rw [Branches.lexemes, Branches.Grammatical]
      exact .inl ⟨.refl clean, trivial⟩
  | succ n ih =>
      obtain ⟨found, c₁, accepted, more⟩ := bind_eq_ok_iff.mp run
      rcases accept_ok clean rfl accepted with ⟨rfl, rfl, -⟩ | ⟨rfl, kind, word, own⟩
      · obtain ⟨rfl, rfl⟩ := pure_eq_ok_iff.mp more
        rw [Branches.lexemes, Branches.Grammatical]
        exact .inl ⟨.refl clean, trivial⟩
      rw [own.eq_of_kind (.ofKeyword .elseWord) kind rfl] at word
      obtain ⟨found, c₂, accepted', tail⟩ := bind_eq_ok_iff.mp more
      rcases accept_ok word.clean rfl accepted' with ⟨rfl, rfl, -⟩ | ⟨rfl, kind', word', own'⟩
      · obtain ⟨body, c₃, inner, last⟩ := bind_eq_ok_iff.mp tail
        obtain ⟨rfl, rfl⟩ := pure_eq_ok_iff.mp last
        rw [Branches.lexemes, Branches.Grammatical, Branches.visited]
        rcases block_ok covers stepwise word.clean inner with ⟨takes, right⟩ | spoiled
        · exact .inl ⟨word.trans takes, right⟩
        · exact .inr spoiled
      · rw [own'.eq_of_kind (.ofKeyword .ifWord) kind' rfl] at word'
        obtain ⟨cond, c₃, asked, tail⟩ := bind_eq_ok_iff.mp tail
        obtain ⟨body, c₄, inner, tail⟩ := bind_eq_ok_iff.mp tail
        obtain ⟨arms, c₅, others, last⟩ := bind_eq_ok_iff.mp tail
        obtain ⟨rfl, rfl⟩ := pure_eq_ok_iff.mp last
        obtain ⟨asks, right⟩ := condition_ok word'.clean asked
        rcases block_ok covers stepwise asks.clean inner with ⟨takes, right'⟩ | ⟨spoiled, bad⟩
        · rcases ih takes.clean others with ⟨takes', right''⟩ | ⟨spoiled, bad⟩
          · have whole := word.trans (word'.trans (asks.trans (takes.trans takes')))
            refine .inl ⟨by simpa [Branches.lexemes] using whole, ?_⟩
            rw [Branches.Grammatical]
            exact ⟨right, right', right''⟩
          · exact .inr ⟨spoiled, by simp [Branches.visited, bad]⟩
        · exact .inr ⟨(stepwise.branches n).spoiled spoiled others,
            by simp [Branches.visited, bad]⟩

theorem branching_ok (covers : Covers nested) (stepwise : Stepwise nested) {s : Stmt}
    (clean : c.Clean) (front : c.front.kind = .keyword .ifWord)
    (run : branching nested c = .ok s c') :
    Whole c s c' ∨ c'.Spoiled ∧ HasBad (s.visited fun _ => true) := by
  unfold branching at run
  rw [bind_ok (advance_run c)] at run
  obtain ⟨cond, c₁, asked, more⟩ := bind_eq_ok_iff.mp run
  obtain ⟨body, c₂, inner, more⟩ := bind_eq_ok_iff.mp more
  rw [bind_ok (remaining_run c₂)] at more
  obtain ⟨rest, c₃, others, last⟩ := bind_eq_ok_iff.mp more
  obtain ⟨rfl, rfl⟩ := pure_eq_ok_iff.mp last
  have word := clean.nextFixed (.ofKeyword .ifWord) front rfl
  obtain ⟨asks, right⟩ := condition_ok word.clean asked
  rcases block_ok covers stepwise asks.clean inner with ⟨takes, right'⟩ | ⟨spoiled, bad⟩
  · rcases branches_ok covers stepwise _ takes.clean others with ⟨takes', right''⟩ | ⟨spoiled, bad⟩
    · have whole := word.trans (asks.trans (takes.trans takes'))
      refine .inl ⟨by simpa [Stmt.lexemes] using whole, ?_, nofun⟩
      rw [Stmt.Grammatical]
      exact ⟨right, right', right''⟩
    · exact .inr ⟨spoiled, by simp [Stmt.visited, bad]⟩
  · exact .inr ⟨(stepwise.branches _).spoiled spoiled others, by simp [Stmt.visited, bad]⟩

theorem looping_ok (covers : Covers nested) (stepwise : Stepwise nested) {s : Stmt}
    (clean : c.Clean) (front : c.front.kind = .keyword .whileWord)
    (run : looping nested c = .ok s c') :
    Whole c s c' ∨ c'.Spoiled ∧ HasBad (s.visited fun _ => true) := by
  unfold looping at run
  rw [bind_ok (advance_run c)] at run
  obtain ⟨cond, c₁, asked, more⟩ := bind_eq_ok_iff.mp run
  obtain ⟨body, c₂, inner, last⟩ := bind_eq_ok_iff.mp more
  obtain ⟨rfl, rfl⟩ := pure_eq_ok_iff.mp last
  have word := clean.nextFixed (.ofKeyword .whileWord) front rfl
  obtain ⟨asks, right⟩ := condition_ok word.clean asked
  rcases block_ok covers stepwise asks.clean inner with ⟨takes, right'⟩ | ⟨spoiled, bad⟩
  · refine .inl ⟨by simpa [Stmt.lexemes] using word.trans (asks.trans takes), ?_, nofun⟩
    rw [Stmt.Grammatical]
    exact ⟨right, right'⟩
  · exact .inr ⟨spoiled, by simp [Stmt.visited, bad]⟩

/-- The body of a `maybe` that gets an `otherwise` is closed, or the body would have taken it. -/
theorem uncertainty_ok (covers : Covers nested) (stepwise : Stepwise nested) {s : Stmt}
    (clean : c.Clean) (front : c.front.kind = .keyword .maybeWord)
    (run : uncertainty nested c = .ok s c') :
    Whole c s c' ∨ c'.Spoiled ∧ HasBad (s.visited fun _ => true) := by
  unfold uncertainty at run
  rw [bind_ok (advance_run c)] at run
  obtain ⟨probability, c₁, asked, more⟩ := bind_eq_ok_iff.mp run
  obtain ⟨body, c₂, inner, more⟩ := bind_eq_ok_iff.mp more
  obtain ⟨found, c₃, accepted, tail⟩ := bind_eq_ok_iff.mp more
  have word := clean.nextFixed (.ofKeyword .maybeWord) front rfl
  obtain ⟨asks, right⟩ := condition_ok word.clean asked
  rcases covers c₁ body c₂ asks.clean inner with ⟨takes, right', closed⟩ | ⟨spoiled, bad⟩
  · rcases accept_ok takes.clean rfl accepted with ⟨rfl, rfl, none⟩ | ⟨rfl, kind, mark, own⟩
    · obtain ⟨rfl, rfl⟩ := pure_eq_ok_iff.mp tail
      refine .inl ⟨by simpa [Stmt.lexemes] using word.trans (asks.trans takes), ?_, fun _ => none⟩
      rw [Stmt.Grammatical]
      exact ⟨right, right'⟩
    · rw [own.eq_of_kind (.ofKeyword .otherwiseWord) kind rfl] at mark
      obtain ⟨alternative, c₄, other, last⟩ := bind_eq_ok_iff.mp tail
      obtain ⟨rfl, rfl⟩ := pure_eq_ok_iff.mp last
      rcases covers c₃ alternative c₄ mark.clean other with
        ⟨takes', right'', closed'⟩ | ⟨spoiled, bad⟩
      · have whole := word.trans (asks.trans (takes.trans (mark.trans takes')))
        refine .inl ⟨by simpa [Stmt.lexemes] using whole, ?_, closed'⟩
        rw [Stmt.Grammatical]
        refine ⟨right, right', ?_, right''⟩
        by_contra waits
        exact closed (by simpa using waits) kind
      · exact .inr ⟨spoiled, by simp [Stmt.visited, bad]⟩
  · have kept := (Stepwise.accept _).spoiled spoiled accepted
    cases found with
    | none =>
        obtain ⟨rfl, rfl⟩ := pure_eq_ok_iff.mp tail
        exact .inr ⟨kept, by simp [Stmt.visited, bad]⟩
    | some t =>
        obtain ⟨alternative, c₄, other, last⟩ := bind_eq_ok_iff.mp tail
        obtain ⟨rfl, rfl⟩ := pure_eq_ok_iff.mp last
        exact .inr ⟨stepwise.spoiled kept other, by simp [Stmt.visited, bad]⟩

/-- A statement of one word and a semicolon. -/
theorem jump_ok {s s' : Stmt} {w : Keyword} (clean : c.Clean) (front : c.front.kind = .keyword w)
    (right : s.Grammatical ∧ s.endsOpen = false) (written : s.lexemes = [.word w, .sign .semicolon])
    (run : (do let _ ← advance; let _ ← sign .semicolon; return s : Parser Stmt) c = .ok s' c') :
    Whole c s' c' := by
  rw [bind_ok (advance_run c)] at run
  obtain ⟨t, c₁, closing, last⟩ := bind_eq_ok_iff.mp run
  obtain ⟨rfl, rfl⟩ := pure_eq_ok_iff.mp last
  have word := clean.nextFixed (.ofKeyword w) front rfl
  refine ⟨?_, right.1, fun waits => ?_⟩
  · rw [written]
    exact word.trans (sign_ok word.clean closing)
  · rw [right.2] at waits
    cases waits

theorem Covers.statementWith (covers : Covers nested) (stepwise : Stepwise nested) :
    Covers (statementWith nested) := by
  intro c s c' clean run
  unfold Parser.statementWith at run
  rw [bind_ok (peek_run c)] at run
  cases found : typeName? c.front.kind with
  | some type =>
      rw [found] at run
      exact .inl (declaration_ok clean found run)
  | none =>
      rw [found] at run
      dsimp only at run
      generalize front : c.front.kind = kind at run
      split at run
      · exact .inl (inference_ok clean front run)
      · rw [bind_ok (get_run c)] at run
        split at run
        · exact .inl (callStatement_ok clean front run)
        · exact .inl (assignment_ok clean front run)
      · exact definition_ok covers stepwise clean front run
      · exact branching_ok covers stepwise clean front run
      · exact looping_ok covers stepwise clean front run
      · exact .inl (jump_ok clean front (by simp [Stmt.Grammatical, Stmt.endsOpen])
          (by rw [Stmt.lexemes]) run)
      · exact .inl (jump_ok clean front (by simp [Stmt.Grammatical, Stmt.endsOpen])
          (by rw [Stmt.lexemes]) run)
      · exact .inl (returning_ok clean front run)
      · exact .inl (request_ok clean front run)
      · exact uncertainty_ok covers stepwise clean front run
      · obtain ⟨body, c₁, inner, last⟩ := bind_eq_ok_iff.mp run
        obtain ⟨rfl, rfl⟩ := pure_eq_ok_iff.mp last
        rcases block_ok covers stepwise clean inner with ⟨takes, right⟩ | ⟨spoiled, bad⟩
        · refine .inl ⟨by rw [Stmt.lexemes]; exact takes, ?_, nofun⟩
          rw [Stmt.Grammatical]
          exact right
        · refine .inr ⟨spoiled, ?_⟩
          rw [Stmt.visited]
          exact bad
      · exact absurd run fail_ne_ok

theorem Covers.statement (n : Nat) : Covers (statement n) := by
  induction n with
  | zero =>
      intro c s c' clean run
      exact absurd run fail_ne_ok
  | succ n ih => exact ih.statementWith (Stepwise.statement n)

end

/-- A program takes all tokens, or something was reported and is bad in it. -/
theorem program_ok {program : Program} (clean : c.Clean)
    (run : Parser.program c = .ok program c') :
    (c.lexemes = program.lexemes ∧ program.Grammatical ∧ c'.errors = []) ∨
      c'.errors ≠ [] ∧ HasBad (program.visited fun _ => true) := by
  unfold Parser.program at run
  rw [bind_ok (remaining_run c)] at run
  have stepwise := Stepwise.recovering true (Stepwise.statement (c.rest.length + 1))
  have covers := (Covers.statement (c.rest.length + 1)).recovering true (Stepwise.statement _)
  rcases covers.itemsUntil stepwise rfl _ clean run with ⟨takes, right, stopped⟩ | ⟨spoiled, bad⟩
  · have ends : c'.front.kind = .endOfFile := by simpa using stopped (Nat.le_refl _)
    refine .inl ⟨?_, right, takes.clean.errors_eq_nil ends⟩
    have split := takes.split
    rw [Cursor.lexemes, Cursor.lexemes, takes.clean.rest_eq_nil ends, List.map_nil,
      List.append_nil] at split
    exact split
  · exact .inr ⟨spoiled.marred.errors_ne_nil, bad⟩

end Parser

end Samo
