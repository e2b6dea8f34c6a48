import Samo.Proofs.Questions
import Samo.Proofs.Reading

/-!
# Written expressions are read back

A grammatical expression is read back from its words, but for its positions
(`Parser.RereadsAt.expression`). What follows must not go on with the expression: no operator of its
level or a tighter one, and no parenthesis that would make a call of a name.
-/

namespace Samo

/-! ## Standing before words -/

/-- The kind of the first of some words, or of the end. -/
def Lexeme.frontKind : List Lexeme → Kind
  | [] => .endOfFile
  | l :: _ => l.kind

theorem Lexeme.IsWord.isWord_kind {l : Lexeme} (word : l.IsWord) : l.kind.isWord = true := by
  unfold IsWord at word
  cases kind : l.kind with
  | intLiteral | stringLiteral | identifier | keyword | punct => rfl
  | endOfFile | comment | invalid =>
      rw [kind] at word
      cases word

namespace Cursor

/-- A cursor with nothing reported, and just these words left. -/
structure Before (c : Cursor) (ls : List Lexeme) : Prop where
  clean : c.Clean
  split : c.lexemes = ls
  words : ∀ l ∈ ls, l.IsWord

namespace Before

variable {c : Cursor} {l : Lexeme} {ls : List Lexeme}

theorem front_kind (before : c.Before ls) : c.front.kind = Lexeme.frontKind ls := by
  rw [← before.split, Cursor.front, lexemes]
  cases c.rest with
  | nil => exact before.clean.eof
  | cons t rest => rfl

theorem length (before : c.Before ls) : c.rest.length = ls.length := by
  rw [← before.split, lexemes, List.length_map]

theorem front (before : c.Before (l :: ls)) : c.front.toLexeme = l := by
  have split := before.split
  rw [lexemes] at split
  rw [Cursor.front]
  cases left : c.rest with
  | nil =>
      rw [left] at split
      cases split
  | cons t rest =>
      rw [left] at split
      exact (List.cons.inj split).1

/-- The first word is taken. -/
theorem next (before : c.Before (l :: ls)) : c.next.Before ls := by
  have word := before.words l List.mem_cons_self
  obtain ⟨takes, -⟩ := before.clean.next (by rw [before.front_kind]; exact word.isWord_kind)
  refine ⟨takes.clean, ?_, fun k member => before.words k (List.mem_cons_of_mem l member)⟩
  have split := takes.split
  rw [before.split] at split
  exact (List.cons.inj split).2.symm

theorem text (before : c.Before (l :: ls)) : c.front.text = l.text :=
  congrArg Lexeme.text before.front

theorem second_kind (before : c.Before (l :: ls)) : c.second.kind = Lexeme.frontKind ls := by
  rw [← before.next.front_kind, second, Cursor.front, rest_next, eof_next]

end Before

end Cursor

namespace Parser

variable {α β : Type} {c : Cursor} {l : Lexeme} {ls : List Lexeme}

theorem expect_of_before {kind : Kind} (before : c.Before (l :: ls)) (same : l.kind = kind) :
    expect kind c = .ok c.front c.next := by
  unfold expect
  rw [bind_ok (peek_run c), if_pos (before.front_kind.trans same)]
  rfl

theorem accept_of_before {kind : Kind} (before : c.Before (l :: ls)) (same : l.kind = kind) :
    accept kind c = .ok (some c.front) c.next := by
  unfold accept
  rw [bind_ok (peekKind_run c), if_pos (before.front_kind.trans same)]
  rfl

theorem accept_of_ne {kind : Kind} (before : c.Before ls) (other : Lexeme.frontKind ls ≠ kind) :
    accept kind c = .ok none c := by
  unfold accept
  rw [bind_ok (peekKind_run c), if_neg (before.front_kind ▸ other)]
  rfl

theorem sign_of_before {p : Punct} (before : c.Before (.sign p :: ls)) :
    sign p c = .ok c.front c.next := expect_of_before before rfl

theorem acceptSign_of_before {p : Punct} (before : c.Before (.sign p :: ls)) :
    accept (.punct p) c = .ok (some c.front) c.next := accept_of_before before rfl

theorem acceptWord_of_before {w : Keyword} (before : c.Before (.word w :: ls)) :
    accept (.keyword w) c = .ok (some c.front) c.next := accept_of_before before rfl

theorem expectName_of_before {x : String} (before : c.Before (.name x :: ls)) :
    expect .identifier c = .ok c.front c.next := expect_of_before before rfl

/-! ## Items -/

/-- A parser gives something back from its words, up to what `bare` forgets, wherever the next word
does not go on with it. -/
def Rereads (p : Parser α) (bare : α → β) (a : α) (ls : List Lexeme) (stops : Kind → Prop) : Prop :=
  ∀ c tail, c.Before (ls ++ tail) → stops (Lexeme.frontKind tail) →
    ∃ a' c', p c = .ok a' c' ∧ bare a' = bare a ∧ c'.Before tail

theorem length_le_commaSeparated {l : List Lexeme} {ls : List (List Lexeme)} (member : l ∈ ls) :
    l.length ≤ (Lexeme.commaSeparated ls).length := by
  cases ls with
  | nil => cases member
  | cons k ks =>
      rw [Lexeme.commaSeparated, List.length_append]
      rcases List.mem_cons.mp member with rfl | member
      · exact Nat.le_add_right _ _
      · induction ks with
        | nil => cases member
        | cons j js ih =>
            rw [List.flatMap_cons, List.length_append, List.length_cons]
            rcases List.mem_cons.mp member with rfl | member
            · omega
            · have := ih (List.mem_cons_of_mem k member) member
              omega

/-- There are not more items than words in them. -/
theorem length_le_commas (lexemes : α → List Lexeme) (as : List α) :
    as.length ≤ (as.flatMap (Lexeme.sign .comma :: lexemes ·)).length := by
  induction as with
  | nil => exact Nat.le_refl 0
  | cons a as ih =>
      rw [List.flatMap_cons, List.length_append, List.length_cons, List.length_cons]
      omega

namespace Rereads

variable {item : Parser α} {bare : α → β} {lexemes : α → List Lexeme} {stops : Kind → Prop}

theorem moreItems (comma : stops (.punct .comma)) {as : List α}
    (rereads : ∀ a ∈ as, Rereads item bare a (lexemes a) stops) {n : Nat} (bound : as.length ≤ n) :
    Rereads (moreItems item n) (List.map bare) as (as.flatMap (.sign .comma :: lexemes ·))
      fun kind => stops kind ∧ kind ≠ .punct .comma := by
  induction as generalizing n with
  | nil =>
      intro c tail before stopped
      cases n with
      | zero => exact ⟨[], c, rfl, rfl, before⟩
      | succ n =>
          refine ⟨[], c, ?_, rfl, before⟩
          unfold Parser.moreItems
          rw [bind_ok (accept_of_ne before stopped.2)]
          rfl
  | cons a as ih =>
      intro c tail before stopped
      obtain ⟨n, rfl⟩ : ∃ k, n = k + 1 := Nat.exists_eq_add_one.mpr (Nat.lt_of_lt_of_le (by simp) bound)
      rw [List.flatMap_cons, List.cons_append, List.cons_append, List.append_assoc] at before
      have next : stops (Lexeme.frontKind
          (as.flatMap (Lexeme.sign .comma :: lexemes ·) ++ tail)) := by
        cases as with
        | nil => exact stopped.1
        | cons b as => exact comma
      obtain ⟨a', c₁, first, same, before₁⟩ :=
        rereads a List.mem_cons_self c.next _ before.next next
      obtain ⟨as', c₂, others, same', before₂⟩ :=
        ih (fun b member => rereads b (List.mem_cons_of_mem a member)) (Nat.le_of_succ_le_succ bound)
          c₁ tail before₁ stopped
      refine ⟨a' :: as', c₂, ?_, ?_, before₂⟩
      · unfold Parser.moreItems
        rw [bind_ok (acceptSign_of_before before)]
        dsimp only
        rw [bind_ok first, bind_ok others]
        rfl
      · rw [List.map_cons, List.map_cons, same, same']

theorem itemList (comma : stops (.punct .comma)) (close : stops (.punct .rightParen)) {as : List α}
    (starts : ∀ a ∈ as, ∃ l ls, lexemes a = l :: ls ∧ l.kind ≠ .punct .rightParen)
    (rereads : ∀ a ∈ as, Rereads item bare a (lexemes a) stops) :
    Rereads (itemList item) (List.map bare) as
      (Lexeme.inParens (Lexeme.commaSeparated (as.map lexemes))) fun _ => True := by
  intro c tail before _
  unfold Parser.itemList
  cases as with
  | nil =>
      have before₁ : c.next.Before (.sign .rightParen :: tail) := before.next
      have front : c.next.front.kind = .punct .rightParen := before₁.front_kind
      rw [bind_ok (sign_of_before before), bind_ok (peekKind_run _), if_pos front,
        bind_ok (sign_of_before before₁)]
      exact ⟨[], _, rfl, rfl, before₁.next⟩
  | cons a as =>
      have words : Lexeme.inParens (Lexeme.commaSeparated ((a :: as).map lexemes)) ++ tail =
          .sign .leftParen :: (lexemes a ++ (as.flatMap (Lexeme.sign .comma :: lexemes ·) ++
            .sign .rightParen :: tail)) := by
        simp [Lexeme.inParens, Lexeme.commaSeparated, List.flatMap_map]
      rw [words] at before
      obtain ⟨l, ls, written, opening⟩ := starts a List.mem_cons_self
      have front : (c.next).front.kind ≠ .punct .rightParen := by
        rw [before.next.front_kind, written]
        exact opening
      have next : stops (Lexeme.frontKind (as.flatMap (Lexeme.sign .comma :: lexemes ·) ++
          Lexeme.sign .rightParen :: tail)) := by
        cases as with
        | nil => exact close
        | cons b as => exact comma
      obtain ⟨a', c₁, first, same, before₁⟩ :=
        rereads a List.mem_cons_self _ _ before.next next
      have bound : as.length ≤ c₁.rest.length := by
        rw [before₁.length, List.length_append]
        exact Nat.le_trans (length_le_commas lexemes as) (Nat.le_add_right _ _)
      obtain ⟨as', c₂, others, same', before₂⟩ :=
        Rereads.moreItems comma (fun b member => rereads b (List.mem_cons_of_mem a member)) bound
          c₁ _ before₁ ⟨close, by rintro ⟨⟩⟩
      rw [bind_ok (sign_of_before before), bind_ok (peekKind_run _), if_neg front, bind_ok first,
        bind_ok (remaining_run _), bind_ok others, bind_ok (sign_of_before before₂)]
      refine ⟨a' :: as', _, rfl, ?_, before₂.next⟩
      rw [List.map_cons, List.map_cons, same, same']

end Rereads

end Parser

/-! ## Where an expression starts and ends -/

/-- Whether an expression can start with a word of the kind. -/
def Kind.startsExpr : Kind → Bool
  | intLiteral | stringLiteral | identifier | keyword .trueWord | keyword .falseWord
  | keyword .notWord | punct .minus | punct .leftParen => true
  | _ => false

theorem UnaryOp.eq_of_kind {op op' : UnaryOp} (same : op.lexeme.kind = op'.lexeme.kind) :
    op = op' := by
  cases op <;> cases op' <;> first | rfl | cases same

theorem UnaryOp.level_ne (op : UnaryOp) (op' : BinaryOp) : op'.level ≠ op.level := by
  cases op <;> cases op' <;> decide

theorem UnaryOp.level_lt (op : UnaryOp) : op.level < 7 := by
  cases op <;> decide

theorem UnaryOp.eq_of_level {op op' : UnaryOp} (same : op.level = op'.level) : op = op' := by
  cases op <;> cases op' <;> first | rfl | cases same

/-- The first word of an expression. It is no sign that binds looser than the expression. -/
theorem Expr.exists_lexemes (e : Expr) (right : e.Grammatical) :
    ∃ l ls, e.lexemes = l :: ls ∧ l.kind.startsExpr = true ∧
      ∀ op : UnaryOp, op.level < e.level → l.kind ≠ op.lexeme.kind := by
  induction e using Expr.induction with
  | int | string | ident =>
      rw [lexemes]
      exact ⟨_, _, rfl, rfl, fun op _ => by cases op <;> rintro ⟨⟩⟩
  | boolie p b =>
      rw [lexemes]
      exact ⟨_, _, rfl, by cases b <;> rfl, fun op _ => by cases op <;> cases b <;> rintro ⟨⟩⟩
  | unary p op x ih =>
      rw [lexemes]
      refine ⟨_, _, rfl, by cases op <;> rfl, fun op' looser same => ?_⟩
      rw [UnaryOp.eq_of_kind same] at looser
      exact Nat.lt_irrefl _ looser
  | binary p op x y left _ =>
      rw [Grammatical] at right
      obtain ⟨l, ls, written, starts, other⟩ := left right.2.2.1
      rw [lexemes, written]
      refine ⟨l, _, rfl, starts, fun op' looser => other op' ?_⟩
      have first : op.level ≤ op.leftLevel := by
        unfold BinaryOp.leftLevel
        split <;> omega
      exact Nat.lt_of_lt_of_le looser (Nat.le_trans first right.1)
  | paren p x ih =>
      rw [lexemes]
      exact ⟨_, _, rfl, rfl, fun op _ => by cases op <;> rintro ⟨⟩⟩
  | call p f args ih =>
      rw [lexemes]
      exact ⟨_, _, rfl, rfl, fun op _ => by cases op <;> rintro ⟨⟩⟩

theorem BinaryOp.eq_of_kind {op op' : BinaryOp} (same : op.lexeme.kind = op'.lexeme.kind) :
    op = op' := by
  cases op <;> cases op' <;> first | rfl | cases same

namespace Parser

/-- A word of the kind does not go on with an expression of the level. -/
def Stops (level : Nat) (kind : Kind) : Prop :=
  kind ≠ .punct .leftParen ∧ ∀ op : BinaryOp, op.lexeme.kind = kind → op.level < level

theorem Stops.mono {level level' : Nat} {kind : Kind} (stops : Stops level kind)
    (le : level ≤ level') : Stops level' kind :=
  ⟨stops.1, fun op same => Nat.lt_of_lt_of_le (stops.2 op same) le⟩

/-- A looser operator ends an expression. -/
theorem Stops.operator {level : Nat} {op : BinaryOp} (looser : op.level < level) :
    Stops level op.lexeme.kind := by
  refine ⟨by cases op <;> rintro ⟨⟩, fun op' same => ?_⟩
  rw [BinaryOp.eq_of_kind same]
  exact looser

/-- An expression ends before a comma, a closing parenthesis or a semicolon. -/
theorem Stops.sign {level : Nat} {p : Punct} (ends : p = .comma ∨ p = .rightParen ∨ p = .semicolon) :
    Stops level (.punct p) := by
  rcases ends with rfl | rfl | rfl <;>
    exact ⟨by rintro ⟨⟩, fun op same => by cases op <;> cases same⟩

theorem Stops.none {level : Nat} {op? : Kind → Option BinaryOp} {kind : Kind}
    (operators : OperatorsAt op? level) (stops : Stops level kind) : op? kind = none := by
  cases found : op? kind with
  | none => rfl
  | some op =>
      obtain ⟨same, at'⟩ := (operators kind op).mp found
      exact absurd at' (Nat.ne_of_lt (stops.2 op same.symm))

/-- A parser reads back the expressions that bind at least so tight and are at most so long. -/
def RereadsAt (level bound : Nat) (p : Parser Expr) : Prop :=
  ∀ e : Expr, e.Grammatical → level ≤ e.level → e.lexemes.length ≤ bound →
    Rereads p Expr.bare e e.lexemes (Stops level)

namespace RereadsAt

variable {level bound : Nat} {operand nested : Parser Expr}

/-! ## One level after the other -/

/-- An expression that binds tighter does not start with the sign. -/
theorem signed_tight {op : UnaryOp} (rereads : RereadsAt (op.level + 1) bound operand) {e : Expr}
    (right : e.Grammatical) (tight : op.level < e.level) (short : e.lexemes.length ≤ bound)
    (n : Nat) :
    Rereads (signed op.lexeme.kind op operand n) Expr.bare e e.lexemes (Stops op.level) := by
  intro c tail before stops
  obtain ⟨e', c', run, result⟩ :=
    rereads e right tight short c tail before (stops.mono (Nat.le_succ _))
  refine ⟨e', c', ?_, result⟩
  cases n with
  | zero => exact run
  | succ n =>
      obtain ⟨l, ls, written, -, other⟩ := e.exists_lexemes right
      rw [written] at before
      rw [Parser.signed, bind_ok (accept_of_ne before (other op tight))]
      exact run

theorem signed {op : UnaryOp} (rereads : RereadsAt (op.level + 1) bound operand) (e : Expr)
    (right : e.Grammatical) (tight : op.level ≤ e.level) (short : e.lexemes.length ≤ bound) {n : Nat}
    (fuel : e.lexemes.length ≤ n) :
    Rereads (signed op.lexeme.kind op operand n) Expr.bare e e.lexemes (Stops op.level) := by
  induction e using Expr.induction generalizing n with
  | int | string | boolie | ident | paren | call =>
      exact rereads.signed_tight right op.level_lt short n
  | binary p op' x y =>
      exact rereads.signed_tight right (Nat.lt_of_le_of_ne tight (op.level_ne op').symm) short n
  | unary p op' x ih =>
      by_cases same : op = op'
      · subst same
        rw [Expr.Grammatical] at right
        rw [Expr.lexemes, List.length_cons] at short fuel
        obtain ⟨n, rfl⟩ : ∃ k, n = k + 1 :=
          Nat.exists_eq_add_one.mpr (Nat.lt_of_lt_of_le (Nat.succ_pos _) fuel)
        intro c tail before stops
        rw [Expr.lexemes, List.cons_append] at before
        obtain ⟨x', c', run, bare, before'⟩ := ih right.2 right.1 (Nat.le_of_succ_le short)
          (Nat.le_of_succ_le_succ fuel) c.next tail before.next stops
        refine ⟨.unary c.front.pos op x', c', ?_, ?_, before'⟩
        · rw [Parser.signed, bind_ok (accept_of_before before rfl)]
          dsimp only
          rw [bind_ok run]
          rfl
        · rw [Expr.bare, Expr.bare, bare]
      · exact rereads.signed_tight right
          (Nat.lt_of_le_of_ne tight fun level => same (UnaryOp.eq_of_level level)) short n

theorem leftGrouped_tight {op? : Kind → Option BinaryOp}
    (rereads : RereadsAt (level + 1) bound operand) {e : Expr} (right : e.Grammatical)
    (tight : level + 1 ≤ e.level) (short : e.lexemes.length ≤ bound) {c : Cursor}
    {tail : List Lexeme} (before : c.Before (e.lexemes ++ tail))
    (stops : Stops (level + 1) (Lexeme.frontKind tail)) :
    ∃ e' c' n, e'.bare = e.bare ∧ c'.Before tail ∧ tail.length ≤ n ∧
      leftGrouped op? operand c = moreOperands op? operand n e' c' := by
  obtain ⟨e', c', run, same, before'⟩ := rereads e right tight short c tail before stops
  refine ⟨e', c', c'.rest.length, same, before', Nat.le_of_eq before'.length.symm, ?_⟩
  unfold Parser.leftGrouped
  rw [bind_ok run, bind_ok (remaining_run c')]

/-- Reading operands up to the end of an expression leaves the expression and its operands behind. -/
theorem leftGrouped_run {op? : Kind → Option BinaryOp} (operators : OperatorsAt op? level)
    (low : level < 6) (plain : level ≠ 2) (groups : level ≠ 3)
    (rereads : RereadsAt (level + 1) bound operand) (e : Expr) (right : e.Grammatical)
    (tight : level ≤ e.level) (short : e.lexemes.length ≤ bound) {c : Cursor} {tail : List Lexeme}
    (before : c.Before (e.lexemes ++ tail)) (stops : Stops (level + 1) (Lexeme.frontKind tail)) :
    ∃ e' c' n, e'.bare = e.bare ∧ c'.Before tail ∧ tail.length ≤ n ∧
      leftGrouped op? operand c = moreOperands op? operand n e' c' := by
  induction e using Expr.induction generalizing c tail with
  | int | string | boolie | ident | paren | call =>
      exact rereads.leftGrouped_tight right (by rw [Expr.level]; omega) short before stops
  | unary p op x =>
      refine rereads.leftGrouped_tight right ?_ short before stops
      rw [Expr.level] at tight ⊢
      cases op <;> simp only [UnaryOp.level] at tight ⊢ <;> omega
  | binary p op x y left _ =>
      by_cases here : op.level = level
      · rw [Expr.Grammatical, BinaryOp.leftLevel, here, if_neg groups] at right
        obtain ⟨tightx, tighty, rightx, righty⟩ := right
        rw [Expr.lexemes, List.append_assoc, List.cons_append] at before
        rw [Expr.lexemes, List.length_append, List.length_cons] at short
        obtain ⟨x', c₁, n, samex, before₁, fuel, run⟩ :=
          left rightx tightx (by omega) before (.operator (by omega))
        obtain ⟨n, rfl⟩ : ∃ k, n = k + 1 :=
          Nat.exists_eq_add_one.mpr (Nat.lt_of_lt_of_le (by simp) fuel)
        obtain ⟨y', c₂, run', samey, before₂⟩ :=
          rereads y righty tighty (by omega) c₁.next tail before₁.next stops
        refine ⟨.binary c₁.front.pos op x' y', c₂, n, ?_, before₂, ?_, ?_⟩
        · rw [Expr.bare, Expr.bare, samex, samey]
        · rw [List.length_cons, List.length_append] at fuel
          omega
        · have found : op? c₁.front.kind = some op :=
            (operators _ _).mpr ⟨before₁.front_kind, here⟩
          rw [run, moreOperands, bind_ok (peek_run c₁), found]
          dsimp only
          rw [bind_ok (advance_run c₁), bind_ok run']
      · refine rereads.leftGrouped_tight right ?_ short before stops
        rw [Expr.level] at tight ⊢
        omega

theorem leftGrouped {op? : Kind → Option BinaryOp} (operators : OperatorsAt op? level)
    (low : level < 6) (plain : level ≠ 2) (groups : level ≠ 3)
    (rereads : RereadsAt (level + 1) bound operand) :
    RereadsAt level bound (leftGrouped op? operand) := by
  intro e right tight short c tail before stops
  obtain ⟨e', c', n, same, before', -, run⟩ := rereads.leftGrouped_run operators low plain groups e
    right tight short before (stops.mono (Nat.le_succ level))
  refine ⟨e', c', ?_, same, before'⟩
  rw [run]
  cases n with
  | zero => rfl
  | succ n =>
      rw [moreOperands, bind_ok (peek_run c'), before'.front_kind, stops.none operators]
      rfl

/-! ## What stands for itself -/

theorem callWith (rereads : RereadsAt 0 bound nested) {pos : Pos} {name : String}
    {args : List Expr} (right : (Expr.call pos name args).Grammatical)
    (short : (Expr.call pos name args).lexemes.length ≤ bound + 1) :
    Rereads (callWith nested) (fun r => (Expr.call r.1 r.2.1 r.2.2).bare) (pos, name, args)
      (Expr.call pos name args).lexemes fun _ => True := by
  intro c tail before _
  rw [Expr.lexemes, Expr.lexemesEach_eq_map] at before short
  rw [Expr.Grammatical, Expr.grammaticalAll_iff] at right
  have items : ∀ a ∈ args, Rereads nested Expr.bare a a.lexemes (Stops 0) := by
    intro a member
    refine rereads a (right.2 a member) (Nat.zero_le _) ?_
    have part := length_le_commaSeparated (List.mem_map.mpr ⟨a, member, rfl⟩ :
      a.lexemes ∈ args.map Expr.lexemes)
    simp only [Lexeme.inParens, List.length_cons, List.length_append] at short
    omega
  have starts : ∀ a ∈ args, ∃ l ls, a.lexemes = l :: ls ∧ l.kind ≠ .punct .rightParen := by
    intro a member
    obtain ⟨l, ls, written, starts, -⟩ := a.exists_lexemes (right.2 a member)
    refine ⟨l, ls, written, fun close => ?_⟩
    rw [close] at starts
    cases starts
  obtain ⟨args', c', run, same, before'⟩ := Rereads.itemList (.sign (.inl rfl))
    (.sign (.inr (.inl rfl))) starts items c.next tail before.next trivial
  refine ⟨(c.front.pos, c.front.text, args'), c', ?_, ?_, before'⟩
  · rw [Parser.callWith, bind_ok (advance_run c), bind_ok run]
    rfl
  · show Expr.bare (.call c.front.pos c.front.text args') = Expr.bare (.call pos name args)
    rw [Expr.bare, Expr.bare, Expr.bareAll_eq_map, Expr.bareAll_eq_map, same, before.text]
    rfl

theorem primary (rereads : RereadsAt 0 bound nested) : RereadsAt 7 (bound + 1) (primary nested) := by
  intro e right tight short c tail before stops
  unfold Parser.primary
  cases e with
  | int p spelling value =>
      rw [Expr.lexemes] at before
      rw [Expr.Grammatical] at right
      have kind : c.front.kind = .intLiteral := before.front_kind
      have text : c.front.text = spelling := before.text
      rw [bind_ok (peek_run c), kind]
      dsimp only
      rw [bind_ok (advance_run c), text, right.2]
      exact ⟨_, _, rfl, by rw [Expr.bare, Expr.bare], before.next⟩
  | string p spelling value =>
      rw [Expr.lexemes] at before
      rw [Expr.Grammatical] at right
      have kind : c.front.kind = .stringLiteral := before.front_kind
      have text : c.front.text = spelling := before.text
      have read : Literal.value spelling = value := by
        rw [Literal.value, right]
        exact String.ofList_toList
      rw [bind_ok (peek_run c), kind]
      dsimp only
      rw [bind_ok (advance_run c), text, read]
      exact ⟨_, _, rfl, by rw [Expr.bare, Expr.bare], before.next⟩
  | boolie p value =>
      rw [Expr.lexemes] at before
      cases value with
      | true =>
          have kind : c.front.kind = .keyword .trueWord := before.front_kind
          rw [bind_ok (peek_run c), kind]
          exact ⟨_, _, rfl, by rw [Expr.bare, Expr.bare], before.next⟩
      | false =>
          have kind : c.front.kind = .keyword .falseWord := before.front_kind
          rw [bind_ok (peek_run c), kind]
          exact ⟨_, _, rfl, by rw [Expr.bare, Expr.bare], before.next⟩
  | ident p name =>
      rw [Expr.lexemes] at before
      have kind : c.front.kind = .identifier := before.front_kind
      have text : c.front.text = name := before.text
      -- what stops the expression is no parenthesis, or the name would be called
      have plain : c.second.kind ≠ .punct .leftParen := by
        rw [before.second_kind]
        exact stops.1
      rw [bind_ok (peek_run c), kind]
      dsimp only
      rw [bind_ok (get_run c), if_neg plain, bind_ok (advance_run c), text]
      exact ⟨_, _, rfl, by rw [Expr.bare, Expr.bare], before.next⟩
  | call p name args =>
      obtain ⟨⟨pos', name', args'⟩, c', run, same, before'⟩ :=
        rereads.callWith right short c tail before trivial
      rw [Expr.lexemes] at before
      have kind : c.front.kind = .identifier := before.front_kind
      have called : c.second.kind = .punct .leftParen := before.second_kind
      rw [bind_ok (peek_run c), kind]
      dsimp only
      rw [bind_ok (get_run c), if_pos called, bind_ok run]
      exact ⟨_, _, rfl, same, before'⟩
  | paren p x =>
      rw [Expr.lexemes, Lexeme.inParens, List.cons_append, List.cons_append, List.append_assoc]
        at before
      rw [Expr.lexemes, Lexeme.inParens, List.length_append, List.length_cons] at short
      rw [Expr.Grammatical] at right
      have kind : c.front.kind = .punct .leftParen := before.front_kind
      obtain ⟨x', c', run, same, before'⟩ := rereads x right (Nat.zero_le _) (by omega) c.next _
        before.next (.sign (.inr (.inl rfl)))
      rw [bind_ok (peek_run c), kind]
      dsimp only
      rw [bind_ok (advance_run c), bind_ok run, bind_ok (sign_of_before before')]
      exact ⟨_, _, rfl, by rw [Expr.bare, Expr.bare, same], before'.next⟩
  -- operations bind too loosely to be read here
  | unary p op x => exact absurd tight (Nat.not_le.mpr op.level_lt)
  | binary p op x y =>
      have loose : op.level < 7 := by cases op <;> decide
      exact absurd tight (Nat.not_le.mpr loose)

theorem sum (rereads : RereadsAt 0 bound nested) : RereadsAt 4 (bound + 1) (sum nested) := by
  refine leftGrouped sumOp?_operatorsAt (by decide) (by decide) (by decide) ?_
  refine leftGrouped productOp?_operatorsAt (by decide) (by decide) (by decide) ?_
  have inner : RereadsAt (UnaryOp.negate.level + 1) (bound + 1) (Parser.primary nested) :=
    rereads.primary
  intro e right tight short c tail before stops
  refine inner.signed e right tight short ?_ c tail before stops
  rw [before.length, List.length_append]
  exact Nat.le_add_right _ _

theorem comparison (rereads : RereadsAt 0 bound nested) :
    RereadsAt 3 (bound + 1) (comparison nested) := by
  intro e right tight short c tail before stops
  unfold Parser.comparison
  by_cases single : 4 ≤ e.level
  · obtain ⟨e', c', run, same, before'⟩ :=
      rereads.sum e right single short c tail before (stops.mono (by decide))
    refine ⟨e', c', ?_, same, before'⟩
    rw [bind_ok run, bind_ok (peek_run c'), before'.front_kind, stops.none comparisonOp?_operatorsAt]
    rfl
  · cases e with
    | binary p op x y =>
        rw [Expr.level] at tight single
        have here : op.level = 3 := by omega
        rw [Expr.Grammatical, BinaryOp.leftLevel, here, if_pos rfl] at right
        obtain ⟨tightx, tighty, rightx, righty⟩ := right
        rw [Expr.lexemes, List.append_assoc, List.cons_append] at before
        rw [Expr.lexemes, List.length_append, List.length_cons] at short
        obtain ⟨x', c₁, run, samex, before₁⟩ := rereads.sum x rightx tightx (by omega) c _ before
          (.operator (by omega))
        obtain ⟨y', c₂, run', samey, before₂⟩ := rereads.sum y righty tighty (by omega) c₁.next tail
          before₁.next (stops.mono (by decide))
        refine ⟨.binary c₁.front.pos op x' y', c₂, ?_, ?_, before₂⟩
        · have found : comparisonOp? c₁.front.kind = some op :=
            (comparisonOp?_operatorsAt _ _).mpr ⟨before₁.front_kind, here⟩
          rw [bind_ok run, bind_ok (peek_run c₁), found]
          dsimp only
          rw [bind_ok (advance_run _), bind_ok run', bind_ok (peek_run c₂), before₂.front_kind,
            stops.none comparisonOp?_operatorsAt]
          rfl
        · rw [Expr.bare, Expr.bare, samex, samey]
    | unary p op x =>
        rw [Expr.level] at tight single
        cases op <;> simp only [UnaryOp.level] at tight single <;> omega
    | int | string | boolie | ident | paren | call =>
        exact absurd (by rw [Expr.level]; decide) single

theorem disjunction (rereads : RereadsAt 0 bound nested) :
    RereadsAt 0 (bound + 1) (disjunction nested) := by
  refine leftGrouped eitherOp?_operatorsAt (by decide) (by decide) (by decide) ?_
  refine leftGrouped andOp?_operatorsAt (by decide) (by decide) (by decide) ?_
  have inner : RereadsAt (UnaryOp.not.level + 1) (bound + 1) (Parser.comparison nested) :=
    rereads.comparison
  intro e right tight short c tail before stops
  refine inner.signed e right tight short ?_ c tail before stops
  rw [before.length, List.length_append]
  exact Nat.le_add_right _ _

theorem expression (n : Nat) : RereadsAt 0 n (expression n) := by
  induction n with
  | zero =>
      intro e right tight short
      obtain ⟨l, ls, written, -⟩ := e.exists_lexemes right
      rw [written] at short
      exact absurd short (Nat.not_succ_le_zero _)
  | succ n ih => exact ih.disjunction

end RereadsAt

/-- A grammatical expression is read back from its words. -/
theorem Rereads.expr {e : Expr} (right : e.Grammatical) :
    Rereads expr Expr.bare e e.lexemes (Stops 0) := by
  intro c tail before stops
  refine RereadsAt.expression _ e right (Nat.zero_le _) ?_ c tail before stops
  rw [before.length, List.length_append]
  exact Nat.le_succ_of_le (Nat.le_add_right _ _)

/-- A call is read back from its words. -/
theorem Rereads.call {pos : Pos} {name : String} {args : List Expr}
    (right : (Expr.call pos name args).Grammatical) :
    Rereads Parser.call (fun r => (Expr.call r.1 r.2.1 r.2.2).bare) (pos, name, args)
      (Expr.call pos name args).lexemes fun _ => True := by
  have nested : RereadsAt 0 (Expr.call pos name args).lexemes.length Parser.expr :=
    fun e right _ _ => Rereads.expr right
  exact nested.callWith right (Nat.le_succ _)

end Parser

end Samo
