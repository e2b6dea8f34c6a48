import Samo.Proofs.Lockstep

/-!
# Bounds, places and earlier reports

Loops and nesting are bounded by the number of tokens that are left. No parser gets to such a bound:
with any other one that is large enough it gives the same result. It does not matter either where
the tokens stand or what was reported before (`Parser.Lockstep.via`). So a statement is the same
statement wherever the text before it ends (`Parser.anyStatement`), and reading it follows the
grammar, which has no bounds (`Parser.anyStatement_eq`, `Parser.expr_eq`).
-/

namespace Samo

namespace Cursor

/-- The same place with other tokens, after other errors. -/
def via (f : Pos → Pos) (move : Token → Token) (es : List SyntaxError) (c : Cursor) : Cursor where
  rest := c.rest.map move
  eof := move c.eof
  errors := es ++ c.errors.map (SyntaxError.mapPos f)

/-- The same place after other errors. -/
def after (es : List SyntaxError) (c : Cursor) : Cursor := { c with errors := es ++ c.errors }

theorem via_id (es : List SyntaxError) (c : Cursor) : c.via id id es = c.after es := by
  have errors : c.errors.map (SyntaxError.mapPos id) = c.errors := List.map_id _
  rw [via, List.map_id, errors]
  rfl

section

variable {f : Pos → Pos} {move : Token → Token} (es : List SyntaxError) (c : Cursor)

theorem front_via : (c.via f move es).front = move c.front := by
  unfold front via
  cases c.rest <;> rfl

theorem second_via : (c.via f move es).second = move c.second := by
  unfold second via
  rcases c.rest with - | ⟨t, - | ⟨u, rest⟩⟩ <;> rfl

theorem length_rest_via : (c.via f move es).rest.length = c.rest.length := List.length_map _

theorem report_via (e : SyntaxError) :
    (c.via f move es).report (e.mapPos f) = (c.report e).via f move es := by
  simp only [report, via, List.map_append, List.map_cons, List.map_nil, List.append_assoc]

variable (moves : ∀ t, ∃ o, move t = t.moved f o)
include moves

theorem look_via : (c.via f move es).look = c.look.via f move es := by
  obtain ⟨o, moved⟩ := moves c.front
  have same : (c.front.moved f o).flaw? = c.front.flaw? := rfl
  unfold look
  rw [front_via, moved, same]
  cases c.front.flaw? with
  | none => rfl
  | some flaw => exact c.report_via es ⟨c.front.pos, .flaw flaw⟩

theorem next_via : (c.via f move es).next = c.next.via f move es := by
  -- behind the last token the cursor stays where it is, else it looks at the next one
  rcases c with ⟨- | ⟨t, rest⟩, eof, errors⟩
  · rfl
  · exact look_via es ⟨rest, eof, errors⟩ moves

theorem skip_via (topLevel : Bool) (n : Nat) :
    (c.via f move es).skip topLevel n = (c.skip topLevel n).via f move es := by
  induction n generalizing c with
  | zero => rfl
  | succ n ih =>
      obtain ⟨o, moved⟩ := moves c.front
      unfold skip
      rw [front_via, moved, Token.kind_moved, next_via es c moves, ih c.next]
      split
      · rfl
      · rfl
      · split <;> rfl
      · rfl

end

/-- Skipping stops before it gets to its bound. -/
theorem skip_bound {c : Cursor} (ends : c.eof.kind = .endOfFile) (topLevel : Bool) {k k' : Nat}
    (enough : c.rest.length ≤ k) (enough' : c.rest.length ≤ k') :
    c.skip topLevel k = c.skip topLevel k' := by
  -- at the end of the text nothing is skipped, whatever the bound is
  have done : ∀ {c : Cursor} (k : Nat), c.eof.kind = .endOfFile → c.rest = [] →
      c.skip topLevel k = c := by
    intro c k ends done
    cases k with
    | zero => rfl
    | succ k =>
        unfold skip
        rw [front_of_nil ends done]
  induction k generalizing c k' with
  | zero =>
      have none := List.length_eq_zero_iff.mp (Nat.le_zero.mp enough)
      rw [done 0 ends none, done k' ends none]
  | succ k ih =>
      cases k' with
      | zero =>
          have none := List.length_eq_zero_iff.mp (Nat.le_zero.mp enough')
          rw [done (k + 1) ends none, done 0 ends none]
      | succ k' =>
          have fewer := c.length_next
          unfold skip
          split
          · rfl
          · rfl
          · rfl
          · exact ih (by rw [eof_next]; exact ends) (by omega) (by omega)

end Cursor

namespace Parser

variable {α β : Type} {n : Nat} {f : Pos → Pos} {g : α → α} {p q : Parser α} {c : Cursor}

/-- The same end of a parser with other tokens, after other errors. -/
def resultVia (f : Pos → Pos) (move : Token → Token) (es : List SyntaxError) (g : α → α) :
    EStateM.Result SyntaxError Cursor α → EStateM.Result SyntaxError Cursor α
  | .ok a c => .ok (g a) (c.via f move es)
  | .error e c => .error (e.mapPos f) (c.via f move es)

/-- Behind a token. -/
theorem advance_via {h : β → β} {k k' : Token → Parser β} {move : Token → Token}
    (moves : ∀ t, ∃ o, move t = t.moved f o) (es : List SyntaxError) {c : Cursor}
    (ends : c.eof.kind = .endOfFile) (short : c.rest.length ≤ n)
    (second : ∀ t o {c : Cursor}, c.eof.kind = .endOfFile → c.rest.length ≤ n - 1 →
      k' (t.moved f o) (c.via f move es) = resultVia f move es h (k t c)) :
    (advance >>= k') (c.via f move es) = resultVia f move es h ((advance >>= k) c) := by
  obtain ⟨o, moved⟩ := moves c.front
  rw [bind_ok (advance_run c), bind_ok (advance_run _), c.front_via, moved, c.next_via es moves]
  exact second c.front o (by rw [Cursor.eof_next]; exact ends)
    (by rw [Cursor.length_next]; exact Nat.sub_le_sub_right short 1)

/-- In lockstep with the same number of tokens, both parsers end in the same way. -/
theorem Lockstep.via (paired : Lockstep f 0 n g p q) {move : Token → Token}
    (moves : ∀ t, ∃ o, move t = t.moved f o) (es : List SyntaxError) {c : Cursor}
    (ends : c.eof.kind = .endOfFile) (short : c.rest.length ≤ n) :
    q (c.via f move es) = resultVia f move es g (p c) := by
  induction paired generalizing c with
  | pure | fail => rfl
  | @bind n α β g h p q k k' first second ihFirst ihSecond =>
      have same := ihFirst ends short
      cases run : p c with
      | error e c₁ =>
          rw [run] at same
          rw [bind_error run, bind_error same]
          rfl
      | ok a c₁ =>
          obtain ⟨ends₁, shorter⟩ := first.stepwise.of_ok ends run
          rw [run] at same
          rw [bind_ok run, bind_ok same]
          exact ihSecond a ends₁ (Nat.le_trans shorter short)
  | peek_bind second ih =>
      obtain ⟨o, moved⟩ := moves c.front
      rw [bind_ok (peek_run c), bind_ok (peek_run _), c.front_via, moved]
      exact ih c.front o ends short
  | advance_less second ih => exact advance_via moves es ends short ih
  | @second_less n β h kind k k' j j' left right ihLeft ihRight =>
      obtain ⟨o, moved⟩ := moves c.second
      rw [bind_ok (get_run c), bind_ok (get_run _), c.second_via, moved, Token.kind_moved]
      split
      · exact advance_via moves es ends short ihLeft
      · exact advance_via moves es ends short ihRight
  | remaining_bind stepwise second ih =>
      rw [bind_ok (remaining_run c), bind_ok (remaining_run _), c.length_rest_via]
      exact ih _ short ends (Nat.le_refl _)
  | remaining_right second ih =>
      rw [bind_ok (remaining_run _), c.length_rest_via]
      exact ih _ short ends (Nat.le_refl _)
  | @recovering n topLevel p q inner ih =>
      have same := ih ends short
      unfold Parser.recovering
      cases run : p c with
      | ok s c₁ =>
          rw [run] at same
          rw [same]
          rfl
      | error e c₁ =>
          -- the same tokens are skipped, since skipping looks at their kinds
          rw [run] at same
          rw [same]
          show EStateM.Result.ok (Stmt.bad (f e.pos) e.fault) (((c₁.via f move es).report
            (e.mapPos f)).skip topLevel (c₁.via f move es).rest.length) = _
          rw [Cursor.report_via, Cursor.skip_via es _ moves, Cursor.length_rest_via, resultVia,
            Stmt.mapPos]
  | @item_less n α β g h stop p q b k k' takes first second ihFirst ihSecond =>
      obtain ⟨o, moved⟩ := moves c.front
      rw [bind_ok (peekKind_run c), bind_ok (peekKind_run _), c.front_via, moved, Token.kind_moved]
      cases goes : stop c.front.kind with
      | true => rfl
      | false =>
          rw [if_neg Bool.false_ne_true, if_neg Bool.false_ne_true]
          have same := ihFirst ends short
          have fewer := takes c ends goes
          cases run : p c with
          | error e c₁ =>
              rw [run] at same
              rw [bind_error run, bind_error same]
              rfl
          | ok a c₁ =>
              rw [run] at same fewer
              rw [bind_ok run, bind_ok same]
              exact ihSecond a (first.stepwise.of_ok ends run).1
                (Nat.le_pred_of_lt (Nat.lt_of_lt_of_le fewer short))
  | done stepwise first second paired ih =>
      have none := List.length_eq_zero_iff.mp (Nat.le_zero.mp short)
      have ends' : (c.via f move es).eof.kind = .endOfFile := by
        obtain ⟨o, moved⟩ := moves c.eof
        show (move c.eof).kind = _
        rw [moved]
        exact ends
      have none' : (c.via f move es).rest = [] := by
        show c.rest.map move = []
        rw [none]
        rfl
      rw [first c ends none, second _ ends' none']
      exact ih ends short
  | mono paired le ih => exact ih ends (Nat.le_trans short le)

/-- The same end of a parser after other errors. -/
def resultAfter (es : List SyntaxError) :
    EStateM.Result SyntaxError Cursor α → EStateM.Result SyntaxError Cursor α
  | .ok a c => .ok a (c.after es)
  | .error e c => .error e (c.after es)

/-- What was reported before does not matter. -/
theorem Lockstep.after (paired : Lockstep id 0 n g p q) (still : ∀ a, g a = a)
    (es : List SyntaxError) {c : Cursor} (ends : c.eof.kind = .endOfFile)
    (short : c.rest.length ≤ n) : q (c.after es) = resultAfter es (p c) := by
  have moves : ∀ t : Token, ∃ o, id t = t.moved id o := fun t => ⟨t.start.offset, rfl⟩
  have same := paired.via moves es ends short
  rw [Cursor.via_id] at same
  rw [same]
  cases p c with
  | ok a c' => rw [resultVia, resultAfter, Cursor.via_id, still]
  | error e c' => rw [resultVia, resultAfter, Cursor.via_id]; rfl

/-- With other bounds the result is the same. -/
theorem Lockstep.eq (paired : Lockstep id 0 n g p q) (still : ∀ a, g a = a) {c : Cursor}
    (ends : c.eof.kind = .endOfFile) (short : c.rest.length ≤ n) : p c = q c := by
  have same := paired.after still [] ends short
  rw [show q c = _ from same]
  cases p c <;> rfl

/-! ## Without bounds -/

theorem sign_pos {p : Punct} (same : c.front.kind = .punct p) : sign p c = .ok c.front c.next := by
  unfold sign expect
  rw [bind_ok (peek_run c), if_pos same, advance_run]

theorem sign_neg {p : Punct} (other : c.front.kind ≠ .punct p) :
    sign p c = .error ⟨c.front.pos, .expected (.punct p) c.front.toLexeme⟩ c := by
  unfold sign expect
  rw [bind_ok (peek_run c), if_neg other]
  rfl

/-- A statement, nested as deep as the tokens allow. -/
def anyStatement : Parser Stmt := do statement ((← remaining) + 1)

theorem Nests.anyStatement {k : Nat} (enough : n ≤ k) :
    Nests f 0 n (Parser.statement k) Parser.anyStatement :=
  ⟨.remaining_right fun _ le => (Nests.statement (Nat.le_trans le enough) (Nat.le_succ _)).paired,
    .statement k⟩

/-- An expression is what the grammar says, whatever is nested in it. -/
theorem expr_eq (ends : c.eof.kind = .endOfFile) : expr c = disjunction expr c := by
  -- one more level changes nothing, and the outermost level is a rule of the grammar
  have deep : Lockstep id 0 c.rest.length (Expr.mapPos id) (expression (c.rest.length + 1)) expr :=
    .remaining_right fun _ le => .expression (Nat.le_succ_of_le le) (Nat.le_succ _)
  calc expr c = expression (c.rest.length + 1) c := rfl
    _ = expression (c.rest.length + 2) c :=
        (Lockstep.expression (Nat.le_succ _) (Nat.le_add_right _ 2)).eq Expr.mapPos_id ends
          (Nat.le_refl _)
    _ = disjunction expr c := deep.disjunction.eq Expr.mapPos_id ends (Nat.le_succ _)

/-- A statement is what the grammar says, whatever is nested in it. -/
theorem anyStatement_eq (ends : c.eof.kind = .endOfFile) :
    anyStatement c = statementWith anyStatement c :=
  calc anyStatement c = statement (c.rest.length + 1) c := rfl
    _ = statement (c.rest.length + 2) c :=
        (Nests.statement (Nat.le_succ _) (Nat.le_add_right _ 2)).paired.eq Stmt.mapPos_id ends
          (Nat.le_refl _)
    _ = statementWith anyStatement c :=
        (Nests.anyStatement (Nat.le_succ _)).statementWith.eq Stmt.mapPos_id ends (Nat.le_succ _)

/-- Statements up to the token that ends a list of them. -/
def anyStatements (topLevel : Bool) : Parser (List Stmt) := do
  itemsUntil (stops topLevel) (recovering topLevel anyStatement) (← remaining)

/-- A list of statements is the same with all bounds that are large enough. -/
theorem statements_bound (ends : c.eof.kind = .endOfFile) (topLevel : Bool) {k m : Nat}
    (enough : c.rest.length ≤ k) (deep : c.rest.length ≤ m) :
    itemsUntil (stops topLevel) (recovering topLevel (statement m)) k c =
      anyStatements topLevel c :=
  ((Nests.anyStatement deep).statements topLevel enough (Nat.le_refl _)).eq
    (List.map_id'' Stmt.mapPos_id) ends (Nat.le_refl _)

theorem program_eq (ends : c.eof.kind = .endOfFile) : program c = anyStatements true c :=
  statements_bound ends true (Nat.le_refl _) (Nat.le_succ _)

/-- What was reported before does not matter to a list of statements. -/
theorem anyStatements_after (ends : c.eof.kind = .endOfFile) (topLevel : Bool)
    (es : List SyntaxError) :
    anyStatements topLevel (c.after es) = resultAfter es (anyStatements topLevel c) := by
  have enough := Nat.le_refl c.rest.length
  rw [← statements_bound ends topLevel enough enough]
  exact ((Nests.anyStatement enough).statements topLevel enough enough).after
    (List.map_id'' Stmt.mapPos_id) es ends enough

/-- A list of statements has ended. -/
theorem anyStatements_stop {topLevel : Bool} (ended : stops topLevel c.front.kind = true) :
    anyStatements topLevel c = .ok [] c := by
  unfold anyStatements
  rw [bind_ok (remaining_run c)]
  cases c.rest.length with
  | zero => rfl
  | succ k =>
      unfold itemsUntil
      rw [bind_ok (peekKind_run c), ended]
      rfl

/-- A list of statements goes on behind its first one. -/
theorem anyStatements_go {topLevel : Bool} {c₁ : Cursor} {s : Stmt}
    (ends : c.eof.kind = .endOfFile) (goes : stops topLevel c.front.kind = false)
    (run : recovering topLevel anyStatement c = .ok s c₁) :
    anyStatements topLevel c = (anyStatements topLevel >>= fun ss => pure (s :: ss)) c₁ := by
  have enough := Nat.le_refl c.rest.length
  have first : recovering topLevel (statement c.rest.length) c = .ok s c₁ := by
    rw [← run]
    exact ((Nests.anyStatement enough).paired.recovering topLevel).eq Stmt.mapPos_id ends enough
  have ends₁ := ((Stepwise.statement _).recovering topLevel).of_ok ends first
  rw [← statements_bound ends topLevel (Nat.le_succ _) enough]
  unfold itemsUntil
  rw [bind_ok (peekKind_run c), goes, if_neg Bool.false_ne_true, bind_ok first]
  -- both sides put the statement before the ones behind it
  show EStateM.bind _ _ c₁ = EStateM.bind _ _ c₁
  unfold EStateM.bind
  rw [statements_bound ends₁.1 topLevel ends₁.2 ends₁.2]

/-- A block is a list of statements between braces. -/
theorem block_run (ends : c.eof.kind = .endOfFile) (opens : c.front.kind = .punct .leftBrace)
    {k : Nat} (enough : c.rest.length ≤ k) : block (statement k) c =
      (anyStatements false >>= fun stmts => sign .rightBrace >>= fun closing =>
        pure (Block.mk c.front.pos closing.pos stmts)) c.next := by
  rw [(Nests.anyStatement enough).block.eq Block.mapPos_id ends (Nat.le_succ _)]
  unfold block
  rw [bind_ok (sign_pos opens)]
  rfl

end Parser

end Samo
