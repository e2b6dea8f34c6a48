import Samo.Proofs.MapPos
import Samo.Proofs.Stepwise

/-!
# Parsers in lockstep

A parser copies positions from tokens into trees and never looks at one, and its loops and its
nesting are bounded by the number of tokens that are left. `Parser.Lockstep` relates two parsers
that are put together from the same steps. The second one reads the same words at other positions,
and it has other bounds: `n` is how many tokens may be left for the first one, and `grow` is how
many more there are for the second one. No parser gets to such a bound, so each one is in lockstep
with itself under any bounds that are large enough (`Parser.Nests.statement`).
-/

namespace Samo

/-- A token at another place. -/
def Token.moved (f : Pos → Pos) (offset : Nat) (t : Token) : Token :=
  { t with start := ⟨offset, f t.pos⟩ }

theorem Token.kind_moved (f : Pos → Pos) (o : Nat) (t : Token) : (t.moved f o).kind = t.kind := rfl

theorem Token.text_moved (f : Pos → Pos) (o : Nat) (t : Token) : (t.moved f o).text = t.text := rfl

theorem Token.mapPos_moved (f : Pos → Pos) (t : Token) : ∃ o, t.mapPos f = t.moved f o :=
  ⟨0, rfl⟩

namespace Parser

/-- Two parsers that take the same steps. The map says how the positions in a result move. -/
inductive Lockstep (f : Pos → Pos) (grow : Nat) :
    Nat → {α : Type} → (α → α) → Parser α → Parser α → Prop
  | pure {n : Nat} {α : Type} {g : α → α} (a : α) : Lockstep f grow n g (pure a) (pure (g a))
  | fail {n : Nat} {α : Type} {g : α → α} (t : Token) (o : Nat) {fault : Fault}
      (grammar : fault.isFlaw = false) :
      Lockstep f grow n g (fail t fault) (fail (t.moved f o) fault)
  | bind {n : Nat} {α β : Type} {g : α → α} {h : β → β} {p q : Parser α} {k k' : α → Parser β}
      (first : Lockstep f grow n g p q) (second : ∀ a, Lockstep f grow n h (k a) (k' (g a))) :
      Lockstep f grow n h (p >>= k) (q >>= k')
  | peek_bind {n : Nat} {β : Type} {h : β → β} {k k' : Token → Parser β}
      (second : ∀ t o, Lockstep f grow n h (k t) (k' (t.moved f o))) :
      Lockstep f grow n h (peek >>= k) (peek >>= k')
  /-- Behind a token there is one less. -/
  | advance_less {n : Nat} {β : Type} {h : β → β} {k k' : Token → Parser β}
      (second : ∀ t o, Lockstep f grow (n - 1) h (k t) (k' (t.moved f o))) :
      Lockstep f grow n h (advance >>= k) (advance >>= k')
  /-- Both ways to go on after a look at the second token take the first one. -/
  | second_less {n : Nat} {β : Type} {h : β → β} {kind : Kind} {k k' j j' : Token → Parser β}
      (left : ∀ t o, Lockstep f grow (n - 1) h (k t) (k' (t.moved f o)))
      (right : ∀ t o, Lockstep f grow (n - 1) h (j t) (j' (t.moved f o))) :
      Lockstep f grow n h
        (get >>= fun c : Cursor => if c.second.kind = kind then advance >>= k else advance >>= j)
        (get >>= fun c : Cursor => if c.second.kind = kind then advance >>= k' else advance >>= j')
  /-- How many tokens are left is used as a bound. -/
  | remaining_bind {n : Nat} {β : Type} {h : β → β} {k k' : Nat → Parser β}
      (stepwise : ∀ m, Stepwise (k m))
      (second : ∀ m ≤ n, Lockstep f grow m h (k m) (k' (m + grow))) :
      Lockstep f grow n h (remaining >>= k) (remaining >>= k')
  | remaining_right {n : Nat} {β : Type} {h : β → β} {p : Parser β} {k' : Nat → Parser β}
      (second : ∀ m ≤ n, Lockstep f grow m h p (k' (m + grow))) :
      Lockstep f grow n h p (remaining >>= k')
  | recovering {n : Nat} (topLevel : Bool) {p q : Parser Stmt}
      (inner : Lockstep f grow n (Stmt.mapPos f) p q) :
      Lockstep f grow n (Stmt.mapPos f) (recovering topLevel p) (recovering topLevel q)
  /-- Behind an item that takes a token there is one less. -/
  | item_less {n : Nat} {α β : Type} {g : α → α} {h : β → β} {stop : Kind → Bool} {p q : Parser α}
      {b : β} {k k' : α → Parser β}
      (takes : ∀ c : Cursor, c.eof.kind = .endOfFile → stop c.front.kind = false →
        (ending (p c)).rest.length < c.rest.length)
      (first : Lockstep f grow n g p q) (second : ∀ a, Lockstep f grow (n - 1) h (k a) (k' (g a))) :
      Lockstep f grow n h (peekKind >>= fun kind => if stop kind then Pure.pure b else p >>= k)
        (peekKind >>= fun kind => if stop kind then Pure.pure (h b) else q >>= k')
  /-- At the end of a text two parsers do what two others do there. -/
  | done {α : Type} {g : α → α} {p q r r' : Parser α} (stepwise : Stepwise p)
      (first : ∀ c, c.eof.kind = .endOfFile → c.rest = [] → p c = r c)
      (second : ∀ c, c.eof.kind = .endOfFile → c.rest = [] → q c = r' c)
      (paired : Lockstep f grow 0 g r r') : Lockstep f grow 0 g p q
  | mono {n m : Nat} {α : Type} {g : α → α} {p q : Parser α} (paired : Lockstep f grow n g p q)
      (le : m ≤ n) : Lockstep f grow m g p q

variable {α β : Type} {f : Pos → Pos} {grow n : Nat} {g : α → α} {h : β → β}

namespace Lockstep

theorem stepwise {p q : Parser α} (paired : Lockstep f grow n g p q) : Stepwise p := by
  induction paired with
  | pure a => exact .pure a
  | fail t o grammar => exact .fail t grammar
  | bind first second ihFirst ihSecond => exact ihFirst.bind ihSecond
  | peek_bind second ih => exact Stepwise.peek.bind fun t => ih t 0
  | advance_less second ih => exact Stepwise.advance.bind fun t => ih t 0
  | second_less left right ihLeft ihRight =>
      refine Stepwise.get.bind fun c => .ite ?_ ?_
      · exact Stepwise.advance.bind fun t => ihLeft t 0
      · exact Stepwise.advance.bind fun t => ihRight t 0
  | remaining_bind stepwise second ih => exact Stepwise.remaining.bind stepwise
  | remaining_right second ih => exact ih 0 (Nat.zero_le _)
  | recovering topLevel inner ih => exact ih.recovering topLevel
  | item_less takes first second ihFirst ihSecond =>
      exact Stepwise.peekKind.bind fun kind => .ite (.pure _) (ihFirst.bind ihSecond)
  | done stepwise first second paired ih => exact stepwise
  | mono paired le ih => exact ih

theorem ite {x : Prop} [Decidable x] {p p' q q' : Parser α} (left : Lockstep f grow n g p q)
    (right : Lockstep f grow n g p' q') :
    Lockstep f grow n g (if x then p else p') (if x then q else q') := by
  split
  · exact left
  · exact right

theorem map {p q : Parser α} {k k' : α → β} (first : Lockstep f grow n g p q)
    (same : ∀ a, k' (g a) = h (k a)) : Lockstep f grow n h (k <$> p) (k' <$> q) := by
  rw [← bind_pure_comp, ← bind_pure_comp]
  refine first.bind fun a => ?_
  rw [same]
  exact .pure (k a)

theorem peekKind_bind {k k' : Kind → Parser β}
    (second : ∀ kind, Lockstep f grow n h (k kind) (k' kind)) :
    Lockstep f grow n h (peekKind >>= k) (peekKind >>= k') := by
  have looks : ∀ k : Kind → Parser β, (peekKind >>= k) = peek >>= fun t => k t.kind := fun _ => rfl
  rw [looks, looks]
  exact peek_bind fun t _ => second t.kind

theorem accept_less {kind : Kind} {k k' : Option Token → Parser β}
    (without : Lockstep f grow n h (k none) (k' none))
    (taken : ∀ t o, Lockstep f grow (n - 1) h (k (some t)) (k' (some (t.moved f o)))) :
    Lockstep f grow n h (accept kind >>= k) (accept kind >>= k') := by
  rw [accept_bind, accept_bind]
  exact peek_bind fun t o => .ite (advance_less taken) without

theorem expect_less {kind : Kind} {k k' : Token → Parser β}
    (second : ∀ t o, Lockstep f grow (n - 1) h (k t) (k' (t.moved f o))) :
    Lockstep f grow n h (expect kind >>= k) (expect kind >>= k') := by
  rw [expect_bind, expect_bind]
  exact peek_bind fun t o => .ite (advance_less second) (.fail t o rfl)

section

variable {k k' : Token → Parser β} (second : ∀ t o, Lockstep f grow n h (k t) (k' (t.moved f o)))
include second

theorem advance_bind : Lockstep f grow n h (advance >>= k) (advance >>= k') :=
  advance_less fun t o => (second t o).mono (Nat.sub_le n 1)

theorem expect_bind {kind : Kind} : Lockstep f grow n h (expect kind >>= k) (expect kind >>= k') :=
  expect_less fun t o => (second t o).mono (Nat.sub_le n 1)

theorem sign_bind {p : Punct} : Lockstep f grow n h (sign p >>= k) (sign p >>= k') :=
  expect_bind second

end

theorem accept_bind {kind : Kind} {k k' : Option Token → Parser β}
    (without : Lockstep f grow n h (k none) (k' none))
    (taken : ∀ t o, Lockstep f grow n h (k (some t)) (k' (some (t.moved f o)))) :
    Lockstep f grow n h (accept kind >>= k) (accept kind >>= k') :=
  accept_less without fun t o => (taken t o).mono (Nat.sub_le n 1)

end Lockstep

/--
Induction on the number of tokens left, with two bounds that are both large enough. At the end of a
text they can be anything.
-/
theorem bounds_induction {motive : (n k k' : Nat) → n ≤ k → n + grow ≤ k' → Prop}
    (zero : ∀ k k' enough enough', motive 0 k k' enough enough')
    (succ : ∀ n k k' (enough : n ≤ k) (enough' : n + grow ≤ k'), motive n k k' enough enough' →
      motive (n + 1) (k + 1) (k' + 1) (by omega) (by omega))
    (n k k' : Nat) (enough : n ≤ k) (enough' : n + grow ≤ k') : motive n k k' enough enough' := by
  induction n generalizing k k' with
  | zero => exact zero k k' enough enough'
  | succ n ih =>
      obtain ⟨k, rfl⟩ : ∃ m, k = m + 1 := ⟨k - 1, by omega⟩
      obtain ⟨k', rfl⟩ : ∃ m, k' = m + 1 := ⟨k' - 1, by omega⟩
      exact succ n k k' (by omega) (by omega) (ih k k' (by omega) (by omega))

/-! ## Expressions -/

theorem callWith_bind (nested : Parser Expr) (k : Pos × String × List Expr → Parser β) :
    (callWith nested >>= k) = advance >>= fun name => itemList nested >>= fun args =>
      k (name.pos, name.text, args) := by
  simp only [callWith, bind_assoc, pure_bind]

section

variable {c : Cursor} (ends : c.eof.kind = .endOfFile) (done : c.rest = [])
include ends done

/-- At the end of a text there are no more items. -/
theorem moreItems_done (item : Parser α) (k : Nat) : moreItems item k c = .ok [] c := by
  cases k with
  | zero => rfl
  | succ k =>
      unfold moreItems
      rw [bind_ok (accept_neg (by rw [Cursor.front_of_nil ends done]; exact Kind.noConfusion))]
      rfl

/-- At the end of a text there is no sign before an operand. -/
theorem signed_done {mark : Kind} (real : mark ≠ .endOfFile) (op : UnaryOp) (operand : Parser Expr)
    (k : Nat) : signed mark op operand k c = operand c := by
  cases k with
  | zero => rfl
  | succ k =>
      unfold signed
      rw [bind_ok (accept_neg (by rw [Cursor.front_of_nil ends done]; exact real.symm))]

/-- At the end of a text there are no more operands. -/
theorem moreOperands_done {op? : Kind → Option BinaryOp} (real : op? .endOfFile = none)
    (operand : Parser Expr) (k : Nat) (x : Expr) :
    moreOperands op? operand k x c = .ok x c := by
  cases k with
  | zero => rfl
  | succ k =>
      unfold moreOperands
      rw [bind_ok (peek_run c), Cursor.front_of_nil ends done, real]
      rfl

/-- At the end of a text there is no expression. -/
theorem expression_done (k : Nat) : expression k c = expression 0 c := by
  cases k with
  | zero => rfl
  | succ k =>
      -- no level takes a token, so each of them fails as the innermost one does
      let Fails (p : Parser Expr) : Prop := p c = expression 0 c
      have signless : ∀ (mark : Kind) (op : UnaryOp) (operand : Parser Expr),
          mark ≠ .endOfFile → Fails operand →
          Fails (remaining >>= fun k => signed mark op operand k) := by
        intro mark op operand real fails
        exact (bind_ok (remaining_run c)).trans
          ((signed_done ends done real op operand _).trans fails)
      have tight : Fails (primary (expression k)) := by
        show primary (expression k) c = _
        unfold primary
        rw [bind_ok (peek_run c), Cursor.front_of_nil ends done]
        rfl
      have sums : Fails (sum (expression k)) :=
        bind_error (bind_error (signless _ .negate _ Kind.noConfusion tight))
      have comparisons : Fails (comparison (expression k)) := bind_error sums
      exact bind_error (bind_error (signless _ .not _ Kind.noConfusion comparisons))

end

namespace Lockstep

variable {item item' : Parser α}

theorem moreItems (paired : Lockstep f grow n g item item') {k k' : Nat} (enough : n ≤ k)
    (enough' : n + grow ≤ k') :
    Lockstep f grow n (List.map g) (moreItems item k) (moreItems item' k') := by
  induction n, k, k', enough, enough' using bounds_induction with
  | zero k k' =>
      exact .done (paired.stepwise.moreItems k) (fun c ends done => moreItems_done ends done _ _)
        (fun c ends done => moreItems_done ends done _ _) (.pure [])
  | succ n k k' enough enough' ih =>
      have paired := paired.mono (Nat.le_succ n)
      refine accept_less (.pure []) fun t o => paired.bind fun a => ?_
      exact (ih paired).bind fun as => .pure (a :: as)

theorem itemList (paired : Lockstep f grow n g item item') :
    Lockstep f grow n (List.map g) (itemList item) (itemList item') := by
  refine sign_bind fun _ _ => peekKind_bind fun kind => .ite ?_ ?_
  · exact sign_bind fun _ _ => .pure []
  · refine paired.bind fun a => remaining_bind (fun k => ?_) fun k le => ?_
    · exact (paired.stepwise.moreItems k).bind fun as => (Stepwise.sign _).bind fun _ => .pure _
    · exact (moreItems (paired.mono le) (Nat.le_refl _) (Nat.le_refl _)).bind fun as =>
        sign_bind fun _ _ => .pure (a :: as)

variable {operand operand' nested nested' : Parser Expr}

theorem signed {mark : Kind} (real : mark ≠ .endOfFile) (op : UnaryOp)
    (paired : Lockstep f grow n (Expr.mapPos f) operand operand') {k k' : Nat} (enough : n ≤ k)
    (enough' : n + grow ≤ k') :
    Lockstep f grow n (Expr.mapPos f) (signed mark op operand k) (signed mark op operand' k') := by
  induction n, k, k', enough, enough' using bounds_induction with
  | zero k k' =>
      exact .done (paired.stepwise.signed mark op k)
        (fun c ends done => signed_done ends done real op operand k)
        (fun c ends done => signed_done ends done real op operand' k') paired
  | succ n k k' enough enough' ih =>
      refine accept_less paired fun t o => ?_
      exact (ih (paired.mono (Nat.le_succ n))).bind fun x => .pure (Expr.unary t.pos op x)

/-- Signs before an operand, as many as there are tokens. -/
theorem anySigned {mark : Kind} (real : mark ≠ .endOfFile) (op : UnaryOp)
    (paired : Lockstep f grow n (Expr.mapPos f) operand operand') :
    Lockstep f grow n (Expr.mapPos f) (remaining >>= fun k => Parser.signed mark op operand k)
      (remaining >>= fun k => Parser.signed mark op operand' k) :=
  remaining_bind (paired.stepwise.signed mark op) fun _ le =>
    signed real op (paired.mono le) (Nat.le_refl _) (Nat.le_refl _)

theorem moreOperands {op? : Kind → Option BinaryOp} (real : op? .endOfFile = none)
    (paired : Lockstep f grow n (Expr.mapPos f) operand operand') {k k' : Nat} (enough : n ≤ k)
    (enough' : n + grow ≤ k') (x : Expr) :
    Lockstep f grow n (Expr.mapPos f) (moreOperands op? operand k x)
      (moreOperands op? operand' k' (x.mapPos f)) := by
  induction n, k, k', enough, enough' using bounds_induction generalizing x with
  | zero k k' =>
      exact .done (paired.stepwise.moreOperands op? k x)
        (fun c ends done => moreOperands_done ends done real _ _ x)
        (fun c ends done => moreOperands_done ends done real _ _ _) (.pure x)
  | succ n k k' enough enough' ih =>
      refine peek_bind fun t o => ?_
      rw [t.kind_moved]
      cases op? t.kind with
      | none => exact .pure x
      | some op =>
          have paired := paired.mono (Nat.le_succ n)
          exact advance_less fun _ _ => paired.bind fun y => ih paired (.binary t.pos op x y)

theorem leftGrouped {op? : Kind → Option BinaryOp} (real : op? .endOfFile = none)
    (paired : Lockstep f grow n (Expr.mapPos f) operand operand') :
    Lockstep f grow n (Expr.mapPos f) (leftGrouped op? operand) (leftGrouped op? operand') :=
  paired.bind fun x => remaining_bind (fun k => paired.stepwise.moreOperands op? k x) fun _ le =>
    moreOperands real (paired.mono le) (Nat.le_refl _) (Nat.le_refl _) x

section

variable (paired : Lockstep f grow n (Expr.mapPos f) nested nested')
include paired

theorem primary : Lockstep f grow (n + 1) (Expr.mapPos f) (primary nested) (primary nested') := by
  refine peek_bind fun t o => ?_
  rw [t.kind_moved]
  split
  · refine advance_bind fun _ _ => ?_
    rw [t.text_moved]
    cases Literal.int? t.text with
    | none => exact .fail t o rfl
    | some n => exact .pure (Expr.int t.pos t.text n)
  · exact advance_bind fun _ _ => .pure (Expr.string t.pos t.text (Literal.value t.text))
  · exact advance_bind fun _ _ => .pure (Expr.boolie t.pos true)
  · exact advance_bind fun _ _ => .pure (Expr.boolie t.pos false)
  · rw [callWith_bind, callWith_bind]
    refine second_less (fun name o => paired.itemList.bind fun args => ?_) fun _ _ => ?_
    · have same : (Expr.call name.pos name.text args).mapPos f =
          .call (f name.pos) name.text (args.map (Expr.mapPos f)) := by
        rw [Expr.mapPos, Expr.mapPosAll_eq_map]
      show Lockstep f grow n (Expr.mapPos f) _ (Pure.pure
        (Expr.call (f name.pos) name.text (args.map (Expr.mapPos f))))
      rw [← same]
      exact .pure _
    · exact .pure (Expr.ident t.pos t.text)
  · exact advance_less fun _ _ => paired.bind fun x => sign_bind fun _ _ =>
      .pure (Expr.paren t.pos x)
  · exact .fail t o rfl

theorem factor : Lockstep f grow (n + 1) (Expr.mapPos f) (factor nested) (factor nested') :=
  anySigned Kind.noConfusion _ paired.primary

theorem product : Lockstep f grow (n + 1) (Expr.mapPos f) (product nested) (product nested') :=
  leftGrouped rfl paired.factor

theorem sum : Lockstep f grow (n + 1) (Expr.mapPos f) (sum nested) (sum nested') :=
  leftGrouped rfl paired.product

theorem comparison :
    Lockstep f grow (n + 1) (Expr.mapPos f) (comparison nested) (comparison nested') := by
  refine paired.sum.bind fun x => peek_bind fun t o => ?_
  rw [t.kind_moved]
  cases comparisonOp? t.kind with
  | none => exact .pure x
  | some op =>
      refine advance_bind fun _ _ => paired.sum.bind fun y => peek_bind fun u o => ?_
      rw [u.kind_moved]
      cases comparisonOp? u.kind with
      | none => exact .pure (Expr.binary t.pos op x y)
      | some op' => exact .fail u o rfl

theorem negation : Lockstep f grow (n + 1) (Expr.mapPos f) (negation nested) (negation nested') :=
  anySigned Kind.noConfusion _ paired.comparison

theorem conjunction :
    Lockstep f grow (n + 1) (Expr.mapPos f) (conjunction nested) (conjunction nested') :=
  leftGrouped rfl paired.negation

theorem disjunction :
    Lockstep f grow (n + 1) (Expr.mapPos f) (disjunction nested) (disjunction nested') :=
  leftGrouped rfl paired.conjunction

end

/-- Parentheses cannot be nested deeper than there are tokens. -/
theorem expression {k k' : Nat} (enough : n ≤ k) (enough' : n + grow ≤ k') :
    Lockstep f grow n (Expr.mapPos f) (expression k) (expression k') := by
  induction n, k, k', enough, enough' using bounds_induction with
  | zero k k' =>
      exact .done (.expression k) (fun c ends done => expression_done ends done k)
        (fun c ends done => expression_done ends done k') (peek_bind fun t o => .fail t o rfl)
  | succ n k k' enough enough' ih => exact ih.disjunction

theorem expr : Lockstep f grow n (Expr.mapPos f) expr expr :=
  remaining_bind (fun k => .expression (k + 1)) fun k _ =>
    expression (Nat.le_succ k) (Nat.le_succ _)

theorem condition : Lockstep f grow n (Expr.mapPos f) condition condition :=
  sign_bind fun _ _ => expr.bind fun e => sign_bind fun _ _ => .pure e

/-! ## Statements -/

theorem parameter : Lockstep f grow n (Param.mapPos f) parameter parameter := by
  refine peek_bind fun word o => ?_
  rw [word.kind_moved]
  cases typeName? word.kind with
  | none => exact .fail word o rfl
  | some type =>
      exact advance_bind fun _ _ => expect_bind fun name _ =>
        .pure (Param.mk word.pos type name.pos name.text)

theorem resultType :
    Lockstep f grow n (Option.map fun r => (f r.1, r.2)) resultType resultType := by
  refine peek_bind fun word o => ?_
  rw [word.kind_moved]
  cases typeName? word.kind with
  | none => exact .pure none
  | some type => exact advance_bind fun _ _ => .pure (some (word.pos, type))

theorem declaration (type : TypeName) :
    Lockstep f grow n (Stmt.mapPos f) (declaration type) (declaration type) := by
  refine advance_bind fun word _ => expect_bind fun name _ => ?_
  -- with a value or without, the statement ends in the same way
  have last : ∀ init : Option Expr, Lockstep f grow n (Stmt.mapPos f)
      (do
        let _ ← sign .semicolon
        return Stmt.declare word.pos type name.pos name.text init)
      (do
        let _ ← sign .semicolon
        return Stmt.declare (f word.pos) type (f name.pos) name.text (init.map (Expr.mapPos f))) :=
    fun init => sign_bind fun _ _ => .pure (Stmt.declare word.pos type name.pos name.text init)
  refine accept_bind ?_ fun _ _ => ?_
  · exact bind (g := Option.map (Expr.mapPos f)) (.pure none) last
  · exact bind (g := Option.map (Expr.mapPos f)) (expr.map fun e => rfl) last

theorem inference : Lockstep f grow n (Stmt.mapPos f) inference inference :=
  advance_bind fun word _ => expect_bind fun name _ => sign_bind fun _ _ => expr.bind fun init =>
    sign_bind fun _ _ => .pure (Stmt.infer word.pos name.pos name.text init)

theorem callStatement_eq : callStatement = advance >>= fun name => do
    let args ← Parser.itemList Parser.expr
    let _ ← sign .semicolon
    return .call name.pos name.text args := by
  simp only [callStatement, call, callWith, bind_assoc, pure_bind]

/-- A call or an assignment. -/
theorem callOrAssignment : Lockstep f grow n (Stmt.mapPos f)
    (do if (← get).second.kind = .punct .leftParen then callStatement else assignment)
    (do if (← get).second.kind = .punct .leftParen then callStatement else assignment) := by
  rw [callStatement_eq]
  refine second_less (fun name _ => ?_) fun name _ => ?_
  · exact (itemList expr).bind fun args => sign_bind fun _ _ =>
      .pure (Stmt.call name.pos name.text args)
  · exact sign_bind fun _ _ => expr.bind fun value => sign_bind fun _ _ =>
      .pure (Stmt.assign name.pos name.text value)

theorem returning : Lockstep f grow n (Stmt.mapPos f) returning returning := by
  refine advance_bind fun word _ => peekKind_bind fun kind => ?_
  have last : ∀ value : Option Expr, Lockstep f grow n (Stmt.mapPos f)
      (do
        let _ ← sign .semicolon
        return Stmt.returnWith word.pos value)
      (do
        let _ ← sign .semicolon
        return Stmt.returnWith (f word.pos) (value.map (Expr.mapPos f))) :=
    fun value => sign_bind fun _ _ => .pure (Stmt.returnWith word.pos value)
  dsimp only
  split
  · exact bind (g := Option.map (Expr.mapPos f)) (.pure none) last
  · exact bind (g := Option.map (Expr.mapPos f)) (expr.map fun e => rfl) last

theorem request : Lockstep f grow n (Stmt.mapPos f) request request :=
  advance_bind fun word _ => expect_bind fun path _ => sign_bind fun _ _ =>
    .pure (Stmt.needs word.pos path.text (Literal.value path.text))

theorem jump (s : Stmt) : Lockstep f grow n (Stmt.mapPos f)
    (do let _ ← advance; let _ ← sign .semicolon; return s)
    (do let _ ← advance; let _ ← sign .semicolon; return s.mapPos f) :=
  advance_bind fun _ _ => sign_bind fun _ _ => .pure s

end Lockstep

/-- At the end of a text there is no statement. -/
theorem statement_done {c : Cursor} (ends : c.eof.kind = .endOfFile) (done : c.rest = [])
    (k : Nat) : statement k c = statement 0 c := by
  cases k with
  | zero => rfl
  | succ k =>
      show statementWith (statement k) c = _
      unfold statementWith
      rw [bind_ok (peek_run c), Cursor.front_of_nil ends done]
      rfl

/-- What ends a list of statements: the end of the text and, in a block, a closing brace. -/
def stops : Bool → Kind → Bool
  | true, kind => kind = .endOfFile
  | false, kind => kind = .punct .rightBrace || kind = .endOfFile

theorem stops_eq_false {topLevel : Bool} {kind : Kind} (goes : stops topLevel kind = false) :
    kind ≠ .endOfFile ∧ (topLevel = false → kind ≠ .punct .rightBrace) := by
  cases topLevel with
  | true =>
      refine ⟨of_decide_eq_false goes, fun inside => ?_⟩
      cases inside
  | false =>
      obtain ⟨inside, some⟩ := Bool.or_eq_false_iff.mp goes
      exact ⟨of_decide_eq_false some, fun _ => of_decide_eq_false inside⟩

/-- At the end of a text there are no more statements. -/
theorem statements_done {c : Cursor} (ends : c.eof.kind = .endOfFile) (done : c.rest = [])
    (topLevel : Bool) (item : Parser Stmt) (k : Nat) :
    itemsUntil (stops topLevel) item k c = .ok [] c := by
  cases k with
  | zero => rfl
  | succ k =>
      unfold itemsUntil
      rw [bind_ok (peekKind_run c), Cursor.front_of_nil ends done]
      cases topLevel <;> rfl

/-- At the end of a text there are no more arms. -/
theorem branches_done {c : Cursor} (ends : c.eof.kind = .endOfFile) (done : c.rest = [])
    (nested : Parser Stmt) (k : Nat) : branches nested k c = .ok .done c := by
  cases k with
  | zero => rfl
  | succ k =>
      unfold branches
      rw [bind_ok (accept_neg (by rw [Cursor.front_of_nil ends done]; exact Kind.noConfusion))]
      rfl

/-- A block up to its closing brace. -/
def opened (nested : Parser Stmt) : Parser (Pos × List Stmt) := do
  let opening ← sign .leftBrace
  let stmts ← itemsUntil (stops false) (recovering false nested) (← remaining)
  return (opening.pos, stmts)

theorem block_eq (nested : Parser Stmt) : block nested = (do
    let (start, stmts) ← opened nested
    let closing ← sign .rightBrace
    return .mk start closing.pos stmts) := by
  simp only [block, opened, bind_assoc, pure_bind]
  rfl

/-- What is known of the parsers of the statements in a statement. -/
structure Nests (f : Pos → Pos) (grow n : Nat) (p q : Parser Stmt) : Prop where
  paired : Lockstep f grow n (Stmt.mapPos f) p q
  leads : Leads p

namespace Nests

variable {nested nested' : Parser Stmt}

theorem mono {m : Nat} (nests : Nests f grow n nested nested') (le : m ≤ n) :
    Nests f grow m nested nested' :=
  ⟨nests.paired.mono le, nests.leads⟩

variable (nests : Nests f grow n nested nested')
include nests

/-- A list of statements. Each one takes a token, so there are not more of them than tokens. -/
theorem statements (topLevel : Bool) {k k' : Nat} (enough : n ≤ k) (enough' : n + grow ≤ k') :
    Lockstep f grow n (List.map (Stmt.mapPos f))
      (itemsUntil (stops topLevel) (recovering topLevel nested) k)
      (itemsUntil (stops topLevel) (recovering topLevel nested') k') := by
  induction n, k, k', enough, enough' using bounds_induction with
  | zero k k' =>
      exact .done ((nests.leads.stepwise.recovering topLevel).itemsUntil _ k)
        (fun c ends done => statements_done ends done topLevel _ k)
        (fun c ends done => statements_done ends done topLevel _ k') (.pure [])
  | succ n k k' enough enough' ih =>
      refine .item_less (fun c ends goes => ?_) (nests.paired.recovering topLevel) fun s => ?_
      · obtain ⟨some, inside⟩ := stops_eq_false goes
        exact nests.leads.length_recovering topLevel ends some inside
      · exact (ih (nests.mono (Nat.le_succ n))).bind fun ss => .pure (s :: ss)

/-- A block up to its closing brace. -/
theorem opened : Lockstep f grow (n + 1) (Prod.map f (List.map (Stmt.mapPos f))) (opened nested)
    (opened nested') := by
  refine .expect_less fun opening _ => .remaining_bind (fun k => ?_) fun k le => ?_
  · exact ((nests.leads.stepwise.recovering false).itemsUntil _ k).bind fun stmts => .pure _
  · exact ((nests.mono le).statements false (Nat.le_refl k) (Nat.le_refl _)).bind fun stmts =>
      .pure (opening.pos, stmts)

theorem block : Lockstep f grow (n + 1) (Block.mapPos f) (block nested) (block nested') := by
  rw [block_eq, block_eq]
  refine nests.opened.bind fun (start, stmts) => .sign_bind fun closing _ => ?_
  have same : (Block.mk start closing.pos stmts).mapPos f =
      .mk (f start) (f closing.pos) (stmts.map (Stmt.mapPos f)) := by
    rw [Block.mapPos, Stmt.mapPosAll_eq_map]
  show Lockstep f grow (n + 1) (Block.mapPos f) _ (Pure.pure
    (Block.mk (f start) (f closing.pos) (stmts.map (Stmt.mapPos f))))
  rw [← same]
  exact .pure _

theorem definition :
    Lockstep f grow (n + 1) (Stmt.mapPos f) (definition nested) (definition nested') :=
  .advance_bind fun word _ => .expect_bind fun name _ =>
    (Lockstep.itemList .parameter).bind fun params =>
    Lockstep.resultType.bind fun returns => nests.block.bind fun body =>
      .pure (Stmt.define word.pos ⟨name.pos, name.text, params, returns⟩ body)

theorem looping : Lockstep f grow (n + 1) (Stmt.mapPos f) (looping nested) (looping nested') :=
  .advance_bind fun word _ => Lockstep.condition.bind fun cond => nests.block.bind fun body =>
    .pure (Stmt.loop word.pos cond body)

theorem uncertainty :
    Lockstep f grow (n + 1) (Stmt.mapPos f) (uncertainty nested) (uncertainty nested') := by
  refine .advance_less fun word _ => Lockstep.condition.bind fun probability => ?_
  refine nests.paired.bind fun body => .accept_bind ?_ fun t _ => ?_
  · exact .pure (Stmt.maybe word.pos probability body)
  · exact nests.paired.bind fun alternative =>
      .pure (Stmt.maybeOtherwise word.pos probability body t.pos alternative)

/-- What follows an arm of an if statement. -/
theorem branches {k k' : Nat} (enough : n ≤ k) (enough' : n + grow ≤ k') :
    Lockstep f grow n (Branches.mapPos f) (branches nested k) (branches nested' k') := by
  induction n, k, k', enough, enough' using bounds_induction with
  | zero k k' =>
      exact .done (.branches nests.leads.stepwise k)
        (fun c ends done => branches_done ends done nested k)
        (fun c ends done => branches_done ends done nested' k') (.pure Branches.done)
  | succ n k k' enough enough' ih =>
      have nests := nests.mono (Nat.le_succ n)
      have arm := nests.block.mono (Nat.le_succ n)
      refine .accept_less (.pure Branches.done) fun elseWord _ => .accept_bind ?_ fun ifWord _ => ?_
      · exact arm.bind fun body => .pure (Branches.otherwise elseWord.pos body)
      · exact Lockstep.condition.bind fun cond => arm.bind fun body => (ih nests).bind fun rest =>
          .pure (Branches.elseIf ifWord.pos cond body rest)

theorem branching :
    Lockstep f grow (n + 1) (Stmt.mapPos f) (branching nested) (branching nested') := by
  refine .advance_less fun word _ => Lockstep.condition.bind fun cond =>
    (nests.block.mono (Nat.le_succ n)).bind fun body => ?_
  refine .remaining_bind (fun k => ?_) fun k le => ?_
  · exact (Stepwise.branches nests.leads.stepwise k).bind fun rest => .pure _
  · exact ((nests.mono le).branches (Nat.le_refl _) (Nat.le_refl _)).bind fun rest =>
      .pure (Stmt.branch word.pos cond body rest)

theorem statementWith :
    Lockstep f grow (n + 1) (Stmt.mapPos f) (statementWith nested) (statementWith nested') := by
  refine .peek_bind fun t o => ?_
  rw [t.kind_moved]
  cases typeName? t.kind with
  | some type => exact .declaration type
  | none =>
      dsimp only
      split
      · exact .inference
      · exact .callOrAssignment
      · exact nests.definition
      · exact nests.branching
      · exact nests.looping
      · exact .jump (.breakOut t.pos)
      · exact .jump (.continueOn t.pos)
      · exact .returning
      · exact .request
      · exact nests.uncertainty
      · exact nests.block.bind fun body => .pure (Stmt.block body)
      · exact .fail t o rfl

end Nests

/-- Statements cannot be nested deeper than there are tokens. -/
theorem Nests.statement {k k' : Nat} (enough : n ≤ k) (enough' : n + grow ≤ k') :
    Nests f grow n (statement k) (statement k') := by
  refine ⟨?_, .statement k⟩
  induction n, k, k', enough, enough' using bounds_induction with
  | zero k k' =>
      exact .done (.statement k) (fun c ends done => statement_done ends done k)
        (fun c ends done => statement_done ends done k') (.peek_bind fun t o => .fail t o rfl)
  | succ n k k' enough enough' ih => exact Nests.statementWith ⟨ih, .statement k⟩

theorem Lockstep.program : Lockstep f grow n (List.map (Stmt.mapPos f)) program program :=
  remaining_bind (fun k => (Stepwise.recovering true (.statement (k + 1))).itemsUntil _ k)
    fun k _ => (Nests.statement (Nat.le_succ k) (Nat.le_succ _)).statements true (Nat.le_refl k)
      (Nat.le_refl _)

end Parser

end Samo
