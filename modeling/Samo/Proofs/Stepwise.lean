import Samo.Proofs.Cursors
import Samo.Proofs.Run
import Samo.Syntax.Parser.Stmt

/-!
# Parsers go step by step

A parser is put together from single steps (`Parser.Stepwise`): it looks at the token in front,
takes it, fails with a fault of the grammar, or goes on behind a statement that could not be read.
So it never goes back (`Parser.Stepwise.onward`), and a statement takes a token or fails where it
stands (`Parser.Leads.statement`).
-/

namespace Samo

/-- What is wrong is the word itself. -/
def Fault.isFlaw : Fault → Bool
  | flaw _ => true
  | _ => false

namespace Cursor

theorem length_next (c : Cursor) : c.next.rest.length = c.rest.length - 1 := by
  rw [rest_next, List.length_tail]

theorem Onward.length_le {c c' : Cursor} (onward : c.Onward c') :
    c'.rest.length ≤ c.rest.length := by
  have shorter := onward.rest.length_le
  rwa [positions, positions, List.length_map, List.length_map] at shorter

theorem length_skip_le (topLevel : Bool) (n : Nat) (c : Cursor) :
    (c.skip topLevel n).rest.length ≤ c.rest.length := (Onward.skip topLevel n c).length_le

/-- A token is skipped, unless there is nothing to be skipped. -/
theorem length_skip_lt {topLevel : Bool} {c : Cursor} (left : 0 < c.rest.length)
    (some : c.front.kind ≠ .endOfFile)
    (inside : topLevel = false → c.front.kind ≠ .punct .rightBrace) :
    (c.skip topLevel c.rest.length).rest.length < c.rest.length := by
  have fewer := c.length_next
  obtain ⟨n, length⟩ : ∃ n, c.rest.length = n + 1 := ⟨c.rest.length - 1, by omega⟩
  rw [length]
  unfold Cursor.skip
  split
  · next front => exact absurd front some
  · omega
  · next front =>
    cases topLevel with
    | true =>
        show c.next.rest.length < n + 1
        omega
    | false => exact absurd front (inside rfl)
  · have shorter := length_skip_le topLevel n c.next
    omega

/-- In front of nothing is the end. -/
theorem front_of_nil {c : Cursor} (ends : c.eof.kind = .endOfFile) (done : c.rest = []) :
    c.front.kind = .endOfFile := by
  rw [front, done]
  exact ends

end Cursor

namespace Parser

variable {α β : Type}

/-- Where a parser stops. -/
def ending : EStateM.Result SyntaxError Cursor α → Cursor
  | .ok _ c => c
  | .error _ c => c

/-! ## Single tokens -/

@[simp] theorem peek_run (c : Cursor) : peek c = .ok c.front c := rfl

@[simp] theorem peekKind_run (c : Cursor) : peekKind c = .ok c.front.kind c := rfl

@[simp] theorem remaining_run (c : Cursor) : remaining c = .ok c.rest.length c := rfl

@[simp] theorem advance_run (c : Cursor) : advance c = .ok c.front c.next := rfl

theorem fail_ne_ok {t : Token} {fault : Fault} {a : α} {c c' : Cursor} :
    (fail t fault : Parser α) c ≠ .ok a c' := by
  intro run
  cases run

theorem accept_pos {kind : Kind} {c : Cursor} (same : c.front.kind = kind) :
    accept kind c = .ok (some c.front) c.next := by
  unfold accept
  rw [bind_ok (peekKind_run c), if_pos same, bind_ok (advance_run c)]
  rfl

theorem accept_neg {kind : Kind} {c : Cursor} (other : c.front.kind ≠ kind) :
    accept kind c = .ok none c := by
  unfold accept
  rw [bind_ok (peekKind_run c), if_neg other]
  rfl

/-- What is accepted is the token in front. -/
theorem accept_eq_ok {kind : Kind} {found : Option Token} {c c' : Cursor}
    (run : accept kind c = .ok found c') :
    (c.front.kind = kind ∧ found = some c.front ∧ c' = c.next) ∨
      (c.front.kind ≠ kind ∧ found = none ∧ c' = c) := by
  by_cases same : c.front.kind = kind
  · rw [accept_pos same] at run
    cases run
    exact .inl ⟨same, rfl, rfl⟩
  · rw [accept_neg same] at run
    cases run
    exact .inr ⟨same, rfl, rfl⟩

/-- What is expected is the token in front. -/
theorem expect_eq_ok {kind : Kind} {t : Token} {c c' : Cursor} (run : expect kind c = .ok t c') :
    c.front.kind = kind ∧ t = c.front ∧ c' = c.next := by
  unfold expect at run
  rw [bind_ok (peek_run c)] at run
  by_cases same : c.front.kind = kind
  · rw [if_pos same] at run
    cases run
    exact ⟨same, rfl, rfl⟩
  · rw [if_neg same] at run
    exact absurd run fail_ne_ok

theorem accept_bind (kind : Kind) (k : Option Token → Parser β) :
    (accept kind >>= k) =
      peek >>= fun t => if t.kind = kind then advance >>= fun t => k (some t) else k none := by
  funext c
  rw [bind_ok (peek_run c)]
  by_cases same : c.front.kind = kind
  · rw [bind_ok (accept_pos same), if_pos same, bind_ok (advance_run c)]
  · rw [bind_ok (accept_neg same), if_neg same]

theorem expect_bind (kind : Kind) (k : Token → Parser β) :
    (expect kind >>= k) = peek >>= fun t =>
      if t.kind = kind then advance >>= k else fail t (.expected kind t.toLexeme) := by
  unfold expect
  rw [bind_assoc]
  funext c
  rw [bind_ok (peek_run c), bind_ok (peek_run c)]
  split
  · rfl
  · rfl

/-! ## Steps -/

/-- A parser that is put together from single steps. -/
inductive Stepwise : {α : Type} → Parser α → Prop
  | pure {α : Type} (a : α) : Stepwise (pure a : Parser α)
  | bind {α β : Type} {p : Parser α} {f : α → Parser β} (first : Stepwise p)
      (second : ∀ a, Stepwise (f a)) : Stepwise (p >>= f)
  | get : Stepwise (get : Parser Cursor)
  | advance : Stepwise advance
  | fail {α : Type} (t : Token) {fault : Fault} (grammar : fault.isFlaw = false) :
      Stepwise (fail t fault : Parser α)
  | recovering (topLevel : Bool) {p : Parser Stmt} (inner : Stepwise p) :
      Stepwise (recovering topLevel p)

namespace Stepwise

/-- A parser never goes back. -/
theorem onward {p : Parser α} (stepwise : Stepwise p) (c : Cursor) : c.Onward (ending (p c)) := by
  induction stepwise generalizing c with
  | pure | get | fail => exact .refl c
  | advance => exact .next c
  | @bind α β p f first second ihFirst ihSecond =>
      have early := ihFirst c
      cases run : p c with
      | error e c₁ =>
          rw [run] at early
          rw [bind_error run]
          exact early
      | ok a c₁ =>
          rw [run] at early
          rw [bind_ok run]
          exact early.trans (ihSecond a c₁)
  | @recovering topLevel p inner ih =>
      have early := ih c
      unfold Parser.recovering
      cases run : p c with
      | ok s c₁ =>
          rw [run] at early
          exact early
      | error e c₁ =>
          rw [run] at early
          exact (early.trans (.report c₁ e)).trans (.skip topLevel _ _)

theorem onward_of_ok {p : Parser α} {a : α} {c c' : Cursor} (stepwise : Stepwise p)
    (run : p c = .ok a c') : c.Onward c' := by
  have onward := stepwise.onward c
  rwa [run] at onward

theorem of_ok {p : Parser α} {a : α} {c c' : Cursor} (stepwise : Stepwise p)
    (ends : c.eof.kind = .endOfFile) (run : p c = .ok a c') :
    c'.eof.kind = .endOfFile ∧ c'.rest.length ≤ c.rest.length := by
  have onward := stepwise.onward_of_ok run
  exact ⟨by rw [onward.eof]; exact ends, onward.length_le⟩

/-- A second parser stops behind the first one. -/
theorem length_bind_le {f : α → Parser β} (second : ∀ a, Stepwise (f a)) (p : Parser α)
    (c : Cursor) : (ending ((p >>= f) c)).rest.length ≤ (ending (p c)).rest.length := by
  cases run : p c with
  | error e c₁ =>
      rw [bind_error run]
      exact Nat.le_refl _
  | ok a c₁ =>
      rw [bind_ok run]
      exact ((second a).onward c₁).length_le

theorem map {p : Parser α} {f : α → β} (first : Stepwise p) : Stepwise (f <$> p) := by
  rw [← bind_pure_comp]
  exact first.bind fun a => .pure _

theorem ite {q : Prop} [Decidable q] {p p' : Parser α} (left : Stepwise p) (right : Stepwise p') :
    Stepwise (if q then p else p') := by
  split
  · exact left
  · exact right

theorem peek : Stepwise peek := get.bind fun _ => .pure _

theorem peekKind : Stepwise peekKind := get.bind fun _ => .pure _

theorem remaining : Stepwise remaining := get.bind fun _ => .pure _

theorem accept (kind : Kind) : Stepwise (accept kind) :=
  peekKind.bind fun _ => .ite (advance.bind fun _ => .pure _) (.pure _)

theorem expect (kind : Kind) : Stepwise (expect kind) :=
  peek.bind fun t => .ite advance (.fail t rfl)

theorem sign (p : Punct) : Stepwise (sign p) := expect _

/-! ## Expressions -/

theorem moreItems {item : Parser α} (inner : Stepwise item) (n : Nat) :
    Stepwise (moreItems item n) := by
  induction n with
  | zero => exact .pure _
  | succ n ih =>
      refine (accept _).bind fun found => ?_
      cases found with
      | none => exact .pure _
      | some t => exact inner.bind fun a => ih.bind fun as => .pure _

theorem itemList {item : Parser α} (inner : Stepwise item) : Stepwise (itemList item) := by
  refine (sign _).bind fun _ => peekKind.bind fun kind => .ite ?_ ?_
  · exact (sign _).bind fun _ => .pure _
  · exact inner.bind fun a => remaining.bind fun n => (moreItems inner n).bind fun as =>
      (sign _).bind fun _ => .pure _

theorem itemsUntil (stop : Kind → Bool) {item : Parser α} (inner : Stepwise item) (n : Nat) :
    Stepwise (itemsUntil stop item n) := by
  induction n with
  | zero => exact .pure _
  | succ n ih =>
      refine peekKind.bind fun kind => .ite (.pure _) ?_
      exact inner.bind fun a => ih.bind fun as => .pure _

section

variable {operand nested : Parser Expr}

theorem signed (mark : Kind) (op : UnaryOp) (inner : Stepwise operand) (n : Nat) :
    Stepwise (signed mark op operand n) := by
  induction n with
  | zero => exact inner
  | succ n ih =>
      refine (accept mark).bind fun found => ?_
      cases found with
      | none => exact inner
      | some t => exact ih.bind fun x => .pure _

theorem moreOperands (op? : Kind → Option BinaryOp) (inner : Stepwise operand) (n : Nat)
    (x : Expr) : Stepwise (moreOperands op? operand n x) := by
  induction n generalizing x with
  | zero => exact .pure x
  | succ n ih =>
      refine peek.bind fun t => ?_
      cases op? t.kind with
      | none => exact .pure x
      | some op => exact advance.bind fun _ => inner.bind fun y => ih _

theorem leftGrouped (op? : Kind → Option BinaryOp) (inner : Stepwise operand) :
    Stepwise (leftGrouped op? operand) :=
  inner.bind fun x => remaining.bind fun n => moreOperands op? inner n x

theorem callWith (inner : Stepwise nested) : Stepwise (callWith nested) :=
  advance.bind fun _ => (itemList inner).bind fun _ => .pure _

theorem primary (inner : Stepwise nested) : Stepwise (primary nested) := by
  refine peek.bind fun t => ?_
  split
  · refine advance.bind fun _ => ?_
    cases Literal.int? t.text with
    | none => exact .fail t rfl
    | some n => exact .pure _
  · exact advance.bind fun _ => .pure _
  · exact advance.bind fun _ => .pure _
  · exact advance.bind fun _ => .pure _
  · refine get.bind fun c => .ite ?_ ?_
    · exact (callWith inner).bind fun _ => .pure _
    · exact advance.bind fun _ => .pure _
  · exact advance.bind fun _ => inner.bind fun x => (sign _).bind fun _ => .pure _
  · exact .fail t rfl

theorem factor (inner : Stepwise nested) : Stepwise (factor nested) :=
  remaining.bind fun n => signed _ _ (primary inner) n

theorem product (inner : Stepwise nested) : Stepwise (product nested) :=
  leftGrouped _ (factor inner)

theorem sum (inner : Stepwise nested) : Stepwise (sum nested) := leftGrouped _ (product inner)

theorem comparison (inner : Stepwise nested) : Stepwise (comparison nested) := by
  refine (sum inner).bind fun x => peek.bind fun t => ?_
  cases comparisonOp? t.kind with
  | none => exact .pure x
  | some op =>
      refine advance.bind fun _ => (sum inner).bind fun y => peek.bind fun u => ?_
      cases comparisonOp? u.kind with
      | none => exact .pure _
      | some op' => exact .fail u rfl

theorem negation (inner : Stepwise nested) : Stepwise (negation nested) :=
  remaining.bind fun n => signed _ _ (comparison inner) n

theorem conjunction (inner : Stepwise nested) : Stepwise (conjunction nested) :=
  leftGrouped _ (negation inner)

theorem disjunction (inner : Stepwise nested) : Stepwise (disjunction nested) :=
  leftGrouped _ (conjunction inner)

theorem expression (n : Nat) : Stepwise (expression n) := by
  induction n with
  | zero => exact peek.bind fun t => .fail t rfl
  | succ n ih => exact disjunction ih

theorem expr : Stepwise expr := remaining.bind fun n => expression (n + 1)

theorem condition : Stepwise condition :=
  (sign _).bind fun _ => expr.bind fun e => (sign _).bind fun _ => .pure e

end

theorem parameter : Stepwise parameter := by
  refine peek.bind fun word => ?_
  cases typeName? word.kind with
  | none => exact .fail word rfl
  | some type => exact advance.bind fun _ => (expect _).bind fun _ => .pure _

theorem resultType : Stepwise resultType := by
  refine peek.bind fun word => ?_
  cases typeName? word.kind with
  | none => exact .pure none
  | some type => exact advance.bind fun _ => .pure _

end Stepwise

/-! ## Statements -/

/-- A parser that goes step by step, and takes a token or fails where it stands. -/
structure Leads (p : Parser α) : Prop where
  stepwise : Stepwise p
  grips : ∀ c : Cursor,
    (ending (p c)).rest.length ≤ c.rest.length - 1 ∨ ∃ e, p c = .error e c

namespace Leads

theorem fail (t : Token) {fault : Fault} (grammar : fault.isFlaw = false) :
    Leads (fail t fault : Parser α) :=
  ⟨.fail t grammar, fun _ => .inr ⟨_, rfl⟩⟩

theorem bind {p : Parser α} {f : α → Parser β} (first : Leads p)
    (second : ∀ a, Stepwise (f a)) : Leads (p >>= f) := by
  refine ⟨first.stepwise.bind second, fun c => ?_⟩
  rcases first.grips c with shorter | ⟨e, failed⟩
  · exact .inl (Nat.le_trans (Stepwise.length_bind_le second p c) shorter)
  · exact .inr ⟨e, bind_error failed⟩

theorem advance_bind {f : Token → Parser β} (second : ∀ t, Stepwise (f t)) :
    Leads (advance >>= f) :=
  bind ⟨.advance, fun c => .inl (Nat.le_of_eq c.length_next)⟩ second

theorem peek_bind {f : Token → Parser β} (second : ∀ t, Leads (f t)) : Leads (peek >>= f) :=
  ⟨Stepwise.peek.bind fun t => (second t).stepwise, fun c => (second c.front).grips c⟩

theorem get_bind {f : Cursor → Parser β} (second : ∀ c, Leads (f c)) : Leads (get >>= f) :=
  ⟨Stepwise.get.bind fun c => (second c).stepwise, fun c => (second c).grips c⟩

theorem ite {q : Prop} [Decidable q] {p p' : Parser α} (left : Leads p) (right : Leads p') :
    Leads (if q then p else p') := by
  split
  · exact left
  · exact right

theorem sign (p : Punct) : Leads (sign p) := by
  refine peek_bind fun t => .ite ?_ (.fail t rfl)
  exact ⟨.advance, fun c => .inl (Nat.le_of_eq c.length_next)⟩

theorem declaration (type : TypeName) : Leads (declaration type) := by
  refine advance_bind fun word => (Stepwise.expect _).bind fun name => ?_
  refine (Stepwise.accept _).bind fun found => ?_
  cases found with
  | none => exact (Stepwise.pure none).bind fun init => (Stepwise.sign _).bind fun _ => .pure _
  | some t => exact Stepwise.expr.map.bind fun init => (Stepwise.sign _).bind fun _ => .pure _

theorem inference : Leads inference :=
  advance_bind fun _ => (Stepwise.expect _).bind fun _ => (Stepwise.sign _).bind fun _ =>
    Stepwise.expr.bind fun _ => (Stepwise.sign _).bind fun _ => .pure _

theorem assignment : Leads assignment :=
  advance_bind fun _ => (Stepwise.sign _).bind fun _ => Stepwise.expr.bind fun _ =>
    (Stepwise.sign _).bind fun _ => .pure _

theorem callStatement : Leads callStatement := by
  refine bind ?_ fun _ => (Stepwise.sign _).bind fun _ => .pure _
  exact advance_bind fun _ => (Stepwise.itemList .expr).bind fun _ => .pure _

theorem returning : Leads returning := by
  refine advance_bind fun word => Stepwise.peekKind.bind fun kind => ?_
  dsimp only
  split
  · exact (Stepwise.pure none).bind fun value => (Stepwise.sign _).bind fun _ => .pure _
  · exact Stepwise.expr.map.bind fun value => (Stepwise.sign _).bind fun _ => .pure _

theorem request : Leads request :=
  advance_bind fun _ => (Stepwise.expect _).bind fun _ => (Stepwise.sign _).bind fun _ => .pure _

theorem jump (s : Stmt) :
    Leads (do let _ ← advance; let _ ← Parser.sign .semicolon; return s) :=
  advance_bind fun _ => (Stepwise.sign _).bind fun _ => .pure s

section

variable {nested : Parser Stmt} (inner : Stepwise nested)
include inner

theorem block : Leads (block nested) :=
  (sign _).bind fun _ => Stepwise.remaining.bind fun n =>
    (Stepwise.itemsUntil _ (.recovering false inner) n).bind fun _ =>
      (Stepwise.sign _).bind fun _ => .pure _

end

end Leads

theorem Stepwise.branches {nested : Parser Stmt} (inner : Stepwise nested) (n : Nat) :
    Stepwise (branches nested n) := by
  induction n with
  | zero => exact .pure _
  | succ n ih =>
      refine (accept _).bind fun found => ?_
      cases found with
      | none => exact .pure _
      | some elseWord =>
          refine (accept _).bind fun found => ?_
          cases found with
          | none => exact (Leads.block inner).stepwise.bind fun body => .pure _
          | some ifWord =>
              exact condition.bind fun _ => (Leads.block inner).stepwise.bind fun _ =>
                ih.bind fun _ => .pure _

namespace Leads

variable {nested : Parser Stmt} (inner : Stepwise nested)
include inner

theorem definition : Leads (definition nested) :=
  advance_bind fun _ => (Stepwise.expect _).bind fun _ =>
    (Stepwise.itemList .parameter).bind fun _ => Stepwise.resultType.bind fun _ =>
      (block inner).stepwise.bind fun _ => .pure _

theorem branching : Leads (branching nested) :=
  advance_bind fun _ => Stepwise.condition.bind fun _ => (block inner).stepwise.bind fun _ =>
    Stepwise.remaining.bind fun n => (Stepwise.branches inner n).bind fun _ => .pure _

theorem looping : Leads (looping nested) :=
  advance_bind fun _ => Stepwise.condition.bind fun _ => (block inner).stepwise.bind fun _ =>
    .pure _

theorem uncertainty : Leads (uncertainty nested) := by
  refine advance_bind fun _ => Stepwise.condition.bind fun _ => inner.bind fun _ =>
    (Stepwise.accept _).bind fun found => ?_
  cases found with
  | none => exact .pure _
  | some t => exact inner.bind fun _ => .pure _

theorem statementWith : Leads (statementWith nested) := by
  refine peek_bind fun t => ?_
  cases typeName? t.kind with
  | some type => exact declaration type
  | none =>
      dsimp only
      split
      · exact inference
      · exact get_bind fun c => .ite callStatement assignment
      · exact definition inner
      · exact branching inner
      · exact looping inner
      · exact jump (.breakOut t.pos)
      · exact jump (.continueOn t.pos)
      · exact returning
      · exact request
      · exact uncertainty inner
      · exact (block inner).bind fun body => .pure _
      · exact fail t rfl

end Leads

/-- A statement takes a token or fails where it stands. -/
theorem Leads.statement (n : Nat) : Leads (statement n) := by
  induction n with
  | zero => exact peek_bind fun t => .fail t rfl
  | succ n ih => exact statementWith ih.stepwise

theorem Stepwise.statement (n : Nat) : Stepwise (statement n) := (Leads.statement n).stepwise

theorem Stepwise.program : Stepwise program :=
  remaining.bind fun n => itemsUntil _ (.recovering true (.statement (n + 1))) n

/-- A statement that is read, or replaced, takes a token, unless there is nothing to be taken. -/
theorem Leads.length_recovering {p : Parser Stmt} (leads : Leads p) (topLevel : Bool) {c : Cursor}
    (ends : c.eof.kind = .endOfFile) (some : c.front.kind ≠ .endOfFile)
    (inside : topLevel = false → c.front.kind ≠ .punct .rightBrace) :
    (ending (recovering topLevel p c)).rest.length < c.rest.length := by
  have left : 0 < c.rest.length :=
    List.length_pos_iff.mpr fun none => some (Cursor.front_of_nil ends none)
  unfold recovering
  have taken := leads.grips c
  cases run : p c with
  | ok s c' =>
      rw [run] at taken
      rcases taken with shorter | ⟨e, failed⟩
      · exact Nat.lt_of_le_pred left shorter
      · cases failed
  | error e c' =>
      rw [run] at taken
      rcases taken with shorter | ⟨e, failed⟩
      · have skipped := Cursor.length_skip_le topLevel c'.rest.length (c'.report e)
        exact Nat.lt_of_le_of_lt skipped (Nat.lt_of_le_pred left shorter)
      · cases failed
        exact Cursor.length_skip_lt (c := c.report e) left some inside

end Parser

end Samo
