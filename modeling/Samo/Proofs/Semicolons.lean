import Samo.Proofs.Bounds
import Samo.Proofs.Carrying
import Samo.Proofs.Recovery

/-!
# Statements before a semicolon

Before a semicolon with neither a brace nor another semicolon on the way (`Cursor.Lone`) a statement
either ends with that semicolon or fails before it: what is read of an expression stays before the
semicolon (`Parser.Keeps`), and a block cannot start. It does so in the same way whatever follows
(`Parser.Closes.anyStatement`), as long as no `otherwise` does.
-/

namespace Samo

/-- A kind of token that neither ends a statement nor opens or closes a block. -/
def Kind.isPlain : Kind → Bool
  | endOfFile | punct .semicolon | punct .leftBrace | punct .rightBrace => false
  | _ => true

namespace Cursor

/-- All that is left is a semicolon with plain tokens before it. -/
structure Lone (c : Cursor) : Prop where
  eof : c.eof.kind = .endOfFile
  rest : ∃ ts semicolon, c.rest = ts ++ [semicolon] ∧ (∀ t ∈ ts, t.kind.isPlain = true) ∧
    semicolon.kind = .punct .semicolon

namespace Lone

variable {c : Cursor}

theorem rest_ne_nil (lone : c.Lone) : c.rest ≠ [] := by
  obtain ⟨ts, semicolon, split, -, -⟩ := lone.rest
  simp [split]

/-- In front is the semicolon, and nothing behind it, or a plain token. -/
theorem cases (lone : c.Lone) :
    (c.front.kind = .punct .semicolon ∧ c.next.rest = []) ∨
      (c.front.kind.isPlain = true ∧ c.next.Lone) := by
  obtain ⟨ts, semicolon, split, plain, ends⟩ := lone.rest
  cases ts with
  | nil =>
      refine .inl ⟨?_, ?_⟩
      · rw [front, split]
        exact ends
      · rw [rest_next, split]
        rfl
  | cons t ts =>
      refine .inr ⟨?_, ?_, ts, semicolon, ?_, ?_, ends⟩
      · rw [front, split]
        exact plain t List.mem_cons_self
      · rw [eof_next]
        exact lone.eof
      · rw [rest_next, split]
        rfl
      · exact fun u member => plain u (List.mem_cons_of_mem t member)

theorem next (lone : c.Lone) (other : c.front.kind ≠ .punct .semicolon) : c.next.Lone := by
  rcases lone.cases with ⟨ends, -⟩ | ⟨-, next⟩
  · exact absurd ends other
  · exact next

theorem rest_next_eq_nil (lone : c.Lone) (ends : c.front.kind = .punct .semicolon) :
    c.next.rest = [] := by
  rcases lone.cases with ⟨-, done⟩ | ⟨plain, -⟩
  · exact done
  · rw [ends] at plain
    cases plain

/-- Neither the end of the text nor a brace is in front. -/
theorem front_ne (lone : c.Lone) {kind : Kind} (special : kind.isPlain = false)
    (other : kind ≠ .punct .semicolon) : c.front.kind ≠ kind := by
  rintro rfl
  rcases lone.cases with ⟨ends, -⟩ | ⟨plain, -⟩
  · exact other ends
  · rw [special] at plain
    cases plain

theorem report (lone : c.Lone) (e : SyntaxError) : (c.report e).Lone := ⟨lone.eof, lone.rest⟩

/-- Skipping in a longer text ends behind the semicolon. -/
theorem skip (lone : c.Lone) {more : List Token} {last : Token} {d : Cursor}
    (longer : c.Longer more last d) (topLevel : Bool) {k : Nat} (enough : d.rest.length ≤ k) :
    (d.skip topLevel k).rest = more ∧ (d.skip topLevel k).eof = last := by
  induction k generalizing c d with
  | zero =>
      -- the bound is not reached, for the semicolon is still ahead
      have none := List.length_eq_zero_iff.mp (Nat.le_zero.mp enough)
      rw [longer.rest] at none
      exact absurd (List.append_eq_nil_iff.mp none).1 lone.rest_ne_nil
  | succ k ih =>
      have onward := longer.next lone.rest_ne_nil
      have fewer := d.length_next
      have front := longer.front lone.rest_ne_nil
      unfold Cursor.skip
      rcases lone.cases with ⟨ends, done⟩ | ⟨plain, next⟩
      · rw [front, ends]
        refine ⟨?_, onward.eof⟩
        show d.next.rest = more
        rw [onward.rest, done, List.nil_append]
      · have others := ih next onward (by omega)
        rw [front]
        split
        · next special => rw [special] at plain; cases plain
        · next special => rw [special] at plain; cases plain
        · next special => rw [special] at plain; cases plain
        · exact others

end Lone

end Cursor

namespace Parser

variable {α β : Type}

/-! ## Staying before the semicolon -/

/-- A reading of kinds that has none for the semicolon was given another one. -/
theorem ne_semicolon {read? : Kind → Option β} (none : read? (.punct .semicolon) = none)
    {kind : Kind} {b : β} (found : read? kind = some b) : kind ≠ .punct .semicolon := by
  rintro rfl
  rw [none] at found
  cases found

/-- A parser that stays before a semicolon. -/
def Keeps (p : Parser α) : Prop := ∀ c : Cursor, c.Lone → (ending (p c)).Lone

/-- A parser that stays before a semicolon if the token in front has the kind. -/
def KeepsAt (kind : Kind) (p : Parser α) : Prop :=
  ∀ c : Cursor, c.Lone → c.front.kind = kind → (ending (p c)).Lone

theorem Keeps.keepsAt {p : Parser α} (keeps : Keeps p) (kind : Kind) : KeepsAt kind p :=
  fun c lone _ => keeps c lone

theorem KeepsAt.bind {kind : Kind} {p : Parser α} {f : α → Parser β} (first : KeepsAt kind p)
    (second : ∀ a, Keeps (f a)) : KeepsAt kind (p >>= f) := by
  intro c lone front
  have kept := first c lone front
  cases run : p c with
  | ok a c₁ =>
      rw [run] at kept
      rw [bind_ok run]
      exact second a c₁ kept
  | error e c₁ =>
      rw [run] at kept
      rw [bind_error run]
      exact kept

theorem KeepsAt.advance {kind : Kind} (other : kind ≠ .punct .semicolon) :
    KeepsAt kind advance := by
  rintro c lone rfl
  exact lone.next other

/-- A look at the second token moves nothing. -/
theorem KeepsAt.get_bind {kind : Kind} {f : Cursor → Parser β} (second : ∀ c, KeepsAt kind (f c)) :
    KeepsAt kind (get >>= f) := by
  intro c lone front
  rw [bind_ok (get_run c)]
  exact second c c lone front

namespace Keeps

theorem pure (a : α) : Keeps (pure a : Parser α) := fun _ lone => lone

theorem fail (t : Token) (fault : Fault) : Keeps (fail t fault : Parser α) := fun _ lone => lone

theorem bind {p : Parser α} {f : α → Parser β} (first : Keeps p) (second : ∀ a, Keeps (f a)) :
    Keeps (p >>= f) :=
  fun c lone => (first.keepsAt c.front.kind).bind second c lone rfl

theorem map {p : Parser α} {f : α → β} (first : Keeps p) : Keeps (f <$> p) := by
  rw [← bind_pure_comp]
  exact first.bind fun a => .pure _

theorem ite {x : Prop} [Decidable x] {p q : Parser α} (left : Keeps p) (right : Keeps q) :
    Keeps (if x then p else q) := by
  split
  · exact left
  · exact right

theorem peek_bind {f : Token → Parser β} (second : ∀ t : Token, KeepsAt t.kind (f t)) :
    Keeps (peek >>= f) := by
  intro c lone
  rw [bind_ok (peek_run c)]
  exact second c.front c lone rfl

theorem peekKind : Keeps peekKind := fun _ lone => lone

theorem remaining : Keeps remaining := fun _ lone => lone

theorem accept {kind : Kind} (other : kind ≠ .punct .semicolon) : Keeps (accept kind) := by
  intro c lone
  by_cases same : c.front.kind = kind
  · rw [accept_pos same]
    exact lone.next (same ▸ other)
  · rw [accept_neg same]
    exact lone

theorem expect {kind : Kind} (other : kind ≠ .punct .semicolon) : Keeps (expect kind) := by
  refine peek_bind fun t => ?_
  split
  · next same => exact .advance (same ▸ other)
  · exact (fail t _).keepsAt t.kind

theorem sign {p : Punct} (other : p ≠ .semicolon) : Keeps (sign p) :=
  expect fun same => other (Kind.punct.inj same)

theorem moreItems {item : Parser α} (keeps : Keeps item) (k : Nat) : Keeps (moreItems item k) := by
  induction k with
  | zero => exact .pure _
  | succ k ih =>
      refine (accept (by decide)).bind fun found => ?_
      cases found with
      | none => exact .pure _
      | some t => exact keeps.bind fun a => ih.bind fun as => .pure _

theorem itemList {item : Parser α} (keeps : Keeps item) : Keeps (itemList item) := by
  refine (sign (by decide)).bind fun _ => peekKind.bind fun _ => .ite ?_ ?_
  · exact (sign (by decide)).bind fun _ => .pure _
  · exact keeps.bind fun a => remaining.bind fun k => (moreItems keeps k).bind fun as =>
      (sign (by decide)).bind fun _ => .pure _

variable {operand nested : Parser Expr}

theorem signed {mark : Kind} (other : mark ≠ .punct .semicolon) (op : UnaryOp)
    (keeps : Keeps operand) (k : Nat) : Keeps (signed mark op operand k) := by
  induction k with
  | zero => exact keeps
  | succ k ih =>
      refine (accept other).bind fun found => ?_
      cases found with
      | none => exact keeps
      | some t => exact ih.bind fun x => .pure _

theorem moreOperands {op? : Kind → Option BinaryOp} (other : op? (.punct .semicolon) = none)
    (keeps : Keeps operand) (k : Nat) (x : Expr) : Keeps (moreOperands op? operand k x) := by
  induction k generalizing x with
  | zero => exact .pure x
  | succ k ih =>
      refine peek_bind fun t => ?_
      cases found : op? t.kind with
      | none => exact (pure x).keepsAt t.kind
      | some op =>
          have real := ne_semicolon other found
          exact (KeepsAt.advance real).bind fun _ => keeps.bind fun y => ih _

theorem leftGrouped {op? : Kind → Option BinaryOp} (other : op? (.punct .semicolon) = none)
    (keeps : Keeps operand) : Keeps (leftGrouped op? operand) :=
  keeps.bind fun x => remaining.bind fun k => moreOperands other keeps k x

end Keeps

theorem KeepsAt.callWith {kind : Kind} {nested : Parser Expr} (other : kind ≠ .punct .semicolon)
    (keeps : Keeps nested) : KeepsAt kind (callWith nested) :=
  (advance other).bind fun _ => (Keeps.itemList keeps).bind fun _ => .pure _

namespace Keeps

variable {nested : Parser Expr}

theorem primary (keeps : Keeps nested) : Keeps (primary nested) := by
  refine peek_bind fun t => ?_
  split
  · next kind =>
    refine (KeepsAt.advance (by rw [kind]; decide)).bind fun _ => ?_
    cases Literal.int? t.text with
    | none => exact fail t _
    | some n => exact .pure _
  · next kind => exact (KeepsAt.advance (by rw [kind]; decide)).bind fun _ => .pure _
  · next kind => exact (KeepsAt.advance (by rw [kind]; decide)).bind fun _ => .pure _
  · next kind => exact (KeepsAt.advance (by rw [kind]; decide)).bind fun _ => .pure _
  · next kind =>
    refine KeepsAt.get_bind fun c => ?_
    have word : t.kind ≠ .punct .semicolon := by rw [kind]; decide
    split
    · exact (KeepsAt.callWith word keeps).bind fun _ => .pure _
    · exact (KeepsAt.advance word).bind fun _ => .pure _
  · next kind =>
    exact (KeepsAt.advance (by rw [kind]; decide)).bind fun _ => keeps.bind fun x =>
      (sign (by decide)).bind fun _ => .pure _
  · exact (fail t _).keepsAt t.kind

theorem sum (keeps : Keeps nested) : Keeps (sum nested) :=
  leftGrouped rfl (leftGrouped rfl (remaining.bind fun k => signed (by decide) _ (primary keeps) k))

theorem comparison (keeps : Keeps nested) : Keeps (comparison nested) := by
  refine (sum keeps).bind fun x => peek_bind fun t => ?_
  cases found : comparisonOp? t.kind with
  | none => exact (pure x).keepsAt t.kind
  | some op =>
      have real := ne_semicolon rfl found
      refine (KeepsAt.advance real).bind fun _ => (sum keeps).bind fun y => peek_bind fun u => ?_
      cases comparisonOp? u.kind with
      | none => exact (pure _).keepsAt u.kind
      | some op' => exact (fail u _).keepsAt u.kind

theorem expression (k : Nat) : Keeps (expression k) := by
  induction k with
  | zero => exact peek_bind fun t => (fail t _).keepsAt t.kind
  | succ k ih =>
      refine leftGrouped rfl (leftGrouped rfl ?_)
      exact remaining.bind fun k => signed (by decide) _ (comparison ih) k

theorem expr : Keeps expr := remaining.bind fun k => expression (k + 1)

theorem condition : Keeps condition :=
  (sign (by decide)).bind fun _ => expr.bind fun e => (sign (by decide)).bind fun _ => .pure e

theorem parameter : Keeps parameter := by
  refine peek_bind fun word => ?_
  cases found : typeName? word.kind with
  | none => exact (fail word _).keepsAt word.kind
  | some type =>
      have real := ne_semicolon rfl found
      exact (KeepsAt.advance real).bind fun _ => (expect (by decide)).bind fun _ => .pure _

theorem resultType : Keeps resultType := by
  refine peek_bind fun word => ?_
  cases found : typeName? word.kind with
  | none => exact (pure none).keepsAt word.kind
  | some type =>
      have real := ne_semicolon rfl found
      exact (KeepsAt.advance real).bind fun _ => .pure _

end Keeps

/-! ## Statements that end with the semicolon -/

section

variable (more : List Token) (last : Token)

/-- A parser that stays before a semicolon and does the same when more follows. -/
structure Stays (p : Parser α) : Prop where
  keeps : Keeps p
  carries : ∀ n, Carries more last n p p

/--
How a statement ends that starts before a lone semicolon, in its own text and in one that goes on:
it is read up to the semicolon, with nothing bad in it, or it fails before the semicolon.
-/
inductive Closing :
    EStateM.Result SyntaxError Cursor Stmt → EStateM.Result SyntaxError Cursor Stmt → Prop
  | ok {s c d} : c.rest = [] → ¬ HasBad (s.visited fun _ => true) → c.Longer more last d →
      Closing (.ok s c) (.ok s d)
  | error {e c d} : c.Lone → c.Longer more last d → Closing (.error e c) (.error e d)

/-- Two parsers, one of a text and one of a text that goes on, end so. -/
def Closes (n : Nat) (p q : Parser Stmt) : Prop :=
  ∀ c d, c.Lone → c.Longer more last d → c.rest.length ≤ n → Closing more last (p c) (q d)

/-- Two parsers end so if the token in front has the kind. -/
def ClosesAt (kind : Kind) (n : Nat) (p q : Parser Stmt) : Prop :=
  ∀ c d, c.Lone → c.Longer more last d → c.rest.length ≤ n → c.front.kind = kind →
    Closing more last (p c) (q d)

end

variable {more : List Token} {last : Token} {n : Nat}

/-- Tokens that do not go on with a statement before them, and the end of the text. -/
structure Fresh (more : List Token) (last : Token) : Prop where
  last : last.kind = .endOfFile
  alone : ∀ t ∈ more.head?, t.kind ≠ .keyword .otherwiseWord

theorem Fresh.front_ne (fresh : Fresh more last) {c : Cursor} (rest : c.rest = more)
    (eof : c.eof = last) : c.front.kind ≠ .keyword .otherwiseWord := by
  rw [Cursor.front, rest, eof]
  cases more with
  | nil =>
      rw [List.headD_nil, fresh.last]
      exact Kind.noConfusion
  | cons t ts => exact fresh.alone t rfl

namespace Stays

theorem expr : Stays more last expr := ⟨.expr, fun _ => .expr⟩

theorem condition : Stays more last condition := ⟨.condition, fun _ => .condition⟩

theorem expect {kind : Kind} (other : kind ≠ .punct .semicolon) :
    Stays more last (expect kind) := ⟨.expect other, fun _ => .expect kind⟩

theorem accept {kind : Kind} (other : kind ≠ .punct .semicolon) :
    Stays more last (accept kind) := ⟨.accept other, fun _ => .accept kind⟩

theorem sign {p : Punct} (other : p ≠ .semicolon) : Stays more last (sign p) :=
  ⟨.sign other, fun _ => .sign p⟩

theorem pure (a : α) : Stays more last (pure a : Parser α) := ⟨.pure a, fun _ => .pure a⟩

theorem peekKind : Stays more last peekKind := ⟨.peekKind, fun _ => .peekKind⟩

theorem map {p : Parser α} {f : α → β} (stays : Stays more last p) : Stays more last (f <$> p) :=
  ⟨stays.keeps.map, fun n => (stays.carries n).map⟩

theorem parameters : Stays more last (itemList parameter) :=
  ⟨.itemList .parameter, fun _ => .parameters⟩

theorem arguments : Stays more last (itemList Parser.expr) :=
  ⟨.itemList .expr, fun _ => .arguments⟩

theorem resultType : Stays more last resultType := ⟨.resultType, fun _ => .resultType⟩

/-- Something that stays before the semicolon, and then a statement that ends with it. -/
theorem bind {p : Parser α} {f g : α → Parser Stmt} (stays : Stays more last p)
    (second : ∀ a, Closes more last n (f a) (g a)) :
    Closes more last n (p >>= f) (p >>= g) := by
  intro c d lone longer short
  have kept := stays.keeps c lone
  -- the end of the shorter text was not seen, so the longer one is read in the same way
  have follows := (stays.carries n).follows c d longer short kept.rest_ne_nil
  cases run : p c with
  | error e c₁ =>
      rw [run] at follows kept
      generalize run' : p d = ended at follows
      cases follows with
      | error longer₁ =>
          rw [bind_error run, bind_error run']
          exact .error kept longer₁
  | ok a c₁ =>
      have shorter := ((stays.carries n).stepwise.of_ok lone.eof run).2
      rw [run] at follows kept
      generalize run' : p d = ended at follows
      cases follows with
      | ok longer₁ =>
          rw [bind_ok run, bind_ok run']
          exact second a c₁ _ kept longer₁ (Nat.le_trans shorter short)

end Stays

namespace Closes

theorem closesAt {p q : Parser Stmt} (closes : Closes more last n p q) (kind : Kind) :
    ClosesAt more last kind n p q :=
  fun c d lone longer short _ => closes c d lone longer short

theorem fail (t : Token) (fault : Fault) :
    Closes more last n (fail t fault) (Parser.fail t fault) :=
  fun _ _ lone longer _ => .error lone longer

/-- The semicolon itself. -/
theorem semicolon {s : Stmt} (good : ¬ HasBad (s.visited fun _ => true)) :
    Closes more last n (sign .semicolon >>= fun _ => pure s)
      (sign .semicolon >>= fun _ => pure s) := by
  intro c d lone longer _
  have front := longer.front lone.rest_ne_nil
  by_cases ends : c.front.kind = .punct .semicolon
  · rw [bind_ok (sign_pos ends), bind_ok (sign_pos (front ▸ ends))]
    exact .ok (lone.rest_next_eq_nil ends) good (longer.next lone.rest_ne_nil)
  · rw [bind_error (sign_neg ends), bind_error (sign_neg (front ▸ ends)), front]
    exact .error lone longer

/-- No block starts before the semicolon. -/
theorem block {nested nested' : Parser Stmt} {f g : Block → Parser Stmt} :
    Closes more last n (block nested >>= f) (block nested' >>= g) := by
  intro c d lone longer _
  have front := longer.front lone.rest_ne_nil
  have other : c.front.kind ≠ .punct .leftBrace := lone.front_ne rfl (by decide)
  have run : Parser.block nested c = _ := bind_error (sign_neg other)
  have run' : Parser.block nested' d = _ := bind_error (sign_neg (front ▸ other))
  rw [bind_error run, bind_error run', front]
  exact .error lone longer

theorem peek_bind {f g : Token → Parser Stmt}
    (second : ∀ t : Token, ClosesAt more last t.kind n (f t) (g t)) :
    Closes more last n (peek >>= f) (peek >>= g) := by
  intro c d lone longer short
  rw [bind_ok (peek_run c), bind_ok (peek_run d), longer.front lone.rest_ne_nil]
  exact second c.front c d lone longer short rfl

end Closes

namespace ClosesAt

variable {kind : Kind}

/-- The first word of a statement. -/
theorem advance_bind {f g : Token → Parser Stmt} (other : kind ≠ .punct .semicolon)
    (second : ∀ t, Closes more last n (f t) (g t)) :
    ClosesAt more last kind (n + 1) (advance >>= f) (advance >>= g) := by
  intro c d lone longer short front
  have fewer := c.length_next
  rw [bind_ok (advance_run c), bind_ok (advance_run d), longer.front lone.rest_ne_nil]
  exact second c.front c.next d.next (lone.next (front ▸ other)) (longer.next lone.rest_ne_nil)
    (by omega)

/-- There is a second token, if only the semicolon. -/
theorem second_bind {sort : Kind} {p p' q q' : Parser Stmt} (other : kind ≠ .punct .semicolon)
    (left : ClosesAt more last kind n p q) (right : ClosesAt more last kind n p' q') :
    ClosesAt more last kind n (get >>= fun c : Cursor => if c.second.kind = sort then p else p')
      (get >>= fun c : Cursor => if c.second.kind = sort then q else q') := by
  intro c d lone longer short front
  have another := (lone.next (front ▸ other)).rest_ne_nil
  rw [bind_ok (get_run c), bind_ok (get_run d), longer.second another]
  by_cases same : c.second.kind = sort
  · rw [if_pos same, if_pos same]
    exact left c d lone longer short front
  · rw [if_neg same, if_neg same]
    exact right c d lone longer short front

theorem declaration (type : TypeName) (other : kind ≠ .punct .semicolon) :
    ClosesAt more last kind (n + 1) (declaration type) (declaration type) := by
  refine advance_bind other fun word => (Stays.expect (by decide)).bind fun name => ?_
  refine (Stays.accept (by decide)).bind fun found => ?_
  cases found with
  | none =>
      exact (Stays.pure none).bind fun init => .semicolon (by cases init <;> simp [Stmt.visited])
  | some t =>
      exact Stays.expr.map.bind fun init => .semicolon (by cases init <;> simp [Stmt.visited])

theorem inference (other : kind ≠ .punct .semicolon) :
    ClosesAt more last kind (n + 1) inference inference := by
  refine advance_bind other fun word => (Stays.expect (by decide)).bind fun name => ?_
  refine (Stays.sign (by decide)).bind fun _ => Stays.expr.bind fun init => ?_
  exact .semicolon (by simp [Stmt.visited])

theorem assignment (other : kind ≠ .punct .semicolon) :
    ClosesAt more last kind (n + 1) assignment assignment := by
  refine advance_bind other fun name => (Stays.sign (by decide)).bind fun _ => ?_
  exact Stays.expr.bind fun value => .semicolon (by simp [Stmt.visited])

theorem callStatement (other : kind ≠ .punct .semicolon) :
    ClosesAt more last kind (n + 1) callStatement callStatement := by
  -- the call ends before the semicolon, so its parts have to be in a row with it
  have regroup : Parser.callStatement = (advance >>= fun name => itemList expr >>= fun args =>
      sign .semicolon >>= fun _ => pure (.call name.pos name.text args)) := by
    simp only [Parser.callStatement, call, callWith, bind_assoc, pure_bind]
  rw [regroup]
  refine advance_bind other fun name => Stays.arguments.bind fun args => ?_
  exact .semicolon (by simp [Stmt.visited])

theorem returning (other : kind ≠ .punct .semicolon) :
    ClosesAt more last kind (n + 1) returning returning := by
  refine advance_bind other fun word => Stays.peekKind.bind fun front => ?_
  split
  · exact (Stays.pure none).bind fun value => .semicolon (by cases value <;> simp [Stmt.visited])
  · exact Stays.expr.map.bind fun value => .semicolon (by cases value <;> simp [Stmt.visited])

theorem request (other : kind ≠ .punct .semicolon) :
    ClosesAt more last kind (n + 1) request request := by
  refine advance_bind other fun word => (Stays.expect (by decide)).bind fun path => ?_
  exact .semicolon (by simp [Stmt.visited])

theorem jump {s : Stmt} (other : kind ≠ .punct .semicolon)
    (good : ¬ HasBad (s.visited fun _ => true)) :
    ClosesAt more last kind (n + 1)
      (do let _ ← advance; let _ ← sign .semicolon; return s)
      (do let _ ← advance; let _ ← sign .semicolon; return s) :=
  advance_bind other fun _ => .semicolon good

section

variable {nested nested' : Parser Stmt}

theorem definition (other : kind ≠ .punct .semicolon) :
    ClosesAt more last kind (n + 1) (definition nested) (definition nested') := by
  refine advance_bind other fun word => (Stays.expect (by decide)).bind fun name => ?_
  exact Stays.parameters.bind fun params => Stays.resultType.bind fun returns => .block

theorem branching (other : kind ≠ .punct .semicolon) :
    ClosesAt more last kind (n + 1) (branching nested) (branching nested') :=
  advance_bind other fun _ => Stays.condition.bind fun _ => .block

theorem looping (other : kind ≠ .punct .semicolon) :
    ClosesAt more last kind (n + 1) (looping nested) (looping nested') :=
  advance_bind other fun _ => Stays.condition.bind fun _ => .block

/-- What is run by chance ends with the semicolon, unless an alternative follows it. -/
theorem uncertainty (other : kind ≠ .punct .semicolon)
    (fresh : Fresh more last) (closes : Closes more last n nested nested') :
    ClosesAt more last kind (n + 1) (uncertainty nested) (uncertainty nested') := by
  refine advance_bind other fun word => Stays.condition.bind fun probability => ?_
  intro c d lone longer short
  have closing := closes c d lone longer short
  generalize run : nested c = ended at closing
  generalize run' : nested' d = ended' at closing
  cases closing with
  | error lone₁ longer₁ =>
      rw [bind_error run, bind_error run']
      exact .error lone₁ longer₁
  | @ok s c₁ d₁ done good longer₁ =>
      -- here the end of the text is seen: an alternative could follow in the longer one only
      have none : c₁.front.kind ≠ .keyword .otherwiseWord := by
        rw [Cursor.front_of_nil longer₁.ends done]
        exact Kind.noConfusion
      have none' : d₁.front.kind ≠ .keyword .otherwiseWord := by
        apply fresh.front_ne
        · rw [longer₁.rest, done, List.nil_append]
        · exact longer₁.eof
      rw [bind_ok run, bind_ok run', bind_ok (accept_neg none), bind_ok (accept_neg none')]
      exact .ok done (by simpa [Stmt.visited] using good) longer₁

end

end ClosesAt

theorem Closes.statementWith {nested nested' : Parser Stmt}
    (fresh : Fresh more last) (closes : Closes more last n nested nested') :
    Closes more last (n + 1) (statementWith nested) (statementWith nested') := by
  refine peek_bind fun t => ?_
  cases found : typeName? t.kind with
  | some type => exact .declaration type (ne_semicolon rfl found)
  | none =>
      dsimp only
      split
      · next kind => exact .inference (by rw [kind]; decide)
      · next kind =>
        have word : t.kind ≠ .punct .semicolon := by rw [kind]; decide
        exact .second_bind word (.callStatement word) (.assignment word)
      · next kind => exact .definition (by rw [kind]; decide)
      · next kind => exact .branching (by rw [kind]; decide)
      · next kind => exact .looping (by rw [kind]; decide)
      · next kind => exact .jump (by rw [kind]; decide) (by simp [Stmt.visited])
      · next kind => exact .jump (by rw [kind]; decide) (by simp [Stmt.visited])
      · next kind => exact .returning (by rw [kind]; decide)
      · next kind => exact .request (by rw [kind]; decide)
      · next kind => exact .uncertainty (by rw [kind]; decide) fresh closes
      · exact closesAt .block t.kind
      · exact (fail t _).closesAt t.kind

/-- A statement before a lone semicolon ends with it or fails before it, whatever follows. -/
theorem Closes.anyStatement (fresh : Fresh more last) (n : Nat) :
    Closes more last n anyStatement anyStatement := by
  induction n with
  | zero =>
      intro c d lone longer short
      exact absurd (List.length_eq_zero_iff.mp (Nat.le_zero.mp short)) lone.rest_ne_nil
  | succ n ih =>
      intro c d lone longer short
      rw [anyStatement_eq lone.eof, anyStatement_eq (longer.eof ▸ fresh.last)]
      exact statementWith fresh ih c d lone longer short

end Parser

end Samo
