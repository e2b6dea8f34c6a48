import Samo.Proofs.Cursors
import Samo.Proofs.Run
import Samo.Proofs.TokenOrder
import Samo.Proofs.Within
import Samo.Syntax.Parser.Stmt

/-!
# The words that a tree names

The positions in a statement are those of words that it was read from, so those of a program stand
one behind the other. There is one exception: where the last statement is missing, the word at fault
may be the closing brace of the block, or the end of the text. It is not a word of the bad
statement, and `Stmt.spotsAll` leaves it out (`parse_orderedSpots`).
-/

namespace Samo

/-! ## Reading words -/

namespace Parser

variable {α β : Type}

/--
How a parser ends that started at a cursor. The result names positions, its `spots`. Those and the
tokens that are left are, in order, among the positions `held` from before and the tokens at the
start. An error is at the token in front or at one that was taken.
-/
def Marked (held : List Pos) (spots : α → List Pos) (c : Cursor) :
    EStateM.Result SyntaxError Cursor α → Prop
  | .ok a c' => c.Onward c' ∧ (spots a ++ c'.positions).Sublist (held ++ c.positions)
  | .error e c' =>
    c.Onward c' ∧ (e.pos = c'.front.pos ∨ (e.pos :: c'.positions).Sublist c.positions)

/-- Before a token, a parser takes the tokens that its result names. -/
def MarksAt (t : Token) (held : List Pos) (spots : α → List Pos) (p : Parser α) : Prop :=
  ∀ c : Cursor, c.eof.kind = .endOfFile → c.front = t → Marked held spots c (p c)

/-- A parser takes the tokens that its result names. -/
def Marks (held : List Pos) (spots : α → List Pos) (p : Parser α) : Prop :=
  ∀ t, MarksAt t held spots p

/-- A parser whose result names no token. -/
def Plain (p : Parser α) : Prop := Marks [] (fun _ => []) p

/-- A token that is left unless it is the end. -/
theorem rest_of_front {c : Cursor} {t : Token} (ends : c.eof.kind = .endOfFile)
    (front : c.front = t) (some : t.kind ≠ .endOfFile) : c.rest = t :: c.next.rest := by
  rw [Cursor.rest_next]
  cases left : c.rest with
  | nil =>
      rw [Cursor.front, left, List.headD_nil] at front
      rw [← front] at some
      exact absurd ends some
  | cons u rest =>
      rw [Cursor.front, left, List.headD_cons] at front
      rw [front, List.tail_cons]

theorem positions_of_front {c : Cursor} {t : Token} (ends : c.eof.kind = .endOfFile)
    (front : c.front = t) (some : t.kind ≠ .endOfFile) :
    c.positions = t.pos :: c.next.positions := by
  rw [Cursor.positions, rest_of_front ends front some, List.map_cons, Cursor.positions]

/-- A kind for which something is found is not that of the end. -/
theorem ne_endOfFile_of_found {f : Kind → Option α} {kind : Kind} {a : α}
    (ends : f .endOfFile = none) (found : f kind = some a) : kind ≠ .endOfFile := by
  rintro rfl
  rw [ends] at found
  cases found

namespace Marked

variable {held held' : List Pos} {spots spots' : α → List Pos} {c : Cursor}
  {r : EStateM.Result SyntaxError Cursor α}

/-- What is named after a success may be said in another way. -/
theorem rename (marked : Marked held spots c r)
    (other : ∀ a c', c.Onward c' → (spots a ++ c'.positions).Sublist (held ++ c.positions) →
      (spots' a ++ c'.positions).Sublist (held' ++ c.positions)) : Marked held' spots' c r := by
  cases r with
  | error e c' => exact marked
  | ok a c' => exact ⟨marked.1, other a c' marked.1 marked.2⟩

/-- What is read next goes on from what was taken before. -/
theorem after {c₁ : Cursor} (onward : c.Onward c₁)
    (taken : (held' ++ c₁.positions).Sublist (held ++ c.positions))
    (marked : Marked held' spots c₁ r) : Marked held spots c r := by
  cases r with
  | error e c' =>
      exact ⟨onward.trans marked.1, marked.2.imp_right fun early => early.trans onward.rest⟩
  | ok a c' => exact ⟨onward.trans marked.1, marked.2.trans taken⟩

end Marked

namespace MarksAt

variable {t : Token} {held : List Pos} {spots : α → List Pos} {spots' : β → List Pos}

theorem pure {a : α} (same : spots a = held) : MarksAt t held spots (pure a) := by
  intro c ends front
  subst same
  exact ⟨.refl c, .refl _⟩

theorem bind {p : Parser α} {f : α → Parser β} (first : MarksAt t held spots p)
    (second : ∀ a, Marks (spots a) spots' (f a)) : MarksAt t held spots' (p >>= f) := by
  intro c ends front
  have first := first c ends front
  cases run : p c with
  | error e c₁ =>
      rw [run] at first
      rw [bind_error run]
      exact first
  | ok a c₁ =>
      rw [run] at first
      rw [bind_ok run]
      obtain ⟨onward, taken⟩ := first
      exact .after onward taken (second a _ c₁ (by rw [onward.eof]; exact ends) rfl)

/-- What was taken before can be kept. -/
theorem keep {p : Parser α} (marks : MarksAt t [] spots p) (held : List Pos) :
    MarksAt t held (fun a => held ++ spots a) p := by
  intro c ends front
  refine (marks c ends front).rename fun a c' _ taken => ?_
  rw [List.append_assoc]
  exact taken.append_left held

theorem ite {x : Prop} [Decidable x] {p p' : Parser α} (left : MarksAt t held spots p)
    (right : MarksAt t held spots p') : MarksAt t held spots (if x then p else p') := by
  split
  · exact left
  · exact right

theorem fail (fault : Fault) : MarksAt t held spots (fail t fault : Parser α) := by
  rintro c - rfl
  exact ⟨.refl c, .inl rfl⟩

theorem peek_bind {f : Token → Parser α} (second : MarksAt t held spots (f t)) :
    MarksAt t held spots (peek >>= f) := by
  rintro c ends rfl
  exact second c ends rfl

theorem peekKind_bind {f : Kind → Parser α} (second : MarksAt t held spots (f t.kind)) :
    MarksAt t held spots (peekKind >>= f) := by
  rintro c ends rfl
  exact second c ends rfl

theorem get_bind {f : Cursor → Parser α} (second : ∀ c, MarksAt t held spots (f c)) :
    MarksAt t held spots (get >>= f) :=
  fun c ends front => second c c ends front

/-- A token that is taken is held from then on. -/
theorem advance_bind {f : Token → Parser α} (some : t.kind ≠ .endOfFile)
    (second : Marks (held ++ [t.pos]) spots (f t)) : MarksAt t held spots (advance >>= f) := by
  intro c ends front
  have onward := Cursor.Onward.next c
  have run : (advance >>= f) c = f t c.next := by
    rw [← front]
    rfl
  rw [run]
  refine .after onward ?_ (second _ c.next (by rw [onward.eof]; exact ends) rfl)
  simp only [positions_of_front ends front some, ← List.append_cons, List.Sublist.refl]

/-- A token may be found at fault after it was taken. -/
theorem advance_fail (some : t.kind ≠ .endOfFile) (fault : Fault) :
    MarksAt t held spots (do let _ ← advance; Parser.fail t fault : Parser α) := by
  intro c ends front
  refine ⟨.next c, .inr ?_⟩
  simp only [positions_of_front ends front some, List.Sublist.refl]

end MarksAt

namespace Marks

variable {held : List Pos} {spots : α → List Pos} {spots' : β → List Pos}

theorem pure {a : α} (same : spots a = held) : Marks held spots (pure a) := fun _ => .pure same

theorem bind {p : Parser α} {f : α → Parser β} (first : Marks held spots p)
    (second : ∀ a, Marks (spots a) spots' (f a)) : Marks held spots' (p >>= f) :=
  fun t => (first t).bind second

theorem keep {p : Parser α} (marks : Marks [] spots p) (held : List Pos) :
    Marks held (fun a => held ++ spots a) p := fun t => (marks t).keep held

theorem map {p : Parser α} {f : α → β} (first : Marks held spots p)
    (same : ∀ a, spots' (f a) = spots a) : Marks held spots' (f <$> p) := by
  rw [← bind_pure_comp]
  exact first.bind fun a => pure (same a)

/-- Not every token that is held has to be named. -/
theorem weaken {held' : List Pos} {p : Parser α} (marks : Marks held' spots p)
    (less : held'.Sublist held) : Marks held spots p := by
  intro t c ends front
  exact (marks t c ends front).rename fun a c' _ taken => taken.trans (less.append_right _)

/-- Not every token that is taken has to be named. -/
theorem plain {p : Parser α} (marks : Marks [] spots p) : Plain p := by
  intro t c ends front
  exact (marks t c ends front).rename fun a c' onward _ => onward.rest

theorem expect {kind : Kind} (some : kind ≠ .endOfFile) :
    Marks [] (fun t => [t.pos]) (expect kind) := by
  intro t
  refine .peek_bind ?_
  split
  · next same =>
    rw [← bind_pure advance]
    exact .advance_bind (by rw [same]; exact some) (pure rfl)
  · exact .fail _

theorem sign (p : Punct) : Marks [] (fun t => [t.pos]) (sign p) := expect Kind.noConfusion

theorem accept {kind : Kind} (some : kind ≠ .endOfFile) :
    Marks [] (fun found => (found.map Token.pos).toList) (accept kind) := by
  intro t
  refine .peekKind_bind ?_
  split
  · next same => exact .advance_bind (by rw [same]; exact some) (.pure rfl)
  · exact .pure rfl

end Marks

namespace Plain

theorem remaining : Plain remaining := fun _ => .get_bind fun _ => .pure rfl

theorem sign (p : Punct) : Plain (sign p) := (Marks.sign p).plain

theorem keep {p : Parser α} (plain : Plain p) (held : List Pos) : Marks held (fun _ => held) p := by
  have kept := Marks.keep plain held
  simp only [List.append_nil] at kept
  exact kept

theorem followed {p : Parser α} {f : α → Parser β} {spots : β → List Pos} {held : List Pos}
    (first : Plain p) (second : ∀ a, Marks held spots (f a)) : Marks held spots (p >>= f) :=
  (first.keep held).bind second

end Plain

/-! ## Expressions -/

namespace Marks

section Items

variable {item : Parser α} {spots : α → List Pos}

theorem moreItems (marks : Marks [] spots item) (n : Nat) :
    Marks [] (fun as => as.flatMap spots) (moreItems item n) := by
  induction n with
  | zero => exact .pure rfl
  | succ n ih =>
      refine (accept Kind.noConfusion).plain.followed fun found => ?_
      cases found with
      | none => exact .pure rfl
      | some t =>
          exact marks.bind fun a => (ih.keep (spots a)).bind fun as => .pure List.flatMap_cons

theorem itemList (marks : Marks [] spots item) :
    Marks [] (fun as => as.flatMap spots) (itemList item) := by
  refine (Plain.sign _).followed fun _ t => .peekKind_bind ?_
  split
  · exact (Plain.sign _).followed (fun _ => .pure rfl) t
  · refine marks.bind (fun a => Plain.remaining.followed fun n => ?_) t
    refine ((moreItems marks n).keep (spots a)).bind fun as => (Plain.sign _).followed fun _ => ?_
    exact .pure List.flatMap_cons

end Items

variable {operand nested : Parser Expr}

theorem signed {mark : Kind} (some : mark ≠ .endOfFile) (op : UnaryOp)
    (marks : Marks [] Expr.spots operand) (n : Nat) :
    Marks [] Expr.spots (signed mark op operand n) := by
  induction n with
  | zero => exact marks
  | succ n ih =>
      refine (accept some).bind fun found => ?_
      cases found with
      | none => exact marks
      | some t => exact (ih.keep [t.pos]).bind fun x => .pure (by rw [Expr.spots]; rfl)

theorem moreOperands {op? : Kind → Option BinaryOp} (ends : op? .endOfFile = none)
    (marks : Marks [] Expr.spots operand) (n : Nat) (x : Expr) :
    Marks x.spots Expr.spots (moreOperands op? operand n x) := by
  induction n generalizing x with
  | zero => exact .pure rfl
  | succ n ih =>
      intro t
      refine .peek_bind ?_
      cases found : op? t.kind with
      | none => exact .pure rfl
      | some op =>
          refine .advance_bind (ne_endOfFile_of_found ends found) ((marks.keep _).bind fun y => ?_)
          have later := ih (.binary t.pos op x y)
          rw [Expr.spots, List.append_cons] at later
          exact later

theorem leftGrouped {op? : Kind → Option BinaryOp} (ends : op? .endOfFile = none)
    (marks : Marks [] Expr.spots operand) : Marks [] Expr.spots (leftGrouped op? operand) :=
  marks.bind fun x => Plain.remaining.followed fun n => moreOperands ends marks n x

theorem callWith (marks : Marks [] Expr.spots nested) {t : Token} (some : t.kind ≠ .endOfFile) :
    MarksAt t [] (fun call => call.1 :: Expr.spotsAll call.2.2) (callWith nested) := by
  refine .advance_bind some (((itemList marks).keep [t.pos]).bind fun args => .pure ?_)
  rw [Expr.spotsAll_eq_flatMap]
  rfl

theorem primary (marks : Marks [] Expr.spots nested) : Marks [] Expr.spots (primary nested) := by
  intro t
  refine .peek_bind ?_
  split
  · next kind =>
    have some : t.kind ≠ .endOfFile := by simp [kind]
    cases Literal.int? t.text with
    | none => exact .advance_fail some _
    | some n => exact .advance_bind some (.pure (by rw [Expr.spots]; rfl))
  · next kind => exact .advance_bind (by simp [kind]) (.pure (by rw [Expr.spots]; rfl))
  · next kind => exact .advance_bind (by simp [kind]) (.pure (by rw [Expr.spots]; rfl))
  · next kind => exact .advance_bind (by simp [kind]) (.pure (by rw [Expr.spots]; rfl))
  · next kind =>
    refine .get_bind fun c => .ite ?_ ?_
    · exact (callWith marks (by simp [kind])).bind fun call => .pure (by rw [Expr.spots])
    · exact .advance_bind (by simp [kind]) (.pure (by rw [Expr.spots]; rfl))
  · next kind =>
    refine .advance_bind (by simp [kind]) ((marks.keep _).bind fun x => ?_)
    exact (Plain.sign _).followed fun _ => .pure (by rw [Expr.spots]; rfl)
  · exact .fail _

theorem sum (marks : Marks [] Expr.spots nested) : Marks [] Expr.spots (sum nested) := by
  refine leftGrouped rfl (leftGrouped rfl ?_)
  exact Plain.remaining.followed fun n => signed Kind.noConfusion _ (primary marks) n

theorem comparison (marks : Marks [] Expr.spots nested) :
    Marks [] Expr.spots (comparison nested) := by
  refine (sum marks).bind fun x t => .peek_bind ?_
  cases found : comparisonOp? t.kind with
  | none => exact .pure rfl
  | some op =>
      refine .advance_bind (ne_endOfFile_of_found rfl found)
        (((sum marks).keep _).bind fun y u => .peek_bind ?_)
      cases comparisonOp? u.kind with
      | none => exact .pure (by rw [Expr.spots, List.append_cons])
      | some op' => exact .fail _

theorem disjunction (marks : Marks [] Expr.spots nested) :
    Marks [] Expr.spots (disjunction nested) := by
  refine leftGrouped rfl (leftGrouped rfl ?_)
  exact Plain.remaining.followed fun n => signed Kind.noConfusion _ (comparison marks) n

theorem expression (n : Nat) : Marks [] Expr.spots (expression n) := by
  induction n with
  | zero => exact fun t => .peek_bind (.fail _)
  | succ n ih => exact disjunction ih

theorem expr : Marks [] Expr.spots expr := Plain.remaining.followed fun n => expression (n + 1)

theorem condition : Marks [] Expr.spots condition :=
  (Plain.sign _).followed fun _ => expr.bind fun _ => (Plain.sign _).followed fun _ => .pure rfl

theorem parameter : Marks [] Param.spots parameter := by
  intro t
  refine .peek_bind ?_
  cases found : typeName? t.kind with
  | none => exact .fail _
  | some type =>
      exact .advance_bind (ne_endOfFile_of_found rfl found)
        (((expect Kind.noConfusion).keep _).bind fun name => .pure rfl)

theorem resultType : Marks [] (fun returns => (returns.map Prod.fst).toList) resultType := by
  intro t
  refine .peek_bind ?_
  cases found : typeName? t.kind with
  | none => exact .pure rfl
  | some type =>
      exact .advance_bind (ne_endOfFile_of_found rfl found) (.pure rfl)

/-! ## Statements -/

end Marks

/-- The token in front ends what is read statement by statement. -/
def Ended (topLevel : Bool) (kind : Kind) : Prop :=
  kind = .endOfFile ∨ topLevel = false ∧ kind = .punct .rightBrace

/-- Outside of all blocks only the end of the text ends what is read. -/
theorem ended_top (kind : Kind) (ended : Ended true kind) : (kind = .endOfFile : Bool) = true := by
  rcases ended with rfl | ⟨inside, -⟩
  · rfl
  · cases inside

/-- At least one token is skipped, unless the one in front ends what is read. -/
theorem skip_takes {topLevel : Bool} {c : Cursor} (ends : c.eof.kind = .endOfFile)
    (on : ¬ Ended topLevel c.front.kind) :
    (c.front.pos :: (c.skip topLevel c.rest.length).positions).Sublist c.positions := by
  have some : c.front.kind ≠ .endOfFile := fun kind => on (.inl kind)
  rw [positions_of_front ends rfl some, rest_of_front ends rfl some, List.length_cons]
  refine List.Sublist.cons_cons _ ?_
  unfold Cursor.skip
  split
  · next kind => exact absurd kind some
  · exact .refl _
  · next kind =>
    split
    · exact .refl _
    · next inside => exact absurd (.inr ⟨Bool.eq_false_iff.mpr inside, kind⟩) on
  · exact (Cursor.Onward.skip topLevel _ c.next).rest

theorem skip_of_ended {topLevel : Bool} {c : Cursor} (ended : Ended topLevel c.front.kind)
    (n : Nat) : c.skip topLevel n = c := by
  cases n with
  | zero => rfl
  | succ n =>
      unfold Cursor.skip
      rcases ended with kind | ⟨inside, kind⟩
      · rw [kind]
      · rw [kind, inside]
        rfl

/-- What takes the place of a statement may stand at the token that ends what is read. -/
theorem recovering_marks {p : Parser Stmt} (topLevel : Bool) (marks : Marks [] Stmt.spots p)
    (c : Cursor) (ends : c.eof.kind = .endOfFile) :
    ∃ s c', recovering topLevel p c = .ok s c' ∧ c.Onward c' ∧
      ((s.spots ++ c'.positions).Sublist c.positions ∨
        s.isBadAt c'.front.pos = true ∧ Ended topLevel c'.front.kind) := by
  have marks := marks c.front c ends rfl
  unfold recovering
  cases inner : p c with
  | ok s c₁ =>
      rw [inner] at marks
      exact ⟨s, c₁, rfl, marks.1, .inl marks.2⟩
  | error e c₁ =>
      rw [inner] at marks
      obtain ⟨onward, place⟩ := marks
      have skipped := Cursor.Onward.skip topLevel c₁.rest.length (c₁.report e)
      refine ⟨_, _, rfl, (onward.trans (.report c₁ e)).trans skipped, ?_⟩
      have ends₁ : (c₁.report e).eof.kind = .endOfFile := by
        rw [Cursor.report, onward.eof]
        exact ends
      rw [Stmt.spots, List.singleton_append]
      rcases place with front | taken
      · by_cases ended : Ended topLevel c₁.front.kind
        · right
          rw [skip_of_ended (c := c₁.report e) ended]
          exact ⟨decide_eq_true front.symm, ended⟩
        · left
          rw [front]
          exact (skip_takes ends₁ ended).trans onward.rest
      · exact .inl (.trans (.cons_cons _ skipped.rest) taken)

/-- Statements are read up to the token in front, where the last of them may be missing. -/
theorem itemsUntil_marks {p : Parser Stmt} (topLevel : Bool) (marks : Marks [] Stmt.spots p)
    {stop : Kind → Bool} (stops : ∀ kind, Ended topLevel kind → stop kind = true) (n : Nat)
    (c : Cursor) (ends : c.eof.kind = .endOfFile) :
    ∃ ss c', itemsUntil stop (recovering topLevel p) n c = .ok ss c' ∧ c.Onward c' ∧
      (Stmt.spotsAll c'.front.pos ss ++ c'.positions).Sublist c.positions := by
  induction n generalizing c with
  | zero => exact ⟨[], c, rfl, .refl c, by rw [Stmt.spotsAll]; exact .refl _⟩
  | succ n ih =>
      unfold itemsUntil
      by_cases done : stop c.front.kind = true
      · refine ⟨[], c, ?_, .refl c, by rw [Stmt.spotsAll]; exact .refl _⟩
        show (if stop c.front.kind = true then _ else _ : Parser (List Stmt)) c = _
        rw [if_pos done]
        rfl
      · obtain ⟨s, c₁, run, onward, place⟩ := recovering_marks topLevel marks c ends
        obtain ⟨ss, c₂, run', onward', others⟩ := ih c₁ (by rw [onward.eof]; exact ends)
        refine ⟨s :: ss, c₂, ?_, onward.trans onward', ?_⟩
        · show (if stop c.front.kind = true then _ else _ : Parser (List Stmt)) c = _
          rw [if_neg done, bind_ok run, bind_ok run']
          rfl
        · rw [Stmt.spotsAll, List.append_assoc]
          rcases place with taken | ⟨missing, ended⟩
          · have kept : (if ss.isEmpty && s.isBadAt c₂.front.pos then [] else s.spots).Sublist
                s.spots := by
              split
              · exact List.nil_sublist _
              · exact .refl _
            exact (kept.append others).trans taken
          · -- nothing is read behind a missing statement
            have last : ss = [] ∧ c₂ = c₁ := by
              cases n with
              | zero =>
                  cases run'
                  exact ⟨rfl, rfl⟩
              | succ n =>
                  unfold itemsUntil at run'
                  change (if stop c₁.front.kind = true then _ else _ : Parser (List Stmt)) c₁ = _
                    at run'
                  rw [if_pos (stops _ ended)] at run'
                  cases run'
                  exact ⟨rfl, rfl⟩
            rw [last.2, if_pos (by rw [last.1, missing]; rfl)]
            rw [last.2] at others
            exact others.trans onward.rest

namespace MarksAt

variable {t : Token} {held : List Pos} {spots : α → List Pos}

theorem expect_bind {kind : Kind} {f : Token → Parser α} (some : kind ≠ .endOfFile)
    (second : Marks (held ++ [t.pos]) spots (f t)) : MarksAt t held spots (expect kind >>= f) := by
  unfold Parser.expect
  rw [bind_assoc]
  refine .peek_bind ?_
  split
  · next same => exact .advance_bind (by rw [same]; exact some) second
  · rintro c - rfl
    exact ⟨.refl c, .inl rfl⟩

end MarksAt

namespace Marks

variable {nested : Parser Stmt}

/-- A block ends with a brace, at which the last of its statements may be missing. -/
theorem block (marks : Marks [] Stmt.spots nested) : Marks [] Block.spots (block nested) := by
  refine (sign _).bind fun opening => Plain.remaining.followed fun n => ?_
  have stops : ∀ kind, Ended false kind →
      (fun k => k = .punct .rightBrace || k = .endOfFile : Kind → Bool) kind = true := by
    rintro kind (rfl | ⟨-, rfl⟩)
    · rfl
    · rfl
  intro t c ends front
  obtain ⟨ss, c₁, run, onward, taken⟩ := itemsUntil_marks false marks stops n c ends
  rw [bind_ok run]
  have closes : MarksAt c₁.front (opening.pos :: Stmt.spotsAll c₁.front.pos ss) Block.spots (do
      let closing ← Parser.sign .rightBrace
      return Block.mk opening.pos closing.pos ss) :=
    .expect_bind Kind.noConfusion (.pure (by rw [Block.spots]; rfl))
  exact .after onward (taken.cons_cons opening.pos) (closes c₁ (by rw [onward.eof]; exact ends) rfl)

theorem declaration (type : TypeName) {t : Token} (some : t.kind ≠ .endOfFile) :
    MarksAt t [] Stmt.spots (declaration type) := by
  refine .advance_bind some (((expect Kind.noConfusion).keep _).bind fun name => ?_)
  have last : ∀ init : Option Expr,
      Marks ([t.pos, name.pos] ++ init.elim [] Expr.spots) Stmt.spots (do
        let _ ← Parser.sign .semicolon
        return Stmt.declare t.pos type name.pos name.text init) :=
    fun init => (Plain.sign _).followed fun _ => .pure (by rw [Stmt.spots]; rfl)
  refine (accept Kind.noConfusion).plain.followed fun found => ?_
  cases found with
  | none => exact (pure rfl).bind last
  | some _ =>
      have value : Marks [t.pos, name.pos]
          (fun init => [t.pos, name.pos] ++ init.elim [] Expr.spots)
          (Option.some <$> Parser.expr) := (expr.keep _).map fun _ => rfl
      exact value.bind last

theorem inference {t : Token} (some : t.kind ≠ .endOfFile) : MarksAt t [] Stmt.spots inference := by
  refine .advance_bind some (((expect Kind.noConfusion).keep _).bind fun name => ?_)
  refine (Plain.sign _).followed fun _ => (expr.keep _).bind fun init => ?_
  exact (Plain.sign _).followed fun _ => .pure (by rw [Stmt.spots]; rfl)

theorem assignment {t : Token} (some : t.kind ≠ .endOfFile) :
    MarksAt t [] Stmt.spots assignment := by
  refine .advance_bind some ((Plain.sign _).followed fun _ => (expr.keep _).bind fun value => ?_)
  exact (Plain.sign _).followed fun _ => .pure (by rw [Stmt.spots]; rfl)

theorem callStatement {t : Token} (some : t.kind ≠ .endOfFile) :
    MarksAt t [] Stmt.spots callStatement :=
  (callWith expr some).bind fun call =>
    (Plain.sign _).followed fun _ => .pure (by rw [Stmt.spots])

theorem definition (marks : Marks [] Stmt.spots nested) {t : Token} (some : t.kind ≠ .endOfFile) :
    MarksAt t [] Stmt.spots (definition nested) := by
  refine .advance_bind some (((expect Kind.noConfusion).keep _).bind fun name => ?_)
  refine ((itemList parameter).keep _).bind fun params => (resultType.keep _).bind fun returns => ?_
  refine ((block marks).keep _).bind fun body => .pure ?_
  rw [Stmt.spots, Header.spots]
  simp only [List.nil_append, List.append_assoc, List.cons_append]

theorem branches (marks : Marks [] Stmt.spots nested) (n : Nat) :
    Marks [] Branches.spots (branches nested n) := by
  induction n with
  | zero => exact .pure (by rw [Branches.spots])
  | succ n ih =>
      refine (accept Kind.noConfusion).bind fun found => ?_
      cases found with
      | none => exact .pure (by rw [Branches.spots]; rfl)
      | some elseWord =>
          refine ((accept Kind.noConfusion).keep _).bind fun found => ?_
          cases found with
          | none =>
              exact ((block marks).keep _).bind fun body => .pure (by rw [Branches.spots]; rfl)
          | some ifWord =>
              -- the first of the two words is not named
              have named : Marks [ifWord.pos] Branches.spots (do
                  let cond ← Parser.condition
                  let body ← Parser.block nested
                  return .elseIf ifWord.pos cond body (← Parser.branches nested n)) := by
                refine (condition.keep _).bind fun cond => ?_
                refine ((block marks).keep _).bind fun body => ?_
                refine (ih.keep _).bind fun rest => .pure ?_
                rw [Branches.spots]
                simp
              exact named.weaken (List.sublist_append_right _ _)

theorem branching (marks : Marks [] Stmt.spots nested) {t : Token} (some : t.kind ≠ .endOfFile) :
    MarksAt t [] Stmt.spots (branching nested) := by
  refine .advance_bind some ((condition.keep _).bind fun cond => ?_)
  refine ((block marks).keep _).bind fun body => Plain.remaining.followed fun n => ?_
  refine ((branches marks n).keep _).bind fun rest => .pure ?_
  rw [Stmt.spots]
  simp

theorem looping (marks : Marks [] Stmt.spots nested) {t : Token} (some : t.kind ≠ .endOfFile) :
    MarksAt t [] Stmt.spots (looping nested) := by
  refine .advance_bind some ((condition.keep _).bind fun cond => ?_)
  refine ((block marks).keep _).bind fun body => .pure ?_
  rw [Stmt.spots]
  simp

theorem returning {t : Token} (some : t.kind ≠ .endOfFile) : MarksAt t [] Stmt.spots returning := by
  have last : ∀ value : Option Expr, Marks ([t.pos] ++ value.elim [] Expr.spots) Stmt.spots (do
      let _ ← Parser.sign .semicolon
      return Stmt.returnWith t.pos value) :=
    fun value => (Plain.sign _).followed fun _ => .pure (by rw [Stmt.spots]; rfl)
  refine .advance_bind some fun u => .peekKind_bind ?_
  split
  · exact (pure rfl).bind last u
  · have value : Marks [t.pos] (fun value => [t.pos] ++ value.elim [] Expr.spots)
        (Option.some <$> Parser.expr) := (expr.keep _).map fun _ => rfl
    exact value.bind last u

theorem request {t : Token} (some : t.kind ≠ .endOfFile) : MarksAt t [] Stmt.spots request := by
  refine .advance_bind some ((expect Kind.noConfusion).plain.followed fun path => ?_)
  exact (Plain.sign _).followed fun _ => .pure (by rw [Stmt.spots]; rfl)

theorem uncertainty (marks : Marks [] Stmt.spots nested) {t : Token} (some : t.kind ≠ .endOfFile) :
    MarksAt t [] Stmt.spots (uncertainty nested) := by
  refine .advance_bind some ((condition.keep _).bind fun probability => ?_)
  refine (marks.keep _).bind fun body => ((accept Kind.noConfusion).keep _).bind fun found => ?_
  cases found with
  | none =>
      refine .pure ?_
      rw [Stmt.spots]
      simp
  | some word =>
      refine (marks.keep _).bind fun alternative => .pure ?_
      rw [Stmt.spots]
      simp

theorem statementWith (marks : Marks [] Stmt.spots nested) :
    Marks [] Stmt.spots (statementWith nested) := by
  intro t
  have jump : ∀ s : Stmt, s.spots = [t.pos] → t.kind ≠ .endOfFile → MarksAt t [] Stmt.spots
      (do let _ ← Parser.advance; let _ ← Parser.sign .semicolon; return s) :=
    fun s own some => .advance_bind some ((Plain.sign _).followed fun _ => .pure own)
  refine .peek_bind ?_
  cases found : typeName? t.kind with
  | some type =>
      exact declaration type (ne_endOfFile_of_found rfl found)
  | none =>
      dsimp only
      split
      · next kind => exact inference (by simp [kind])
      · next kind =>
        have some : t.kind ≠ .endOfFile := by simp [kind]
        exact .get_bind fun c => .ite (callStatement some) (assignment some)
      · next kind => exact definition marks (by simp [kind])
      · next kind => exact branching marks (by simp [kind])
      · next kind => exact looping marks (by simp [kind])
      · next kind => exact jump (.breakOut t.pos) (by rw [Stmt.spots]) (by simp [kind])
      · next kind => exact jump (.continueOn t.pos) (by rw [Stmt.spots]) (by simp [kind])
      · next kind => exact returning (by simp [kind])
      · next kind => exact request (by simp [kind])
      · next kind => exact uncertainty marks (by simp [kind])
      · exact (block marks).bind (fun body => .pure (by rw [Stmt.spots])) t
      · exact .fail _

theorem statement (n : Nat) : Marks [] Stmt.spots (statement n) := by
  induction n with
  | zero => exact fun t => .peek_bind (.fail _)
  | succ n ih => exact statementWith ih

end Marks

end Parser

/-! ## Whole texts -/

/-- The tokens of a text and its end stand one behind the other. -/
theorem Cursor.ofText_ordered (cs : List Char) :
    ((Cursor.ofText cs).positions ++ [(Cursor.ofText cs).eof.pos]).Pairwise Pos.Before := by
  have shown : ∀ t ∈ (tokensFrom .start cs).filter (!·.kind.isHidden), t ∈ tokensFrom .start cs :=
    fun t member => (List.mem_filter.mp member).1
  rw [Cursor.positions, Cursor.ofText, Cursor.rest_look, Cursor.eof_look, List.pairwise_append]
  refine ⟨?_, List.pairwise_singleton _ _, ?_⟩
  · rw [List.pairwise_map]
    exact (tokensFrom_ordered .start cs).2.sublist List.filter_sublist
  · intro p member q ends
    obtain ⟨t, kept, rfl⟩ := List.mem_map.mp member
    rw [List.mem_singleton.mp ends]
    exact before_end_of_mem_tokensFrom (shown t kept)

/-- The front of a cursor is the first of the tokens that are left, or the end. -/
theorem Cursor.front_sublist (c : Cursor) : [c.front.pos].Sublist (c.positions ++ [c.eof.pos]) := by
  unfold Cursor.positions Cursor.front
  cases c.rest with
  | nil => exact .refl _
  | cons t ts => exact List.singleton_sublist.mpr (List.mem_cons_self ..)

/-- The spots of a program stand one behind the other if its tokens do. -/
theorem Parser.program_orderedSpots {c : Cursor} (ends : c.eof.kind = .endOfFile)
    (ordered : (c.positions ++ [c.eof.pos]).Pairwise Pos.Before) :
    ∃ program c', Parser.program c = .ok program c' ∧
      (Stmt.spotsAll c'.front.pos program).Sublist c.positions ∧
      (Stmt.spotsAll c'.front.pos program ++ [c'.front.pos]).Pairwise Pos.Before := by
  obtain ⟨program, c', run, onward, taken⟩ := Parser.itemsUntil_marks true
    (Parser.Marks.statement (c.rest.length + 1)) Parser.ended_top c.rest.length c ends
  refine ⟨program, c', run, (List.sublist_append_left _ _).trans taken, ordered.sublist ?_⟩
  have whole := taken.append_right [c.eof.pos]
  rw [List.append_assoc, ← onward.eof] at whole
  rw [← onward.eof]
  exact (c'.front_sublist.append_left _).trans whole

/-- The spots of a program that was read from a text are those of tokens, one behind the other. -/
theorem parse_orderedSpots (cs : List Char) :
    ∃ stop, (Stmt.spotsAll stop (parse cs).1).Sublist (Cursor.ofText cs).positions ∧
      (Stmt.spotsAll stop (parse cs).1 ++ [stop]).Pairwise Pos.Before := by
  obtain ⟨program, c, read, ordered⟩ :=
    Parser.program_orderedSpots (Cursor.ends_ofText cs) (Cursor.ofText_ordered cs)
  refine ⟨c.front.pos, ?_⟩
  rw [parse, read]
  exact ordered

end Samo
