import Samo.Proofs.LexingLines
import Samo.Proofs.SyntaxErrors

/-!
# Every flaw is reported once

A flaw is reported when its token comes to the front and never again. So the flaws that have been
reported and those of the tokens behind the front are always the flaws of the text
(`Cursor.flaws`), and a program is read to the end of its text: of all that is reported, the flaws
are those of the invalid tokens, in their order (`flaws_parse`).
-/

namespace Samo

/-! ## What is reported and what is still to come -/

namespace Cursor

/-- The flaws that were reported, and those of the tokens that were not looked at yet. -/
def flaws (c : Cursor) : List SyntaxError :=
  c.errors.filter (·.fault.isFlaw) ++ c.rest.tail.filterMap Token.error?

/-- Some tokens were taken. No flaw was lost, and none is reported twice. -/
structure Accounts (c c' : Cursor) : Prop where
  eof : c'.eof = c.eof
  rest : c'.rest <:+ c.rest
  flaws : c.eof.kind = .endOfFile → c'.flaws = c.flaws

theorem pending_eq (c : Cursor) : c.pending = c.front.error?.toList := by
  unfold pending Token.error?
  cases c.front.flaw? with
  | none => rfl
  | some flaw => rfl

theorem filter_pending (c : Cursor) : c.pending.filter (·.fault.isFlaw) = c.pending := by
  unfold pending
  cases c.front.flaw? with
  | none => rfl
  | some flaw => rfl

/-- Looking at the token in front reports its flaw. -/
theorem flaws_look (c : Cursor) (ends : c.eof.kind = .endOfFile) :
    c.look.flaws = c.errors.filter (·.fault.isFlaw) ++ c.rest.filterMap Token.error? := by
  rw [flaws, errors_look, rest_look, List.filter_append, filter_pending, pending_eq, front,
    List.append_assoc]
  cases c.rest with
  | nil =>
      have none : c.eof.error? = none := by
        rw [Token.error?, Token.flaw?, ends]
        rfl
      rw [List.headD_nil, none]
      rfl
  | cons t rest =>
      rw [List.headD_cons, List.tail_cons, List.filterMap_cons]
      cases t.error? with
      | none => rfl
      | some e => rfl

namespace Accounts

theorem refl (c : Cursor) : c.Accounts c := ⟨rfl, List.suffix_refl _, fun _ => rfl⟩

theorem trans {c₁ c₂ c₃ : Cursor} (first : c₁.Accounts c₂) (second : c₂.Accounts c₃) :
    c₁.Accounts c₃ := by
  refine ⟨second.eof.trans first.eof, second.rest.trans first.rest, fun ends => ?_⟩
  exact (second.flaws (first.eof ▸ ends)).trans (first.flaws ends)

theorem next (c : Cursor) : c.Accounts c.next := by
  refine ⟨eof_next c, rest_next c ▸ List.tail_suffix _, fun ends => ?_⟩
  unfold Cursor.next
  split
  · rfl
  · next t rest left =>
    refine (flaws_look ⟨rest, c.eof, c.errors⟩ ends).trans ?_
    rw [Cursor.flaws, left]
    rfl

theorem report (c : Cursor) {e : SyntaxError} (grammar : e.fault.isFlaw = false) :
    c.Accounts (c.report e) := by
  refine ⟨rfl, List.suffix_refl _, fun _ => ?_⟩
  rw [Cursor.flaws, Cursor.report, List.filter_append,
    List.filter_cons_of_neg (by rw [grammar]; decide)]
  exact congrArg (· ++ _) (List.append_nil _)

theorem skip (topLevel : Bool) (n : Nat) (c : Cursor) : c.Accounts (c.skip topLevel n) :=
  skip_induction refl next trans topLevel n c

end Accounts

end Cursor

namespace Parser

/-- A parser accounts for all flaws, and what it fails with is none. -/
theorem Stepwise.accounts {α : Type} {p : Parser α} (stepwise : Stepwise p) (c : Cursor) :
    c.Accounts (ending (p c)) ∧ ∀ e c', p c = .error e c' → e.fault.isFlaw = false := by
  induction stepwise generalizing c with
  | pure a => exact ⟨.refl c, fun e c' failed => by cases failed⟩
  | get => exact ⟨.refl c, fun e c' failed => by cases failed⟩
  | advance => exact ⟨.next c, fun e c' failed => by cases failed⟩
  | fail t grammar =>
      refine ⟨.refl c, fun e c' failed => ?_⟩
      cases failed
      exact grammar
  | @bind α β p f first second ihFirst ihSecond =>
      obtain ⟨accounts, grammar⟩ := ihFirst c
      cases run : p c with
      | error e c₁ =>
          rw [run] at accounts grammar
          rw [bind_error run]
          refine ⟨accounts, fun e' c' failed => ?_⟩
          cases failed
          exact grammar e c₁ rfl
      | ok a c₁ =>
          rw [run] at accounts
          rw [bind_ok run]
          obtain ⟨accounts', grammar'⟩ := ihSecond a c₁
          exact ⟨accounts.trans accounts', grammar'⟩
  | @recovering topLevel p inner ih =>
      obtain ⟨accounts, grammar⟩ := ih c
      unfold Parser.recovering
      cases run : p c with
      | ok s c₁ =>
          rw [run] at accounts
          exact ⟨accounts, fun e c' failed => by cases failed⟩
      | error e c₁ =>
          rw [run] at accounts
          refine ⟨?_, fun e' c' failed => by cases failed⟩
          exact (accounts.trans (.report c₁ (grammar e c₁ run))).trans (.skip topLevel _ _)

/-- Items are read up to a token that stops them, if each one takes a token. -/
theorem itemsUntil_stops {α : Type} (stop : Kind → Bool) {item : Parser α}
    (atEnd : stop .endOfFile = true) (keeps : ∀ c, (ending (item c)).eof = c.eof)
    (moves : ∀ c : Cursor, c.eof.kind = .endOfFile → stop c.front.kind = false →
      (ending (item c)).rest.length < c.rest.length)
    {n : Nat} {c c' : Cursor} {as : List α} (ends : c.eof.kind = .endOfFile)
    (enough : c.rest.length ≤ n) (run : itemsUntil stop item n c = .ok as c') :
    stop c'.front.kind = true := by
  induction n generalizing c as with
  | zero =>
      obtain ⟨rfl, rfl⟩ := pure_eq_ok_iff.mp run
      rw [Cursor.front_of_nil ends (List.length_eq_zero_iff.mp (Nat.le_zero.mp enough)), atEnd]
  | succ n ih =>
      unfold itemsUntil at run
      rw [bind_ok (peekKind_run c)] at run
      cases stops : stop c.front.kind with
      | true =>
          rw [stops, if_pos rfl] at run
          obtain ⟨rfl, rfl⟩ := pure_eq_ok_iff.mp run
          exact stops
      | false =>
          rw [stops, if_neg Bool.false_ne_true] at run
          obtain ⟨a, c₁, first, run⟩ := bind_eq_ok_iff.mp run
          obtain ⟨as', c₂, others, run⟩ := bind_eq_ok_iff.mp run
          obtain ⟨rfl, rfl⟩ := pure_eq_ok_iff.mp run
          have same := keeps c
          have moved := moves c ends stops
          rw [first] at same moved
          refine ih (same ▸ ends) ?_ others
          exact Nat.le_of_lt_succ (Nat.lt_of_lt_of_le moved enough)

/-- A program is read up to the end of its text. -/
theorem program_stops {c c' : Cursor} {program : Program} (ends : c.eof.kind = .endOfFile)
    (run : Parser.program c = .ok program c') : c'.front.kind = .endOfFile := by
  unfold Parser.program at run
  rw [bind_ok (remaining_run c)] at run
  have stepwise := Stepwise.recovering true (.statement (c.rest.length + 1))
  refine of_decide_eq_true (itemsUntil_stops (fun kind => decide (kind = .endOfFile))
    (by decide) (fun c => (stepwise.accounts c).1.eof) ?_ ends (Nat.le_refl _) run)
  intro c ends more
  exact (Leads.statement _).length_recovering true ends (of_decide_eq_false more) (by simp)

end Parser

/-- Before a text is read all its flaws are still to come; comments have none. -/
theorem Cursor.flaws_ofText (cs : List Char) : (Cursor.ofText cs).flaws = lexErrors cs := by
  have hidden : ∀ t : Token, t.kind.isHidden = true → t.error? = none := by
    intro t hides
    unfold Token.error? Token.flaw?
    cases kind : t.kind with
    | invalid flaw =>
        rw [kind] at hides
        cases hides
    | endOfFile | intLiteral | stringLiteral | identifier | comment | keyword | punct => rfl
  rw [lexErrors_eq, dropLast_lex, Cursor.ofText, Cursor.flaws_look _ rfl]
  show [] ++ _ = _
  rw [List.nil_append, List.filterMap_filter]
  refine List.filterMap_congr fun t _ => ?_
  cases hides : t.kind.isHidden with
  | false => rfl
  | true => exact (hidden t hides).symm

/-- The flaws that are reported while a text is read are those of its invalid tokens, in order. -/
theorem flaws_parse (cs : List Char) :
    (parse cs).2.filter (·.fault.isFlaw) = lexErrors cs := by
  obtain ⟨program, c, run⟩ := Parser.program_total (.ofText cs)
  have ends := Cursor.ends_ofText cs
  have accounts := (Parser.Stepwise.program.accounts (.ofText cs)).1
  rw [run] at accounts
  -- no token is the end of a text, so none is left
  have done : c.rest = [] := by
    have front := Parser.program_stops ends run
    cases left : c.rest with
    | nil => rfl
    | cons t rest =>
        have member : t ∈ (Cursor.ofText cs).rest :=
          accounts.rest.subset (left ▸ List.mem_cons_self)
        rw [Cursor.ofText, Cursor.rest_look] at member
        rw [Cursor.front, left] at front
        have found := tokensFrom_isWord .start cs t (List.mem_of_mem_filter member)
        exact absurd front (Lexeme.kind_ne_endOfFile found)
  have same : c.flaws = (Cursor.ofText cs).flaws := accounts.flaws ends
  rw [Cursor.flaws_ofText, Cursor.flaws, done] at same
  rw [← same, parse, run]
  exact (List.append_nil _).symm

end Samo
