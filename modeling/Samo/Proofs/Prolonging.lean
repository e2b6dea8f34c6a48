import Samo.Proofs.Carrying
import Samo.Proofs.LineBreaks
import Samo.Proofs.SyntaxErrors
import Samo.Proofs.Yielding

/-!
# A text that goes on

When a text goes on, its statements stay what they are, except for the last one. An if statement may
get another arm, what is run by chance may get an alternative, and what cannot be read any more is
replaced by a bad statement. Whatever is new stands in the new part of the text
(`Parser.program_prolongs`).
-/

namespace Samo

variable {Q : Pos → Prop}

/-- The arms of an if statement go on in a part of a text. -/
inductive Branches.Prolongs (Q : Pos → Prop) : Branches → Branches → Prop
  | refl (rest) : Prolongs Q rest rest
  | done {rest} : (∀ p ∈ rest.spots, Q p) → Prolongs Q .done rest
  | elseIf {p cond body rest rest'} : Prolongs Q rest rest' →
      Prolongs Q (.elseIf p cond body rest) (.elseIf p cond body rest')

/-- A statement goes on in a part of a text. -/
inductive Stmt.Prolongs (Q : Pos → Prop) : Stmt → Stmt → Prop
  | refl (s) : Prolongs Q s s
  | branch {p cond body rest rest'} : rest.Prolongs Q rest' →
      Prolongs Q (.branch p cond body rest) (.branch p cond body rest')
  | maybe {p e body body'} : Prolongs Q body body' → Prolongs Q (.maybe p e body) (.maybe p e body')
  | alternative {p e body body' op other} : Prolongs Q body body' → Q op →
      (∀ p ∈ other.spots, Q p) → Prolongs Q (.maybe p e body) (.maybeOtherwise p e body' op other)
  | otherwise {p e body op other other'} : Prolongs Q other other' →
      Prolongs Q (.maybeOtherwise p e body op other) (.maybeOtherwise p e body op other')

/-- A program goes on in a part of a text. -/
inductive Program.Prolongs (Q : Pos → Prop) : Program → Program → Prop
  | fresh {news} : (∀ s ∈ news, ∀ p ∈ s.spots, Q p) → Prolongs Q [] news
  | lost {s pos fault news} : Q pos → (∀ s ∈ news, ∀ p ∈ s.spots, Q p) →
      Prolongs Q [s] (.bad pos fault :: news)
  | last {s s' news} : s.Prolongs Q s' → (∀ s ∈ news, ∀ p ∈ s.spots, Q p) →
      Prolongs Q [s] (s' :: news)
  | cons {s ss ss'} : Prolongs Q ss ss' → Prolongs Q (s :: ss) (s :: ss')

namespace Parser

variable {α β : Type} {more : List Token} {last : Token} {n : Nat}

/-- The new part of a text: the tokens that were added, and the new end. -/
structure Added (Q : Pos → Prop) (more : List Token) (last : Token) : Prop where
  ends : last.kind = .endOfFile
  more : ∀ t ∈ more, Q t.pos
  last : Q last.pos

/-- Where the old text ends the new part begins. -/
theorem Added.within {c d : Cursor} (added : Added Q more last) (longer : c.Longer more last d)
    (done : c.rest = []) : d.Within Q := by
  rw [← longer.eof] at added
  refine ⟨?_, added.last, added.ends⟩
  rw [Cursor.positions, longer.rest, done, List.nil_append]
  exact List.forall_mem_map.mpr added.more

/--
What one parser reads up to the end of a text, another one goes on with in a longer text: its result
is related to the first one, or it fails in the new part.
-/
def GoesOn (Q : Pos → Prop) (more : List Token) (last : Token) (R : α → α → Prop) (n : Nat)
    (p q : Parser α) : Prop :=
  ∀ c d a c', c.Longer more last d → c.rest.length ≤ n → p c = .ok a c' → c'.rest = [] →
    Ends Q (R a) (q d)

theorem Firm.goesOn {R : α → α → Prop} {p q : Parser α} (firm : Firm more last n p q)
    (added : Added Q more last) (refl : ∀ a, R a a) : GoesOn Q more last R n p q := by
  intro c d a c' longer short run done
  obtain ⟨d', run', longer'⟩ := firm.follows c d a c' longer short run
  rw [run']
  exact ⟨refl a, added.within longer' done⟩

/-- Something with an end of its own before something that goes on. -/
theorem Firm.before {R : β → β → Prop} {p q : Parser α} {f g : α → Parser β}
    (firm : Firm more last n p q) (stepwise : Stepwise p)
    (second : ∀ a, GoesOn Q more last R n (f a) (g a)) :
    GoesOn Q more last R n (p >>= f) (q >>= g) := by
  intro c d b c' longer short run done
  obtain ⟨a, c₁, run₁, run₂⟩ := bind_eq_ok_iff.mp run
  obtain ⟨d₁, run', longer₁⟩ := firm.follows c d a c₁ longer short run₁
  rw [bind_ok run']
  have shorter := (stepwise.of_ok longer.ends run₁).2
  exact second a c₁ d₁ b c' longer₁ (Nat.le_trans shorter short) run₂ done

theorem GoesOn.finish {R : α → α → Prop} {R' : β → β → Prop} {p q : Parser α} {f : α → β}
    (goesOn : GoesOn Q more last R n p q) (related : ∀ a a', R a a' → R' (f a) (f a')) :
    GoesOn Q more last R' n (p >>= fun a => pure (f a)) (q >>= fun a => pure (f a)) := by
  intro c d b c' longer short run done
  obtain ⟨a, c₁, run₁, run₂⟩ := bind_eq_ok_iff.mp run
  obtain ⟨rfl, rfl⟩ := pure_eq_ok_iff.mp run₂
  exact (goesOn c d a c₁ longer short run₁ done).bind fun a' good => .pure (related a a' good)

/-- A condition behind the first word of a statement shows that the statement has begun. -/
theorem GoesOn.conditional {R : β → β → Prop} {f g : Token → Expr → Parser β}
    (second : ∀ word cond, GoesOn Q more last R n (f word cond) (g word cond)) :
    GoesOn Q more last R (n + 1) (advance >>= fun word => condition >>= f word)
      (advance >>= fun word => condition >>= g word) := by
  intro c d b c' longer short run done
  rw [bind_ok (advance_run c)] at run
  rw [bind_ok (advance_run d)]
  have ends : c.next.eof.kind = .endOfFile := by
    rw [Cursor.eof_next]
    exact longer.ends
  have left : c.rest ≠ [] := by
    obtain ⟨cond, c₂, run₁, -⟩ := bind_eq_ok_iff.mp run
    have firm : Firm more last n condition condition := .condition
    have left := firm.needs _ cond c₂ ends run₁
    intro none
    apply left
    rw [Cursor.rest_next, none]
    rfl
  have shorter : c.next.rest.length ≤ n := by
    rw [Cursor.length_next]
    omega
  rw [longer.front left]
  exact Firm.condition.before .condition (second c.front) c.next d.next b c'
    (longer.next left) shorter run done

/-- The token in front is the same, if something is read at all. -/
theorem GoesOn.peek_bind {R : β → β → Prop} {f g : Token → Parser β}
    (needs : ∀ c b c', c.eof.kind = .endOfFile → (peek >>= f) c = .ok b c' → c.rest ≠ [])
    (second : ∀ t, GoesOn Q more last R n (f t) (g t)) :
    GoesOn Q more last R n (peek >>= f) (peek >>= g) := by
  intro c d b c' longer short run done
  have left := needs c b c' longer.ends run
  rw [bind_ok (peek_run c)] at run
  rw [bind_ok (peek_run d), longer.front left]
  exact second c.front c d b c' longer short run done

variable {nested nested' : Parser Stmt}

/-- An arm is there to its end, and what follows it goes on. -/
theorem arm_goesOn (added : Added Q more last) (nests : Nests id more.length n nested nested')
    {k k' : Nat}
    (goesOn : GoesOn Q more last (Branches.Prolongs Q) n (branches nested k) (branches nested' k'))
    (elseWord : Token) :
    GoesOn Q more last (Branches.Prolongs Q) n
      (do match ← accept (.keyword .ifWord) with
          | none => return .otherwise elseWord.pos (← block nested)
          | some ifWord =>
            let cond ← condition
            let body ← block nested
            return .elseIf ifWord.pos cond body (← branches nested k))
      (do match ← accept (.keyword .ifWord) with
          | none => return .otherwise elseWord.pos (← block nested')
          | some ifWord =>
            let cond ← condition
            let body ← block nested'
            return .elseIf ifWord.pos cond body (← branches nested' k')) := by
  have body : Firm more last n (block nested) (block nested') :=
    (Firm.block nests).mono (Nat.le_succ n)
  intro c d rest c' longer short run done
  obtain ⟨found, c₁, accepted, run₁⟩ := bind_eq_ok_iff.mp run
  rcases accept_eq_ok accepted with ⟨front, rfl, rfl⟩ | ⟨other, rfl, rfl⟩
  · have left : c.rest ≠ [] := by
      intro none
      rw [Cursor.front_of_nil longer.ends none] at front
      cases front
    have shorter : c.next.rest.length ≤ n := by
      rw [Cursor.length_next]
      omega
    rw [bind_ok (accept_pos (by rw [longer.front left]; exact front)), longer.front left]
    refine Firm.condition.before .condition (fun cond => ?_) c.next d.next rest c'
      (longer.next left) shorter run₁ done
    exact body.before (Leads.block nests.leads.stepwise).stepwise fun body =>
      goesOn.finish fun rest rest' further => .elseIf further
  · have whole := body.finish (Branches.otherwise elseWord.pos)
    have left := whole.needs c₁ rest c' longer.ends run₁
    rw [bind_ok (accept_neg (by rw [longer.front left]; exact other))]
    exact whole.goesOn added .refl c₁ d rest c' longer short run₁ done

/-- Behind the last arm there may be another one. -/
theorem branches_goesOn (added : Added Q more last) (nests : Nests id more.length n nested nested')
    (marks : Marks [] Stmt.spots nested') {k k' : Nat} (enough : n ≤ k)
    (enough' : n + more.length ≤ k') :
    GoesOn Q more last (Branches.Prolongs Q) n (branches nested k) (branches nested' k') := by
  induction n generalizing k k' with
  | zero =>
      intro c d rest c' longer short run done
      have done := List.length_eq_zero_iff.mp (Nat.le_zero.mp short)
      rw [branches_done longer.ends done] at run
      cases run
      exact (marks.branches k').yields (fun _ here => .done here) d
        (added.within longer done)
  | succ n ih =>
      obtain ⟨k, rfl⟩ : ∃ m, k = m + 1 := ⟨k - 1, by omega⟩
      obtain ⟨k', rfl⟩ : ∃ m, k' = m + 1 := ⟨k' - 1, by omega⟩
      have nests := nests.mono (Nat.le_succ n)
      intro c d rest c' longer short run done
      by_cases left : c.rest = []
      · rw [branches_done longer.ends left] at run
        cases run
        exact (marks.branches _).yields (fun _ here => .done here) d
          (added.within longer left)
      have shorter : c.next.rest.length ≤ n := by
        rw [Cursor.length_next]
        omega
      unfold branches at run ⊢
      obtain ⟨found, c₁, accepted, run₁⟩ := bind_eq_ok_iff.mp run
      rcases accept_eq_ok accepted with ⟨front, rfl, rfl⟩ | ⟨-, rfl, rfl⟩
      · rw [bind_ok (accept_pos (by rw [longer.front left]; exact front)), longer.front left]
        exact arm_goesOn added nests (ih nests (by omega) (by omega)) c.front c.next d.next rest c'
          (longer.next left) shorter run₁ done
      · cases run₁
        exact absurd done left

theorem branching_goesOn (added : Added Q more last) (nests : Nests id more.length n nested nested')
    (marks : Marks [] Stmt.spots nested') :
    GoesOn Q more last (Stmt.Prolongs Q) (n + 1) (branching nested) (branching nested') := by
  refine .conditional fun word cond => ?_
  have stepwise := (Leads.block nests.leads.stepwise).stepwise
  refine ((Firm.block nests).mono (Nat.le_succ n)).before stepwise ?_
  intro body c d s c' longer short run done
  rw [bind_ok (remaining_run c)] at run
  rw [bind_ok (remaining_run d), longer.rest, List.length_append]
  have others := branches_goesOn added (nests.mono short) marks (Nat.le_refl _) (Nat.le_refl _)
  exact others.finish (fun rest rest' further => Stmt.Prolongs.branch further) c d s c' longer
    (Nat.le_refl _) run done

/-- What is run by chance may get an alternative, at its end or in a statement that is its end. -/
theorem uncertainty_goesOn (nests : Nests id more.length n nested nested')
    (goesOn : GoesOn Q more last (Stmt.Prolongs Q) n nested nested')
    (marks : Marks [] Stmt.spots nested') :
    GoesOn Q more last (Stmt.Prolongs Q) (n + 1) (uncertainty nested) (uncertainty nested') := by
  refine .conditional fun word probability c d s c' longer short run done => ?_
  obtain ⟨body, c₁, run₁, run⟩ := bind_eq_ok_iff.mp run
  obtain ⟨found, c₂, accepted, run₂⟩ := bind_eq_ok_iff.mp run
  obtain ⟨ends₁, shorter⟩ := nests.leads.stepwise.of_ok longer.ends run₁
  by_cases left : c₁.rest = []
  · -- the body goes on itself, and there may be an alternative behind it
    have gone := goesOn c d body c₁ longer short run₁ left
    rw [accept_neg (by rw [Cursor.front_of_nil ends₁ left]; exact Kind.noConfusion)] at accepted
    cases accepted
    cases run₂
    refine gone.bind fun body' further => ?_
    refine ((Marks.accept Kind.noConfusion).yields fun _ here => here).bind fun found here => ?_
    cases found with
    | none => exact .pure (.maybe further)
    | some t =>
        exact (marks.yields fun _ here => here).bind fun other within =>
          .pure (.alternative further (here t.pos (List.mem_singleton_self _)) within)
  · have follows := (nests.paired.carries Stmt.mapPos_id).follows c d longer short
    rw [run₁] at follows
    generalize run' : nested' d = ended at follows
    cases follows left with
    | ok longer₁ =>
        rw [bind_ok run']
        rcases accept_eq_ok accepted with ⟨front, rfl, rfl⟩ | ⟨-, rfl, rfl⟩
        · rw [bind_ok (accept_pos (by rw [longer₁.front left]; exact front)), longer₁.front left]
          have fewer : c₁.next.rest.length ≤ n := by
            rw [Cursor.length_next]
            omega
          exact goesOn.finish (fun other other' further => Stmt.Prolongs.otherwise further) _ _ s c'
            (longer₁.next left) fewer run₂ done
        · cases run₂
          exact absurd done left

/-- At the end of a text there is no statement. -/
theorem statementWith_needs {nested : Parser Stmt} (c : Cursor) (s : Stmt) (c' : Cursor)
    (ends : c.eof.kind = .endOfFile) (run : statementWith nested c = .ok s c') : c.rest ≠ [] := by
  intro done
  unfold statementWith at run
  rw [bind_ok (peek_run c), Cursor.front_of_nil ends done] at run
  exact absurd run fail_ne_ok

theorem statementWith_goesOn (added : Added Q more last)
    (nests : Nests id more.length n nested nested')
    (goesOn : GoesOn Q more last (Stmt.Prolongs Q) n nested nested')
    (marks : Marks [] Stmt.spots nested') :
    GoesOn Q more last (Stmt.Prolongs Q) (n + 1) (statementWith nested)
      (statementWith nested') := by
  refine .peek_bind statementWith_needs fun t => ?_
  cases typeName? t.kind with
  | some type => exact (Firm.declaration type).goesOn added .refl
  | none =>
      dsimp only
      split
      · exact Firm.inference.goesOn added .refl
      · exact Firm.callOrAssignment.goesOn added .refl
      · exact (Firm.definition nests).goesOn added .refl
      · exact branching_goesOn added nests marks
      · exact (Firm.looping nests).goesOn added .refl
      · exact (Firm.jump (.breakOut t.pos)).goesOn added .refl
      · exact (Firm.jump (.continueOn t.pos)).goesOn added .refl
      · exact Firm.returning.goesOn added .refl
      · exact Firm.request.goesOn added .refl
      · exact uncertainty_goesOn nests goesOn marks
      · exact ((Firm.block nests).finish _).goesOn added .refl
      · intro c d s c' longer short run
        exact absurd run fail_ne_ok

/-- The last statement of a text goes on. -/
theorem statement_goesOn (added : Added Q more last) {k k' : Nat} (enough : n < k)
    (enough' : n + more.length < k') :
    GoesOn Q more last (Stmt.Prolongs Q) n (statement k) (statement k') := by
  induction n generalizing k k' with
  | zero =>
      obtain ⟨k, rfl⟩ : ∃ m, k = m + 1 := ⟨k - 1, by omega⟩
      intro c d s c' longer short run
      have left := statementWith_needs c s c' longer.ends run
      exact absurd (List.length_eq_zero_iff.mp (Nat.le_zero.mp short)) left
  | succ n ih =>
      obtain ⟨k, rfl⟩ : ∃ m, k = m + 1 := ⟨k - 1, by omega⟩
      obtain ⟨k', rfl⟩ : ∃ m, k' = m + 1 := ⟨k' - 1, by omega⟩
      exact statementWith_goesOn added (.statement (by omega) (by omega)) (ih (by omega) (by omega))
        (.statement k')

/-! ## Programs -/

theorem recovering_of_ok {topLevel : Bool} {p : Parser Stmt} {s : Stmt} {c c' : Cursor}
    (run : p c = .ok s c') : recovering topLevel p c = .ok s c' := by
  unfold recovering
  rw [run]

theorem recovering_of_error {topLevel : Bool} {p : Parser Stmt} {e : SyntaxError} {c c' : Cursor}
    (run : p c = .error e c') :
    recovering topLevel p c =
      .ok (.bad e.pos e.fault) ((c'.report e).skip topLevel c'.rest.length) := by
  unfold recovering
  rw [run]

/-- What is not bad was read. -/
theorem recovering_eq_ok {topLevel : Bool} {p : Parser Stmt} {s : Stmt} {c c' : Cursor}
    (run : recovering topLevel p c = .ok s c') (fine : ∀ pos fault, s ≠ .bad pos fault) :
    p c = .ok s c' := by
  cases read : p c with
  | ok s₁ c₁ =>
      rw [recovering_of_ok read] at run
      exact run
  | error e c₁ =>
      rw [recovering_of_error read] at run
      cases run
      exact absurd rfl (fine e.pos e.fault)

/-- The last statement of a text goes on, or it is lost. -/
theorem last_goesOn (added : Added Q more last) {K K' : Nat} (deep : n < K)
    (deep' : n + more.length < K') (k' : Nat) {c d c' : Cursor} {s : Stmt}
    (longer : c.Longer more last d) (short : c.rest.length ≤ n)
    (run : statement K c = .ok s c') (done : c'.rest = []) :
    ∃ new d', (recovering true (statement K') >>= fun s =>
        itemsUntil (· = .endOfFile) (recovering true (statement K')) k' >>= fun ss =>
          pure (s :: ss)) d = .ok new d' ∧ Program.Prolongs Q [s] new := by
  have gone := statement_goesOn added deep deep' c d s c' longer short run done
  cases run' : statement K' d with
  | ok s' d₁ =>
      rw [run'] at gone
      obtain ⟨news, d', others, within⟩ := (Marks.statement K').news k' gone.2
      refine ⟨s' :: news, d', ?_, .last gone.1 within⟩
      rw [bind_ok (recovering_of_ok run'), bind_ok others]
      rfl
  | error e d₁ =>
      rw [run'] at gone
      have further := (gone.2.onward (.report d₁ e)).onward (.skip true d₁.rest.length _)
      obtain ⟨news, d', others, within⟩ := (Marks.statement K').news k' further
      refine ⟨.bad e.pos e.fault :: news, d', ?_, .lost gone.1 within⟩
      rw [bind_ok (recovering_of_error run'), bind_ok others]
      rfl

/-- The statements of a text without errors stay, and the last one goes on. -/
theorem itemsUntil_goesOn (added : Added Q more last) {K K' : Nat} (deep : n < K)
    (deep' : n + more.length < K') {k k' : Nat} {c d c' : Cursor} {old : Program}
    (longer : c.Longer more last d) (short : c.rest.length ≤ n) (enough : c.rest.length ≤ k)
    (enough' : c.rest.length + more.length ≤ k')
    (run : itemsUntil (· = .endOfFile) (recovering true (statement K)) k c = .ok old c')
    (fine : ∀ s ∈ old, ∀ pos fault, s ≠ .bad pos fault) :
    ∃ new d', itemsUntil (· = .endOfFile) (recovering true (statement K')) k' d = .ok new d' ∧
      Program.Prolongs Q old new := by
  induction k generalizing c d k' old with
  | zero =>
      have done := List.length_eq_zero_iff.mp (Nat.le_zero.mp enough)
      cases run
      obtain ⟨news, d', run', within⟩ :=
        (Marks.statement K').news k' (added.within longer done)
      exact ⟨news, d', run', .fresh within⟩
  | succ k ih =>
      by_cases left : c.rest = []
      · cases (statements_done longer.ends left true _ (k + 1)).symm.trans run
        obtain ⟨news, d', run', within⟩ :=
          (Marks.statement K').news k' (added.within longer left)
        exact ⟨news, d', run', .fresh within⟩
      have some := List.length_pos_iff.mpr left
      obtain ⟨k', rfl⟩ : ∃ m, k' = m + 1 := ⟨k' - 1, by omega⟩
      unfold itemsUntil at run ⊢
      rw [bind_ok (peekKind_run c)] at run
      rw [bind_ok (peekKind_run d), longer.front left]
      by_cases stop : c.front.kind = .endOfFile
      · rw [if_pos (decide_eq_true stop)] at run ⊢
        cases run
        exact ⟨[], d, rfl, .fresh fun s member => by cases member⟩
      rw [if_neg (by simpa using stop)] at run ⊢
      obtain ⟨s, c₁, first, behind⟩ := bind_eq_ok_iff.mp run
      obtain ⟨ss, c₂, others, result⟩ := bind_eq_ok_iff.mp behind
      obtain ⟨rfl, rfl⟩ := pure_eq_ok_iff.mp result
      -- recovery takes a token at least, so the rest is shorter and `k` suffices
      have moved := (Leads.statement K).length_recovering true longer.ends stop
        (fun inside => by cases inside)
      rw [first] at moved
      have moved : c₁.rest.length < c.rest.length := moved
      have read := recovering_eq_ok first (fine s List.mem_cons_self)
      by_cases left₁ : c₁.rest = []
      -- the last statement may take up new tokens; those before it cannot
      · have ends₁ := ((Stepwise.statement K).of_ok longer.ends read).1
        cases (statements_done ends₁ left₁ true _ k).symm.trans others
        exact last_goesOn added deep deep' k' longer short read left₁
      · have nests : Nests id more.length n (statement K) (statement K') :=
          .statement (Nat.le_of_lt deep) (Nat.le_of_lt deep')
        have follows := (nests.paired.carries Stmt.mapPos_id).follows c d longer short
        rw [read] at follows
        generalize run' : statement K' d = ended at follows
        cases follows left₁ with
        | ok longer₁ =>
            have fine' := fun s member => fine s (List.mem_cons_of_mem _ member)
            have fewer : c₁.rest.length + more.length ≤ k' := by omega
            obtain ⟨new, d', run'', prolongs⟩ :=
              ih longer₁ (by omega) (by omega) fewer others fine'
            refine ⟨s :: new, d', ?_, .cons prolongs⟩
            rw [bind_ok (recovering_of_ok run'), bind_ok run'']
            rfl

/-- The statements of a text without errors stay when the text goes on, except for the last one. -/
theorem program_prolongs (added : Added Q more last) {c d c' : Cursor} {old : Program}
    (longer : c.Longer more last d) (run : program c = .ok old c')
    (fine : ∀ s ∈ old, ∀ pos fault, s ≠ .bad pos fault) :
    ∃ new d', program d = .ok new d' ∧ Program.Prolongs Q old new := by
  unfold program at run ⊢
  rw [bind_ok (remaining_run c)] at run
  rw [bind_ok (remaining_run d), longer.rest, List.length_append]
  exact itemsUntil_goesOn added (Nat.lt_succ_self _) (Nat.lt_succ_self _) longer (Nat.le_refl _)
    (Nat.le_refl _) (Nat.le_refl _) run fine

end Parser

/-! ## Texts -/

/-- The tokens of a text of whole lines stay when the text goes on. -/
theorem tokensFrom_append {cs : List Char} (whole : cs = [] ∨ ∃ lines, cs = lines ++ ['\n'])
    (m : Mark) (more : List Char) :
    tokensFrom m (cs ++ more) = tokensFrom m cs ++ tokensFrom (m.advance cs) more := by
  rcases whole with rfl | ⟨lines, rfl⟩
  · rw [List.nil_append, Mark.advance_nil, tokensFrom, List.nil_append]
  · rw [List.append_assoc, List.singleton_append, tokensFrom_append_newline,
      tokensFrom_append_newline, tokensFrom, List.append_nil]

/--
When a program of whole lines goes on, its statements stay what they are, except for the last one,
and whatever is new stands below the lines of the program.
-/
theorem parse_prolongs {cs : List Char} (whole : cs = [] ∨ ∃ lines, cs = lines ++ ['\n'])
    (more : List Char) (fine : ∀ s ∈ (parse cs).1, ∀ pos fault, s ≠ .bad pos fault) :
    Program.Prolongs (fun pos => (cs.count '\n' : Int) < pos.line) (parse cs).1
      (parse (cs ++ more)).1 := by
  let visible := fun t : Token => !t.kind.isHidden
  let added := (tokensFrom (Mark.start.advance cs) more).filter visible
  have line := Mark.line_advance .start cs
  have new : Parser.Added (fun pos => (cs.count '\n' : Int) < pos.line) added
      (endToken (cs ++ more)) := by
    refine ⟨rfl, fun t member => ?_, ?_⟩
    · have below := line_le_of_mem_tokensFrom (List.mem_filter.mp member).1
      rw [line] at below
      show (cs.count '\n' : Int) < t.pos.line
      have first : Mark.start.pos.line = 1 := rfl
      omega
    · show (cs.count '\n' : Int) < (Mark.start.advance (cs ++ more)).pos.line
      have first : Mark.start.pos.line = 1 := rfl
      rw [Mark.line_advance, List.count_append]
      omega
  have longer : (Cursor.ofText cs).Longer added (endToken (cs ++ more)) (.ofText (cs ++ more)) := by
    refine ⟨?_, ?_, Cursor.ends_ofText cs⟩
    · rw [Cursor.ofText, Cursor.ofText, Cursor.rest_look, Cursor.rest_look,
        tokensFrom_append whole, List.filter_append]
    · rw [Cursor.ofText, Cursor.eof_look]
  obtain ⟨old, c, run⟩ := Parser.program_total (.ofText cs)
  have parsed : (parse cs).1 = old := by
    unfold parse
    rw [run]
  rw [parsed] at fine ⊢
  obtain ⟨program, d, run', prolongs⟩ := Parser.program_prolongs new longer run fine
  have parsed' : (parse (cs ++ more)).1 = program := by
    unfold parse
    rw [run']
  rw [parsed']
  exact prolongs

end Samo
