import Samo.Proofs.Lockstep

/-!
# Reading on in a longer text

A parser looks at one token at a time. As long as it stops before the end of a text, it does not
notice what follows: in a longer text it gives the same result or fails in the same way
(`Parser.Carries`). What bounds a parser grows with the text, so the longer text is read by a parser
with more fuel, and `n` bounds the number of tokens that are left in the shorter one.
-/

namespace Samo

namespace Cursor

/-- The same place in a longer text: more tokens, and another end. -/
structure Longer (more : List Token) (last : Token) (c d : Cursor) : Prop where
  rest : d.rest = c.rest ++ more
  eof : d.eof = last
  ends : c.eof.kind = .endOfFile

namespace Longer

variable {more : List Token} {last : Token} {c d : Cursor}

theorem front (longer : c.Longer more last d) (left : c.rest ≠ []) : d.front = c.front := by
  rw [Cursor.front, Cursor.front, longer.rest]
  cases rest : c.rest with
  | nil => exact absurd rest left
  | cons t ts => rfl

theorem second (longer : c.Longer more last d) (left : c.next.rest ≠ []) :
    d.second = c.second := by
  rw [rest_next] at left
  rw [Cursor.second, Cursor.second, longer.rest]
  cases rest : c.rest with
  | nil => exact absurd (by rw [rest]; rfl) left
  | cons t ts =>
      rw [rest] at left
      cases ts with
      | nil => exact absurd rfl left
      | cons u us => rfl

theorem next (longer : c.Longer more last d) (left : c.rest ≠ []) :
    c.next.Longer more last d.next := by
  refine ⟨?_, ?_, ?_⟩
  · rw [rest_next, rest_next, longer.rest]
    cases rest : c.rest with
    | nil => exact absurd rest left
    | cons t ts => rfl
  · rw [eof_next, longer.eof]
  · rw [eof_next, longer.ends]

theorem report (longer : c.Longer more last d) (e : SyntaxError) :
    (c.report e).Longer more last (d.report e) :=
  ⟨longer.rest, longer.eof, longer.ends⟩

/-- Skipping stops at the same token. -/
theorem skip (longer : c.Longer more last d) (topLevel : Bool) {k k' : Nat}
    (enough : c.rest.length ≤ k) (enough' : c.rest.length + more.length ≤ k')
    (stopped : (c.skip topLevel k).rest ≠ []) :
    (c.skip topLevel k).Longer more last (d.skip topLevel k') := by
  induction k generalizing c d k' with
  | zero => exact absurd (List.length_eq_zero_iff.mp (Nat.le_zero.mp enough)) stopped
  | succ k ih =>
      have some := Nat.lt_of_lt_of_le (List.length_pos_iff.mpr stopped)
        (length_skip_le topLevel (k + 1) c)
      have left := List.length_pos_iff.mp some
      obtain ⟨k', rfl⟩ : ∃ m, k' = m + 1 := ⟨k' - 1, by omega⟩
      have fewer := c.length_next
      unfold Cursor.skip at stopped ⊢
      rw [longer.front left]
      split at stopped
      · exact longer
      · exact longer.next left
      · split
        · exact longer.next left
        · exact longer
      · exact ih (longer.next left) (by omega) (by omega) stopped

end Longer

end Cursor

namespace Parser

variable {α β : Type}

/-- The same end of a parser with another result. -/
def mapResult (g : α → α) :
    EStateM.Result SyntaxError Cursor α → EStateM.Result SyntaxError Cursor α
  | .ok a c => .ok (g a) c
  | .error e c => .error e c

section

variable (more : List Token) (last : Token)

/-- The same end in a longer text. -/
inductive Follows : EStateM.Result SyntaxError Cursor α → EStateM.Result SyntaxError Cursor α → Prop
  | ok {a c d} : c.Longer more last d → Follows (.ok a c) (.ok a d)
  | error {e c d} : c.Longer more last d → Follows (.error e c) (.error e d)

/--
With at most `n` tokens left, what one parser does before the end of a text another one does in a
longer text.
-/
structure Carries (n : Nat) (p q : Parser α) : Prop where
  stepwise : Stepwise p
  follows : ∀ c d, c.Longer more last d → c.rest.length ≤ n → (ending (p c)).rest ≠ [] →
    Follows more last (p c) (q d)

end

variable {more : List Token} {last : Token} {n : Nat}

/-- Where a parser stops before the end, there were tokens to start with. -/
theorem Stepwise.rest_ne_nil {p : Parser α} (stepwise : Stepwise p) {c : Cursor}
    (stopped : (ending (p c)).rest ≠ []) : c.rest ≠ [] := by
  intro none
  have shorter := (stepwise.onward c).length_le
  rw [none] at shorter
  exact stopped (List.length_eq_zero_iff.mp (Nat.le_zero.mp shorter))

/--
Two parsers in a row. The second one never goes back, so if it stops before the end, so did the
first one.
-/
theorem Follows.bind {g : α → α} {h : β → β} {p q : Parser α} {k k' : α → Parser β} {c d : Cursor}
    (first : (ending (p c)).rest ≠ [] → Follows more last (mapResult g (p c)) (q d))
    (stepwise : ∀ a, Stepwise (k a))
    (second : ∀ a c₁ d₁, p c = .ok a c₁ → c₁.Longer more last d₁ → (ending (k a c₁)).rest ≠ [] →
      Follows more last (mapResult h (k a c₁)) (k' (g a) d₁))
    (stopped : (ending ((p >>= k) c)).rest ≠ []) :
    Follows more last (mapResult h ((p >>= k) c)) ((q >>= k') d) := by
  cases run : p c with
  | error e c₁ =>
      rw [bind_error run] at stopped ⊢
      rw [run] at first
      generalize run' : q d = ended at first
      cases first stopped with
      | error longer₁ =>
          rw [bind_error run']
          exact .error longer₁
  | ok a c₁ =>
      rw [bind_ok run] at stopped ⊢
      rw [run] at first
      generalize run' : q d = ended at first
      cases first ((stepwise a).rest_ne_nil stopped) with
      | ok longer₁ =>
          rw [bind_ok run']
          exact second a c₁ _ run longer₁ stopped

/-- Behind a token. -/
theorem Follows.advance {h : β → β} {k k' : Token → Parser β} {c d : Cursor}
    (longer : c.Longer more last d) (short : c.rest.length ≤ n) (stepwise : ∀ t, Stepwise (k t))
    (second : ∀ t o c d, c.Longer more last d → c.rest.length ≤ n - 1 →
      (ending (k t c)).rest ≠ [] → Follows more last (mapResult h (k t c)) (k' (t.moved id o) d))
    (stopped : (ending ((Parser.advance >>= k) c)).rest ≠ []) :
    Follows more last (mapResult h ((Parser.advance >>= k) c)) ((Parser.advance >>= k') d) := by
  have left := (Stepwise.advance.bind stepwise).rest_ne_nil stopped
  rw [bind_ok (advance_run c)] at stopped ⊢
  rw [bind_ok (advance_run d), longer.front left]
  exact second c.front c.front.start.offset c.next d.next (longer.next left)
    (by rw [Cursor.length_next]; exact Nat.sub_le_sub_right short 1) stopped

/-- In lockstep, with as many tokens more as there are in the longer text. -/
theorem Lockstep.follows {g : α → α} {p q : Parser α} (paired : Lockstep id more.length n g p q)
    {c d : Cursor} (longer : c.Longer more last d) (short : c.rest.length ≤ n)
    (stopped : (ending (p c)).rest ≠ []) : Follows more last (mapResult g (p c)) (q d) := by
  have left := paired.stepwise.rest_ne_nil stopped
  induction paired generalizing c d with
  | pure => exact .ok longer
  | fail => exact .error longer
  | bind first second ihFirst ihSecond =>
      refine Follows.bind (fun stopped => ihFirst longer short stopped left)
        (fun a => (second a).stepwise) (fun a c₁ d₁ run longer₁ stopped₁ => ?_) stopped
      have shorter := (first.stepwise.onward_of_ok run).length_le
      exact ihSecond a longer₁ (Nat.le_trans shorter short) stopped₁
        ((second a).stepwise.rest_ne_nil stopped₁)
  | peek_bind second ih =>
      rw [bind_ok (peek_run c)] at stopped ⊢
      rw [bind_ok (peek_run d), longer.front left]
      exact ih c.front c.front.start.offset longer short stopped left
  | advance_less second ih =>
      exact Follows.advance longer short (fun t => (second t 0).stepwise)
        (fun t o c d longer short stopped =>
          ih t o longer short stopped ((second t o).stepwise.rest_ne_nil stopped)) stopped
  | @second_less n β h kind k k' j j' toLeft toRight ihLeft ihRight =>
      have stepwise := fun t => (toLeft t 0).stepwise
      have stepwise' := fun t => (toRight t 0).stepwise
      rw [bind_ok (get_run c)] at stopped ⊢
      rw [bind_ok (get_run d)]
      -- both ways take a token and stop before the end, so there is a second one
      have enough : c.next.rest ≠ [] := by
        split at stopped
        · exact (stepwise c.front).rest_ne_nil stopped
        · exact (stepwise' c.front).rest_ne_nil stopped
      rw [longer.second enough]
      split at stopped
      · next yes =>
        rw [if_pos yes, if_pos yes]
        exact Follows.advance longer short stepwise (fun t o c d longer short stopped =>
          ihLeft t o longer short stopped ((stepwise t).rest_ne_nil stopped)) stopped
      · next no =>
        rw [if_neg no, if_neg no]
        exact Follows.advance longer short stepwise' (fun t o c d longer short stopped =>
          ihRight t o longer short stopped ((stepwise' t).rest_ne_nil stopped)) stopped
  | remaining_bind stepwise second ih =>
      rw [bind_ok (remaining_run c)] at stopped ⊢
      rw [bind_ok (remaining_run d), longer.rest, List.length_append]
      exact ih _ short longer (Nat.le_refl _) stopped left
  | remaining_right second ih =>
      rw [bind_ok (remaining_run d), longer.rest, List.length_append]
      exact ih _ short longer (Nat.le_refl _) stopped left
  | @recovering n topLevel p q inner ih =>
      have follows := fun stopped => ih longer short stopped left
      unfold Parser.recovering at stopped ⊢
      cases run : p c with
      | ok s c' =>
          rw [run] at follows stopped
          generalize q d = ended at follows
          cases follows stopped with
          | ok longer' => exact .ok longer'
      | error e c' =>
          rw [run] at follows stopped
          generalize q d = ended at follows
          have left' : c'.rest ≠ [] := by
            intro none
            have skipped := Cursor.length_skip_le topLevel c'.rest.length (c'.report e)
            rw [show (c'.report e).rest = [] from none] at skipped
            exact stopped (List.length_eq_zero_iff.mp (Nat.le_zero.mp skipped))
          cases follows left' with
          | error longer' =>
              rw [mapResult, Stmt.mapPos]
              refine .ok ((longer'.report e).skip topLevel (Nat.le_refl _) ?_ stopped)
              rw [longer'.rest, List.length_append]
              exact Nat.le_refl _
  | @item_less n α β g h stop p q b k k' takes first second ihFirst ihSecond =>
      rw [bind_ok (peekKind_run c)] at stopped ⊢
      rw [bind_ok (peekKind_run d), longer.front left]
      cases goes : stop c.front.kind with
      | true => exact .ok longer
      | false =>
          rw [goes] at stopped
          refine Follows.bind (fun stopped => ihFirst longer short stopped left)
            (fun a => (second a).stepwise) (fun a c₁ d₁ run longer₁ stopped₁ => ?_) stopped
          have fewer := takes c longer.ends goes
          rw [run] at fewer
          exact ihSecond a longer₁ (Nat.le_pred_of_lt (Nat.lt_of_lt_of_le fewer short)) stopped₁
            ((second a).stepwise.rest_ne_nil stopped₁)
  | done => exact absurd (List.length_eq_zero_iff.mp (Nat.le_zero.mp short)) left
  | mono paired le ih => exact ih longer (Nat.le_trans short le) stopped left

theorem Lockstep.carries {g : α → α} {p q : Parser α} (paired : Lockstep id more.length n g p q)
    (still : ∀ a, g a = a) : Carries more last n p q := by
  refine ⟨paired.stepwise, fun c d longer short stopped => ?_⟩
  have follows := paired.follows longer short stopped
  have same : mapResult g (p c) = p c := by
    cases p c with
    | ok a c' => rw [mapResult, still]
    | error e c' => rfl
  rwa [same] at follows

namespace Carries

theorem pure (a : α) : Carries more last n (pure a) (pure a) :=
  ⟨.pure a, fun _ _ longer _ _ => .ok longer⟩

theorem advance : Carries more last n advance advance := by
  refine ⟨.advance, fun c d longer _ stopped => ?_⟩
  have left := Stepwise.advance.rest_ne_nil stopped
  rw [advance_run, advance_run, longer.front left]
  exact .ok (longer.next left)

theorem peekKind : Carries more last n peekKind peekKind := by
  refine ⟨.peekKind, fun c d longer _ left => ?_⟩
  rw [peekKind_run, peekKind_run, longer.front left]
  exact .ok longer

theorem accept (kind : Kind) : Carries more last n (accept kind) (accept kind) := by
  refine ⟨.accept kind, fun c d longer _ stopped => ?_⟩
  have left := (Stepwise.accept kind).rest_ne_nil stopped
  have front := longer.front left
  by_cases same : c.front.kind = kind
  · rw [accept_pos same, accept_pos (front ▸ same), front]
    exact .ok (longer.next left)
  · rw [accept_neg same, accept_neg (front ▸ same)]
    exact .ok longer

theorem expect (kind : Kind) : Carries more last n (expect kind) (expect kind) := by
  refine ⟨.expect kind, fun c d longer _ stopped => ?_⟩
  have left := (Stepwise.expect kind).rest_ne_nil stopped
  unfold Parser.expect
  rw [bind_ok (peek_run c), bind_ok (peek_run d), longer.front left]
  split
  · rw [advance_run, advance_run, longer.front left]
    exact .ok (longer.next left)
  · exact .error longer

theorem sign (p : Punct) : Carries more last n (sign p) (sign p) := expect _

theorem map {p q : Parser α} {f : α → β} (carries : Carries more last n p q) :
    Carries more last n (f <$> p) (f <$> q) := by
  refine ⟨carries.stepwise.map, fun c d longer short stopped => ?_⟩
  have follows := carries.follows c d longer short
  rw [← bind_pure_comp] at stopped ⊢
  rw [← bind_pure_comp]
  cases run : p c with
  | ok a c' =>
      rw [bind_ok run] at stopped ⊢
      rw [run] at follows
      generalize run' : q d = ended at follows
      cases follows stopped with
      | ok longer' =>
          rw [bind_ok run']
          exact .ok longer'
  | error e c' =>
      rw [bind_error run] at stopped ⊢
      rw [run] at follows
      generalize run' : q d = ended at follows
      cases follows stopped with
      | error longer' =>
          rw [bind_error run']
          exact .error longer'

theorem expr : Carries more last n expr expr := Lockstep.expr.carries Expr.mapPos_id

theorem condition : Carries more last n condition condition :=
  Lockstep.condition.carries Expr.mapPos_id

theorem arguments : Carries more last n (itemList Parser.expr) (itemList Parser.expr) :=
  (Lockstep.itemList .expr).carries (List.map_id'' Expr.mapPos_id)

theorem parameters : Carries more last n (itemList parameter) (itemList parameter) :=
  (Lockstep.itemList .parameter).carries (List.map_id'' fun _ => rfl)

theorem resultType : Carries more last n resultType resultType :=
  Lockstep.resultType.carries fun returns => by cases returns <;> rfl

end Carries

/-! ## Statements with an end of their own -/

section

variable (more : List Token) (last : Token)

/--
What one parser reads, another one reads in a longer text, even if nothing is left behind it: its
last token shows that it is done.
-/
structure Firm (n : Nat) (p q : Parser α) : Prop where
  needs : ∀ c a c', c.eof.kind = .endOfFile → p c = .ok a c' → c.rest ≠ []
  follows : ∀ c d a c', c.Longer more last d → c.rest.length ≤ n → p c = .ok a c' →
    ∃ d', q d = .ok a d' ∧ c'.Longer more last d'

end

namespace Firm

theorem mono {m : Nat} {p q : Parser α} (firm : Firm more last n p q) (le : m ≤ n) :
    Firm more last m p q :=
  ⟨firm.needs, fun c d a c' longer short => firm.follows c d a c' longer (Nat.le_trans short le)⟩

theorem sign (p : Punct) : Firm more last n (sign p) (sign p) := by
  have needs : ∀ c t c', c.eof.kind = .endOfFile → Parser.sign p c = .ok t c' → c.rest ≠ [] := by
    intro c t c' ends run none
    obtain ⟨front, -, -⟩ := expect_eq_ok run
    rw [Cursor.front_of_nil ends none] at front
    cases front
  refine ⟨needs, fun c d t c' longer _ run => ?_⟩
  have left := needs c t c' longer.ends run
  obtain ⟨front, rfl, rfl⟩ := expect_eq_ok run
  refine ⟨d.next, ?_, longer.next left⟩
  unfold Parser.sign Parser.expect
  rw [bind_ok (peek_run d), longer.front left, if_pos front, advance_run, longer.front left]

/-- Something before an end. -/
theorem carried {p q : Parser α} {f g : α → Parser β} (first : Carries more last n p q)
    (second : ∀ a, Firm more last n (f a) (g a)) : Firm more last n (p >>= f) (q >>= g) := by
  constructor
  · intro c b c' ends run none
    obtain ⟨a, c₁, run₁, run₂⟩ := bind_eq_ok_iff.mp run
    obtain ⟨ends₁, shorter⟩ := first.stepwise.of_ok ends run₁
    rw [none] at shorter
    exact (second a).needs c₁ b c' ends₁ run₂ (List.length_eq_zero_iff.mp (Nat.le_zero.mp shorter))
  · intro c d b c' longer short run
    obtain ⟨a, c₁, run₁, run₂⟩ := bind_eq_ok_iff.mp run
    obtain ⟨ends₁, shorter⟩ := first.stepwise.of_ok longer.ends run₁
    have follows := first.follows c d longer short
    rw [run₁] at follows
    generalize run' : q d = ended at follows
    cases follows ((second a).needs c₁ b c' ends₁ run₂) with
    | ok longer₁ =>
        rw [bind_ok run']
        exact (second a).follows c₁ _ b c' longer₁ (Nat.le_trans shorter short) run₂

/-- Nothing is read behind an end. -/
theorem finish {p q : Parser α} (firm : Firm more last n p q) (f : α → β) :
    Firm more last n (p >>= fun a => pure (f a)) (q >>= fun a => pure (f a)) := by
  constructor
  · intro c b c' ends run
    obtain ⟨a, c₁, run₁, -⟩ := bind_eq_ok_iff.mp run
    exact firm.needs c a c₁ ends run₁
  · intro c d b c' longer short run
    obtain ⟨a, c₁, run₁, run₂⟩ := bind_eq_ok_iff.mp run
    obtain ⟨rfl, rfl⟩ := pure_eq_ok_iff.mp run₂
    obtain ⟨d₁, run', longer₁⟩ := firm.follows c d a c₁ longer short run₁
    exact ⟨d₁, bind_ok run', longer₁⟩

theorem condition : Firm more last n condition condition :=
  carried (.sign _) fun _ => carried .expr fun e => (sign _).finish fun _ => e

variable {nested nested' : Parser Stmt}

/-- The closing brace comes last. -/
theorem block (nests : Nests id more.length n nested nested') :
    Firm more last (n + 1) (block nested) (block nested') := by
  rw [block_eq, block_eq]
  refine carried (nests.opened.carries fun (start, stmts) => ?_) fun (start, stmts) =>
    (sign _).finish _
  exact congrArg (Prod.mk start) (List.map_id'' Stmt.mapPos_id stmts)

theorem declaration (type : TypeName) :
    Firm more last n (declaration type) (declaration type) := by
  refine carried .advance fun word => carried (.expect _) fun name => ?_
  refine carried (.accept _) fun found => ?_
  cases found with
  | none => exact carried (.pure none) fun init => (sign _).finish _
  | some t => exact carried Carries.expr.map fun init => (sign _).finish _

theorem inference : Firm more last n inference inference :=
  carried .advance fun _ => carried (.expect _) fun _ => carried (.sign _) fun _ =>
    carried .expr fun _ => (sign _).finish _

theorem definition (nests : Nests id more.length n nested nested') :
    Firm more last (n + 1) (definition nested) (definition nested') :=
  carried .advance fun _ => carried (.expect _) fun _ =>
    carried .parameters fun _ =>
      carried .resultType fun _ => (block nests).finish _

theorem looping (nests : Nests id more.length n nested nested') :
    Firm more last (n + 1) (looping nested) (looping nested') :=
  carried .advance fun _ => carried .condition fun _ => (block nests).finish _

theorem returning : Firm more last n returning returning := by
  refine carried .advance fun word => carried .peekKind fun kind => ?_
  dsimp only
  split
  · exact carried (.pure none) fun value => (sign _).finish _
  · exact carried Carries.expr.map fun value => (sign _).finish _

theorem request : Firm more last n request request :=
  carried .advance fun _ => carried (.expect _) fun _ => (sign _).finish _

theorem jump (s : Stmt) : Firm more last n
    (do let _ ← advance; let _ ← Parser.sign .semicolon; return s)
    (do let _ ← advance; let _ ← Parser.sign .semicolon; return s) :=
  carried .advance fun _ => (sign _).finish _

/-- Both ways to go on after a look at the second token end behind it, so there is one. -/
theorem second_bind {kind : Kind} {f f' g g' : Token → Parser α}
    (left : ∀ t, Firm more last n (f t) (g t)) (right : ∀ t, Firm more last n (f' t) (g' t)) :
    Firm more last n
      (do if (← get).second.kind = kind then advance >>= f else advance >>= f')
      (do if (← get).second.kind = kind then advance >>= g else advance >>= g') := by
  have behind : ∀ {f : Token → Parser α} {g : Token → Parser α},
      (∀ t, Firm more last n (f t) (g t)) → ∀ c a c', c.eof.kind = .endOfFile →
        (advance >>= f) c = .ok a c' → c.next.rest ≠ [] := by
    intro f g second c a c' ends run
    rw [bind_ok (advance_run c)] at run
    exact (second _).needs _ a c' (by rw [Cursor.eof_next]; exact ends) run
  constructor
  · intro c a c' ends run none
    rw [bind_ok (get_run c)] at run
    have more : c.next.rest = [] := by
      rw [Cursor.rest_next, none]
      rfl
    split at run
    · exact behind left c a c' ends run more
    · exact behind right c a c' ends run more
  · intro c d a c' longer short run
    rw [bind_ok (get_run c)] at run
    rw [bind_ok (get_run d)]
    by_cases same : c.second.kind = kind
    · rw [if_pos same] at run
      rw [longer.second (behind left c a c' longer.ends run), if_pos same]
      exact (carried .advance left).follows c d a c' longer short run
    · rw [if_neg same] at run
      rw [longer.second (behind right c a c' longer.ends run), if_neg same]
      exact (carried .advance right).follows c d a c' longer short run

/-- A call or an assignment. -/
theorem callOrAssignment : Firm more last n
    (do if (← get).second.kind = .punct .leftParen then callStatement else assignment)
    (do if (← get).second.kind = .punct .leftParen then callStatement else assignment) := by
  rw [Lockstep.callStatement_eq]
  refine second_bind (fun name => ?_) fun name => ?_
  · exact carried .arguments fun args => (sign _).finish _
  · exact carried (.sign _) fun _ => carried .expr fun value => (sign _).finish _

end Firm

end Parser

end Samo
