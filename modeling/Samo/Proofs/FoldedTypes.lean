import Samo.Proofs.TypeDecision

/-!
# Folding and typing

Folding asks no symbol table; it has rules of its own for the types of known values
(`Constant.Computes`). They are the rules of typing but for one: the equality of truth values has a
type and is not computed. So what an expression folds to has the type of the expression
(`Expr.HasType.type_value`), and an expression that is accepted folds to a value exactly if nothing
in it is a name, a call or such an equality (`folding_matches_typing`).
-/

namespace Samo

namespace Constant

/-! ## Operators -/

/-- An operator is computed for operands of a type, and gives a value of another one. -/
inductive Computes : BinaryOp → ValueType → ValueType → Prop
  | arithmetic {op} : op.family = .arithmetic → Computes op .int .int
  | concat : Computes .add .string .string
  | logical {op} : op.family = .logical → Computes op .boolie .boolie
  | relational {op} : op.family = .relational → Computes op .int .boolie
  | equality {op type} : op.family = .equality → type ≠ .boolie → Computes op type .boolie

theorem Computes.result_eq {op : BinaryOp} {type result : ValueType}
    (computes : Computes op type result) :
    result = if op.family = .arithmetic then type else .boolie := by
  cases computes with
  | arithmetic family => rw [if_pos family]
  | concat => rfl
  | logical family | relational family | equality family _ =>
      rw [family]
      rfl

/-- Only what has a rule is computed. -/
theorem computes_of_binary {op : BinaryOp} {u w v : Value} (made : binary op u w = .ok (some v)) :
    w.type = u.type ∧ Computes op u.type v.type := by
  cases u with
  | int m =>
      cases w with
      | int n =>
          cases op with
          | add | sub | mul =>
              cases made
              exact ⟨rfl, .arithmetic rfl⟩
          | div | mod =>
              change (if n = 0 then _ else _) = _ at made
              split at made
              · cases made
              · cases made
                exact ⟨rfl, .arithmetic rfl⟩
          | lt | le | gt | ge =>
              cases made
              exact ⟨rfl, .relational rfl⟩
          | eq | ne =>
              cases made
              exact ⟨rfl, .equality rfl (by simp [Value.type])⟩
          | and | or | xor => cases made
      | string t => cases made
      | boolie c => cases made
  | string s =>
      cases w with
      | int n => cases made
      | string t =>
          cases op with
          | add =>
              cases made
              exact ⟨rfl, .concat⟩
          | eq | ne =>
              cases made
              exact ⟨rfl, .equality rfl (by simp [Value.type])⟩
          | sub | mul | div | mod | and | or | xor | lt | le | gt | ge => cases made
      | boolie c => cases made
  | boolie b =>
      cases w with
      | int n => cases made
      | string t => cases made
      | boolie c =>
          cases op with
          | and | or | xor =>
              cases made
              exact ⟨rfl, .logical rfl⟩
          | add | sub | mul | div | mod | lt | le | gt | ge | eq | ne => cases made

/-- What has a rule is computed, unless it fails. -/
theorem binary_of_computes {op : BinaryOp} {u w : Value} {result : ValueType}
    (computes : Computes op u.type result) (same : w.type = u.type) {o : Option Value}
    (done : binary op u w = .ok o) : ∃ v, o = some v ∧ v.type = result := by
  cases u with
  | int m =>
      cases w with
      | string t => cases same
      | boolie c => cases same
      | int n =>
          cases computes with
          | arithmetic family =>
              cases op with
              | add | sub | mul =>
                  cases done
                  exact ⟨_, rfl, rfl⟩
              | div | mod =>
                  -- a zero on the right is the failure that `done` excludes
                  change (if n = 0 then _ else _) = _ at done
                  split at done
                  · cases done
                  · cases done
                    exact ⟨_, rfl, rfl⟩
              | and | or | xor | lt | le | gt | ge | eq | ne => cases family
          | relational family =>
              cases op with
              | lt | le | gt | ge =>
                  cases done
                  exact ⟨_, rfl, rfl⟩
              | add | sub | mul | div | mod | and | or | xor | eq | ne => cases family
          | equality family _ =>
              cases op with
              | eq | ne =>
                  cases done
                  exact ⟨_, rfl, rfl⟩
              | add | sub | mul | div | mod | and | or | xor | lt | le | gt | ge => cases family
  | string s =>
      cases w with
      | int n => cases same
      | boolie c => cases same
      | string t =>
          cases computes with
          | concat =>
              cases done
              exact ⟨_, rfl, rfl⟩
          | equality family _ =>
              cases op with
              | eq | ne =>
                  cases done
                  exact ⟨_, rfl, rfl⟩
              | add | sub | mul | div | mod | and | or | xor | lt | le | gt | ge => cases family
  | boolie b =>
      cases w with
      | int n => cases same
      | string t => cases same
      | boolie c =>
          cases computes with
          | logical family =>
              cases op with
              | and | or | xor =>
                  cases done
                  exact ⟨_, rfl, rfl⟩
              | add | sub | mul | div | mod | lt | le | gt | ge | eq | ne => cases family
          -- truth values are not compared while folding
          | equality _ other => exact absurd rfl other

end Constant

open Check Constant

namespace Expr

/-! ## Known values are accepted -/

/-- What folds to a value is an expression of its type, whatever the symbol table is. -/
theorem answers_of_fold {e : Expr} {v : Value} (known : e.fold = .ok (some v)) (s : State) :
    e.Answers s v.type := by
  induction e using Expr.induction generalizing v with
  | int p spelling n =>
      cases known
      exact .leaf (by rw [accepts]; rfl) (by rw [leaves]; rfl)
  | string p spelling t =>
      cases known
      exact .leaf (by rw [accepts]; rfl) (by rw [leaves]; rfl)
  | boolie p b =>
      cases known
      exact .leaf (by rw [accepts]; rfl) (by rw [leaves]; rfl)
  | ident p name => cases known
  | call p f args _ => cases known
  | paren p x ih =>
      rw [fold] at known
      exact (ih known).paren p
  | unary p op x ih =>
      obtain ⟨w, inner, made⟩ := fold_unary known
      have answers := ih inner
      cases op with
      | negate =>
          cases w with
          | int n =>
              cases made
              exact answers.negate p
          | string t => cases made
          | boolie b => cases made
      | not =>
          cases w with
          | int n => cases made
          | string t => cases made
          | boolie b =>
              cases made
              exact answers.not p
  | binary p op x y left right =>
      obtain ⟨u, w, first, second, made⟩ := fold_binary known
      obtain ⟨same, computes⟩ := computes_of_binary made
      have first := left first
      have second := right second
      rw [same] at second
      -- the types are the indices of the rule, so they have to be variables
      revert computes first second
      generalize u.type = type, v.type = result
      intro computes first second
      cases computes with
      | arithmetic family => exact first.compute second family p
      | concat => exact first.concat second p
      | logical family => exact first.logical second family p
      | relational family => exact first.relational second family p
      | equality family _ => exact first.equality second family p

/-! ## Known values have the type of the expression -/

theorem type_fold_binary {p : Pos} {op : BinaryOp} {x y : Expr} {type : ValueType} {v : Value}
    (left : ∀ u, x.fold = .ok (some u) → TypeName.value type = .value u.type)
    (folded : (binary p op x y).fold = .ok (some v)) :
    v.type = if op.family = .arithmetic then type else .boolie := by
  obtain ⟨u, w, first, second, made⟩ := fold_binary folded
  rw [(computes_of_binary made).2.result_eq, TypeName.value.inj (left u first)]

/-- What an expression folds to has the type of the expression. -/
theorem HasType.type_value {Γ : Bindings} {e : Expr} {result : TypeName}
    (typed : e.HasType Γ result) : ∀ v, e.fold = .ok (some v) → result = .value v.type := by
  induction typed with
  | int =>
      intro v folded
      cases folded
      rfl
  | string =>
      intro v folded
      cases folded
      rfl
  | boolie =>
      intro v folded
      cases folded
      rfl
  | ident | user | builtin =>
      intro v folded
      cases folded
  | negate _ ih =>
      intro v folded
      obtain ⟨w, inner, made⟩ := fold_unary folded
      cases w with
      | int n =>
          cases made
          rfl
      | string s => cases made
      | boolie b => cases made
  | not _ ih =>
      intro v folded
      obtain ⟨w, inner, made⟩ := fold_unary folded
      cases w with
      | int n => cases made
      | string s => cases made
      | boolie b =>
          cases made
          rfl
  | arithmetic family _ _ left _ =>
      intro v folded
      rw [type_fold_binary left folded, if_pos family]
  | concat _ _ left _ =>
      intro v folded
      rw [type_fold_binary left folded]
      rfl
  | logical family _ _ left _ | relational family _ _ left _ | equality family _ _ left _ =>
      intro v folded
      rw [type_fold_binary left folded, family]
      rfl
  | paren _ ih => exact ih

/-! ## Which expressions have a known value -/

/-- Nothing in an expression keeps folding from a value: no name, no call, and no equality of truth
values. -/
structure Foldable (Γ : Bindings) (e : Expr) : Prop where
  names : ∀ pos name, Node.expr (.ident pos name) ∉ e.nodes
  calls : ∀ pos name args, Node.expr (.call pos name args) ∉ e.nodes
  truths : ∀ pos op x y, Node.expr (.binary pos op x y) ∈ e.nodes → op = .eq ∨ op = .ne →
    ¬ (x.HasType Γ (.value .boolie) ∧ y.HasType Γ (.value .boolie))

theorem self_mem_nodes (e : Expr) : Node.expr e ∈ e.nodes := mem_nodes_iff.mpr (.inl rfl)

theorem Foldable.part {Γ : Bindings} {e x : Expr} (foldable : e.Foldable Γ) (part : x ∈ e.parts) :
    x.Foldable Γ := by
  have inner : ∀ {n : Node}, n ∈ x.nodes → n ∈ e.nodes := fun inside =>
    mem_nodes_iff.mpr (.inr ⟨x, part, inside⟩)
  exact ⟨fun pos name inside => foldable.names pos name (inner inside),
    fun pos name args inside => foldable.calls pos name args (inner inside),
    fun pos op a b inside => foldable.truths pos op a b (inner inside)⟩

/-- If the value of an expression is known, so are the values of its parts. -/
theorem known_of_mem_parts {e x : Expr} {v : Value} (known : e.fold = .ok (some v))
    (part : x ∈ e.parts) : ∃ w, x.fold = .ok (some w) := by
  cases e with
  | int | string | boolie => cases part
  | ident | call => cases known
  | unary p op y =>
      obtain ⟨w, inner, -⟩ := fold_unary known
      rw [List.mem_singleton.mp part]
      exact ⟨w, inner⟩
  | paren p y =>
      rw [fold] at known
      rw [List.mem_singleton.mp part]
      exact ⟨v, known⟩
  | binary p op y z =>
      obtain ⟨u, w, left, right, -⟩ := fold_binary known
      rcases List.mem_cons.mp part with rfl | part
      · exact ⟨u, left⟩
      · rw [List.mem_singleton.mp part]
        exact ⟨w, right⟩

theorem known_of_mem_nodes {e x : Expr} {v : Value} (known : e.fold = .ok (some v))
    (inside : Node.expr x ∈ e.nodes) : ∃ w, x.fold = .ok (some w) := by
  induction e using induction_parts generalizing v with
  | whole e ih =>
      rcases mem_nodes_iff.mp inside with same | ⟨y, part, inside⟩
      · cases same
        exact ⟨v, known⟩
      · obtain ⟨w, inner⟩ := known_of_mem_parts known part
        exact ih y part inner inside

/-- A known value has come from nothing but literals and operators that are computed. -/
theorem foldable_of_fold {e : Expr} {v : Value} (known : e.fold = .ok (some v)) (Γ : Bindings) :
    e.Foldable Γ := by
  refine ⟨fun pos name inside => ?_, fun pos name args inside => ?_, ?_⟩
  · obtain ⟨w, inner⟩ := known_of_mem_nodes known inside
    cases inner
  · obtain ⟨w, inner⟩ := known_of_mem_nodes known inside
    cases inner
  · rintro pos op x y inside equality ⟨truth, -⟩
    obtain ⟨r, inner⟩ := known_of_mem_nodes known inside
    obtain ⟨u, w, left, right, made⟩ := fold_binary inner
    have type : ValueType.boolie = u.type := TypeName.value.inj (truth.type_value u left)
    obtain ⟨-, computes⟩ := computes_of_binary made
    rw [← type] at computes
    generalize r.type = result at computes
    cases computes with
    | logical family => rcases equality with rfl | rfl <;> cases family
    | equality _ other => exact other rfl

theorem exists_known_binary {Γ : Bindings} {pos : Pos} {op : BinaryOp} {x y : Expr}
    {type result : ValueType} (computes : Computes op type result)
    (left : x.Foldable Γ → x.foldError? = none →
      ∃ u, x.fold = .ok (some u) ∧ TypeName.value type = .value u.type)
    (right : y.Foldable Γ → y.foldError? = none →
      ∃ w, y.fold = .ok (some w) ∧ TypeName.value type = .value w.type)
    (foldable : (binary pos op x y).Foldable Γ) (folds : (binary pos op x y).foldError? = none) :
    ∃ v, (binary pos op x y).fold = .ok (some v) ∧ TypeName.value result = .value v.type := by
  obtain ⟨first, second, -⟩ := foldError?_binary.mp folds
  obtain ⟨u, known, same⟩ := left (foldable.part (by simp [parts])) first
  obtain ⟨w, known', same'⟩ := right (foldable.part (by simp [parts])) second
  cases same
  obtain ⟨o, done⟩ := foldError?_eq_none_iff.mp folds
  rw [fold_of_operands known known'] at done ⊢
  obtain ⟨v, rfl, rfl⟩ := binary_of_computes computes (TypeName.value.inj same').symm done
  exact ⟨v, done, rfl⟩

/-- An expression of a type has a known value if nothing in it keeps folding from one. -/
theorem HasType.exists_known {Γ : Bindings} {e : Expr} {result : TypeName}
    (typed : e.HasType Γ result) (foldable : e.Foldable Γ) (folds : e.foldError? = none) :
    ∃ v, e.fold = .ok (some v) ∧ result = .value v.type := by
  induction typed with
  | int => exact ⟨_, rfl, rfl⟩
  | string => exact ⟨_, rfl, rfl⟩
  | boolie => exact ⟨_, rfl, rfl⟩
  | ident _ => exact absurd (self_mem_nodes _) (foldable.names _ _)
  | user _ _ _ _ => exact absurd (self_mem_nodes _) (foldable.calls _ _ _)
  | builtin _ _ _ _ _ => exact absurd (self_mem_nodes _) (foldable.calls _ _ _)
  | paren _ ih =>
      rw [foldError?_paren] at folds
      rw [fold]
      exact ih (foldable.part (List.mem_singleton_self _)) folds
  | negate _ ih =>
      rw [foldError?_unary] at folds
      obtain ⟨v, inner, type⟩ := ih (foldable.part (List.mem_singleton_self _)) folds
      cases v with
      | int n => exact ⟨.int (-n), by rw [fold, inner]; rfl, rfl⟩
      | string t => cases type
      | boolie b => cases type
  | not _ ih =>
      rw [foldError?_unary] at folds
      obtain ⟨v, inner, type⟩ := ih (foldable.part (List.mem_singleton_self _)) folds
      cases v with
      | int n => cases type
      | string t => cases type
      | boolie b => exact ⟨.boolie (!b), by rw [fold, inner]; rfl, rfl⟩
  | arithmetic family _ _ left right =>
      exact exists_known_binary (.arithmetic family) left right foldable folds
  | concat _ _ left right => exact exists_known_binary .concat left right foldable folds
  | logical family _ _ left right =>
      exact exists_known_binary (.logical family) left right foldable folds
  | relational family _ _ left right =>
      exact exists_known_binary (.relational family) left right foldable folds
  | @equality pos op x y type family first second left right =>
      refine exists_known_binary (.equality family ?_) left right foldable folds
      rintro rfl
      refine foldable.truths pos op x y (self_mem_nodes _) ?_ ⟨first, second⟩
      cases op with
      | eq => exact .inl rfl
      | ne => exact .inr rfl
      | add | sub | mul | div | mod | and | or | xor | lt | le | gt | ge => cases family

end Expr

/--
Folding agrees with typing. If an expression folds to a value then in every state it is accepted at
the type of the value, and found to be of that type, and nothing is reported. Conversely, an
expression that is accepted at a type without a diagnostic folds to a value of the type exactly if
folding does not fail and nothing in the expression is a name, a call or an equality of truth
values.
-/
theorem folding_matches_typing (e : Expr) :
    (∀ v, e.fold = .ok (some v) → ∀ s : State, e.accepts v.type s = .ok true s ∧
        e.detect s = .ok ⟨true, .value v.type⟩ s) ∧
      ∀ (s s' : State) (type : ValueType), s.engine.diagnostics = [] →
        e.accepts type s = .ok true s' → s'.engine.diagnostics = [] →
        ((∃ v, e.fold = .ok (some v) ∧ v.type = type) ↔
          e.foldError? = none ∧ e.Foldable s.symbols.bindings) := by
  constructor
  · intro v known s
    have answers := Expr.answers_of_fold known s
    exact ⟨answers.accepts, answers.detect⟩
  · intro s s' type empty run silent
    constructor
    · rintro ⟨v, known, -⟩
      exact ⟨Expr.foldError?_eq_none_iff.mpr ⟨_, known⟩, Expr.foldable_of_fold known _⟩
    · rintro ⟨folds, foldable⟩
      -- without reports the run is also one under the policy `stop`, where acceptance gives a type
      have stopping : e.accepts type s.stopping = .ok true s.stopping :=
        (e.accepts_readsTable type).of_silent run silent rfl
      have typed := (Expr.asked_of_accepts (policy_stopping s) stopping).typed
      obtain ⟨v, known, same⟩ := typed.exists_known foldable folds
      exact ⟨v, known, (TypeName.value.inj same).symm⟩

/-- `"a" + "b" == "ab" and not (7 / -2 < -4)`. -/
def literalTruth : Expr :=
  .binary ⟨1, 18⟩ .and
    (.binary ⟨1, 10⟩ .eq
      (.binary ⟨1, 4⟩ .add (.string ⟨1, 0⟩ "\"a\"" "a") (.string ⟨1, 6⟩ "\"b\"" "b"))
      (.string ⟨1, 13⟩ "\"ab\"" "ab"))
    (.unary ⟨1, 22⟩ .not (.paren ⟨1, 26⟩ (.binary ⟨1, 34⟩ .lt
      (.binary ⟨1, 29⟩ .div (.int ⟨1, 27⟩ "7" 7)
        (.unary ⟨1, 31⟩ .negate (.int ⟨1, 32⟩ "2" 2)))
      (.unary ⟨1, 36⟩ .negate (.int ⟨1, 37⟩ "4" 4)))))

/-- `true == false`. -/
def truthEquality : Expr :=
  .binary ⟨2, 5⟩ .eq (.boolie ⟨2, 0⟩ true) (.boolie ⟨2, 8⟩ false)

/-- Literals of all types fold to a truth value. The equality of two of them is accepted too, but
has no known value. -/
theorem literalTruth_foldable :
    (atLeastState .stop).engine.diagnostics = [] ∧
      literalTruth.fold = .ok (some (.boolie true)) ∧
      literalTruth.accepts .boolie (atLeastState .stop) = .ok true (atLeastState .stop) ∧
      literalTruth.detect (atLeastState .stop) = .ok ⟨true, .value .boolie⟩ (atLeastState .stop) ∧
      (literalTruth.foldError? = none ∧
        literalTruth.Foldable (atLeastState .stop).symbols.bindings) ∧
      truthEquality.accepts .boolie (atLeastState .stop) = .ok true (atLeastState .stop) ∧
      truthEquality.foldError? = none ∧
      ¬ truthEquality.Foldable (atLeastState .stop).symbols.bindings := by
  have known : literalTruth.fold = .ok (some (.boolie true)) := by decide +kernel
  have accepted := (folding_matches_typing literalTruth).1 _ known (atLeastState .stop)
  have equal : truthEquality.accepts .boolie (atLeastState .stop) = .ok true (atLeastState .stop) :=
    rfl
  refine ⟨rfl, known, accepted.1, accepted.2, ?_, equal, rfl, fun foldable => ?_⟩
  · exact ((folding_matches_typing _).2 _ _ .boolie rfl accepted.1 rfl).mp ⟨_, known, rfl⟩
  · obtain ⟨v, folded, -⟩ :=
      ((folding_matches_typing _).2 _ _ .boolie rfl equal rfl).mpr ⟨rfl, foldable⟩
    cases folded

end Samo
