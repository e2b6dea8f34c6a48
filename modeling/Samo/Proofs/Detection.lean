import Samo.Proofs.Answers
import Samo.Proofs.ExpressionReports
import Samo.Proofs.Traces

/-!
# Detection and acceptance

Whether an expression is one of a type is asked along its operators; what its leaves say together is
counted. For `int` the two agree, and what they record is the same but for the calls among the
leaves that give no value, which only the count reports. For the other types acceptance is the
stronger one: it also looks at the operators (`detection_agrees`).
-/

namespace Samo

open Check

/-! ## The dominant type of one kind of leaves -/

namespace Tally

/-- What a tally says was seen. -/
structure Counts (t : Tally) (leaves : List Ty) : Prop where
  seen : t.seen = leaves.reverse
  best : t.best ≤ t.seen.count t.dominant

theorem Counts.add {t : Tally} {leaves : List Ty} (counts : t.Counts leaves) (type : Ty) :
    (t.add type).Counts (leaves ++ [type]) := by
  have seen : type :: t.seen = (leaves ++ [type]).reverse := by simp [counts.seen]
  unfold Tally.add
  dsimp only
  split
  · exact ⟨seen, by simp⟩
  · exact ⟨seen, counts.best.trans List.count_le_count_cons⟩

theorem counts_ofLeaves (leaves : List Ty) : (ofLeaves leaves).Counts leaves := by
  -- the fold starts anywhere, with the tally of the leaves before
  have more : ∀ (later : List Ty) (t : Tally) (before : List Ty), t.Counts before →
      (later.foldl Tally.add t).Counts (before ++ later) := by
    intro later
    induction later with
    | nil =>
        intro t before counts
        rwa [List.append_nil]
    | cons type later ih =>
        intro t before counts
        rw [List.append_cons]
        exact ih _ _ (counts.add type)
  exact more leaves empty [] ⟨rfl, Nat.zero_le _⟩

end Tally

/-- The leaves say one type together if and only if each of them has it. -/
theorem Detection.ofLeaves_eq_iff {leaves : List Ty} (some : leaves ≠ []) (type : Ty) :
    ofLeaves leaves = ⟨true, type⟩ ↔ ∀ l ∈ leaves, l = type := by
  constructor
  · intro same
    have counts := Tally.counts_ofLeaves leaves
    unfold ofLeaves at same
    rw [if_neg (by simpa using some)] at same
    obtain ⟨all, dominant⟩ := Detection.mk.inj same
    have all : (Tally.ofLeaves leaves).best = leaves.length := of_decide_eq_true all
    have whole : leaves.count type = leaves.length := by
      refine Nat.le_antisymm List.count_le_length ?_
      have best := counts.best
      rwa [all, dominant, counts.seen, List.count_reverse] at best
    intro l member
    exact (List.count_eq_length.mp whole l member).symm
  · intro all
    obtain ⟨n, length⟩ := Nat.exists_eq_succ_of_ne_zero (mt List.length_eq_zero_iff.mp some)
    rw [List.eq_replicate_of_mem all, length]
    exact ofLeaves_replicate n type

/-! ## Acceptance and the leaves -/

/-- An answer whether an expression is one of a type, and the types of its leaves. -/
structure Consistent (type : ValueType) (accepted : Bool) (types : List Ty) : Prop where
  sound : accepted = true → ∀ t ∈ types, t = .value type
  complete : type = .int → (∀ t ∈ types, t = .value .int) → accepted = true

namespace Consistent

variable {type : ValueType} {accepted accepted' : Bool} {types types' : List Ty}

theorem leaf {t : Ty} (same : accepted = true ↔ t = .value type) :
    Consistent type accepted [t] := by
  refine ⟨fun yes u member => ?_, fun int all => ?_⟩
  · rw [List.mem_singleton.mp member]
    exact same.mp yes
  · subst int
    exact same.mpr (all t (List.mem_singleton_self t))

/-- A truth value is one leaf, and no number. -/
theorem truth (only : accepted = true → type = .boolie) :
    Consistent type accepted [.value .boolie] := by
  refine ⟨fun yes u member => ?_, fun _ all => ?_⟩
  · rw [List.mem_singleton.mp member, only yes]
  · cases all _ (List.mem_singleton_self _)

/-- What is refused is no number, if it was not asked for one. -/
theorem refused (other : type ≠ .int) (types : List Ty) : Consistent type false types :=
  ⟨Bool.noConfusion, fun int => absurd int other⟩

theorem append (left : Consistent type accepted types) (right : Consistent type accepted' types') :
    Consistent type (accepted && accepted') (types ++ types') := by
  refine ⟨fun yes t member => ?_, fun int all => ?_⟩
  · rw [Bool.and_eq_true] at yes
    rcases List.mem_append.mp member with here | there
    · exact left.sound yes.1 t here
    · exact right.sound yes.2 t there
  · rw [Bool.and_eq_true]
    obtain ⟨first, second⟩ := List.forall_mem_append.mp all
    exact ⟨left.complete int first, right.complete int second⟩

end Consistent

namespace Expr

variable {s s' r r' : State} {type : ValueType} {accepted : Bool} {types : List Ty}

theorem leaves_call {p : Pos} {name : String} {args : List Expr}
    (told : (call p name args).leaves r = .ok types r') :
    ∃ result r₁, resolve p name (operands args) r = .ok result r₁ ∧ types = [result] := by
  rw [leaves] at told
  obtain ⟨result, r₁, resolved, told⟩ := bind_eq_ok_iff.mp told
  refine ⟨result, r₁, resolved, ?_⟩
  split at told
  · obtain ⟨_, r₂, _, given⟩ := bind_eq_ok_iff.mp told
    cases given
    rfl
  · cases told
    rfl

/-- An expression has a leaf. -/
theorem leaves_ne_nil (e : Expr) (told : e.leaves r = .ok types r') : types ≠ [] := by
  induction e using Expr.induction generalizing r r' types with
  | int | string | boolie =>
      rw [leaves] at told
      cases told
      exact List.cons_ne_nil _ _
  | ident p name =>
      rw [leaves] at told
      obtain ⟨found, r₁, -, given⟩ := bind_eq_ok_iff.mp told
      cases given
      exact List.cons_ne_nil _ _
  | unary p op x ih =>
      cases op with
      | negate =>
          rw [leaves] at told
          exact ih told
      | not =>
          rw [leaves] at told
          cases told
          exact List.cons_ne_nil _ _
  | binary p op x y left right =>
      rw [leaves] at told
      split at told
      · obtain ⟨types₁, r₁, first, told⟩ := bind_eq_ok_iff.mp told
        obtain ⟨types₂, r₂, -, given⟩ := bind_eq_ok_iff.mp told
        cases given
        exact List.append_ne_nil_of_left_ne_nil (left first) _
      · cases told
        exact List.cons_ne_nil _ _
  | paren p x ih =>
      rw [leaves] at told
      exact ih told
  | call p name args ih =>
      obtain ⟨result, r₁, -, rfl⟩ := leaves_call told
      exact List.cons_ne_nil _ _

/-- Wherever both questions about an expression are answered, the answers agree. -/
def Agreeing (e : Expr) : Prop :=
  ∀ ⦃type accepted types s s' r r'⦄, s.Alike r → e.accepts type s = .ok accepted s' →
    e.leaves r = .ok types r' → Consistent type accepted types

theorem Agreeing.bothAccept {x y : Expr} (left : x.Agreeing) (right : y.Agreeing)
    (alike : s.Alike r) (asked : x.operand.bothAccept y.operand type s = .ok accepted s')
    {r₁ : State} {types' : List Ty} (first : x.leaves r = .ok types r₁)
    (second : y.leaves r₁ = .ok types' r') : Consistent type accepted (types ++ types') := by
  obtain ⟨here, s₁, asked₁, asked⟩ := bind_eq_ok_iff.mp asked
  obtain ⟨there, s₂, asked₂, given⟩ := bind_eq_ok_iff.mp asked
  cases given
  have later : s₁.Alike r₁ := ((x.accepts_readsTable type).alike asked₁).symm.trans
    (alike.trans (x.leaves_readsTable.alike first))
  exact (left alike asked₁ first).append (right later asked₂ second)

/-- Only an arithmetic operation can be of another type than `boolie`. -/
theorem eq_boolie_of_accepts_binary {p : Pos} {op : BinaryOp} {x y : Expr}
    (plain : op.isArithmetic = false)
    (asked : (binary p op x y).accepts type s = .ok true s') : type = .boolie := by
  rw [accepts_binary] at asked
  cases type with
  | boolie => rfl
  | int | string =>
      cases family : op.family with
      | arithmetic => simp [BinaryOp.isArithmetic, family] at plain
      | logical | relational | equality =>
          rw [family] at asked
          cases asked

theorem Agreeing.binary {x y : Expr} (left : x.Agreeing) (right : y.Agreeing) (p : Pos)
    (op : BinaryOp) : (binary p op x y).Agreeing := by
  intro type accepted types s s' r r' alike asked told
  rw [leaves] at told
  split at told
  · next arithmetic =>
    obtain ⟨types₁, r₁, first, told⟩ := bind_eq_ok_iff.mp told
    obtain ⟨types₂, r₂, second, given⟩ := bind_eq_ok_iff.mp told
    cases given
    rw [accepts_binary, beq_iff_eq.mp arithmetic] at asked
    cases type with
    | int => exact left.bothAccept right alike asked first second
    | string =>
        -- the leaves do not know the operator: texts can be added and nothing else
        dsimp only at asked
        split at asked
        · exact left.bothAccept right alike asked first second
        · cases asked
          exact .refused ValueType.noConfusion _
    | boolie =>
        cases asked
        exact .refused ValueType.noConfusion _
  · next plain =>
    cases told
    refine .truth fun yes => ?_
    subst yes
    exact eq_boolie_of_accepts_binary (Bool.eq_false_iff.mpr plain) asked

theorem agreeing (e : Expr) : e.Agreeing := by
  induction e using Expr.induction with
  | int | string | boolie =>
      intro type accepted types s s' r r' alike asked told
      rw [accepts] at asked
      rw [leaves] at told
      cases asked
      cases told
      exact .leaf (by simp [eq_comm])
  | ident p name =>
      intro type accepted types s s' r r' alike asked told
      rw [accepts] at asked
      rw [leaves] at told
      obtain ⟨found, s₁, first, given⟩ := bind_eq_ok_iff.mp asked
      obtain ⟨found', r₁, second, given'⟩ := bind_eq_ok_iff.mp told
      cases given
      cases given'
      -- the name stands for the same in both states
      obtain ⟨r₂, again⟩ := (ReadsTable.identifier p name).transfer first alike.symm
      rw [second] at again
      cases again
      cases found <;> exact .leaf (by simp)
  | unary p op x ih =>
      intro type accepted types s s' r r' alike asked told
      cases op with
      | negate =>
          rw [accepts] at asked
          rw [leaves] at told
          split at asked
          · next int =>
            subst int
            exact ih alike asked told
          · next other =>
            cases asked
            exact .refused other types
      | not =>
          rw [accepts] at asked
          rw [leaves] at told
          cases told
          refine .truth fun yes => ?_
          split at asked
          · next truth => exact truth
          · cases asked
            cases yes
  | binary p op x y left right => exact left.binary right p op
  | paren p x ih =>
      intro type accepted types s s' r r' alike asked told
      rw [accepts] at asked
      rw [leaves] at told
      exact ih alike asked told
  | call p name args ih =>
      intro type accepted types s s' r r' alike asked told
      rw [accepts] at asked
      obtain ⟨result, s₁, first, given⟩ := bind_eq_ok_iff.mp asked
      cases given
      obtain ⟨result', r₁, second, rfl⟩ := leaves_call told
      obtain ⟨r₂, again⟩ := (resolve_readsTable p name args).transfer first alike.symm
      rw [second] at again
      cases again
      exact .leaf (by simp)

/-- What is accepted is detected, and a number that is detected is accepted. -/
theorem detect_agrees {e : Expr} {found : Detection} (alike : s.Alike r)
    (asked : e.accepts type s = .ok accepted s') (told : e.detect r = .ok found r') :
    (accepted = true → found = ⟨true, .value type⟩) ∧
      (type = .int → found = ⟨true, .value .int⟩ → accepted = true) := by
  obtain ⟨types, r₁, told, given⟩ := bind_eq_ok_iff.mp told
  cases given
  have some := e.leaves_ne_nil told
  have agrees := e.agreeing alike asked told
  rw [Detection.ofLeaves_eq_iff some, Detection.ofLeaves_eq_iff some]
  exact ⟨agrees.sound, agrees.complete⟩

/-- An expression is accepted at one type at most. -/
theorem eq_of_accepts {e : Expr} {type' : ValueType} {s₁ s₂ : State}
    (yes : e.accepts type s = .ok true s₁) (yes' : e.accepts type' s = .ok true s₂) :
    type = type' := by
  -- under the policy `stop` the leaves might end the run, so all is asked again without it
  obtain ⟨s₃, asked⟩ := (e.accepts_readsTable type).collecting yes
  obtain ⟨s₄, asked'⟩ := (e.accepts_readsTable type').collecting yes'
  obtain ⟨rs, types, tells⟩ := e.leaves_readsTable.tells s.unreported
  obtain ⟨l, told⟩ := tells.collected rfl
  have alike : s.unreported.Alike s.unreported := ⟨rfl, rfl⟩
  obtain ⟨t, member⟩ := List.exists_mem_of_ne_nil types (e.leaves_ne_nil told)
  have first := (e.agreeing alike asked told).sound rfl t member
  have second := (e.agreeing alike asked' told).sound rfl t member
  exact Ty.value.inj (first.symm.trans second)

end Expr

/-! ## What both record -/

/-- Two records that differ in extra diagnostics alone: the second one has all that the first one
has, and without the extra ones both are the same, in the same order. -/
structure SameBut (extra ds ds' : List Diagnostic) : Prop where
  kept : ds ⊆ ds'
  rest : ds'.filter (· ∉ extra) = ds.filter (· ∉ extra)

namespace SameBut

variable {extra ds ds' : List Diagnostic}

theorem refl (extra ds : List Diagnostic) : SameBut extra ds ds := ⟨List.Subset.refl ds, rfl⟩

theorem filter_extra {d : Diagnostic} (inside : d ∈ extra) (ds : List Diagnostic) :
    (ds ++ [d]).filter (· ∉ extra) = ds.filter (· ∉ extra) := by
  simp [inside]

/-- Both take up a diagnostic, unless they have it. -/
theorem add (same : SameBut extra ds ds') (d : Diagnostic) :
    SameBut extra (if d ∈ ds then ds else ds ++ [d]) (if d ∈ ds' then ds' else ds' ++ [d]) := by
  by_cases known : d ∈ ds
  · rw [if_pos known, if_pos (same.kept known)]
    exact same
  rw [if_neg known]
  by_cases known' : d ∈ ds'
  · -- only the second one has it, so it is an extra one
    have inside : d ∈ extra := by
      by_contra outside
      have member : d ∈ ds'.filter (· ∉ extra) := by simp [known', outside]
      rw [same.rest] at member
      exact known (List.mem_of_mem_filter member)
    rw [if_pos known']
    exact ⟨by simp [same.kept, known'], by rw [filter_extra inside, same.rest]⟩
  · rw [if_neg known']
    refine ⟨?_, by rw [List.filter_append, List.filter_append, same.rest]⟩
    intro c member
    rw [List.mem_append] at member ⊢
    exact member.imp_left fun old => same.kept old

/-- Only the second one takes up an extra diagnostic. -/
theorem addExtra (same : SameBut extra ds ds') {d : Diagnostic} (inside : d ∈ extra) :
    SameBut extra ds (if d ∈ ds' then ds' else ds' ++ [d]) := by
  split
  · exact same
  · exact ⟨List.Subset.trans same.kept (List.subset_append_left _ _),
      by rw [filter_extra inside, same.rest]⟩

end SameBut

namespace Check

/-- Reports with some extra ones put in between. -/
inductive Interleaves : List Report → List Report → List Report → Prop
  | nil : Interleaves [] [] []
  | shared (r : Report) {extra rs rs' : List Report} : Interleaves extra rs rs' →
      Interleaves extra (r :: rs) (r :: rs')
  | extra (r : Report) {extra rs rs' : List Report} : Interleaves extra rs rs' →
      Interleaves (r :: extra) rs (r :: rs')

namespace Interleaves

variable {extra extra' rs₁ rs₁' rs₂ rs₂' : List Report}

theorem refl (rs : List Report) : Interleaves [] rs rs := by
  induction rs with
  | nil => exact .nil
  | cons r rs ih => exact .shared r ih

theorem append (first : Interleaves extra rs₁ rs₁') (second : Interleaves extra' rs₂ rs₂') :
    Interleaves (extra ++ extra') (rs₁ ++ rs₂) (rs₁' ++ rs₂') := by
  induction first with
  | nil => exact second
  | shared r _ ih => exact .shared r ih
  | extra r _ ih => exact .extra r ih

theorem extra_subset (between : Interleaves extra rs₁ rs₁') : extra ⊆ rs₁' := by
  induction between with
  | nil => exact List.Subset.refl _
  | shared r _ ih => exact List.Subset.trans ih (List.subset_cons_self _ _)
  | extra r _ ih => exact List.cons_subset_cons r ih

end Interleaves

namespace Event

theorem file_recordIn_report (e : Engine) (r : Report) :
    (recordIn e (.report r)).file = e.file := by
  cases r <;> exact Engine.file_record ..

theorem diagnostics_recordIn_report (e : Engine) (r : Report) :
    (recordIn e (.report r)).diagnostics =
      if r.diagnostic e.file ∈ e.diagnostics then e.diagnostics
      else e.diagnostics ++ [r.diagnostic e.file] := by
  cases r with
  | fatal pos p => exact apply_ite Engine.diagnostics _ _ _
  | error pos p => exact apply_ite Engine.diagnostics _ _ _

/-- The extra reports make up for what two engines record differently. -/
theorem sameBut_recordAll {extra rs rs' : List Report} (between : Interleaves extra rs rs')
    {ds : List Diagnostic} {e e' : Engine} (file : e'.file = e.file)
    (inside : ∀ r ∈ extra, r.diagnostic e.file ∈ ds)
    (same : SameBut ds e.diagnostics e'.diagnostics) :
    SameBut ds (recordAll e (rs.map .report)).diagnostics
      (recordAll e' (rs'.map .report)).diagnostics := by
  induction between generalizing e e' with
  | nil => exact same
  | shared r _ ih =>
      refine ih ?_ ?_ ?_
      · rw [file_recordIn_report, file_recordIn_report, file]
      · rwa [file_recordIn_report]
      · rw [diagnostics_recordIn_report, diagnostics_recordIn_report, file]
        exact same.add _
  | extra r _ ih =>
      obtain ⟨first, others⟩ := List.forall_mem_cons.mp inside
      refine ih ?_ others ?_
      · rw [file_recordIn_report, file]
      · rw [diagnostics_recordIn_report, file]
        exact same.addExtra first

end Event

end Check

/-- What a step gives, if it gets to its end. -/
def Check.answer? {α : Type} (m : Check α) (s : State) : Option α :=
  match m s with
  | .ok a _ => some a
  | .error .. => none

namespace Expr

/-- The places of the calls among the leaves of an expression that give no value. -/
def voidLeaves (s : State) : Expr → List Pos
  | call pos name args =>
    if answer? (resolve pos name (operands args)) s = some .void then [pos] else []
  | unary _ .negate x | paren _ x => x.voidLeaves s
  | binary _ op x y => if op.isArithmetic then x.voidLeaves s ++ y.voidLeaves s else []
  | unary _ .not _ | int .. | string .. | boolie .. | ident .. => []

/-- What the calls among the leaves of an expression that give no value are reported as. -/
def voidDiagnostics (e : Expr) (s : State) : List Diagnostic :=
  (e.voidLeaves s).map fun p => ⟨.fatal, Problem.voidCall.message, p, s.engine.file⟩

/-- What both questions tell in a state, when an expression is asked for a number. -/
structure Compared (e : Expr) (s : State) (accepted : Bool) (types : List Ty)
    (rs rs' : List Report) : Prop where
  accepts : Tells (e.accepts .int) s (rs.map .report) accepted s
  leaves : Tells e.leaves s (rs'.map .report) types s
  between : Interleaves ((e.voidLeaves s).map fun p => .fatal p .voidCall) rs rs'

variable {s : State}

/-- What is known without a report. -/
theorem Compared.silent {e : Expr} {accepted : Bool} {types : List Ty}
    (accepts : e.accepts .int = return accepted) (leaves : e.leaves = return types)
    (none : e.voidLeaves s = []) : e.Compared s accepted types [] [] := by
  refine ⟨?_, ?_, ?_⟩
  · rw [accepts]
    exact .pure _ s
  · rw [leaves]
    exact .pure _ s
  · rw [none]
    exact .nil

theorem Compared.append {x y : Expr} {accepted accepted' : Bool} {types types' : List Ty}
    {rs₁ rs₁' rs₂ rs₂' : List Report} (left : x.Compared s accepted types rs₁ rs₁')
    (right : y.Compared s accepted' types' rs₂ rs₂') (p : Pos) {op : BinaryOp}
    (arithmetic : op.isArithmetic = true) :
    (binary p op x y).Compared s (accepted && accepted') (types ++ types') (rs₁ ++ rs₂)
      (rs₁' ++ rs₂') := by
  refine ⟨?_, ?_, ?_⟩
  · rw [accepts_binary, beq_iff_eq.mp arithmetic, List.map_append,
      ← List.append_nil (rs₂.map _)]
    exact left.accepts.bind (right.accepts.bind (.pure _ s))
  · rw [Expr.leaves, if_pos arithmetic, List.map_append, ← List.append_nil (rs₂'.map _)]
    exact left.leaves.bind (right.leaves.bind (.pure _ s))
  · rw [voidLeaves, if_pos arithmetic, List.map_append]
    exact left.between.append right.between

theorem compared_call (collect : s.engine.policy = .collect) (p : Pos) (name : String)
    (args : List Expr) : ∃ accepted types rs rs',
      (call p name args).Compared s accepted types rs rs' := by
  obtain ⟨rs, result, resolved⟩ := (resolve_readsTable p name args).tells s
  have answer : answer? (resolve p name (operands args)) s = some result := by
    obtain ⟨l, run⟩ := resolved.collected collect
    rw [answer?, run]
  have accepts : Tells ((call p name args).accepts .int) s (rs.map .report)
      (decide (result = .value .int)) s := by
    rw [Expr.accepts, ← List.append_nil (rs.map _)]
    exact resolved.bind (.pure _ s)
  by_cases void : result = .void
  · -- acceptance takes the call for one of another type, without a report
    refine ⟨_, [result], rs, rs ++ [.fatal p .voidCall], accepts, ?_, ?_⟩
    · rw [Expr.leaves, List.map_append]
      refine resolved.bind ?_
      rw [if_pos void]
      exact (Tells.fatal p .voidCall s).bind (.pure _ s)
    · rw [voidLeaves, answer, if_pos (congrArg some void)]
      have alone : Interleaves [.fatal p .voidCall] [] [.fatal p .voidCall] := .extra _ .nil
      have whole := (Interleaves.refl rs).append alone
      rwa [List.append_nil] at whole
  · refine ⟨_, [result], rs, rs, accepts, ?_, ?_⟩
    · rw [Expr.leaves, ← List.append_nil (rs.map _)]
      refine resolved.bind ?_
      rw [if_neg void]
      exact .pure _ s
    · rw [voidLeaves, answer, if_neg (fun same => void (Option.some.inj same))]
      exact .refl rs

/-- The leaves are asked for what the check for a number asks, and for calls that give no value. -/
theorem exists_compared (collect : s.engine.policy = .collect) (e : Expr) :
    ∃ accepted types rs rs', e.Compared s accepted types rs rs' := by
  induction e using Expr.induction with
  | int p spelling n =>
      exact ⟨true, [.value .int], [], [], .silent (by rw [accepts]; rfl) (by rw [leaves]) rfl⟩
  | string p spelling v =>
      exact ⟨false, [.value .string], [], [], .silent (by rw [accepts]; rfl) (by rw [leaves]) rfl⟩
  | boolie p b =>
      exact ⟨false, [.value .boolie], [], [], .silent (by rw [accepts]; rfl) (by rw [leaves]) rfl⟩
  | ident p name =>
      obtain ⟨rs, found, asked⟩ := (ReadsTable.identifier p name).tells s
      refine ⟨found.map (·.type) = some (.value .int), [(found.map (·.type)).getD .thing], rs, rs,
        ?_, ?_, .refl rs⟩
      · rw [accepts, ← List.append_nil (rs.map _)]
        exact asked.bind (.pure _ s)
      · rw [leaves, ← List.append_nil (rs.map _)]
        exact asked.bind (.pure _ s)
  | unary p op x ih =>
      cases op with
      | negate =>
          obtain ⟨accepted, types, rs, rs', compared⟩ := ih
          refine ⟨accepted, types, rs, rs', ?_, ?_, compared.between⟩
          · rw [accepts, if_pos rfl]
            exact compared.accepts
          · rw [leaves]
            exact compared.leaves
      | not =>
          refine ⟨false, [.value .boolie], [], [], .silent ?_ (by rw [leaves]) rfl⟩
          rw [accepts, if_neg ValueType.noConfusion]
  | binary p op x y left right =>
      by_cases arithmetic : op.isArithmetic = true
      · obtain ⟨accepted, types, rs, rs', first⟩ := left
        obtain ⟨accepted', types', rs₂, rs₂', second⟩ := right
        exact ⟨_, _, _, _, first.append second p arithmetic⟩
      -- other operators give a truth value, and neither question goes into them
      · refine ⟨false, [.value .boolie], [], [], .silent ?_ ?_ ?_⟩
        · rw [accepts_binary]
          cases family : op.family with
          | arithmetic => simp [BinaryOp.isArithmetic, family] at arithmetic
          | logical | relational | equality => rfl
        · rw [leaves, if_neg arithmetic]
        · rw [voidLeaves, if_neg arithmetic]
  | paren p x ih =>
      obtain ⟨accepted, types, rs, rs', compared⟩ := ih
      refine ⟨accepted, types, rs, rs', ?_, ?_, ?_⟩
      · rw [accepts]
        exact compared.accepts
      · rw [leaves]
        exact compared.leaves
      · rw [voidLeaves]
        exact compared.between
  | call p name args ih => exact compared_call collect p name args

/-- Both leave the same record behind, but for the calls that give no value. -/
theorem Compared.sameBut {e : Expr} {accepted : Bool} {types : List Ty} {rs rs' : List Report}
    (compared : e.Compared s accepted types rs rs') :
    SameBut (e.voidDiagnostics s) (Event.recordAll s.engine (rs.map .report)).diagnostics
      (Event.recordAll s.engine (rs'.map .report)).diagnostics := by
  refine Event.sameBut_recordAll compared.between rfl ?_ (.refl _ _)
  intro r member
  obtain ⟨p, place, rfl⟩ := List.mem_map.mp member
  exact List.mem_map_of_mem place

theorem Compared.void_subset {e : Expr} {accepted : Bool} {types : List Ty} {rs rs' : List Report}
    (compared : e.Compared s accepted types rs rs') :
    e.voidDiagnostics s ⊆ (Event.recordAll s.engine (rs'.map .report)).diagnostics := by
  intro d member
  obtain ⟨p, place, rfl⟩ := List.mem_map.mp member
  have gains := Event.gains s.engine (rs'.map .report)
  rw [Event.reports_map_report] at gains
  refine (gains.failures _ (.inl rfl)).mpr (.inr ⟨.fatal p .voidCall, ?_, rfl⟩)
  exact compared.between.extra_subset (List.mem_map_of_mem place)

end Expr

/-! ## What an expression is expected to be -/

namespace Check

/-- The problems that can be reported when an expression is expected to be of a type. -/
def Unexpected (type : ValueType) (p : Problem) : Prop :=
  p.inExpression ∨ (type ≠ .int ∧ p = .invalidValue type) ∨
    ∃ found, found ≠ ⟨true, .value type⟩ ∧ p = .wrongValue type found

theorem expectType_confinedAt (type : ValueType) (e : Expr) (pos : Pos) (s : State) :
    ConfinedAt (Unexpected type) (expectType type e pos) s := by
  have asking := e.within_anywhere.inquired
  unfold expectType
  refine (((asking.accepts type).confined s).imp fun _ => .inl).bind fun accepted s₁ asked => ?_
  cases accepted with
  | true => exact Confined.pure true s₁
  | false =>
      have leaves := (asking.operand (List.Subset.refl _)).detect.confined s₁
      refine (leaves.imp fun _ => .inl).bind fun found s₂ told => ?_
      dsimp only
      split
      · next same =>
        refine (Confined.fatal pos (.inr (.inl ⟨?_, rfl⟩))).bind (fun _ => .pure false) s₂
        intro int
        -- the expression was not accepted as a number, so its leaves do not say that it is one
        have alike : s.Alike s₁ := (e.accepts_readsTable type).alike asked
        have number : found = ⟨true, .value .int⟩ := by
          rw [int] at same
          obtain ⟨homogeneous, type⟩ := found
          simpa using same
        exact Bool.noConfusion ((Expr.detect_agrees alike asked told).2 int number)
      · next other =>
        refine (Confined.fatal pos (.inr (.inr ⟨found, ?_, rfl⟩))).bind (fun _ => .pure false) s₂
        rintro rfl
        simp at other

/-- No such report says that a number is invalid, or that the type that was expected was found. -/
theorem Unexpected.message_ne {type : ValueType} {p : Problem} (unexpected : Unexpected type p) :
    p.message ≠ "Invalid int expression on RHS." ∧
      ∀ t : ValueType, p.message ≠ s!"Expected {t.name} expression on RHS, found {t.name}." := by
  have wrong : ∀ t : ValueType, (Problem.wrongValue t ⟨true, .value t⟩).message =
      s!"Expected {t.name} expression on RHS, found {t.name}." := fun _ => rfl
  rcases unexpected with inside | ⟨other, rfl⟩ | ⟨found, other, rfl⟩
  · have invalid : (Problem.invalidValue .int).message = "Invalid int expression on RHS." := by
      decide
    refine ⟨?_, fun t => ?_⟩
    · rw [← invalid]
      exact (p.message_ne_of_inExpression inside .int ⟨true, .value .int⟩).1
    · rw [← wrong]
      exact (p.message_ne_of_inExpression inside t ⟨true, .value t⟩).2
  · refine ⟨?_, fun t => ?_⟩
    · cases type with
      | int => exact absurd rfl other
      | string | boolie => decide
    · rw [← wrong]
      exact (Begins.more _ (.more _ .self)).ne (.more _ (.more _ (.more _ (.more _ .self))))
        (by decide)
  · refine ⟨?_, fun t same => ?_⟩
    · exact (Begins.more _ (.more _ (.more _ (.more _ .self)))).ne .self (by decide)
    · rw [← wrong] at same
      obtain ⟨rfl, described⟩ := Problem.wrongValue_inj same
      exact other (Detection.describe_eq_iff.mp described)

end Check

/--
Detection and acceptance agree. Whatever the symbol table is, under the policy `collect` both
questions are answered for every expression. It is accepted as a number exactly if the leaves say
`int`, and what is recorded is the same but for the calls among the leaves that give no value,
which only detection reports. What is accepted at any type is detected at that type, so nothing is
accepted at two. Where an expression is expected to be of a type, under any policy, no report says
that a number is invalid, and none that a type was expected and found.
-/
theorem detection_agrees {s : State} (collect : s.engine.policy = .collect) (e : Expr) :
    (∃ accepted s₁ found s₂, e.accepts .int s = .ok accepted s₁ ∧ e.detect s = .ok found s₂ ∧
      (accepted = true ↔ found = ⟨true, .value .int⟩) ∧
      SameBut (e.voidDiagnostics s) s₁.engine.diagnostics s₂.engine.diagnostics ∧
      e.voidDiagnostics s ⊆ s₂.engine.diagnostics) ∧
    (∀ type s₁, e.accepts type s = .ok true s₁ → ∃ s₂, e.detect s = .ok ⟨true, .value type⟩ s₂) ∧
    (∀ type type' s₁ s₂, e.accepts type s = .ok true s₁ → e.accepts type' s = .ok true s₂ →
      type = type') ∧
    ∀ (r : State) (type : ValueType) (pos : Pos),
      ∀ d ∈ (stateOf (expectType type e pos r)).engine.diagnostics, d ∈ r.engine.diagnostics ∨
        d.message ≠ "Invalid int expression on RHS." ∧ ∀ t : ValueType,
          d.message ≠ s!"Expected {t.name} expression on RHS, found {t.name}." := by
  obtain ⟨accepted, types, rs, rs', compared⟩ := e.exists_compared collect
  have alike : s.Alike s := ⟨rfl, rfl⟩
  obtain ⟨l, asked⟩ := compared.accepts.collected collect
  obtain ⟨l', told⟩ := compared.leaves.collected collect
  have detected := bind_ok (f := fun types => (return .ofLeaves types : Check Detection)) told
  refine ⟨⟨accepted, _, _, _, asked, detected, ?_, compared.sameBut, compared.void_subset⟩, ?_, ?_,
    ?_⟩
  · exact ⟨(Expr.detect_agrees alike asked detected).1,
      (Expr.detect_agrees alike asked detected).2 rfl⟩
  · intro type s₁ yes
    rw [← (Expr.detect_agrees alike yes detected).1 rfl]
    exact ⟨_, detected⟩
  · intro type type' s₁ s₂ yes yes'
    exact Expr.eq_of_accepts yes yes'
  · intro r type pos d member
    refine (expectType_confinedAt type e pos r d member).imp_right ?_
    rintro ⟨p, unexpected, same⟩
    rw [same]
    exact unexpected.message_ne

/-- A state before a check that collects, in which a function without a result is declared. -/
def greetState : State :=
  let s := ({ policy := .collect } : Options).initialState "main" .standard ({} : Options).newLog
  let f : Function := { name := "greet", line := 1, params := [], returns := .void }
  { s with symbols := s.symbols.insert (.fn f) }

/-- `greet() + missing`: a call that gives no value, and a name that stands for nothing. -/
def greetSum : Expr := .binary ⟨2, 8⟩ .add (.call ⟨2, 0⟩ "greet" []) (.ident ⟨2, 10⟩ "missing")

/-- `"a" + "b"`, which is accepted as a text. -/
def letterSum : Expr :=
  .binary ⟨3, 4⟩ .add (.string ⟨3, 0⟩ "\"a\"" "a") (.string ⟨3, 6⟩ "\"b\"" "b")

/-- Only detection reports the call, and both report the name. -/
theorem greetSum_detected :
    greetState.engine.policy = .collect ∧
      (stateOf (greetSum.accepts .int greetState)).engine.diagnostics =
        [⟨.fatal, "Unknown identifier missing.", ⟨2, 10⟩, "main"⟩] ∧
      (stateOf (greetSum.detect greetState)).engine.diagnostics =
        greetSum.voidDiagnostics greetState ++
          [⟨.fatal, "Unknown identifier missing.", ⟨2, 10⟩, "main"⟩] ∧
      (∃ accepted s₁ found s₂, greetSum.accepts .int greetState = .ok accepted s₁ ∧
        greetSum.detect greetState = .ok found s₂ ∧
        (accepted = true ↔ found = ⟨true, .value .int⟩) ∧
        SameBut (greetSum.voidDiagnostics greetState) s₁.engine.diagnostics
          s₂.engine.diagnostics ∧
        greetSum.voidDiagnostics greetState ⊆ s₂.engine.diagnostics) ∧
      ∃ s₂, letterSum.detect greetState = .ok ⟨true, .value .string⟩ s₂ :=
  ⟨rfl, rfl, rfl, (detection_agrees rfl greetSum).1,
    (detection_agrees rfl letterSum).2.1 .string greetState rfl⟩

end Samo
