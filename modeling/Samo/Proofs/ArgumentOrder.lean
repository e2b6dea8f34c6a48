import Samo.Proofs.Arguments

/-!
# The order in which arguments are handed out

`Queues.draws` is what one parameter after the other is given. Each draw takes the head of one queue,
so the arguments of one form keep their order (`filter_assign`), and none of them is missing or drawn
twice (`draws_eq`, `assign_waiting`). Between the two forms the order can change. It does not as long
as each argument comes in its turn: its form is the one its parameter looks for first, or all the
arguments behind it have the same form (`InTurn`).
-/

namespace Samo.Queues

variable {α : Type} {isBool : α → Bool} {type : ValueType} {types : List ValueType}
  {q : Queues α} {args : List α}

/-- What the parameters are given one after the other: `none` when nothing waits any more. -/
def draws : List ValueType → Queues α → List (Option α)
  | [], _ => []
  | type :: types, q =>
    match q.next? type with
    | none => none :: draws types q
    | some (a, q) => some a :: draws types q

/-! ## Nothing is missing -/

/-- One argument fewer waits for one parameter fewer. -/
theorem length_next? {q' : Queues α} {a : α} (size : (type :: types).length = q.waiting.length)
    (handed : q.next? type = some (a, q')) : types.length = q'.waiting.length := by
  have taken := (next?_waiting handed).length_eq
  simp only [List.length_cons] at size taken
  omega

/-- Something is handed out as long as something waits. -/
theorem exists_next? (size : (type :: types).length = q.waiting.length) :
    ∃ a q', q.next? type = some (a, q') := by
  cases handed : q.next? type with
  | some x => exact ⟨x.1, x.2, rfl⟩
  | none =>
      rw [waiting_of_next?_eq_none handed] at size
      cases size

/-- Every parameter is given an argument when there are as many, and it is the one assigned to it. -/
theorem draws_eq (size : types.length = q.waiting.length) :
    q.draws types = ((q.assign types).map (·.2)).map some ∧
      q.assign types = types.zip ((q.assign types).map (·.2)) := by
  induction types generalizing q with
  | nil => exact ⟨rfl, rfl⟩
  | cons type types ih =>
      obtain ⟨a, q', handed⟩ := exists_next? size
      obtain ⟨drawn, paired⟩ := ih (length_next? size handed)
      simp only [draws, assign, handed, List.map_cons, List.zip_cons_cons]
      exact ⟨congrArg _ drawn, congrArg _ paired⟩

/-! ## Each form keeps its order -/

/-- Arguments that wait in the queue of their form. -/
structure Sorted (isBool : α → Bool) (q : Queues α) : Prop where
  bools : ∀ a ∈ q.bools, isBool a = true
  plain : ∀ a ∈ q.plain, isBool a = false

theorem sorted_ofList (args : List α) : (ofList isBool args).Sorted isBool :=
  ⟨fun a member => (List.mem_filter.mp member).2,
    fun a member => by simpa using (List.mem_filter.mp member).2⟩

/-- The arguments of each form are handed out as they waited. -/
theorem filter_assign (sorted : q.Sorted isBool) (size : types.length = q.waiting.length) :
    ((q.assign types).map (·.2)).filter isBool = q.bools ∧
      ((q.assign types).map (·.2)).filter (!isBool ·) = q.plain := by
  induction types generalizing q with
  | nil =>
      have empty : q.bools ++ q.plain = [] := List.length_eq_zero_iff.mp size.symm
      obtain ⟨bools, plain⟩ := List.append_eq_nil_iff.mp empty
      rw [bools, plain]
      exact ⟨rfl, rfl⟩
  | cons type types ih =>
      obtain ⟨a, q', handed⟩ := exists_next? size
      have smaller := length_next? size handed
      simp only [assign, handed, List.map_cons]
      rcases next?_cases handed with ⟨bools, plain⟩ | ⟨plain, bools⟩
      · have form : isBool a = true := sorted.bools a (by simp [bools])
        have sorted' : q'.Sorted isBool :=
          ⟨fun b member => sorted.bools b (by simp [bools, member]), plain ▸ sorted.plain⟩
        obtain ⟨first, second⟩ := ih sorted' smaller
        rw [List.filter_cons_of_pos form, List.filter_cons_of_neg (by simp [form]), first, second]
        exact ⟨bools.symm, plain⟩
      · have form : isBool a = false := sorted.plain a (by simp [plain])
        have sorted' : q'.Sorted isBool :=
          ⟨bools ▸ sorted.bools, fun b member => sorted.plain b (by simp [plain, member])⟩
        obtain ⟨first, second⟩ := ih sorted' smaller
        rw [List.filter_cons_of_neg (by simp [form]), List.filter_cons_of_pos (by simp [form]),
          first, second]
        exact ⟨bools, plain.symm⟩

/-! ## Arguments that come in their turn -/

/-- Each argument has the form that its parameter looks for first, or the form of all behind it. -/
inductive InTurn (isBool : α → Bool) : List ValueType → List α → Prop
  | nil : InTurn isBool [] []
  | cons {type types a args} :
      (isBool a = true ↔ type = .boolie) ∨ (∀ b ∈ args, isBool b = isBool a) →
      InTurn isBool types args → InTurn isBool (type :: types) (a :: args)

/-- A parameter of another type than `boolie` takes the next plain argument. -/
theorem next?_of_ne (other : type ≠ .boolie) (bools : List α) (a : α) (plain : List α) :
    (⟨bools, a :: plain⟩ : Queues α).next? type = some (a, ⟨bools, plain⟩) := by
  cases type with
  | boolie => exact absurd rfl other
  | int => rfl
  | string => rfl

/-- Where no plain argument waits, any parameter takes the next one in boolean form. -/
theorem next?_of_plain_nil (type : ValueType) (a : α) (bools : List α) :
    (⟨a :: bools, []⟩ : Queues α).next? type = some (a, ⟨bools, []⟩) := by
  cases type with
  | boolie => rfl
  | int => rfl
  | string => rfl

/-- Where no argument in boolean form waits, any parameter takes the next plain one. -/
theorem next?_of_bools_nil (type : ValueType) (a : α) (plain : List α) :
    (⟨[], a :: plain⟩ : Queues α).next? type = some (a, ⟨[], plain⟩) := by
  cases type with
  | boolie => rfl
  | int => rfl
  | string => rfl

/-- An argument that comes in its turn is handed out before all others. -/
theorem next?_ofList_cons {a : α}
    (turn : (isBool a = true ↔ type = .boolie) ∨ (∀ b ∈ args, isBool b = isBool a)) :
    (ofList isBool (a :: args)).next? type = some (a, ofList isBool args) := by
  unfold ofList
  cases form : isBool a with
  | true =>
      rw [List.filter_cons_of_pos form, List.filter_cons_of_neg (by simp [form])]
      rcases turn with fits | same
      · rw [fits.mp form]
        rfl
      · have plain : args.filter (!isBool ·) = [] :=
          List.filter_eq_nil_iff.mpr fun b member => by simp [same b member, form]
        rw [plain]
        exact next?_of_plain_nil type a _
  | false =>
      rw [List.filter_cons_of_neg (by simp [form]), List.filter_cons_of_pos (by simp [form])]
      rcases turn with fits | same
      · refine next?_of_ne (fun boolie => ?_) _ _ _
        simp [fits.mpr boolie] at form
      · have bools : args.filter isBool = [] :=
          List.filter_eq_nil_iff.mpr fun b member => by simp [same b member, form]
        rw [bools]
        exact next?_of_bools_nil type a _

/-- Arguments that come in their turn go to the parameters at their places. -/
theorem InTurn.assign_eq (inTurn : InTurn isBool types args) :
    (ofList isBool args).assign types = types.zip args := by
  induction inTurn with
  | nil => rfl
  | cons turn _ ih =>
      simp only [assign, next?_ofList_cons turn, List.zip_cons_cons]
      exact congrArg _ ih

/-- Arguments of one form come in their turn. -/
theorem InTurn.of_uniform {form : Bool} (size : types.length = args.length)
    (same : ∀ a ∈ args, isBool a = form) : InTurn isBool types args := by
  induction args generalizing types with
  | nil =>
      obtain rfl := List.length_eq_zero_iff.mp size
      exact .nil
  | cons a args ih =>
      cases types with
      | nil => cases size
      | cons type types =>
          have behind : ∀ b ∈ args, isBool b = form := fun b member =>
            same b (List.mem_cons_of_mem _ member)
          refine .cons (.inr fun b member => ?_) (ih (Nat.succ.inj size) behind)
          rw [behind b member, same a List.mem_cons_self]

/-- Arguments of the form that their parameters look for come in their turn. -/
theorem InTurn.of_forms
    (forms : List.Forall₂ (fun type a => isBool a = true ↔ type = .boolie) types args) :
    InTurn isBool types args := by
  induction forms with
  | nil => exact .nil
  | cons form _ ih => exact .cons (.inl form) ih

end Samo.Queues

namespace Samo

open Queues

/--
The arguments of a call are handed out without loss. For as many parameter types as arguments, each
draw gives one, and together they are the arguments in some order, in which those in boolean form
follow each other as they are written and so do the others. The order is the written one if no
argument is in boolean form, or if those in boolean form are the ones at the `boolie` parameters.
-/
theorem arguments_rearranged (args : List Expr) (types : List ValueType)
    (size : types.length = args.length) :
    ∃ handed : List Expr,
      (ofList Expr.isBooleanForm args).draws types = handed.map some ∧
      (ofList Expr.isBooleanForm args).assign types = types.zip handed ∧
      handed.Perm args ∧
      handed.filter Expr.isBooleanForm = args.filter Expr.isBooleanForm ∧
      handed.filter (!Expr.isBooleanForm ·) = args.filter (!Expr.isBooleanForm ·) ∧
      ((∀ a ∈ args, a.isBooleanForm = false) ∨
          List.Forall₂ (fun type a => a.isBooleanForm = true ↔ type = .boolie) types args →
        handed = args) := by
  have waits := waiting_ofList Expr.isBooleanForm args
  have enough := size.trans waits.length_eq.symm
  obtain ⟨drawn, paired⟩ := draws_eq enough
  obtain ⟨bools, plain⟩ := filter_assign (sorted_ofList args) enough
  refine ⟨_, drawn, paired, (assign_waiting enough).trans waits, bools, plain, fun orderly => ?_⟩
  have inTurn : InTurn Expr.isBooleanForm types args := by
    rcases orderly with none | forms
    · exact .of_uniform size none
    · exact .of_forms forms
  rw [inTurn.assign_eq]
  exact List.map_snd_zip (Nat.le_of_eq size.symm)

/-- `ready, 1, 1 < 2`: a name, a number and a comparison. -/
def lateComparison : List Expr :=
  [.ident ⟨1, 2⟩ "ready", .int ⟨1, 9⟩ "1" 1,
    .binary ⟨1, 14⟩ .lt (.int ⟨1, 12⟩ "1" 1) (.int ⟨1, 16⟩ "2" 2)]

/-- The comparison is handed out first, and the others keep their order behind it. -/
theorem lateComparison_rearranged :
    [ValueType.boolie, .int, .boolie].length = lateComparison.length ∧
      ∃ handed, (ofList Expr.isBooleanForm lateComparison).draws [.boolie, .int, .boolie] =
          handed.map some ∧
        handed.Perm lateComparison ∧ handed = lateComparison.rotate 2 := by
  have size : [ValueType.boolie, .int, .boolie].length = lateComparison.length := rfl
  obtain ⟨handed, drawn, -, rearranged, -⟩ := arguments_rearranged lateComparison _ size
  refine ⟨size, handed, drawn, rearranged, ?_⟩
  have first : (ofList Expr.isBooleanForm lateComparison).draws [.boolie, .int, .boolie] =
      (lateComparison.rotate 2).map some := rfl
  exact List.map_injective_iff.mpr (fun _ _ => Option.some.inj) (drawn.symm.trans first)

end Samo
