import Samo.Check.Call
import Mathlib.Data.List.Perm.Basic

/-!
# Handing out arguments

The arguments of a call wait in two queues, and each parameter takes one of them. `Queues.waiting`
is everything that still waits. One parameter takes exactly one argument from it
(`next?_waiting`), so as many parameters as there are arguments take all of them
(`assign_waiting`): nothing is lost and nothing is handed out twice.
-/

namespace Samo.Queues

variable {α : Type}

/-- Every argument that still waits. -/
def waiting (q : Queues α) : List α := q.bools ++ q.plain

/-- The argument that is handed out stood at the head of one queue; the other stays as it is. -/
theorem next?_cases {type : ValueType} {q q' : Queues α} {a : α}
    (handed : q.next? type = some (a, q')) :
    (q.bools = a :: q'.bools ∧ q'.plain = q.plain) ∨
      (q.plain = a :: q'.plain ∧ q'.bools = q.bools) := by
  obtain ⟨bools, plain⟩ := q
  cases type <;> cases bools <;> cases plain <;>
    simp only [next?, Option.some.injEq, Prod.mk.injEq, reduceCtorEq] at handed <;>
    obtain ⟨rfl, rfl⟩ := handed <;> simp

/-- What is handed out waited before, and the rest still waits. -/
theorem next?_waiting {type : ValueType} {q q' : Queues α} {a : α}
    (handed : q.next? type = some (a, q')) : (a :: q'.waiting).Perm q.waiting := by
  rcases next?_cases handed with ⟨bools, plain⟩ | ⟨plain, bools⟩
  · rw [waiting, waiting, bools, plain]
    exact List.Perm.refl _
  · rw [waiting, waiting, plain, bools]
    exact List.perm_middle.symm

/-- Nothing is handed out only when nothing waits. -/
theorem waiting_of_next?_eq_none {type : ValueType} {q : Queues α} (none : q.next? type = none) :
    q.waiting = [] := by
  obtain ⟨bools, plain⟩ := q
  cases type <;> cases bools <;> cases plain <;> simp_all [next?, waiting]

/-- What is handed out waited in one of the queues. -/
theorem mem_waiting_of_mem_assign {types : List ValueType} {q : Queues α} {x : ValueType × α}
    (member : x ∈ q.assign types) : x.2 ∈ q.waiting := by
  induction types generalizing q with
  | nil => cases member
  | cons type types ih =>
      unfold assign at member
      split at member
      · cases member
      · next a q' handed =>
        have taken := next?_waiting handed
        rcases List.mem_cons.mp member with rfl | member
        · exact taken.subset List.mem_cons_self
        · exact taken.subset (List.mem_cons_of_mem _ (ih member))

/-- As many parameters as there are arguments take every argument once. -/
theorem assign_waiting {types : List ValueType} {q : Queues α}
    (size : types.length = q.waiting.length) :
    ((q.assign types).map (·.2)).Perm q.waiting := by
  induction types generalizing q with
  | nil =>
      have empty : q.waiting = [] := List.length_eq_zero_iff.mp size.symm
      rw [empty]
      exact List.Perm.refl _
  | cons type types ih =>
      unfold assign
      split
      · next none =>
        rw [waiting_of_next?_eq_none none] at size
        cases size
      · next a q' handed =>
        have taken := next?_waiting handed
        have smaller : types.length = q'.waiting.length := by
          have := taken.length_eq
          simp only [List.length_cons] at size this
          omega
        exact ((ih smaller).cons a).trans taken

/-- The arguments of a call wait, whatever their form. -/
theorem waiting_ofList (isBool : α → Bool) (args : List α) :
    (ofList isBool args).waiting.Perm args :=
  List.filter_append_perm isBool args

theorem mem_of_mem_assign {isBool : α → Bool} {args : List α} {types : List ValueType}
    {x : ValueType × α} (member : x ∈ (ofList isBool args).assign types) : x.2 ∈ args :=
  (waiting_ofList isBool args).subset (mem_waiting_of_mem_assign member)

/-- Every argument of a call goes to some parameter when their numbers agree. -/
theorem exists_mem_assign {isBool : α → Bool} {args : List α} {types : List ValueType}
    (size : types.length = args.length) {a : α} (member : a ∈ args) :
    ∃ type, (type, a) ∈ (ofList isBool args).assign types := by
  have waits := waiting_ofList isBool args
  have all := assign_waiting (q := ofList isBool args) (size.trans waits.length_eq.symm)
  obtain ⟨⟨type, b⟩, handed, rfl⟩ := List.mem_map.mp (all.symm.subset (waits.symm.subset member))
  exact ⟨type, handed⟩

/-! ## Other descriptions of the arguments -/

/-- Queues of something that belongs to each argument. -/
def map {β : Type} (g : α → β) (q : Queues α) : Queues β := ⟨q.bools.map g, q.plain.map g⟩

theorem next?_map {β : Type} (g : α → β) (type : ValueType) (q : Queues α) :
    (q.map g).next? type = (q.next? type).map fun x => (g x.1, x.2.map g) := by
  obtain ⟨bools, plain⟩ := q
  cases type <;> cases bools <;> cases plain <;> rfl

theorem assign_map {β : Type} (g : α → β) (types : List ValueType) (q : Queues α) :
    (q.map g).assign types = (q.assign types).map fun x => (x.1, g x.2) := by
  induction types generalizing q with
  | nil => rfl
  | cons type types ih =>
      unfold assign
      rw [next?_map]
      cases q.next? type with
      | none => rfl
      | some x => simp [ih]

theorem ofList_map {β : Type} (g : α → β) (isBool : β → Bool) (args : List α) :
    ofList isBool (args.map g) = (ofList (isBool ∘ g) args).map g := by
  simp [ofList, map, List.filter_map, Function.comp_def]

end Samo.Queues
