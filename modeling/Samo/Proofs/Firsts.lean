import Mathlib.Data.List.Nodup

/-!
# First meetings

A list of things as they were met can hold a thing many times. `Firsts` says that another list has
each of them once, in the order of the first times. It is kept by a list that puts a thing at its
end unless it has it already.
-/

namespace Samo

variable {α : Type} [DecidableEq α]

/-- A list has each thing that was met once, in the order in which they were met first. -/
structure Firsts (met firsts : List α) : Prop where
  once : firsts.Nodup
  all : ∀ a, a ∈ firsts ↔ a ∈ met
  inOrder : firsts.Pairwise fun a b => met.idxOf a < met.idxOf b

namespace Firsts

variable {met firsts : List α} {a : α}

theorem nil : Firsts ([] : List α) [] := ⟨.nil, fun _ => Iff.rfl, .nil⟩

/-- What was met before keeps its place. -/
theorem idxOf_append (first : Firsts met firsts) (member : a ∈ firsts) (more : List α) :
    (met ++ more).idxOf a = met.idxOf a :=
  List.idxOf_append_of_mem ((first.all a).mp member)

theorem inOrder_append (first : Firsts met firsts) (more : List α) :
    firsts.Pairwise fun a b => (met ++ more).idxOf a < (met ++ more).idxOf b := by
  refine first.inOrder.imp_of_mem fun {a b} memberA memberB before => ?_
  rwa [first.idxOf_append memberA, first.idxOf_append memberB]

/-- To meet a thing again changes nothing. -/
theorem again (first : Firsts met firsts) (known : a ∈ firsts) : Firsts (met ++ [a]) firsts := by
  refine ⟨first.once, fun x => ?_, first.inOrder_append [a]⟩
  rw [List.mem_append, List.mem_singleton, first.all]
  constructor
  · exact .inl
  · rintro (member | rfl)
    · exact member
    · exact (first.all x).mp known

/-- A new thing goes to the end. -/
theorem add (first : Firsts met firsts) (new : a ∉ firsts) :
    Firsts (met ++ [a]) (firsts ++ [a]) := by
  have unmet : a ∉ met := fun member => new ((first.all a).mpr member)
  refine ⟨?_, fun x => ?_, ?_⟩
  · exact List.nodup_append.mpr ⟨first.once, List.nodup_singleton a, by
      rintro x member y same rfl
      rw [List.mem_singleton.mp same] at member
      exact new member⟩
  · simp only [List.mem_append, first.all]
  · refine List.pairwise_append.mpr ⟨first.inOrder_append [a], List.pairwise_singleton _ a, ?_⟩
    intro x member y same
    rw [List.mem_singleton.mp same, first.idxOf_append member, List.idxOf_append_of_notMem unmet]
    have place := List.idxOf_lt_length_of_mem ((first.all x).mp member)
    omega

/-- Among the things of one sort the places are in the same order. -/
theorem idxOf_filter_lt {p : α → Bool} {x y : α} (sort : p x = true)
    (before : met.idxOf x < met.idxOf y) : (met.filter p).idxOf x < (met.filter p).idxOf y := by
  induction met with
  | nil => simp at before
  | cons z zs ih =>
      -- nothing is before the head, so it can be `x` but not `y`
      have shifted : x ≠ z → y ≠ z → (zs.filter p).idxOf x < (zs.filter p).idxOf y := by
        intro apart apart'
        rw [List.idxOf_cons_ne _ apart.symm, List.idxOf_cons_ne _ apart'.symm] at before
        exact ih (Nat.lt_of_succ_lt_succ before)
      have behind : y ≠ z := by
        rintro rfl
        simp at before
      by_cases kept : p z = true
      · rw [List.filter_cons_of_pos kept]
        by_cases same : x = z
        · subst same
          rw [List.idxOf_cons_self, List.idxOf_cons_ne _ behind.symm]
          omega
        · rw [List.idxOf_cons_ne _ (Ne.symm same), List.idxOf_cons_ne _ behind.symm]
          exact Nat.succ_lt_succ (shifted same behind)
      · rw [List.filter_cons_of_neg kept]
        refine shifted ?_ behind
        rintro rfl
        exact kept sort

/-- The firsts of one sort are the firsts among the things of that sort. -/
theorem filter (first : Firsts met firsts) (p : α → Bool) :
    Firsts (met.filter p) (firsts.filter p) := by
  refine ⟨first.once.filter p, fun a => ?_, ?_⟩
  · rw [List.mem_filter, List.mem_filter, first.all]
  · refine (first.inOrder.filter p).imp_of_mem fun {a b} memberA _ before => ?_
    exact idxOf_filter_lt (List.mem_filter.mp memberA).2 before

end Firsts

end Samo
