import Samo.Proofs.Detection

/-!
# The dominant type

A tally keeps the type that was the first to be seen more often than any other. So a tie is not
decided by which type was seen first: among the types that are seen most often, say `n` times, the
dominant one is seen for the `n`-th time before the others are (`Tally.Leads`).
-/

namespace Samo

open Check

/-- One more leaf counts for its own type alone. -/
theorem count_concat_of_ne (leaves : List Ty) {type other : Ty} (different : other ≠ type) :
    (leaves ++ [type]).count other = leaves.count other := by
  rw [List.count_append, List.count_cons_of_ne different.symm, List.count_nil, Nat.add_zero]

theorem count_concat_self (leaves : List Ty) (type : Ty) :
    (leaves ++ [type]).count type = leaves.count type + 1 := by
  rw [List.count_append, List.count_singleton_self]

/-- Among some leaves, a type is seen for the `n`-th time at a place. -/
structure Occurs (leaves : List Ty) (type : Ty) (n place : Nat) : Prop where
  here : leaves[place]? = some type
  times : (leaves.take (place + 1)).count type = n

namespace Occurs

variable {leaves : List Ty} {type : Ty} {n place : Nat}

theorem lt_length (occurs : Occurs leaves type n place) : place < leaves.length :=
  (List.getElem?_eq_some_iff.mp occurs.here).1

theorem le_count (occurs : Occurs leaves type n place) : n ≤ leaves.count type := by
  rw [← occurs.times]
  exact (List.take_sublist _ _).count_le type

/-- The last leaf is the last one of its type. -/
theorem last (leaves : List Ty) (type : Ty) :
    Occurs (leaves ++ [type]) type (leaves.count type + 1) leaves.length := by
  refine ⟨List.getElem?_concat_length, ?_⟩
  rw [List.take_of_length_le (by simp), count_concat_self]

/-- Leaves that follow do not count. -/
theorem append_iff (inside : place < leaves.length) (later : List Ty) :
    Occurs (leaves ++ later) type n place ↔ Occurs leaves type n place := by
  have here : (leaves ++ later)[place]? = leaves[place]? := List.getElem?_append_left inside
  have times : (leaves ++ later).take (place + 1) = leaves.take (place + 1) :=
    List.take_append_of_le_length inside
  constructor
  · rintro ⟨found, count⟩
    exact ⟨here ▸ found, times ▸ count⟩
  · rintro ⟨found, count⟩
    exact ⟨here.trans found, times.symm ▸ count⟩

end Occurs

/-- No type is seen more often, and none is seen as often before. -/
structure Dominates (leaves : List Ty) (type : Ty) : Prop where
  most : ∀ other, leaves.count other ≤ leaves.count type
  first : ∃ place, Occurs leaves type (leaves.count type) place ∧
    ∀ other place', Occurs leaves other (leaves.count type) place' → place ≤ place'

/-- At most one type dominates. -/
theorem Dominates.unique {leaves : List Ty} {type other : Ty} (one : Dominates leaves type)
    (two : Dominates leaves other) : type = other := by
  have same : leaves.count type = leaves.count other := Nat.le_antisymm (two.most _) (one.most _)
  obtain ⟨place, occurs, first⟩ := one.first
  obtain ⟨place', occurs', first'⟩ := two.first
  rw [same] at occurs first
  obtain rfl : place = place' := Nat.le_antisymm (first _ _ occurs') (first' _ _ occurs)
  exact Option.some.inj (occurs.here.symm.trans occurs'.here)

namespace Tally

/-- The tally of some leaves knows how often the dominant type was seen. -/
structure Leads (t : Tally) (leaves : List Ty) : Prop where
  seen : t.seen = leaves.reverse
  best : t.best = leaves.count t.dominant
  dominates : leaves ≠ [] → Dominates leaves t.dominant

theorem Leads.most {t : Tally} {leaves : List Ty} (leads : t.Leads leaves) (type : Ty) :
    leaves.count type ≤ t.best := by
  rcases eq_or_ne leaves [] with rfl | some
  · exact Nat.zero_le _
  · rw [leads.best]
    exact (leads.dominates some).most type

/-- A type that is seen more often than any before it dominates from now on. -/
theorem dominates_overtaking {t : Tally} {leaves : List Ty} {type : Ty} (leads : t.Leads leaves)
    (more : t.best < leaves.count type + 1) : Dominates (leaves ++ [type]) type := by
  have count := count_concat_self leaves type
  refine ⟨fun other => ?_, leaves.length, ?_, fun other place occurs => ?_⟩
  · rcases eq_or_ne other type with rfl | different
    · exact Nat.le_refl _
    · have before := leads.most other
      rw [count, count_concat_of_ne leaves different]
      omega
  · rw [count]
    exact .last leaves type
  · -- whatever was seen as often earlier would have been the best
    by_contra early
    rw [Nat.not_le] at early
    have often := ((Occurs.append_iff early [type]).mp occurs).le_count
    have before := leads.most other
    omega

/-- A type that is not seen more often than the dominant one does not take its place. -/
theorem dominates_keeping {t : Tally} {leaves : List Ty} {type : Ty} (leads : t.Leads leaves)
    (fewer : leaves.count type + 1 ≤ t.best) :
    (leaves ++ [type]).count t.dominant = leaves.count t.dominant ∧
      Dominates (leaves ++ [type]) t.dominant := by
  have some : leaves ≠ [] := by
    rintro rfl
    have best := leads.best
    rw [List.count_nil] at best
    omega
  have dominates := leads.dominates some
  have different : t.dominant ≠ type := by
    intro same
    have best := leads.best
    rw [same] at best
    omega
  have count := count_concat_of_ne leaves different
  obtain ⟨place, occurs, first⟩ := dominates.first
  refine ⟨count, fun other => ?_, place, ?_, fun other place' occurs' => ?_⟩
  · rw [count]
    rcases eq_or_ne other type with rfl | different
    · rw [count_concat_self, ← leads.best]
      exact fewer
    · rw [count_concat_of_ne leaves different]
      exact dominates.most other
  · rw [count]
    exact (Occurs.append_iff occurs.lt_length [type]).mpr occurs
  · rw [count] at occurs'
    rcases Nat.lt_or_ge place' leaves.length with early | late
    · exact first other place' ((Occurs.append_iff early [type]).mp occurs')
    · exact Nat.le_trans (Nat.le_of_lt occurs.lt_length) late

/-- One more leaf. -/
theorem Leads.add {t : Tally} {leaves : List Ty} (leads : t.Leads leaves) (type : Ty) :
    (t.add type).Leads (leaves ++ [type]) := by
  have seen : type :: t.seen = (leaves ++ [type]).reverse := by
    rw [List.reverse_concat, leads.seen]
  have times : t.seen.count type = leaves.count type := by
    rw [leads.seen, List.count_reverse]
  unfold Tally.add
  rw [times]
  dsimp only
  split
  · next more =>
    exact ⟨seen, (count_concat_self leaves type).symm, fun _ => dominates_overtaking leads more⟩
  · next fewer =>
    obtain ⟨count, dominates⟩ := dominates_keeping leads (Nat.not_lt.mp fewer)
    exact ⟨seen, leads.best.trans count.symm, fun _ => dominates⟩

theorem leads_ofLeaves (leaves : List Ty) : (ofLeaves leaves).Leads leaves := by
  induction leaves using List.reverseRecOn with
  | nil => exact ⟨rfl, rfl, absurd rfl⟩
  | append_singleton leaves type ih =>
      have step : ofLeaves (leaves ++ [type]) = (ofLeaves leaves).add type :=
        List.foldl_concat ..
      rw [step]
      exact ih.add type

theorem dominant_eq_iff {leaves : List Ty} (some : leaves ≠ []) {type : Ty} :
    (ofLeaves leaves).dominant = type ↔ Dominates leaves type := by
  have dominates := (leads_ofLeaves leaves).dominates some
  constructor
  · rintro rfl
    exact dominates
  · exact dominates.unique

end Tally

namespace Detection

variable {leaves : List Ty}

theorem type_ofLeaves (some : leaves ≠ []) :
    (ofLeaves leaves).type = (Tally.ofLeaves leaves).dominant := by
  unfold ofLeaves
  rw [if_neg (by simpa using some)]

/-- The leaves are alike if the dominant type is the only one. -/
theorem homogeneous_ofLeaves_iff (some : leaves ≠ []) :
    (ofLeaves leaves).homogeneous = true ↔ ∃ type, ∀ l ∈ leaves, l = type := by
  constructor
  · intro alike
    have same : ofLeaves leaves = ⟨true, (ofLeaves leaves).type⟩ := by rw [← alike]
    exact ⟨_, (ofLeaves_eq_iff some _).mp same⟩
  · rintro ⟨type, all⟩
    rw [(ofLeaves_eq_iff some type).mpr all]

/-- What some leaves say is said in full by their dominant type and whether they are alike. -/
theorem eq_ofLeaves_iff (some : leaves ≠ []) {found : Detection} :
    found = ofLeaves leaves ↔ (found.homogeneous = true ↔ ∃ type, ∀ l ∈ leaves, l = type) ∧
      Dominates leaves found.type := by
  rw [← homogeneous_ofLeaves_iff some, ← Tally.dominant_eq_iff some, ← type_ofLeaves some]
  constructor
  · rintro rfl
    exact ⟨Iff.rfl, rfl⟩
  · rintro ⟨alike, type⟩
    obtain ⟨homogeneous, found⟩ := found
    rw [Detection.mk.injEq]
    exact ⟨Bool.eq_iff_iff.mpr alike, type.symm⟩

end Detection

theorem Expr.detect_eq_ok_iff {e : Expr} {s s' : State} {found : Detection} :
    e.detect s = .ok found s' ↔
      ∃ leaves, e.leaves s = .ok leaves s' ∧ found = .ofLeaves leaves := by
  show (e.leaves >>= fun leaves => pure (Detection.ofLeaves leaves)) s = _ ↔ _
  rw [bind_eq_ok_iff]
  constructor
  · rintro ⟨leaves, s₁, told, given⟩
    obtain ⟨rfl, rfl⟩ := pure_eq_ok_iff.mp given
    exact ⟨leaves, told, rfl⟩
  · rintro ⟨leaves, told, rfl⟩
    exact ⟨leaves, s', told, rfl⟩

/--
The dominant type leads. Of every sequence of leaves that is not empty, a tally keeps exactly the
type that no other one is seen more often than, say `n` times, and that is seen for the `n`-th time
before any other is. What is detected of an expression, in any state, is just this type of its
leaves and whether they all have one type, and there is always a leaf to go by.
-/
theorem dominant_type_leads :
    (∀ leaves : List Ty, leaves ≠ [] → ∀ type,
      (Tally.ofLeaves leaves).dominant = type ↔ Dominates leaves type) ∧
    ∀ (e : Expr) (s s' : State) (found : Detection), e.detect s = .ok found s' ↔
      ∃ leaves, e.leaves s = .ok leaves s' ∧ leaves ≠ [] ∧
        (found.homogeneous = true ↔ ∃ type, ∀ l ∈ leaves, l = type) ∧
        Dominates leaves found.type := by
  refine ⟨fun leaves some type => Tally.dominant_eq_iff some, fun e s s' found => ?_⟩
  rw [Expr.detect_eq_ok_iff]
  constructor
  · rintro ⟨leaves, told, same⟩
    have some := e.leaves_ne_nil told
    exact ⟨leaves, told, some, (Detection.eq_ofLeaves_iff some).mp same⟩
  · rintro ⟨leaves, told, some, said⟩
    exact ⟨leaves, told, (Detection.eq_ofLeaves_iff some).mpr said⟩

/-- `"a" + 1 + 2 + "b"`: a text comes first, but two numbers come before two texts. -/
def tiedSum : Expr :=
  let left : Expr := .binary ⟨1, 4⟩ .add (.string ⟨1, 0⟩ "\"a\"" "a") (.int ⟨1, 6⟩ "1" 1)
  let middle : Expr := .binary ⟨1, 8⟩ .add left (.int ⟨1, 10⟩ "2" 2)
  .binary ⟨1, 12⟩ .add middle (.string ⟨1, 14⟩ "\"b\"" "b")

theorem tiedSum_dominated :
    let leaves : List Ty := [.value .string, .value .int, .value .int, .value .string]
    let s := ({} : Options).initialState "main" .standard ({} : Options).newLog
    leaves ≠ [] ∧ (Tally.ofLeaves leaves).dominant = .value .int ∧
      Dominates leaves (.value .int) ∧ ¬ Dominates leaves (.value .string) ∧
      tiedSum.leaves s = .ok leaves s ∧ tiedSum.detect s = .ok ⟨false, .value .int⟩ s ∧
      ¬ ∃ type, ∀ l ∈ leaves, l = type := by
  intro leaves s
  have some : leaves ≠ [] := List.cons_ne_nil _ _
  have dominant : (Tally.ofLeaves leaves).dominant = .value .int := by decide
  have told : tiedSum.leaves s = .ok leaves s := rfl
  have detected : tiedSum.detect s = .ok ⟨false, .value .int⟩ s := rfl
  refine ⟨some, dominant, (dominant_type_leads.1 leaves some _).mp dominant, fun wrong => ?_, told,
    detected, ?_⟩
  · have other := (dominant_type_leads.1 leaves some _).mpr wrong
    rw [dominant] at other
    cases other
  · obtain ⟨leaves', told', -, alike, -⟩ := (dominant_type_leads.2 tiedSum s s _).mp detected
    rw [told] at told'
    cases told'
    exact fun same => Bool.noConfusion (alike.mpr same)

end Samo
