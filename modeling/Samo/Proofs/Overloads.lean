import Samo.Builtin
import Mathlib.Data.List.Infix

/-!
# Overloads and descriptors

A descriptor writes the parameter types of a signature in letters between parentheses, so two
signatures agree in their parameters when one descriptor starts with the other's parameters
(`paramTypes_eq_of_prefix`). The overload that matches a list of argument types has exactly these
parameter types (`Registry.matching?_eq_some`).
-/

namespace Samo

theorem ValueType.toList_letter (type : ValueType) :
    ∃ c, type.letter.toList = [c] ∧ c ≠ ')' := by
  cases type with
  | int => exact ⟨'I', rfl, by decide⟩
  | string => exact ⟨'S', rfl, by decide⟩
  | boolie => exact ⟨'Z', rfl, by decide⟩

theorem ValueType.letter_injective {a b : ValueType} (same : a.letter.toList = b.letter.toList) :
    a = b := by
  revert same
  cases a <;> cases b <;> decide

/-- Letters up to the closing parenthesis determine the types they stand for. -/
theorem types_eq_of_letters {types types' : List ValueType} {rest rest' : List Char}
    (same : types.flatMap (·.letter.toList) ++ ')' :: rest =
      types'.flatMap (·.letter.toList) ++ ')' :: rest') : types = types' := by
  induction types generalizing types' with
  | nil =>
      cases types' with
      | nil => rfl
      | cons type' types' =>
          obtain ⟨c, letter, other⟩ := type'.toList_letter
          rw [List.flatMap_cons, letter] at same
          exact absurd (List.cons.inj same).1 other.symm
  | cons type types ih =>
      obtain ⟨c, letter, other⟩ := type.toList_letter
      rw [List.flatMap_cons, letter] at same
      cases types' with
      | nil => exact absurd (List.cons.inj same).1 other
      | cons type' types' =>
          obtain ⟨c', letter', -⟩ := type'.toList_letter
          rw [List.flatMap_cons, letter'] at same
          obtain ⟨rfl, tail⟩ := List.cons.inj same
          rw [type.letter_injective (letter.trans letter'.symm), ih tail]

theorem toList_paramDescriptor (types : List ValueType) :
    (paramDescriptor (types.map .value)).toList =
      '(' :: (types.flatMap (·.letter.toList) ++ [')']) := by
  simp [paramDescriptor, String.toList_append, String.toList_join, List.flatMap_map, Ty.letter]

theorem Function.length_paramTypes (f : Function) : f.paramTypes.length = f.params.length :=
  List.length_map _

/-- A function whose descriptor starts with some parameters has these parameters. -/
theorem Function.paramTypes_eq_of_prefix {f : Function} {types : List ValueType}
    (fits : (paramDescriptor (types.map .value)).toList <+: f.descriptor.toList) :
    f.paramTypes = types := by
  obtain ⟨rest, whole⟩ := fits
  rw [Function.descriptor, Samo.descriptor, String.toList_append, Function.paramTys,
    toList_paramDescriptor, toList_paramDescriptor] at whole
  simp only [List.cons_append, List.append_assoc, List.nil_append, List.cons.injEq,
    true_and] at whole
  exact (types_eq_of_letters whole).symm

/-- A descriptor starts with the parameters of its function and with no others. -/
theorem Function.descriptor_starts_iff {f : Function} {types : List ValueType} :
    (paramDescriptor (types.map .value)).toList <+: f.descriptor.toList ↔ f.paramTypes = types := by
  constructor
  · exact Function.paramTypes_eq_of_prefix
  · rintro rfl
    rw [Function.descriptor, Samo.descriptor, String.toList_append]
    exact List.prefix_append _ _

/-- Functions with the same parameters in letters have the same parameters. -/
theorem Function.paramDescriptor_eq_iff {f g : Function} :
    paramDescriptor f.paramTys = paramDescriptor g.paramTys ↔ f.paramTypes = g.paramTypes := by
  constructor
  · intro same
    have own : (paramDescriptor g.paramTys).toList <+: g.descriptor.toList :=
      Function.descriptor_starts_iff.mpr rfl
    rw [← same] at own
    exact (Function.descriptor_starts_iff.mp own).symm
  · intro same
    rw [Function.paramTys, Function.paramTys, same]

/-- Matching descriptors is matching parameters. -/
theorem Registry.filter_descriptor (r : Registry) (name : String) (types : List ValueType) :
    (r.overloads name).filter
        ((paramDescriptor (types.map .value)).toList.isPrefixOf ·.descriptor.toList) =
      (r.overloads name).filter (·.paramTypes = types) := by
  refine List.filter_congr fun f _ => ?_
  rw [Bool.eq_iff_iff, List.isPrefixOf_iff_prefix, decide_eq_true_iff]
  exact Function.descriptor_starts_iff

/-- The overload that matches some types is one of the name's, with these parameters. -/
theorem Registry.matching?_eq_some {r : Registry} {name : String} {types : List ValueType}
    {f : Function} (found : r.matching? name (paramDescriptor (types.map .value)) = .ok (some f)) :
    f ∈ r.overloads name ∧ f.paramTypes = types := by
  unfold matching? at found
  rw [filter_descriptor] at found
  split at found
  · cases found
  · next single =>
    cases found
    have member : f ∈ (r.overloads name).filter (·.paramTypes = types) :=
      single ▸ List.mem_singleton_self f
    obtain ⟨listed, same⟩ := List.mem_filter.mp member
    exact ⟨listed, of_decide_eq_true same⟩
  · cases found

end Samo
