import Samo.Check.Problem
import Samo.Proofs.Spellings

/-!
# The words of reports

A report is put together from words that are fixed and words that stand in the program, so two
reports are told apart by the words that they begin or end with. A report on an expression is never
read as one on a value of the wrong type (`Problem.message_ne_of_inExpression`).
-/

namespace Samo

/-! ## How messages begin and end -/

/-- A text that is put together from `w` on. -/
inductive Begins (w : String) : String → Prop
  | self : Begins w w
  | more {m : String} (s : String) : Begins w m → Begins w (m ++ s)

theorem Begins.isPrefix {cs : List Char} {m : String} (begins : Begins (String.ofList cs) m) :
    cs <+: m.toList := by
  induction begins with
  | self => exact String.toList_ofList.symm ▸ List.prefix_refl cs
  | more s _ ih =>
      rw [String.toList_append]
      exact ih.trans (List.prefix_append _ _)

/-- Texts are different if they begin with words of which none goes on where the other ends. -/
theorem Begins.ne {cs cs' : List Char} {m m' : String} (begins : Begins (String.ofList cs) m)
    (begins' : Begins (String.ofList cs') m') (apart : ¬ cs <+: cs' ∧ ¬ cs' <+: cs) : m ≠ m' := by
  rintro rfl
  rcases List.prefix_or_prefix_of_prefix begins.isPrefix begins'.isPrefix with first | second
  · exact apart.1 first
  · exact apart.2 second

/-- The first two characters of a text. -/
def opening (m : String) : List Char := m.toList.take 2

theorem Begins.opening_eq {a b : Char} {cs : List Char} {m : String}
    (begins : Begins (String.ofList (a :: b :: cs)) m) : opening m = [a, b] := by
  obtain ⟨rest, same⟩ := begins.isPrefix
  rw [opening, ← same]
  rfl

/-- The last character of a text satisfies `P`. -/
def EndsIn (P : Char → Prop) (m : String) : Prop := ∃ init c, m.toList = init ++ [c] ∧ P c

namespace EndsIn

variable {P : Char → Prop}

theorem append {m : String} (ends : EndsIn P m) (s : String) : EndsIn P (s ++ m) := by
  obtain ⟨init, c, same, holds⟩ := ends
  refine ⟨s.toList ++ init, c, ?_, holds⟩
  rw [String.toList_append, same, List.append_assoc]

theorem ofList {l : List Char} {c : Char} (last : l.getLast? = some c) (holds : P c) :
    EndsIn P (String.ofList l) := by
  obtain ⟨init, rfl⟩ := List.getLast?_eq_some_iff.mp last
  exact ⟨init, c, String.toList_ofList, holds⟩

end EndsIn

/-- The last two characters of a text, the last one first. -/
def closing (m : String) : List Char := m.toList.reverse.take 2

theorem EndsIn.closing_eq {P : Char → Prop} {m : String} (ends : EndsIn P m) :
    ∃ c cs, closing m = c :: cs ∧ P c := by
  obtain ⟨init, c, same, holds⟩ := ends
  refine ⟨c, init.reverse.take 1, ?_, holds⟩
  rw [closing, same, List.reverse_append]
  rfl

theorem closing_append_ofList {l l' : List Char} {a b : Char} (m : String)
    (ends : l.reverse = a :: b :: l') : closing (m ++ String.ofList l) = [a, b] := by
  rw [closing, String.toList_append, String.toList_ofList, List.reverse_append, ends]
  rfl

/-- A number ends in a digit. -/
theorem endsIn_toString (n : Int) : EndsIn (isDigit · = true) (toString n) := by
  have digits : ∀ n : Nat, EndsIn (isDigit · = true) (String.ofList (Nat.toDigits 10 n)) := by
    intro n
    have last := List.getLast?_eq_some_getLast (Nat.toDigits_ne_nil (n := n) (b := 10))
    exact .ofList last (Literal.isDigit_of_mem_toDigits (List.mem_of_getLast? last))
  cases n with
  | ofNat n => exact digits n
  | negSucc n => exact (digits (n + 1)).append "-"

theorem Lexeme.endsIn_describe (l : Lexeme) : EndsIn (· ≠ '.') l.describe := by
  obtain ⟨kind, text⟩ := l
  have quoted : ∀ s : String, EndsIn (· ≠ '.') (s ++ "'") :=
    fun s => (EndsIn.ofList (l := ['\'']) rfl (by decide)).append s
  cases kind with
  | endOfFile => exact .ofList rfl (by decide)
  | invalid | intLiteral | stringLiteral | identifier | comment | keyword | punct => exact quoted _

/-- The report on a syntax error has no full stop. -/
theorem Fault.endsIn_message (f : Fault) : EndsIn (· ≠ '.') f.message := by
  cases f with
  | flaw f =>
      cases f with
      | unrecognised c => exact (EndsIn.ofList rfl (by decide)).append _
      | badEscape | unterminated => exact .ofList rfl (by decide)
  | expected _ found | expectedParameter found => exact found.endsIn_describe.append _
  | noStatement | noExpression | outOfRange => exact (EndsIn.ofList rfl (by decide)).append _
  | chainedComparison => exact .ofList rfl (by decide)

/-- A number begins with a digit. -/
theorem toList_toString_nat (n : Nat) :
    ∃ d ds, (toString n).toList = d :: ds ∧ isDigit d = true := by
  have text : (toString n).toList = Nat.toDigits 10 n := String.toList_ofList
  obtain ⟨d, ds, digits⟩ := List.exists_cons_of_ne_nil (Nat.toDigits_ne_nil (n := n) (b := 10))
  exact ⟨d, ds, text.trans digits, Literal.isDigit_of_mem_toDigits (digits ▸ List.mem_cons_self)⟩

/-! ## What a value is found to be -/

theorem ValueType.toList_name (type : ValueType) :
    ∃ c cs, type.name.toList = c :: cs ∧ isDigit c = false := by
  cases type with
  | int => exact ⟨'i', ['n', 't'], rfl, by decide⟩
  | string => exact ⟨'s', ['t', 'r', 'i', 'n', 'g'], rfl, by decide⟩
  | boolie => exact ⟨'b', ['o', 'o', 'l', 'i', 'e'], rfl, by decide⟩

/-- The name of a type is known from where it begins. -/
theorem ValueType.eq_of_name_append {type type' : ValueType} {m m' : String}
    (same : type.name ++ m = type'.name ++ m') : type = type' := by
  have first := congrArg (List.head? ·.toList) same
  cases type <;> cases type' <;> simp [name] at first ⊢

/-- Only leaves of one type are described by its name. -/
theorem Detection.describe_eq_iff {d : Detection} {type : ValueType} :
    d.describe = type.name ↔ d = ⟨true, .value type⟩ := by
  obtain ⟨homogeneous, found⟩ := d
  cases homogeneous with
  | false => cases type <;> simp [describe, ValueType.name]
  | true =>
      cases found with
      | value type' => cases type <;> cases type' <;> simp [describe, Ty.name, ValueType.name]
      | thing | function | void => cases type <;> simp [describe, Ty.name, ValueType.name]

namespace Problem

/-- A problem that a question about an expression can report. -/
def inExpression : Problem → Bool
  | unknownIdentifier _ | unknownFunction _ | notCallable .. | voidCall | argumentCount ..
  | argumentMismatch .. | argumentMixed .. | argumentType .. | noOverload .. | ambiguousOverload _
  | divisionByZero | leftMixed | rightMixed | incomparable .. | operatorType .. => true
  | _ => false

theorem message_wrongValue (type : ValueType) (found : Detection) :
    (wrongValue type found).message =
      "Expected " ++ (type.name ++ (" expression on RHS, found " ++ (found.describe ++ "."))) := by
  show "Expected " ++ type.name ++ " expression on RHS, found " ++ found.describe ++ "." = _
  simp only [String.append_assoc]

/-- A report on a value of the wrong type says both types. -/
theorem wrongValue_inj {type type' : ValueType} {found found' : Detection}
    (same : (wrongValue type found).message = (wrongValue type' found').message) :
    type = type' ∧ found.describe = found'.describe := by
  rw [message_wrongValue, message_wrongValue, String.append_right_inj] at same
  obtain rfl := ValueType.eq_of_name_append same
  rw [String.append_right_inj, String.append_right_inj, String.append_left_inj] at same
  exact ⟨rfl, same⟩

/-- A report on a call with too many arguments or too few gives a number where the other one gives a
type. -/
theorem argumentCount_ne_wrongValue (callee : String) (expected given : Nat) (type : ValueType)
    (found : Detection) :
    (argumentCount callee expected given).message ≠ (wrongValue type found).message := by
  have counted : (argumentCount callee expected given).message =
      "Expected " ++ (toString expected ++ (" arguments for call to " ++ (callee ++ (" but " ++
        (toString given ++ " arguments were provided."))))) := by
    show "Expected " ++ toString expected ++ " arguments for call to " ++ callee ++ " but " ++
      toString given ++ " arguments were provided." = _
    simp only [String.append_assoc]
  rw [counted, message_wrongValue, ne_eq, String.append_right_inj]
  intro same
  have chars := congrArg String.toList same
  obtain ⟨d, ds, number, digit⟩ := toList_toString_nat expected
  obtain ⟨c, cs, word, letter⟩ := type.toList_name
  simp only [String.toList_append, number, word, List.cons_append] at chars
  rw [(List.cons.inj chars).1, letter] at digit
  cases digit

/-- A report on an expression is read neither as one on an invalid value nor as one on a value of
the wrong type. -/
theorem message_ne_of_inExpression {p : Problem} (kind : p.inExpression = true) (type : ValueType)
    (found : Detection) :
    p.message ≠ (invalidValue type).message ∧ p.message ≠ (wrongValue type found).message := by
  have apart : ∀ {cs : List Char}, Begins (String.ofList cs) p.message →
      (¬ cs <+: ['I', 'n', 'v', 'a', 'l', 'i', 'd', ' '] ∧
        ¬ ['I', 'n', 'v', 'a', 'l', 'i', 'd', ' '] <+: cs) ∧
      (¬ cs <+: ['E', 'x', 'p', 'e', 'c', 't', 'e', 'd', ' '] ∧
        ¬ ['E', 'x', 'p', 'e', 'c', 't', 'e', 'd', ' '] <+: cs) →
      p.message ≠ (invalidValue type).message ∧ p.message ≠ (wrongValue type found).message :=
    fun begins strange => ⟨begins.ne (.more _ (.more _ .self)) strange.1,
      begins.ne (.more _ (.more _ (.more _ (.more _ .self)))) strange.2⟩
  cases p with
  | voidCall | divisionByZero | leftMixed | rightMixed => exact apart .self (by decide)
  | unknownIdentifier | unknownFunction | ambiguousOverload =>
      exact apart (.more _ (.more _ .self)) (by decide)
  | noOverload => exact apart (.more _ (.more _ (.more _ .self))) (by decide)
  | notCallable | argumentMixed | incomparable | operatorType =>
      exact apart (.more _ (.more _ (.more _ (.more _ .self)))) (by decide)
  | argumentMismatch | argumentType =>
      exact apart (.more _ (.more _ (.more _ (.more _ (.more _ (.more _ .self)))))) (by decide)
  | argumentCount callee expected given =>
      have own : Begins "Expected " (argumentCount callee expected given).message :=
        .more _ (.more _ (.more _ (.more _ (.more _ (.more _ .self)))))
      have invalid : Begins "Invalid " (invalidValue type).message := .more _ (.more _ .self)
      exact ⟨own.ne invalid (by decide), argumentCount_ne_wrongValue _ _ _ _ _⟩
  | _ => cases kind

end Problem

end Samo
