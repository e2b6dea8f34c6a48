import Samo.Proofs.Messages
import Samo.Proofs.UniformChecks

/-!
# What is recorded in different layouts

The engine keeps a diagnostic only once, and compares place and text. Two reports of one check can
have the same text in one layout and different ones in another only if both name a line; no two of
these stand in one place. So the engine takes up the same reports in every layout, and the
severities in its list are the same (`Check.Event.severities_recordAll`).
-/

namespace Samo

/-! ## Messages that name a line or a place -/

namespace Problem

theorem opening_declaredBefore (name : String) (line : Int) :
    opening (declaredBefore name line).message = ['I', 'd'] :=
  Begins.opening_eq (.more _ (.more _ (.more _ (.more _ .self))))

theorem opening_syntaxError (pos : Pos) (fault : Fault) :
    opening (syntaxError pos fault).message = ['S', 'y'] :=
  Begins.opening_eq (.more _ (.more _ (.more _ .self)))

/-- A problem whose report is the same in every layout, and is no report that names a place. -/
structure Plain (p : Problem) : Prop where
  fixed : ∀ (φ : Layout) (pos : Pos), p.inLayout φ pos = p
  notDeclared : ∀ name line, p.message ≠ (declaredBefore name line).message
  notSyntax : ∀ pos fault, p.message ≠ (syntaxError pos fault).message

/-- What the first two characters tell. -/
theorem Plain.of_begins {p : Problem} {a b : Char} {cs : List Char}
    (begins : Begins (String.ofList (a :: b :: cs)) p.message)
    (fixed : ∀ (φ : Layout) (pos : Pos), p.inLayout φ pos = p)
    (strange : [a, b] ≠ ['I', 'd'] ∧ [a, b] ≠ ['S', 'y']) : p.Plain := by
  have own := begins.opening_eq
  refine ⟨fixed, fun name line same => ?_, fun pos fault same => ?_⟩
  · rw [same, opening_declaredBefore] at own
    exact strange.1 own.symm
  · rw [same, opening_syntaxError] at own
    exact strange.2 own.symm

theorem closing_declaredBefore (name : String) (line : Int) :
    ∃ d, isDigit d = true ∧ closing (declaredBefore name line).message = ['.', d] := by
  obtain ⟨init, d, same, digit⟩ :=
    (endsIn_toString line).append ("Identifier " ++ name ++ " was declared before on line ")
  refine ⟨d, digit, ?_⟩
  show closing ("Identifier " ++ name ++ " was declared before on line " ++ toString line ++ ".") =
    _
  rw [closing, String.toList_append, same, List.reverse_append, List.reverse_append]
  rfl

/-- What the last two characters tell: no report on a declaration ends in a word. -/
theorem Plain.of_closing {p : Problem} {c : Char} (closes : closing p.message = ['.', c])
    (letter : isDigit c = false) (fixed : ∀ (φ : Layout) (pos : Pos), p.inLayout φ pos = p) :
    p.Plain := by
  refine ⟨fixed, fun name line same => ?_, fun pos fault same => ?_⟩
  · obtain ⟨d, digit, number⟩ := closing_declaredBefore name line
    rw [same, number] at closes
    cases closes
    rw [digit] at letter
    cases letter
  · have text : EndsIn (· ≠ '.') (syntaxError pos fault).message := fault.endsIn_message.append _
    obtain ⟨d, ds, shown, other⟩ := text.closing_eq
    rw [same, shown] at closes
    cases closes
    exact other rfl

/-- A problem names a line or a place, or its report is the same in every layout. -/
theorem view (p : Problem) : (∃ name line, p = .declaredBefore name line) ∨
    (∃ pos fault, p = .syntaxError pos fault) ∨ p.Plain := by
  have plain : ∀ {a b : Char} {cs : List Char},
      Begins (String.ofList (a :: b :: cs)) p.message →
        [a, b] ≠ ['I', 'd'] ∧ [a, b] ≠ ['S', 'y'] →
          (∀ (φ : Layout) (pos : Pos), p.inLayout φ pos = p) →
            (∃ name line, p = .declaredBefore name line) ∨
              (∃ pos fault, p = .syntaxError pos fault) ∨ p.Plain :=
    fun begins strange fixed => .inr (.inr (.of_begins begins fixed strange))
  cases p with
  | declaredBefore name line => exact .inl ⟨name, line, rfl⟩
  | syntaxError pos fault => exact .inr (.inl ⟨pos, fault, rfl⟩)
  | builtinRedeclared | builtinAssigned | builtinRedefined =>
      -- these begin like a report on a declaration, or with any name
      exact .inr (.inr (.of_closing (closing_append_ofList _ rfl) (by decide) fun _ _ => rfl))
  | probabilityType compound =>
      cases compound with
      | false => exact plain (.more _ .self) (by decide) fun _ _ => rfl
      | true => exact plain (.more _ .self) (by decide) fun _ _ => rfl
  | voidCall | divisionByZero | leftMixed | rightMixed | voidVariable | inferenceMixed
  | undeclaredAssigned | functionAssigned | nestedFunction | returnOutside | returnFromVoid
  | returnMixed | bodyInvalid | breakOutside | continueOutside | probableDeclaration
  | nestedAlternatives | needsUnsupported => exact plain .self (by decide) fun _ _ => rfl
  | infeasibleBody | infeasibleAlternative => exact plain (.more _ .self) (by decide) fun _ _ => rfl
  | unknownIdentifier | unknownFunction | ambiguousOverload | invalidValue | noReturn
  | returnMissing | returnInvalid | pathsIncomplete | condition | probabilityMixed =>
      exact plain (.more _ (.more _ .self)) (by decide) fun _ _ => rfl
  | noOverload => exact plain (.more _ (.more _ (.more _ .self))) (by decide) fun _ _ => rfl
  | notCallable | argumentMixed | incomparable | operatorType | inferenceType | wrongValue
  | returnType =>
      exact plain (.more _ (.more _ (.more _ (.more _ .self)))) (by decide) fun _ _ => rfl
  | argumentCount | argumentMismatch | argumentType | parameterType =>
      exact plain (.more _ (.more _ (.more _ (.more _ (.more _ (.more _ .self)))))) (by decide)
        fun _ _ => rfl

theorem redeclaredAt_eq (p : Problem) (pos : Pos) :
    p.redeclaredAt pos = [] ∨ p.redeclaredAt pos = [pos] := by
  unfold redeclaredAt
  split
  · exact .inr rfl
  · exact .inl rfl

/-- Two problems that are reported at one place with one text, in some layout. -/
theorem message_inLayout_congr {p q : Problem} {pos : Pos} (φ ψ : Layout)
    (apart : p.redeclaredAt pos = [] ∨ q.redeclaredAt pos = [])
    (same : (p.inLayout φ pos).message = (q.inLayout φ pos).message) :
    (p.inLayout ψ pos).message = (q.inLayout ψ pos).message := by
  have distinct : ∀ name line place fault,
      (declaredBefore name line).message ≠ (syntaxError place fault).message := by
    intro name line place fault same
    have openings := congrArg opening same
    rw [opening_declaredBefore, opening_syntaxError] at openings
    cases openings
  rcases p.view with ⟨name, line, rfl⟩ | ⟨place, fault, rfl⟩ | plain
  · rcases q.view with ⟨name', line', rfl⟩ | ⟨place', fault', rfl⟩ | plain'
    · rcases apart with none | none <;> cases none
    · exact (distinct _ _ _ _ same).elim
    · rw [plain'.fixed] at same
      exact (plain'.notDeclared _ _ same.symm).elim
  · rcases q.view with ⟨name', line', rfl⟩ | ⟨place', fault', rfl⟩ | plain'
    · exact (distinct _ _ _ _ same.symm).elim
    · -- both begin with the place, so their faults read the same
      have rest : fault.message = fault'.message := (String.append_right_inj _).mp same
      exact (String.append_right_inj _).mpr rest
    · rw [plain'.fixed] at same
      exact (plain'.notSyntax _ _ same.symm).elim
  · rcases q.view with ⟨name', line', rfl⟩ | ⟨place', fault', rfl⟩ | plain'
    · rw [plain.fixed] at same
      exact (plain.notDeclared _ _ same).elim
    · rw [plain.fixed] at same
      exact (plain.notSyntax _ _ same).elim
    · rwa [plain.fixed, plain'.fixed] at same ⊢

end Problem

/-! ## What is recorded -/

theorem sublist_flatMap {α β : Type} (f : α → List β) {as as' : List α} (sub : as.Sublist as') :
    (as.flatMap f).Sublist (as'.flatMap f) := by
  induction sub with
  | slnil => exact .refl _
  | cons a _ ih =>
      rw [List.flatMap_cons]
      exact ih.trans (List.sublist_append_right _ _)
  | cons_cons a _ ih =>
      rw [List.flatMap_cons, List.flatMap_cons]
      exact ih.append_left _

namespace Check

/-- Something that an engine is asked to record. -/
structure Note where
  severity : Severity
  pos : Pos
  problem : Problem

namespace Note

def inLayout (φ : Layout) (n : Note) : Note :=
  ⟨n.severity, φ.place n.pos, n.problem.inLayout φ n.pos⟩

/-- What is recorded of a note. -/
def diagnostic (file : String) (n : Note) : Diagnostic :=
  ⟨n.severity, n.problem.message, n.pos, file⟩

/-- The place of the note, if it says that a name was declared before. -/
def redeclaredAt (n : Note) : List Pos := n.problem.redeclaredAt n.pos

/-- An engine with a note. -/
def recordIn (e : Engine) (n : Note) : Engine := e.record n.severity n.pos n.problem.message

/-- At most one note says of a place that its name was declared before. -/
def Distinct (ns : List Note) : Prop := (ns.flatMap redeclaredAt).Nodup

theorem Distinct.sublist {ns ns' : List Note} (distinct : Distinct ns') (sub : ns.Sublist ns') :
    Distinct ns :=
  List.Nodup.sublist (sublist_flatMap redeclaredAt sub) distinct

theorem eq_of_redeclaredAt {ns : List Note} (distinct : Distinct ns) {m n : Note} {p : Pos}
    (left : m ∈ ns) (right : n ∈ ns) (here : p ∈ m.redeclaredAt) (there : p ∈ n.redeclaredAt) :
    m = n := by
  induction ns with
  | nil => cases left
  | cons first rest ih =>
      unfold Distinct at distinct
      rw [List.flatMap_cons, List.nodup_append] at distinct
      obtain ⟨-, later, apart⟩ := distinct
      rcases List.mem_cons.mp left with rfl | inner
      · rcases List.mem_cons.mp right with rfl | other
        · rfl
        · exact absurd rfl (apart p here p (List.mem_flatMap_of_mem other there))
      · rcases List.mem_cons.mp right with rfl | other
        · exact absurd rfl (apart p there p (List.mem_flatMap_of_mem inner here))
        · exact ih later inner other

/-- Two notes that read the same in one layout read the same in every other. -/
theorem diagnostic_inLayout_congr {ns : List Note} (distinct : Distinct ns) {m n : Note}
    (left : m ∈ ns) (right : n ∈ ns) (φ ψ : Layout) {file : String}
    (same : (m.inLayout φ).diagnostic file = (n.inLayout φ).diagnostic file) :
    (m.inLayout ψ).diagnostic file = (n.inLayout ψ).diagnostic file := by
  obtain ⟨severity, message, place, -⟩ := Diagnostic.mk.inj same
  have pos : m.pos = n.pos := φ.injective place
  by_cases equal : m = n
  · rw [equal]
  · -- of two notes at one place at most one is on a declaration
    have apart : m.problem.redeclaredAt m.pos = [] ∨ n.problem.redeclaredAt m.pos = [] := by
      rcases m.problem.redeclaredAt_eq m.pos with none | here
      · exact .inl none
      · rcases n.problem.redeclaredAt_eq m.pos with none | there
        · exact .inr none
        · refine absurd (eq_of_redeclaredAt distinct left right (p := m.pos) ?_ ?_) equal
          · rw [redeclaredAt, here]
            exact List.mem_singleton_self _
          · rw [redeclaredAt, ← pos, there]
            exact List.mem_singleton_self _
    simp only [inLayout, diagnostic, ← pos] at severity message ⊢
    rw [Problem.message_inLayout_congr φ ψ apart message, severity]

theorem file_recordIn (e : Engine) (n : Note) : (recordIn e n).file = e.file :=
  Engine.file_record ..

/-- A note that was taken up before changes nothing. -/
theorem recordIn_of_mem {e : Engine} {n : Note} (known : n.diagnostic e.file ∈ e.diagnostics) :
    recordIn e n = e := by
  unfold diagnostic at known
  simp only [recordIn, Engine.record, if_pos known]

theorem diagnostics_recordIn {e : Engine} {n : Note} (new : n.diagnostic e.file ∉ e.diagnostics) :
    (recordIn e n).diagnostics = e.diagnostics ++ [n.diagnostic e.file] := by
  unfold diagnostic at new
  simp only [recordIn, Engine.record, if_neg new]
  rfl

/-- The notes that two engines took up, each in a layout of its own. -/
structure Taken (φ ψ : Layout) (taken : List Note) (e e' : Engine) : Prop where
  file : e'.file = e.file
  left : e.diagnostics = taken.map fun n => (n.inLayout φ).diagnostic e.file
  right : e'.diagnostics = taken.map fun n => (n.inLayout ψ).diagnostic e.file

/-- One more note is taken up by both engines or by none. -/
theorem Taken.recordIn {φ ψ : Layout} {taken : List Note} {e e' : Engine}
    (both : Taken φ ψ taken e e') {n : Note} (distinct : Distinct (taken ++ [n])) :
    Taken φ ψ taken (recordIn e (n.inLayout φ)) (recordIn e' (n.inLayout ψ)) ∨
      Taken φ ψ (taken ++ [n]) (recordIn e (n.inLayout φ)) (recordIn e' (n.inLayout ψ)) := by
  have last : n ∈ taken ++ [n] := List.mem_append_right _ (List.mem_singleton_self n)
  -- whether the engine has the note already is a question of which notes read the same
  have known : (n.inLayout φ).diagnostic e.file ∈ e.diagnostics ↔
      (n.inLayout ψ).diagnostic e'.file ∈ e'.diagnostics := by
    rw [both.file, both.left, both.right, List.mem_map, List.mem_map]
    constructor
    · rintro ⟨m, member, same⟩
      exact ⟨m, member, diagnostic_inLayout_congr distinct (List.mem_append_left _ member) last φ ψ
        same⟩
    · rintro ⟨m, member, same⟩
      exact ⟨m, member, diagnostic_inLayout_congr distinct (List.mem_append_left _ member) last ψ φ
        same⟩
  by_cases here : (n.inLayout φ).diagnostic e.file ∈ e.diagnostics
  · refine .inl ?_
    rw [recordIn_of_mem here, recordIn_of_mem (known.mp here)]
    exact both
  · refine .inr ⟨?_, ?_, ?_⟩
    · rw [file_recordIn, file_recordIn, both.file]
    · rw [diagnostics_recordIn here, file_recordIn, List.map_append, both.left]
      rfl
    · rw [diagnostics_recordIn (mt known.mpr here), file_recordIn, List.map_append, both.right,
        both.file]
      rfl

/-- Two engines take up the same of some notes. -/
theorem Taken.recordAll {φ ψ : Layout} {taken : List Note} {e e' : Engine}
    (both : Taken φ ψ taken e e') {ns : List Note} (distinct : Distinct (taken ++ ns)) :
    ∃ taken', Taken φ ψ taken' ((ns.map (inLayout φ)).foldl Note.recordIn e)
      ((ns.map (inLayout ψ)).foldl Note.recordIn e') := by
  induction ns generalizing taken e e' with
  | nil => exact ⟨taken, both⟩
  | cons n ns ih =>
      have first : (taken ++ [n]).Sublist (taken ++ n :: ns) :=
        (List.sublist_append_left [n] ns).append_left taken
      rcases both.recordIn (distinct.sublist first) with same | more
      · exact ih same (distinct.sublist ((List.sublist_cons_self n ns).append_left taken))
      · refine ih more ?_
        rw [List.append_assoc]
        exact distinct

theorem Taken.severities {φ ψ : Layout} {taken : List Note} {e e' : Engine}
    (both : Taken φ ψ taken e e') :
    e.diagnostics.map (·.severity) = e'.diagnostics.map (·.severity) := by
  rw [both.left, both.right, List.map_map, List.map_map]
  rfl

end Note

namespace Event

/-- What an engine is asked to record of an event. -/
def note? : Event → Option Note
  | report (.fatal pos p) => some ⟨.fatal, pos, p⟩
  | report (.error pos p) => some ⟨.error, pos, p⟩
  | warning pos p => some ⟨.warning, pos, p⟩
  | listed _ => none

theorem recordAll_eq (e : Engine) (es : List Event) :
    recordAll e es = (es.filterMap note?).foldl Note.recordIn e := by
  induction es generalizing e with
  | nil => rfl
  | cons event es ih =>
      rcases event with ⟨r | r⟩ | ⟨pos, p⟩ | f
      all_goals exact ih _

theorem redeclared_eq (es : List Event) :
    redeclared es = (es.filterMap note?).flatMap Note.redeclaredAt := by
  induction es with
  | nil => rfl
  | cons event es ih =>
      rw [redeclared, List.flatMap_cons, ← redeclared, ih]
      rcases event with ⟨r | r⟩ | ⟨pos, p⟩ | f
      all_goals rfl

theorem notes_inLayout (φ : Layout) (es : List Event) :
    (es.map (inLayout φ)).filterMap note? = (es.filterMap note?).map (Note.inLayout φ) := by
  induction es with
  | nil => rfl
  | cons event es ih =>
      rcases event with ⟨r | r⟩ | ⟨pos, p⟩ | f
      · exact congrArg _ ih
      · exact congrArg _ ih
      · exact congrArg _ ih
      · exact ih

/-- The severities in the list of an engine are the same in every layout. -/
theorem severities_recordAll {es : List Event} (distinct : (redeclared es).Nodup) {e : Engine}
    (empty : e.diagnostics = []) (φ ψ : Layout) :
    (recordAll e (es.map (inLayout φ))).diagnostics.map (·.severity) =
      (recordAll e (es.map (inLayout ψ))).diagnostics.map (·.severity) := by
  rw [redeclared_eq] at distinct
  rw [recordAll_eq, recordAll_eq, notes_inLayout, notes_inLayout]
  have start : Note.Taken φ ψ [] e e := ⟨rfl, empty, empty⟩
  obtain ⟨taken, both⟩ := start.recordAll distinct
  exact both.severities

end Event

end Check

end Samo
