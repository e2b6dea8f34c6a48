import Samo.Proofs.Cautions
import Samo.Proofs.Entries

/-!
# Warnings over a session

An entry is checked together with everything before it, and of the diagnostics only those are shown
that stand in the entry. So a warning is shown once, with the entry it stands in, if the word that
calls for it is in that entry too. But nested alternatives are warned of at the `maybe`, and the
`otherwise` may come with a later entry: such a warning is recorded, and never shown
(`belatedOtherwise_unannounced`). Over a whole session all other warnings are shown, and nothing
else is (`Session.warnings_shown_in_time`).
-/

namespace Samo

open Check

/-! ## Warnings of a program that goes on -/

/-- When old text goes on, the old warnings are those that nothing new calls for. -/
def Caution.Keeps (Q : Pos → Prop) [DecidablePred Q] (cs cs' : List Caution) : Prop :=
  (∀ c ∈ cs, ¬Q c.cause) → cs'.filter (fun c => ¬Q c.cause) = cs

namespace Caution.Keeps

variable {Q : Pos → Prop} [DecidablePred Q] {cs cs' ds ds' : List Caution}

theorem refl (cs : List Caution) : Keeps Q cs cs :=
  fun old => List.filter_eq_self.mpr fun c member => decide_eq_true (old c member)

theorem append (first : Keeps Q cs cs') (second : Keeps Q ds ds') :
    Keeps Q (cs ++ ds) (cs' ++ ds') := by
  intro old
  obtain ⟨old₁, old₂⟩ := List.forall_mem_append.mp old
  rw [List.filter_append, first old₁, second old₂]

/-- New text is warned of if something new calls for it. -/
theorem more (first : Keeps Q cs cs') (new : ∀ d ∈ ds, Q d.cause) : Keeps Q cs (cs' ++ ds) := by
  have none : Keeps Q [] ds := fun _ => List.filter_eq_nil_iff.mpr (by simpa using new)
  exact List.append_nil cs ▸ first.append none

end Caution.Keeps

open Caution (Keeps)

section

variable {Q : Pos → Prop} [DecidablePred Q]

theorem Branches.Prolongs.keeps {rest rest' : Branches} (prolongs : rest.Prolongs Q rest')
    (nested : Bool) : Keeps Q (rest.cautions nested) (rest'.cautions nested) := by
  induction prolongs with
  | refl => exact .refl _
  | @done rest' new =>
      rw [Branches.cautions]
      exact Keeps.more (.refl []) fun c member =>
        new _ ((rest'.cautions_spotted nested).causes c member)
  | elseIf _ ih =>
      rw [Branches.cautions, Branches.cautions]
      exact .append (.refl _) ih

theorem Stmt.Prolongs.keeps {s s' : Stmt} (prolongs : s.Prolongs Q s') (nested : Bool) :
    Keeps Q (s.cautions nested) (s'.cautions nested) := by
  induction prolongs generalizing nested with
  | refl => exact .refl _
  | branch arms =>
      rw [Stmt.cautions, Stmt.cautions]
      exact .append (.refl _) (arms.keeps nested)
  | maybe _ ih =>
      rw [Stmt.cautions, Stmt.cautions]
      exact ih true
  | @alternative p e body body' op other _ there new ih =>
      rw [Stmt.cautions, Stmt.cautions]
      have word : Keeps Q [] (if nested then [.nested p op] else []) := by
        cases nested with
        | false => exact .refl []
        | true => exact Keeps.more (.refl []) (List.forall_mem_singleton.mpr there)
      exact word.append (.more (ih true) fun c member =>
        new _ ((other.cautions_spotted true).causes c member))
  | otherwise _ ih =>
      rw [Stmt.cautions, Stmt.cautions]
      exact .append (.refl _) (.append (.refl _) (ih true))

/-- As long as no statement is lost. -/
theorem Program.Prolongs.keeps {program program' : Program} (prolongs : program.Prolongs Q program')
    (fine : ∀ s ∈ program', ∀ pos fault, s ≠ .bad pos fault) :
    Keeps Q program.cautions program'.cautions := by
  have fresh : ∀ news : List Stmt, (∀ s ∈ news, ∀ p ∈ s.spots, Q p) →
      ∀ c ∈ Stmt.cautionsAll false news, Q c.cause := by
    intro news new c member
    induction news with
    | nil => cases member
    | cons s news ih =>
        obtain ⟨here, new⟩ := List.forall_mem_cons.mp new
        rcases List.mem_append.mp member with first | rest
        · exact here _ ((s.cautions_spotted false).causes c first)
        · exact ih new rest
  unfold Program.cautions
  induction prolongs with
  | fresh new => exact Keeps.more (.refl []) (fresh _ new)
  | lost => exact absurd rfl (fine _ List.mem_cons_self _ _)
  | last more new =>
      rw [Stmt.cautionsAll, Stmt.cautionsAll, Stmt.cautionsAll, List.append_nil]
      exact (more.keeps false).more (fresh _ new)
  | cons _ ih =>
      rw [Stmt.cautionsAll, Stmt.cautionsAll]
      exact .append (.refl _) (ih (List.forall_mem_cons.mp fine).2)

end

/-- The tokens of a text of whole lines are on its lines. -/
theorem Cursor.lines_ofText {cs : List Char} (whole : cs = [] ∨ ∃ lines, cs = lines ++ ['\n']) :
    ∀ p ∈ (Cursor.ofText cs).positions, 0 < p.line ∧ p.line ≤ cs.count '\n' := by
  intro p member
  rw [Cursor.positions, Cursor.ofText, Cursor.rest_look] at member
  obtain ⟨t, shown, rfl⟩ := List.mem_map.mp member
  have member := (List.mem_filter.mp shown).1
  have first : Mark.start.pos.line ≤ t.pos.line := line_le_of_mem_tokensFrom member
  refine ⟨first, ?_⟩
  rcases whole with rfl | ⟨lines, rfl⟩
  · rw [tokensFrom] at member
    cases member
  · rw [tokensFrom_append_newline, tokensFrom, List.append_nil] at member
    have before := before_end_of_mem_tokensFrom member
    have last : (Mark.start.advance lines).pos.line = 1 + lines.count '\n' :=
      Mark.line_advance .start lines
    unfold Pos.Before at before
    rw [List.count_append]
    simp
    omega

/-! ## Entries one after the other -/

namespace Session

/-- The diagnostics that are shown of an entry. -/
def shown (s : Session) (entry : Bytes) : List Diagnostic :=
  match (s.options.checkText "<repl>" (s.program ++ entry ++ [Text.lineFeed]) s.log).1 with
  | .error _ => []
  | .ok verdict => entryDiagnostics s.lines verdict.engine.diagnostics

theorem eval_shown (s : Session) (entry : Bytes) :
    (s.eval entry).2.1 = listing (s.shown entry) := by
  cases run : s.options.checkText "<repl>" (s.program ++ entry ++ [Text.lineFeed]) s.log with
  | mk outcome log =>
      simp only [eval, shown, run]
      cases outcome with
      | error => rfl
      | ok verdict =>
          dsimp only
          split <;> rfl

/-- Whether all entries are accepted. -/
def accepts (s : Session) : List Bytes → Bool
  | [] => true
  | entry :: entries => (s.eval entry).1 && (s.eval entry).2.2.accepts entries

/-- The session after some entries. -/
def after (s : Session) : List Bytes → Session
  | [] => s
  | entry :: entries => (s.eval entry).2.2.after entries

/-- All that is shown of some entries, with lines counted from the start of the program. -/
def shownOver (s : Session) : List Bytes → List Diagnostic
  | [] => []
  | entry :: entries =>
    (s.shown entry).map (fun d => { d with pos := { d.pos with line := d.pos.line + s.lines } }) ++
      (s.eval entry).2.2.shownOver entries

/-- The last line of each entry behind some lines. -/
def lastLines (before : Nat) : List Bytes → List Nat
  | [] => []
  | entry :: entries =>
    let last := before + entry.count Text.lineFeed + 1
    last :: lastLines last entries

theorem le_lastLines {before : Nat} {entries : List Bytes} :
    ∀ last ∈ lastLines before entries, before ≤ last := by
  induction entries generalizing before with
  | nil => exact List.forall_mem_nil _
  | cons entry entries ih =>
      refine List.forall_mem_cons.mpr ⟨by omega, fun last member => ?_⟩
      have later := ih last member
      omega

/-- What there is to warn of in the program of a session. -/
def cautions (s : Session) : List Caution := Program.cautions (parse (Text.decode s.program)).1

end Session

/-- No entry that ends behind the place of the warning ends before the word that calls for it. -/
def Caution.InTime (ends : List Nat) (c : Caution) : Prop :=
  ∀ last ∈ ends, c.pos.line ≤ last → c.cause.line ≤ last

instance (ends : List Nat) (c : Caution) : Decidable (c.InTime ends) :=
  inferInstanceAs (Decidable (∀ last ∈ ends, c.pos.line ≤ last → c.cause.line ≤ last))

/-- A list in the order of its lines can be cut at a line. -/
theorem Caution.filter_cut {cs : List Caution} (ordered : (cs.map pos).Pairwise Pos.Before)
    (p : Caution → Bool) (n : Int) :
    cs.filter p = cs.filter (fun c => c.pos.line ≤ n ∧ p c) ++
      cs.filter (fun c => n < c.pos.line ∧ p c) := by
  induction cs with
  | nil => rfl
  | cons c cs ih =>
      obtain ⟨first, ordered⟩ := List.pairwise_cons.mp ordered
      have none : n < c.pos.line → cs.filter (fun c => c.pos.line ≤ n ∧ p c) = [] := by
        intro below
        refine List.filter_eq_nil_iff.mpr fun d member => ?_
        have behind := first d.pos (List.mem_map_of_mem member)
        unfold Pos.Before at behind
        grind
      grind

/-- What is in time over the first entry and those behind it. -/
theorem Caution.filter_inTime {cs : List Caution} (ordered : (cs.map pos).Pairwise Pos.Before)
    {start n : Nat} (later : start ≤ n) {ends : List Nat} (behind : ∀ last ∈ ends, n ≤ last)
    (placed : ∀ c ∈ cs, c.cause.line ≤ n → c.pos.line ≤ n) :
    cs.filter (fun c => (start : Int) < c.pos.line ∧ c.InTime (n :: ends)) =
      (cs.filter fun c => c.cause.line ≤ (n : Int)).filter (fun c => (start : Int) < c.pos.line) ++
        cs.filter (fun c => (n : Int) < c.pos.line ∧ c.InTime ends) := by
  rw [filter_cut ordered _ n, List.filter_filter]
  congr 1
  · refine List.filter_congr fun c member => ?_
    have here := placed c member
    grind [InTime]
  · refine List.filter_congr fun c _ => ?_
    grind [InTime]

namespace Session

namespace Holds

variable {builtins : Registry} {before : List Bytes} {s : Session}

/-- Warnings stand one behind the other, on lines of the program that called for them. -/
theorem cautions_placed (holds : Holds builtins before s) :
    (s.cautions.map Caution.pos).Pairwise Pos.Before ∧
      ∀ c ∈ s.cautions, 0 < c.pos.line ∧ c.pos.line ≤ s.lines ∧ c.cause.line ≤ s.lines := by
  obtain ⟨stop, tokens, ordered⟩ := parse_orderedSpots (Text.decode s.program)
  have spotted := Stmt.cautionsAll_spotted false stop (parse (Text.decode s.program)).1
  have lines := Cursor.lines_ofText (Text.lines_decode holds.whole)
  rw [Text.count_decode, ← holds.lines] at lines
  refine ⟨(List.pairwise_append.mp ordered).1.sublist spotted.ordered, fun c member => ?_⟩
  have here := lines _ (tokens.subset (spotted.ordered.subset (List.mem_map_of_mem member)))
  exact ⟨here.1, here.2, (lines _ (tokens.subset (spotted.causes c member))).2⟩

/-- The check of the program records what there is to warn of. -/
theorem recorded (holds : Holds builtins before s) (file : String) (log : Log) :
    ∃ verdict, ((s.options.checkText file s.program).run log).1 = .ok verdict ∧
      verdict.engine.diagnostics = s.cautions.map (Caution.diagnostic file) := by
  obtain ⟨log', checked⟩ := Options.checkText_run holds.library file s.program log
  have different := holds.cautions_placed.1.imp Pos.Before.ne
  exact ⟨_, checked, Program.diagnostics_of_silent (holds.passes file log') rfl rfl different⟩

/-- What an entry does that is accepted. -/
theorem entered (holds : Holds builtins before s) {entry : Bytes}
    (accepted : (s.eval entry).1 = true) :
    let s' := (s.eval entry).2.2
    Holds builtins (before ++ [entry]) s' ∧ s'.lines = s.lines + entry.count Text.lineFeed + 1 ∧
      s'.cautions.filter (fun c => c.cause.line ≤ (s.lines : Int)) = s.cautions ∧
      (s.shown entry).map (fun d => { d with pos := { d.pos with line := d.pos.line + s.lines } }) =
        (s'.cautions.filter fun c => (s.lines : Int) < c.pos.line).map
          (Caution.diagnostic "<repl>") := by
  have holds' := holds.accepted (Prod.ext accepted rfl)
  obtain ⟨verdict, judged⟩ := holds.judged entry
  obtain ⟨log, eval⟩ := judged.eval
  by_cases failed : verdict.engine.hasFailed = true
  · rw [if_pos failed] at eval
    rw [eval] at accepted
    cases accepted
  rw [if_neg failed] at eval
  rw [eval] at holds' ⊢
  refine ⟨holds', rfl, ?_, ?_⟩
  · have kept := (holds.prolongs (entry ++ [Text.lineFeed])).keeps ?_ fun c member => ?_
    · refine Eq.trans ?_ kept
      rw [← List.append_assoc]
      exact List.filter_congr fun c _ => by simp
    · rw [← List.append_assoc]
      exact Stmt.not_bad_of_silent (holds'.passes "" log)
    · have old := (holds.cautions_placed.2 c member).2.2
      omega
  · obtain ⟨verdict', checked, recorded⟩ := holds'.recorded "<repl>" s.log
    unfold shown
    rw [show (s.options.checkText "<repl>" (s.program ++ entry ++ [Text.lineFeed]) s.log).1 =
      .ok verdict' from checked]
    simp only [entryDiagnostics, recorded, List.filter_map, List.map_map]
    refine List.map_congr_left fun c _ => ?_
    simp [Caution.diagnostic]

/-- What a run of entries does that are all accepted. -/
theorem run (holds : Holds builtins before s) {entries : List Bytes}
    (accepted : s.accepts entries = true) :
    let s' := s.after entries
    Holds builtins (before ++ entries) s' ∧
      s'.cautions.filter (fun c => c.cause.line ≤ (s.lines : Int)) = s.cautions ∧
      s.shownOver entries = (s'.cautions.filter fun c =>
        (s.lines : Int) < c.pos.line ∧ c.InTime (lastLines s.lines entries)).map
          (Caution.diagnostic "<repl>") := by
  induction entries generalizing before s with
  | nil =>
      obtain ⟨-, placed⟩ := holds.cautions_placed
      refine ⟨(List.append_nil before).symm ▸ holds, ?_, ?_⟩
      · exact List.filter_eq_self.mpr fun c member => decide_eq_true (placed c member).2.2
      · rw [List.filter_eq_nil_iff.mpr fun c member => ?_]
        · rfl
        · have above := (placed c member).2.1
          simp
          omega
  | cons entry entries ih =>
      obtain ⟨first, rest⟩ := Bool.and_eq_true_iff.mp accepted
      obtain ⟨holds₁, lines, kept₁, shown₁⟩ := holds.entered first
      obtain ⟨final, kept, shown⟩ := ih holds₁ rest
      obtain ⟨ordered, -⟩ := final.cautions_placed
      refine ⟨(List.append_cons before entry entries).symm ▸ final, ?_, ?_⟩
      · rw [← kept₁, ← kept, List.filter_filter]
        refine List.filter_congr fun c _ => ?_
        rw [lines]
        grind [after]
      · rw [shownOver, shown₁, shown, ← List.map_append, ← kept]
        refine congrArg (List.map _) (Eq.symm ?_)
        rw [after, lastLines, ← lines]
        refine Caution.filter_inTime ordered (by omega) le_lastLines fun c member soon => ?_
        refine (holds₁.cautions_placed.2 c ?_).2.1
        rw [← kept]
        exact List.mem_filter.mpr ⟨member, decide_eq_true soon⟩

end Holds

/--
Over a session whose entries are all accepted, a warning is shown once if it is shown in time, and
nothing else is shown. The check of the whole program records what there is to warn of, one behind
the other; and what is shown, with lines counted from the start of the program, are in this order
those warnings that are called for in the entry they stand in. Any other is of alternatives whose
`otherwise` came with a later entry than the `maybe`.
-/
theorem warnings_shown_in_time {o : Options} {builtins : Registry}
    (library : Registry.ofLibrary o.library = .ok builtins) {entries : List Bytes}
    (accepted : (create o).accepts entries = true) :
    let s := (create o).after entries
    let ends := lastLines 0 entries
    s.program = entries.flatMap (· ++ [Text.lineFeed]) ∧
      (∀ log, ∃ verdict, ((s.options.checkText "<repl>" s.program).run log).1 = .ok verdict ∧
        verdict.engine.diagnostics = s.cautions.map (Caution.diagnostic "<repl>")) ∧
      (s.cautions.map Caution.pos).Pairwise Pos.Before ∧
      (create o).shownOver entries =
        (s.cautions.filter (·.InTime ends)).map (Caution.diagnostic "<repl>") ∧
      (∀ c ∈ s.cautions, ¬c.InTime ends → ∃ pos otherwisePos, c = .nested pos otherwisePos ∧
        ∃ last ∈ ends, pos.line ≤ last ∧ (last : Int) < otherwisePos.line) ∧
      ∀ (t : Session) (entry : Bytes), (t.eval entry).2.1 = listing (t.shown entry) := by
  obtain ⟨holds, -, shown⟩ := (Holds.create library).run accepted
  obtain ⟨ordered, placed⟩ := holds.cautions_placed
  refine ⟨holds.program, holds.recorded "<repl>", ordered, ?_, fun c _ late => ?_, eval_shown⟩
  · rw [shown]
    refine congrArg (List.map _) (List.filter_congr fun c member => ?_)
    have first : ((create o).lines : Int) < c.pos.line := (placed c member).1
    rw [decide_eq_decide]
    exact and_iff_right first
  · obtain ⟨last, late⟩ := not_forall.mp late
    obtain ⟨member, late⟩ := Classical.not_imp.mp late
    obtain ⟨here, there⟩ := Classical.not_imp.mp late
    cases c with
    | needs pos => exact absurd here there
    | nested pos otherwisePos =>
        exact ⟨pos, otherwisePos, rfl, last, member, here, Int.not_le.mp there⟩

end Session

/-- A library, and alternatives that are nested: first all at once, then in two entries. -/
def warnedEntries : List Bytes :=
  ["needs \"io\";", "int x = 1;\nmaybe (5) maybe (5) x = 2; otherwise x = 3;",
    "maybe (5) maybe (5) x = 4;", "otherwise x = 5;"].map (·.toUTF8.toList)

/-- Three warnings are recorded, and the last of them is not shown. -/
theorem warnedEntries_shown :
    let s := (Session.create {}).after warnedEntries
    Registry.ofLibrary .standard = .ok .standard ∧
      (Session.create {}).accepts warnedEntries = true ∧
      s.cautions = [.needs ⟨1, 0⟩, .nested ⟨3, 10⟩ ⟨3, 27⟩, .nested ⟨4, 10⟩ ⟨5, 0⟩] ∧
      Session.lastLines 0 warnedEntries = [1, 3, 4, 5] ∧
      (Session.create {}).shownOver warnedEntries =
        [.needs ⟨1, 0⟩, .nested ⟨3, 10⟩ ⟨3, 27⟩].map (Caution.diagnostic "<repl>") := by
  intro s
  have accepted : (Session.create {}).accepts warnedEntries = true := by decide +kernel
  have known : s.cautions = [.needs ⟨1, 0⟩, .nested ⟨3, 10⟩ ⟨3, 27⟩, .nested ⟨4, 10⟩ ⟨5, 0⟩] := by
    decide +kernel
  have ends : Session.lastLines 0 warnedEntries = [1, 3, 4, 5] := by decide +kernel
  obtain ⟨-, -, -, shown, -⟩ := Session.warnings_shown_in_time (o := {}) rfl accepted
  refine ⟨rfl, accepted, known, ends, shown.trans ?_⟩
  rw [known, ends]
  rfl

/-- A warning that is never shown: the alternative comes with a later entry than the `maybe`. -/
theorem belatedOtherwise_unannounced :
    let entries := ["maybe (50) maybe (50) putout(1);", "otherwise putout(2);"].map
      (·.toUTF8.toList)
    let s := (Session.create {}).after entries
    (Session.create {}).accepts entries = true ∧ (Session.create {}).shownOver entries = [] ∧
      ((s.options.checkText "<repl>" s.program).run s.log).1.toOption.map (·.engine.diagnostics) =
        some [⟨.warning, Problem.nestedAlternatives.message, ⟨1, 11⟩, "<repl>"⟩] := by
  decide +kernel

end Samo
