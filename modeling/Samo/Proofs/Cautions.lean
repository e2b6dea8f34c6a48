import Samo.Proofs.Passes
import Samo.Proofs.Spots
import Samo.Proofs.Scripts

/-!
# What a check warns of

What a check warns of can be read off a program: every `needs`, and every `maybe` with an
alternative that stands in another `maybe`. Such a warning is called for by a word of the text, and
that is the `otherwise` if there is an alternative (`Stmt.cautions`). A check that makes no reports
records just these warnings, in the order of the text (`Program.diagnostics_of_silent`).
-/

namespace Samo

/-- Something to warn of. -/
inductive Caution where
  | needs (pos : Pos)
  | nested (pos otherwisePos : Pos)
deriving DecidableEq, Repr

namespace Caution

/-- Where the warning stands. -/
def pos : Caution → Pos
  | needs pos | nested pos _ => pos

/-- The word that calls for the warning. -/
def cause : Caution → Pos
  | needs pos => pos
  | nested _ otherwisePos => otherwisePos

def problem : Caution → Problem
  | needs _ => .needsUnsupported
  | nested .. => .nestedAlternatives

/-- What is recorded of it. -/
def diagnostic (file : String) (c : Caution) : Diagnostic :=
  ⟨.warning, c.problem.message, c.pos, file⟩

end Caution

mutual

/-- What to warn of in a statement, which may be nested in a `maybe`. -/
def Stmt.cautions (nested : Bool) : Stmt → List Caution
  | .block body | .define _ _ body | .loop _ _ body => body.cautions nested
  | .branch _ _ body rest => body.cautions nested ++ rest.cautions nested
  | .needs pos .. => [.needs pos]
  | .maybe _ _ body => body.cautions true
  | .maybeOtherwise pos _ body otherwisePos alternative =>
    (if nested then [.nested pos otherwisePos] else []) ++
      (body.cautions true ++ alternative.cautions true)
  | .declare .. | .infer .. | .assign .. | .call .. | .breakOut _ | .continueOn _ | .returnWith ..
  | .bad .. => []

def Block.cautions (nested : Bool) : Block → List Caution
  | .mk _ _ stmts => Stmt.cautionsAll nested stmts

def Stmt.cautionsAll (nested : Bool) : List Stmt → List Caution
  | [] => []
  | s :: ss => s.cautions nested ++ Stmt.cautionsAll nested ss

def Branches.cautions (nested : Bool) : Branches → List Caution
  | .done => []
  | .otherwise _ body => body.cautions nested
  | .elseIf _ _ body rest => body.cautions nested ++ rest.cautions nested

end

/-- What to warn of in a program. -/
def Program.cautions (program : Program) : List Caution := Stmt.cautionsAll false program

/-! ## Where warnings stand -/

/-- Warnings stand at some of the spots, in their order, and are called for there. -/
structure Caution.Spotted (cs : List Caution) (spots : List Pos) : Prop where
  ordered : (cs.map Caution.pos).Sublist spots
  causes : ∀ c ∈ cs, c.cause ∈ spots

namespace Caution.Spotted

variable {cs cs' : List Caution} {spots spots' : List Pos}

theorem nil (spots : List Pos) : Spotted [] spots := ⟨List.nil_sublist _, List.forall_mem_nil _⟩

theorem mono (spotted : Spotted cs spots) (more : spots.Sublist spots') : Spotted cs spots' :=
  ⟨spotted.ordered.trans more, fun c member => more.subset (spotted.causes c member)⟩

theorem append (first : Spotted cs spots) (second : Spotted cs' spots') :
    Spotted (cs ++ cs') (spots ++ spots') := by
  refine ⟨?_, List.forall_mem_append.mpr ⟨fun c member => ?_, fun c member => ?_⟩⟩
  · rw [List.map_append]
    exact first.ordered.append second.ordered
  · exact List.mem_append_left _ (first.causes c member)
  · exact List.mem_append_right _ (second.causes c member)

end Caution.Spotted

open Caution (Spotted)

mutual

theorem Stmt.cautions_spotted (nested : Bool) (s : Stmt) : Spotted (s.cautions nested) s.spots := by
  cases s <;> rw [Stmt.cautions, Stmt.spots]
  case block body => exact body.cautions_spotted nested
  case define p header body =>
    exact (body.cautions_spotted nested).mono ((List.sublist_append_right _ _).cons _)
  case loop p cond body =>
    exact (body.cautions_spotted nested).mono ((List.sublist_append_right _ _).cons _)
  case branch p cond body rest =>
    have both := (body.cautions_spotted nested).append (rest.cautions_spotted nested)
    exact both.mono ((List.sublist_append_right _ _).cons _)
  case needs p spelling path => exact ⟨.refl _, List.forall_mem_singleton.mpr List.mem_cons_self⟩
  case maybe p e body =>
    exact (body.cautions_spotted true).mono ((List.sublist_append_right _ _).cons _)
  case maybeOtherwise p e body op alternative =>
    have both := ((body.cautions_spotted true).append
      ((alternative.cautions_spotted true).mono (List.sublist_cons_self op _))).mono
      (List.sublist_append_right e.spots _)
    cases nested with
    | false => exact both.mono (List.sublist_cons_self _ _)
    | true =>
        refine ⟨both.ordered.cons_cons p, List.forall_mem_cons.mpr ⟨?_, fun c member => ?_⟩⟩
        · simp [Caution.cause]
        · exact List.mem_cons_of_mem _ (both.causes c member)
  case declare | infer | assign | call | breakOut | continueOn | returnWith | bad => exact .nil _

theorem Block.cautions_spotted (nested : Bool) (body : Block) :
    Spotted (body.cautions nested) body.spots := by
  cases body with
  | mk start stop stmts =>
      rw [Block.cautions, Block.spots]
      exact (Stmt.cautionsAll_spotted nested stop stmts).mono
        ((List.sublist_append_left _ _).cons _)

theorem Stmt.cautionsAll_spotted (nested : Bool) (stop : Pos) (ss : List Stmt) :
    Spotted (Stmt.cautionsAll nested ss) (Stmt.spotsAll stop ss) := by
  cases ss with
  | nil =>
      rw [Stmt.cautionsAll]
      exact .nil _
  | cons s ss =>
      rw [Stmt.cautionsAll, Stmt.spotsAll]
      refine .append ?_ (Stmt.cautionsAll_spotted nested stop ss)
      split
      · next last =>
        -- there is nothing to warn of in a bad statement
        cases s with
        | bad =>
            rw [Stmt.cautions]
            exact .nil _
        | _ => cases (Bool.and_eq_true_iff.mp last).2
      · exact s.cautions_spotted nested

theorem Branches.cautions_spotted (nested : Bool) (rest : Branches) :
    Spotted (rest.cautions nested) rest.spots := by
  cases rest <;> rw [Branches.cautions, Branches.spots]
  case done => exact .nil _
  case otherwise p body => exact (body.cautions_spotted nested).mono (List.sublist_cons_self _ _)
  case elseIf p cond body rest =>
    have both := (body.cautions_spotted nested).append (rest.cautions_spotted nested)
    exact both.mono ((List.sublist_append_right _ _).cons _)

end

/-! ## What is told -/

namespace Check

variable {α β : Type}

namespace Event

/-- The warning, if the event is one. -/
def warning? : Event → Option (Pos × Problem)
  | warning pos p => some (pos, p)
  | report _ | listed _ => none

/-- The warnings, in order. -/
def warnings (es : List Event) : List (Pos × Problem) := es.filterMap warning?

/-- What is recorded of a warning. -/
def diagnostic (file : String) (w : Pos × Problem) : Diagnostic :=
  ⟨.warning, w.2.message, w.1, file⟩

theorem warnings_append (es es' : List Event) :
    warnings (es ++ es') = warnings es ++ warnings es' :=
  List.filterMap_append

theorem warnings_map_report (rs : List Report) : warnings (rs.map report) = [] := by
  induction rs with
  | nil => rfl
  | cons r rs ih => exact ih

/-- Under every policy all events are heard if there are no reports among them. -/
theorem mild {es : List Event} (quiet : reports es = []) : ∀ e ∈ es, e.isFatal = false := by
  intro e member
  rw [Bool.eq_false_iff]
  intro fatal
  obtain ⟨r, reported, -⟩ := exists_fatal_iff.mp ⟨e, member, fatal⟩
  rw [quiet] at reported
  cases reported

/-- Warnings that are all different are all recorded. -/
theorem diagnostics_recordAll {e : Engine} {es : List Event} (quiet : reports es = [])
    (different : (e.diagnostics ++ (warnings es).map (diagnostic e.file)).Nodup) :
    (recordAll e es).diagnostics = e.diagnostics ++ (warnings es).map (diagnostic e.file) := by
  induction es generalizing e with
  | nil => exact (List.append_nil _).symm
  | cons event es ih =>
      cases event with
      | report r => cases quiet
      | listed f => exact ih quiet different
      | warning pos p =>
          have new : diagnostic e.file (pos, p) ∉ e.diagnostics := fun known =>
            (List.nodup_append.mp different).2.2 _ known _ List.mem_cons_self rfl
          have recorded : (e.record .warning pos p.message).diagnostics =
              e.diagnostics ++ [diagnostic e.file (pos, p)] := by
            rw [Engine.record_eq]
            exact congrArg Engine.diagnostics (if_neg new)
          have next := ih (e := e.record .warning pos p.message) quiet (by
            rw [recorded, Engine.file_record, List.append_assoc]
            exact different)
          rw [recorded, Engine.file_record, List.append_assoc] at next
          exact next

end Event

/--
What a step warns of if it makes no reports, depending on whether it is nested in a `maybe`. The
depth of these is the same before and after.
-/
def Warned (cautions : Bool → List Caution) (m : Check α) : Prop :=
  ∀ s, ∃ es a s', Tells m s es a s' ∧ s'.uncertainDepth = s.uncertainDepth ∧
    (Event.reports es = [] → Event.warnings es =
      (cautions (decide (0 < s.uncertainDepth))).map fun c => (c.pos, c.problem))

namespace Warned

variable {cs cs' : Bool → List Caution}

theorem bind {m : Check α} {f : α → Check β} (first : Warned cs m)
    (second : ∀ a, Warned cs' (f a)) :
    Warned (fun nested => cs nested ++ cs' nested) (m >>= f) := by
  intro s
  obtain ⟨es, a, s₁, tells, depth, warned⟩ := first s
  obtain ⟨es', b, s₂, tells', depth', warned'⟩ := second a s₁
  refine ⟨es ++ es', b, s₂, tells.bind tells', depth'.trans depth, fun quiet => ?_⟩
  rw [Event.reports_append, List.append_eq_nil_iff] at quiet
  rw [Event.warnings_append, warned quiet.1, warned' quiet.2, depth, List.map_append]

theorem of_question {Q : Pos → Prop} {A : Prop} {O : α → Prop} {m : Check α}
    (question : Question Q A O m) : Warned (fun _ => []) m := by
  intro s
  obtain ⟨rs, a, -, tells⟩ := question.tells s
  exact ⟨_, a, s, tells, rfl, fun _ => Event.warnings_map_report rs⟩

theorem of_readsTable {m : Check α} (reads : ReadsTable m) : Warned (fun _ => []) m :=
  of_question (reads.question False)

/-- Most steps warn of nothing. -/
theorem declaring {Q : Pos → Prop} : Declaring Q (Warned fun _ => []) where
  ask := of_question
  bind first second := first.bind second
  look same each s := by
    obtain ⟨es, a, s', tells, rest⟩ := each s s
    exact ⟨es, a, s', .read (same s) tells, rest⟩
  insert _ s := ⟨[], (), _, .modifySymbols _ s, rfl, fun _ => rfl⟩
  debug message s := ⟨[], (), s, .debug message s, rfl, fun _ => rfl⟩

theorem modifySymbols (f : SymbolTable → SymbolTable) : Warned (fun _ => []) (modifySymbols f) :=
  fun s => ⟨[], (), _, .modifySymbols f s, rfl, fun _ => rfl⟩

theorem inScope (mode : EntryMode) {m : Check Unit} (warned : Warned cs m) :
    Warned cs (inScope mode m) := by
  intro s
  obtain ⟨es, _, s', tells, rest⟩ := warned { s with symbols := s.symbols.enter mode }
  exact ⟨es, (), _, tells.inScope, rest⟩

theorem inLoop {m : Check Unit} (warned : Warned cs m) : Warned cs (inLoop m) := by
  intro s
  obtain ⟨es, _, s', tells, rest⟩ := warned { s with loopDepth := s.loopDepth + 1 }
  exact ⟨es, (), _, tells.inLoop, rest⟩

theorem inFunction (f : Function) {m : Check Unit} (warned : Warned cs m) :
    Warned cs (inFunction f m) := by
  intro s
  obtain ⟨es, _, s', tells, rest⟩ := warned { s with currentFunction := some f, loopDepth := 0 }
  exact ⟨es, (), _, tells.inFunction, rest⟩

/-- Whatever is run by chance is nested. -/
theorem inUncertainty {m : Check Unit} (warned : Warned cs m) :
    Warned (fun _ => cs true) (inUncertainty m) := by
  intro s
  obtain ⟨es, _, s', tells, depth, warned⟩ := warned s.uncertain
  refine ⟨es, (), _, tells.inUncertainty, ?_, ?_⟩
  · show s'.uncertainDepth - 1 = s.uncertainDepth
    rw [depth]
    exact Nat.add_sub_cancel _ 1
  · rw [decide_eq_true (show 0 < s.uncertain.uncertainDepth from Nat.succ_pos _)] at warned
    exact warned

/-- A report before the rest, or the rest at once. -/
theorem report {c : Prop} [Decidable c] (pos : Pos) (p : Problem) {m : Unit → Check Unit}
    (warned : Warned cs (m ())) : Warned cs (if c then fatal pos p >>= m else m ()) := by
  split
  · exact (of_readsTable (.fatal pos p)).bind fun _ => warned
  · exact warned

theorem checkAlternatives (pos : Pos) (body : Stmt) (otherwisePos : Pos) (alternative : Stmt) :
    Warned (fun nested => if nested then [.nested pos otherwisePos] else [])
      (checkAlternatives pos body otherwisePos alternative) := by
  have last : Warned (fun nested => if nested then [.nested pos otherwisePos]
      else []) (do if 0 < (← get).uncertainDepth then Check.warn pos .nestedAlternatives) := by
    intro s
    by_cases nested : 0 < s.uncertainDepth
    · refine ⟨[.warning pos .nestedAlternatives], (), s, .read (fun _ _ => rfl) ?_, rfl,
        fun _ => ?_⟩
      · rw [if_pos nested]
        exact .warn _ _ s
      · rw [decide_eq_true nested]
        rfl
    · refine ⟨[], (), s, .read (fun _ _ => rfl) ?_, rfl, fun _ => ?_⟩
      · rw [if_neg nested]
        exact .pure () s
      · rw [decide_eq_false nested]
        rfl
  unfold Check.checkAlternatives
  refine report _ _ ?_
  exact report _ _ last

theorem endFunction (h : Header) (body : Block) (f : Function) :
    Warned (fun _ => []) (endFunction h body f) :=
  declaring.endFunction (Q := fun _ => True) trivial body.within_anywhere f
    (of_readsTable (.checkReturns _ _ body))
    fun s => ⟨[.listed f], (), _, .list f s, rfl, fun _ => rfl⟩

/-- A function that is not begun was reported. -/
theorem define {body : Block} (pos : Pos) (header : Header)
    (warned : Warned cs (body.check .resumeLast)) :
    Warned cs (Stmt.define pos header body).check := by
  intro s
  rw [Stmt.check]
  have start : Warned (fun _ => []) (beginFunction pos header) :=
    declaring.beginFunction (Q := fun _ => True) (modifySymbols _) (modifySymbols _) trivial
      header.within_anywhere
  obtain ⟨es, found, s₁, tells, depth, none⟩ := start s
  cases found with
  | none =>
      refine ⟨es ++ [], (), s₁, tells.bind (.pure () s₁), depth, fun quiet => ?_⟩
      rw [List.append_nil] at quiet
      obtain ⟨l, run⟩ :=
        tells.finished _ ⟨{ policy := .stop }, s.log, rfl⟩ fun _ => Event.mild quiet
      cases beginFunction_isSome rfl run
  | some f =>
      obtain ⟨es', _, s₂, tells', depth', rest⟩ :=
        ((warned.inFunction f).bind fun _ => endFunction header body f) s₁
      refine ⟨es ++ es', (), s₂, tells.bind tells', depth'.trans depth, fun quiet => ?_⟩
      rw [Event.reports_append, List.append_eq_nil_iff] at quiet
      rw [Event.warnings_append, none quiet.1, rest quiet.2, depth]
      exact congrArg (List.map _) (List.append_nil _)

end Warned

end Check

open Check

mutual

theorem Stmt.check_warned (s : Stmt) : Warned s.cautions s.check := by
  cases s <;> simp only [Stmt.cautions]
  case block body =>
    rw [Stmt.check]
    exact body.check_warned .new
  case define pos header body => exact .define pos header (body.check_warned .resumeLast)
  case branch pos cond body rest =>
    rw [Stmt.check]
    exact (Warned.of_readsTable (.checkCondition pos .ifWord cond)).bind fun _ =>
      (body.check_warned .new).bind fun _ => rest.check_warned
  case loop pos cond body =>
    rw [Stmt.check]
    exact (Warned.of_readsTable (.checkCondition pos .whileWord cond)).bind fun _ =>
      (body.check_warned .new).inLoop
  case maybe pos e body =>
    rw [Stmt.check]
    exact (Warned.of_readsTable (.checkProbability pos body.isCompound e)).bind fun _ =>
      (Warned.of_readsTable (.checkProbable pos body)).bind fun _ =>
        body.check_warned.inUncertainty
  case maybeOtherwise pos e body otherwisePos alternative =>
    rw [Stmt.check]
    exact (Warned.of_readsTable (.checkProbability pos body.isCompound e)).bind fun _ =>
      (Warned.checkAlternatives pos body otherwisePos alternative).bind fun _ =>
        (body.check_warned.bind fun _ => alternative.check_warned).inUncertainty
  case needs pos spelling path =>
    rw [Stmt.check]
    exact fun s => ⟨[.warning pos .needsUnsupported], (), s, .warn _ _ s, rfl, fun _ => rfl⟩
  case declare | infer | assign | call | breakOut | continueOn | returnWith | bad =>
    refine Warned.declaring.stating.simple rfl ?_ (Stmt.within_anywhere _)
    intro _ _ _ same
    cases same

theorem Block.check_warned (mode : EntryMode) (body : Block) :
    Warned body.cautions (body.check mode) := by
  cases body with
  | mk start stop stmts =>
      have both := (Stmt.checkAll_warned stmts).bind fun _ =>
        Warned.modifySymbols (·.register start)
      simp only [List.append_nil] at both
      simp only [Block.check, Block.cautions]
      exact both.inScope mode

theorem Stmt.checkAll_warned (ss : List Stmt) :
    Warned (fun nested => Stmt.cautionsAll nested ss) (Stmt.checkAll ss) := by
  cases ss with
  | nil =>
      simp only [Stmt.checkAll, Stmt.cautionsAll]
      exact Warned.declaring.pure (Q := fun _ => True) ()
  | cons s ss =>
      simp only [Stmt.checkAll, Stmt.cautionsAll]
      exact s.check_warned.bind fun _ => Stmt.checkAll_warned ss

theorem Branches.check_warned (rest : Branches) : Warned rest.cautions rest.check := by
  cases rest <;> simp only [Branches.check, Branches.cautions]
  case done => exact Warned.declaring.pure (Q := fun _ => True) ()
  case otherwise pos body => exact body.check_warned .new
  case elseIf pos cond body rest =>
    exact (Warned.of_readsTable (.checkCondition pos .ifWord cond)).bind fun _ =>
      (body.check_warned .new).bind fun _ => rest.check_warned

end

/-- The check of a program without failures records what there is to warn of, in order. -/
theorem Program.diagnostics_of_silent {program : Program} {s : State}
    (silent : Silent (Stmt.checkAll program) s) (outside : s.uncertainDepth = 0)
    (fresh : s.engine.diagnostics = []) (different : (program.cautions.map Caution.pos).Nodup) :
    (program.checked s).engine.diagnostics =
      program.cautions.map (Caution.diagnostic s.engine.file) := by
  obtain ⟨es, _, s', tells, -, warned⟩ := Stmt.checkAll_warned program s
  obtain ⟨_, s₁, plays⟩ := silent
  have quiet := plays.eq_nil tells.plays
  have all : Event.heard s.engine.policy es = es := by
    cases s.engine.policy with
    | collect => rfl
    | stop => exact Event.throughFatal_of_none (Event.mild quiet)
  have same : (Event.warnings es).map (Event.diagnostic s.engine.file) =
      program.cautions.map (Caution.diagnostic s.engine.file) := by
    rw [warned quiet, outside, List.map_map]
    rfl
  rw [(Program.checked_of_tells tells).1, all, Event.diagnostics_recordAll quiet, fresh, same]
  · rfl
  · rw [fresh, same]
    refine List.Pairwise.of_map (S := (· ≠ ·)) Diagnostic.pos (fun _ _ apart => ?_) ?_
    · exact mt (congrArg Diagnostic.pos) apart
    · rw [List.nil_append, List.map_map]
      exact different

end Samo
