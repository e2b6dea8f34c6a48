import Samo.Proofs.Passing
import Samo.Proofs.Spots
import Samo.Proofs.SyntaxErrors

/-!
# Functions that pass

Each statement of a text is told of where it stands, and what is told of a definition is all its
own: its body lists no function (`Stmt.define_told`), and the definitions of a text do not overlap.
So the functions of a verdict come from definitions in the order of the text. That nothing failed on
them holds only if the check stops at the first fatal report (`listed_functions_pass`).
-/

namespace Samo

open Check

/-- The positions in a block lie between its braces. -/
theorem Block.covers_of_ordered {b : Block} (ordered : b.spots.Pairwise Pos.Before) :
    ∀ p ∈ b.spots, b.Covers p := by
  cases b with
  | mk start stop stmts =>
      rw [Block.spots] at *
      obtain ⟨first, others⟩ := List.pairwise_cons.mp ordered
      have last := (List.pairwise_append.mp others).2.2
      intro p member
      rcases List.mem_cons.mp member with rfl | member
      · refine ⟨fun early => early.asymm early, ?_⟩
        exact (first stop (List.mem_append_right _ (List.mem_singleton_self _))).asymm
      · refine ⟨(first p member).asymm, ?_⟩
        rcases List.mem_append.mp member with inside | closing
        · exact (last p inside stop (List.mem_singleton_self _)).asymm
        · rw [List.mem_singleton.mp closing]
          exact fun early => early.asymm early

theorem Block.stop_mem_spots (b : Block) : b.stop ∈ b.spots := by
  cases b with
  | mk start stop stmts =>
      rw [Block.spots]
      exact List.mem_cons_of_mem _ (List.mem_append_right _ (List.mem_singleton_self _))

theorem Block.start_mem_spots (b : Block) : b.start ∈ b.spots := by
  cases b with
  | mk start stop stmts =>
      rw [Block.spots]
      exact List.mem_cons_self ..

/-- The body of a function lists nothing, so the events of a definition are all its own. -/
theorem Stmt.define_told {pos : Pos} {header : Header} {body : Block}
    (ordered : (Stmt.define pos header body).spots.Pairwise Pos.Before)
    (inner : Told body.spots body.definitions (body.check .resumeLast)) :
    Told (Stmt.define pos header body).spots (Stmt.define pos header body).definitions
      (Stmt.define pos header body).check := by
  intro s
  have scripted := (Stmt.define pos header body).check_scripted
    (Stmt.within_of_spots _ fun p here => here) s
  obtain ⟨es, found, s₁, tells, none, kept, begun⟩ := Traced.beginFunction pos header s
  cases found with
  | none =>
      have whole : Tells (Stmt.define pos header body).check s (es ++ []) () s₁ := by
        rw [Stmt.check]
        exact tells.bind (.pure () s₁)
      refine ⟨es ++ [], [], s₁, whole, kept, .quiet ⟨?_, whole.accounted scripted⟩,
        List.nil_sublist _, fun _ => rfl⟩
      rw [List.append_nil, none]
  | some f =>
      obtain ⟨outside, silent, describes, line⟩ := begun f rfl
      obtain ⟨es', ds, s₂, tells', -, passing, -, inside⟩ :=
        inner { s₁ with currentFunction := some f, loopDepth := 0 }
      -- a function in a function is never listed
      have quiet := passing.quiet_of_nil (inside rfl)
      obtain ⟨es'', s₃, tells'', kept'', ended⟩ := endFunction_tells header
        (body.within_of_spots fun p here => here) f
        { s₂ with currentFunction := Option.none, loopDepth := s₁.loopDepth }
      have whole : Tells (Stmt.define pos header body).check s (es ++ (es' ++ es'')) () s₃ := by
        rw [Stmt.check]
        exact tells.bind (tells'.inFunction.bind tells'')
      rcases ended with none'' | ⟨last, rfl, quiet''⟩
      · refine ⟨_, [], s₃, whole, kept''.trans outside.symm, .quiet ⟨?_, whole.accounted scripted⟩,
          List.nil_sublist _, fun _ => rfl⟩
        rw [Event.functions_append, Event.functions_append, none, quiet.functions, none'']
        rfl
      -- it passes: everything told so far lies in its body, in the order of the spots
      · rw [Stmt.spots] at ordered
        obtain ⟨first, others⟩ := List.pairwise_cons.mp ordered
        have covers := Block.covers_of_ordered (List.pairwise_append.mp others).2.1
        have own : Quiet (· ∈ body.spots) (es ++ (es' ++ last)) :=
          Quiet.append ⟨none, by rw [silent]; exact .nil id⟩ (quiet.append quiet'')
        have inside : ∀ p ∈ body.spots, p ∈ pos :: (header.spots ++ body.spots) :=
          fun p here => List.mem_cons_of_mem _ (List.mem_append_right _ here)
        have listed : Passing (· ∈ pos :: (header.spots ++ body.spots))
            (es ++ (es' ++ last) ++ [.listed f]) [(⟨pos, header, body⟩, f)] :=
          .listed ⟨describes, line⟩ (List.mem_cons_self ..) (inside _ body.stop_mem_spots)
            (first _ (List.mem_append_right _ body.start_mem_spots))
            (own.mono fun p here => ⟨inside p here, covers p here⟩)
        rw [List.append_assoc, List.append_assoc] at listed
        rw [Stmt.spots, Stmt.definitions]
        refine ⟨_, _, s₃, whole, kept''.trans outside.symm, listed, ?_, fun within => ?_⟩
        · exact (List.nil_sublist _).cons_cons _
        · rw [outside] at within
          cases within

/-- A statement without another one in it lists nothing. -/
theorem Stmt.told_of_simple {stmt : Stmt} (simple : stmt.isSimple = true) :
    Told stmt.spots stmt.definitions stmt.check := by
  have within := stmt.within_of_spots (Q := (· ∈ stmt.spots)) fun _ here => here
  refine .of_traced (Traced.declaring.stating.simple simple (fun _ _ _ _ => ?_) within)
  exact (Traced.warn _ _).accounted

/-- The condition of a statement, with its first word. -/
theorem Check.Told.checkCondition (pos : Pos) (keyword : Keyword) (cond : Expr) :
    Told (pos :: cond.spots) [] (checkCondition pos keyword cond) := by
  refine .of_traced (.of_question ?_)
  exact .checkCondition (List.mem_cons_self ..) keyword
    (cond.within_of_spots fun _ here => List.mem_cons_of_mem _ here)

/-- What is run by chance, with the word for it and the number. -/
theorem Stmt.maybe_told {pos : Pos} {e : Expr} {body : Stmt}
    (ordered : (Stmt.maybe pos e body).spots.Pairwise Pos.Before)
    (inner : Told body.spots body.definitions body.check) :
    Told (Stmt.maybe pos e body).spots (Stmt.maybe pos e body).definitions
      (Stmt.maybe pos e body).check := by
  rw [Stmt.spots] at *
  rw [Stmt.definitions, Stmt.check, ← bind_assoc]
  have own : Told (pos :: e.spots) [] (do
      checkProbability pos body.isCompound e
      checkProbable pos body) := by
    have here : pos ∈ pos :: e.spots := List.mem_cons_self ..
    have value : e.Within (· ∈ pos :: e.spots) :=
      e.within_of_spots fun _ here => List.mem_cons_of_mem _ here
    exact .of_traced (Traced.declaring.bind (.of_question (.checkProbability here _ value))
      fun _ => .of_question (.checkProbable here body))
  rw [← List.cons_append] at *
  exact own.bind inner.inUncertainty (List.pairwise_append.mp ordered).2.2

/--
Two alternatives. What is wrong with the second one is reported at the word between them, before the
first one is checked.
-/
theorem Stmt.maybeOtherwise_told {pos : Pos} {e : Expr} {body : Stmt} {otherwisePos : Pos}
    {alternative : Stmt}
    (ordered : (Stmt.maybeOtherwise pos e body otherwisePos alternative).spots.Pairwise Pos.Before)
    (inner : Told body.spots body.definitions body.check)
    (other : Told alternative.spots alternative.definitions alternative.check) :
    Told (Stmt.maybeOtherwise pos e body otherwisePos alternative).spots
      (Stmt.maybeOtherwise pos e body otherwisePos alternative).definitions
      (Stmt.maybeOtherwise pos e body otherwisePos alternative).check := by
  rw [Stmt.spots] at *
  rw [Stmt.definitions, Stmt.check, ← bind_assoc]
  have own : Told (pos :: (e.spots ++ [otherwisePos])) [] (do
      checkProbability pos body.isCompound e
      checkAlternatives pos body otherwisePos alternative) := by
    have here : pos ∈ pos :: (e.spots ++ [otherwisePos]) := List.mem_cons_self ..
    have there : otherwisePos ∈ pos :: (e.spots ++ [otherwisePos]) :=
      List.mem_cons_of_mem _ (List.mem_append_right _ (List.mem_singleton_self _))
    have value : e.Within (· ∈ pos :: (e.spots ++ [otherwisePos])) :=
      e.within_of_spots fun _ here => List.mem_cons_of_mem _ (List.mem_append_left _ here)
    exact .of_traced (Traced.declaring.bind (.of_question (.checkProbability here _ value))
      fun _ => Traced.declaring.checkAlternatives (Traced.warn _ _).accounted here there _ _)
  intro s
  obtain ⟨es, ds, s₁, tells, kept, passing, nothing, -⟩ := own s
  obtain ⟨es₁, ds₁, s₂, tells₁, kept₁, passing₁, sub₁, inside₁⟩ := inner s₁.uncertain
  obtain ⟨es₂, ds₂, s₃, tells₂, kept₂, passing₂, sub₂, inside₂⟩ := other s₂
  have run := (tells₁.bind tells₂ (f := fun _ => alternative.check)).inUncertainty
  obtain rfl := List.map_eq_nil_iff.mp (List.sublist_nil.mp nothing)
  simp only [List.pairwise_cons, List.pairwise_append, List.mem_append, List.mem_cons] at ordered
  -- the word between the alternatives is outside of both
  have first : Passing (· ∈ pos :: (e.spots ++ [otherwisePos]) ++ body.spots) (es ++ es₁)
      ([] ++ ds₁) := by
    refine .append passing passing₁ (fun _ => List.mem_append_left _)
      (fun _ => List.mem_append_right _) (List.forall_mem_nil _) ?_ (List.forall_mem_nil _)
    intro x member p here covers
    obtain ⟨start, stop⟩ := passing₁.ends x member
    simp only [List.mem_cons, List.mem_append, List.not_mem_nil, or_false] at here
    rcases here with rfl | inside | rfl
    · exact covers.1 (ordered.1 _ (.inr (.inl start)))
    · exact covers.1 (ordered.2.2.2 p inside _ (.inl start))
    · exact covers.2 (ordered.2.2.1.2.2 _ stop p (.inl rfl))
  have whole := first.append_ordered passing₂ (by
    intro p here q there
    simp only [List.mem_cons, List.mem_append, List.not_mem_nil, or_false] at here
    rcases here with (rfl | inside | rfl) | inside
    · exact ordered.1 q (.inr (.inr (.inr there)))
    · exact ordered.2.2.2 p inside q (.inr (.inr there))
    · exact ordered.2.2.1.2.1.1 q there
    · exact ordered.2.2.1.2.2 p inside q (.inr there))
  rw [List.append_assoc es, List.nil_append] at whole
  refine ⟨_, ds₁ ++ ds₂, _, tells.bind run, ?_, whole.mono ?_, ?_, fun within => ?_⟩
  · exact kept₂.trans (kept₁.trans kept)
  · intro p here
    simp only [List.mem_cons, List.mem_append] at here ⊢
    grind
  · rw [List.map_append]
    exact sub₁.append sub₂
  · have within₁ : s₁.uncertain.currentFunction.isSome = true := by
      rw [← within, ← kept]
      rfl
    rw [inside₁ within₁, inside₂ (by rw [kept₁]; exact within₁)]
    rfl

mutual

theorem Stmt.check_told (stmt : Stmt) (ordered : stmt.spots.Pairwise Pos.Before) :
    Told stmt.spots stmt.definitions stmt.check := by
  cases stmt with
  | block body =>
      rw [Stmt.spots] at *
      rw [Stmt.definitions, Stmt.check]
      exact body.check_told ordered .new
  | define pos header body =>
      have inner := ordered
      rw [Stmt.spots] at inner
      exact Stmt.define_told ordered (body.check_told
        (List.pairwise_append.mp (List.pairwise_cons.mp inner).2).2.1 .resumeLast)
  | branch pos cond body rest =>
      rw [Stmt.spots] at *
      rw [Stmt.definitions, Stmt.check]
      rw [← List.cons_append] at *
      obtain ⟨-, later, first⟩ := List.pairwise_append.mp ordered
      obtain ⟨inner, others, order⟩ := List.pairwise_append.mp later
      exact (Told.checkCondition pos .ifWord cond).bind
        ((body.check_told inner .new).bind (rest.check_told others) order) first
  | loop pos cond body =>
      rw [Stmt.spots] at *
      rw [Stmt.definitions, Stmt.check]
      rw [← List.cons_append] at *
      obtain ⟨-, inner, first⟩ := List.pairwise_append.mp ordered
      exact (Told.checkCondition pos .whileWord cond).bind (body.check_told inner .new).inLoop first
  | maybe pos e body =>
      have inner := ordered
      rw [Stmt.spots] at inner
      exact Stmt.maybe_told ordered (body.check_told
        (List.pairwise_append.mp (List.pairwise_cons.mp inner).2).2.1)
  | maybeOtherwise pos e body otherwisePos alternative =>
      have inner := ordered
      rw [Stmt.spots] at inner
      obtain ⟨-, later, -⟩ := List.pairwise_append.mp (List.pairwise_cons.mp inner).2
      obtain ⟨first, second, -⟩ := List.pairwise_append.mp later
      exact Stmt.maybeOtherwise_told ordered (body.check_told first)
        (alternative.check_told (List.pairwise_cons.mp second).2)
  | declare | infer | assign | call | breakOut | continueOn | returnWith | needs | bad =>
      exact Stmt.told_of_simple rfl

theorem Block.check_told (body : Block) (ordered : body.spots.Pairwise Pos.Before)
    (mode : EntryMode) : Told body.spots body.definitions (body.check mode) := by
  cases body with
  | mk start stop stmts =>
      rw [Block.spots] at *
      rw [Block.definitions, Block.check]
      refine .inScope mode (.silently (.mono ?_ (List.subset_cons_self _ _)) (.modifySymbols _))
      exact Stmt.checkAll_told stmts (List.pairwise_cons.mp ordered).2

theorem Stmt.checkAll_told {stop : Pos} (stmts : List Stmt)
    (ordered : (Stmt.spotsAll stop stmts ++ [stop]).Pairwise Pos.Before) :
    Told (Stmt.spotsAll stop stmts ++ [stop]) (Stmt.definitionsAll stmts)
      (Stmt.checkAll stmts) := by
  cases stmts with
  | nil =>
      rw [Stmt.checkAll]
      exact .of_traced (.pure (.nil id))
  | cons stmt stmts =>
      rw [Stmt.spotsAll, List.append_assoc] at *
      rw [Stmt.definitionsAll, Stmt.checkAll]
      by_cases missing : (stmts.isEmpty && stmt.isBadAt stop) = true
      · obtain ⟨only, bad⟩ := Bool.and_eq_true_iff.mp missing
        obtain rfl := List.isEmpty_iff.mp only
        have own := Stmt.spots_of_isBadAt bad
        have told := stmt.check_told (by rw [own]; exact List.pairwise_singleton _ _)
        rw [own] at told
        rw [if_pos missing, Stmt.spotsAll, Stmt.definitionsAll, List.append_nil, Stmt.checkAll]
        exact told.silently (.pure rfl)
      · rw [if_neg missing] at *
        obtain ⟨first, others, order⟩ := List.pairwise_append.mp ordered
        exact (stmt.check_told first).bind (Stmt.checkAll_told stmts others) order

theorem Branches.check_told (rest : Branches) (ordered : rest.spots.Pairwise Pos.Before) :
    Told rest.spots rest.definitions rest.check := by
  cases rest with
  | done =>
      rw [Branches.check]
      exact .of_traced (.pure (.nil id))
  | otherwise pos body =>
      rw [Branches.spots] at *
      rw [Branches.definitions, Branches.check]
      refine Told.mono (body.check_told (List.pairwise_cons.mp ordered).2 .new) ?_
      exact List.subset_cons_self _ _
  | elseIf pos cond body rest =>
      rw [Branches.spots] at *
      rw [Branches.definitions, Branches.check]
      rw [← List.cons_append] at *
      obtain ⟨-, later, first⟩ := List.pairwise_append.mp ordered
      obtain ⟨inner, others, order⟩ := List.pairwise_append.mp later
      exact (Told.checkCondition pos .ifWord cond).bind
        ((body.check_told inner .new).bind (rest.check_told others) order) first

end

/-- The failures of an engine are the reports that it was told of. -/
theorem Check.Event.failures_iff {e : Engine} (none : e.diagnostics = []) (es : List Event)
    {P : Diagnostic → Prop} {R : Report → Prop} (fails : ∀ d, P d → d.Fails)
    (same : ∀ r : Report, P (r.diagnostic e.file) ↔ R r) :
    (∃ d ∈ (recordAll e es).diagnostics, P d) ↔ ∃ r ∈ reports es, R r := by
  have gains := gains e es
  constructor
  · rintro ⟨d, member, good⟩
    rcases (gains.failures d (fails d good)).mp member with before | ⟨r, told, rfl⟩
    · rw [none] at before
      cases before
    · exact ⟨r, told, (same r).mp good⟩
  · rintro ⟨r, told, good⟩
    have recorded := (gains.failures _ (r.fails_diagnostic e.file)).mpr (.inr ⟨r, told, rfl⟩)
    exact ⟨_, recorded, (same r).mpr good⟩

/--
The functions of a verdict come from definitions of the text, in the order in which these stand
there, each from another one. Something may have failed on such a definition, but only if failures
are collected, and exactly if a fatal diagnostic lies in its body.
-/
theorem listed_functions_pass {o : Options} {file : String} {source : Bytes} {log : Log}
    {v : Verdict} (checked : ((o.checkBytes file source).run log).1 = .ok v) :
    ∃ ds : List Definition, ds.Sublist (parse (Text.decode source)).1.definitions ∧
      ds.Pairwise (fun d d' => d.body.stop.Before d'.pos) ∧
      List.Forall₂ Definition.Describes ds v.functions ∧
      ∀ d ∈ ds, ((∃ x ∈ v.engine.diagnostics, x.Fails ∧ d.Covers x.pos) ↔
        o.policy = .collect ∧
          ∃ x ∈ v.engine.diagnostics, x.severity = .fatal ∧ d.body.Covers x.pos) := by
  obtain ⟨builtins, log', _, rfl, rfl⟩ := Options.checkBytes_ok checked
  obtain ⟨stop, -, ordered⟩ := parse_orderedSpots (Text.decode source)
  obtain ⟨es, ds, s', tells, -, passing, sub, -⟩ :=
    Stmt.checkAll_told _ ordered (o.initialState file builtins log')
  obtain ⟨engine, functions⟩ := Program.checked_of_tells tells
  obtain ⟨heard, listed, names, reported⟩ := passing.heard o.policy
  refine ⟨heard.map Prod.fst, (listed.map _).trans sub, ?_, ?_, ?_⟩
  · rw [List.pairwise_map]
    exact passing.ordered.sublist listed
  · show List.Forall₂ _ _ (Program.checked ..).functions
    rw [functions]
    show List.Forall₂ _ _ ([] ++ Event.functions (Event.heard o.policy es))
    rw [List.nil_append, names, List.forall₂_map_left_iff, List.forall₂_map_right_iff,
      List.forall₂_same]
    exact fun x member => passing.describes x (listed.subset member)
  · intro d member
    obtain ⟨x, inside, rfl⟩ := List.mem_map.mp member
    show (∃ d ∈ (Program.checked ..).engine.diagnostics, _) ↔ _ ∧
      ∃ d ∈ (Program.checked ..).engine.diagnostics, _
    rw [engine, Event.failures_iff (R := fun r => x.1.Covers r.pos) rfl _ fun d fails => fails.1,
      Event.failures_iff (R := fun r => r.isFatal = true ∧ x.1.body.Covers r.pos) rfl _
        fun d fatal => .inl fatal.1]
    · exact reported x inside
    · intro r
      rw [Report.pos_diagnostic, ← Report.isFatal_iff]
    · intro r
      rw [Report.pos_diagnostic]
      exact and_iff_right (r.fails_diagnostic _)

/-- `x` is not declared, and the path through the second function is fine. -/
def careless : Bytes :=
  "fn f() { x = 1; } fn g(int n) int { return n; }".toUTF8.toList

/-- Both functions are listed. -/
theorem careless_attributed :
    ∃ v, ((Options.checkBytes { policy := .collect } "main" careless).run (Options.newLog {})).1 =
        .ok v ∧ v.functions.map (·.name) = ["f", "g"] ∧
      ∃ ds : List Definition, ds.Sublist (parse (Text.decode careless)).1.definitions ∧
        ds.Pairwise (fun d d' => d.body.stop.Before d'.pos) ∧
        List.Forall₂ Definition.Describes ds v.functions ∧
        ∀ d ∈ ds, ((∃ x ∈ v.engine.diagnostics, x.Fails ∧ d.Covers x.pos) ↔
          Policy.collect = .collect ∧
            ∃ x ∈ v.engine.diagnostics, x.severity = .fatal ∧ d.body.Covers x.pos) := by
  have outcome : ∀ r, ((Options.checkBytes { policy := .collect } "main" careless).run
      (Options.newLog {})).1 = r →
      (r.toOption.map fun v => v.functions.map (·.name)) = some ["f", "g"] := by
    rintro r rfl
    decide +kernel
  cases checked : ((Options.checkBytes { policy := .collect } "main" careless).run
      (Options.newLog {})).1 with
  | error refusal => cases outcome _ checked
  | ok v =>
      have names := outcome _ checked
      simp only [Except.toOption, Option.map_some, Option.some.injEq] at names
      exact ⟨v, rfl, names, listed_functions_pass checked⟩

/-- The first function is listed although something failed in its body. -/
theorem careless_listed :
    ∃ v, ((Options.checkBytes { policy := .collect } "main" careless).run (Options.newLog {})).1 =
        .ok v ∧ ∃ d ∈ (parse (Text.decode careless)).1.definitions, ∃ f ∈ v.functions,
      d.Describes f ∧ ∃ x ∈ v.engine.diagnostics, x.Fails ∧ d.Covers x.pos := by
  have outcome : ∀ r, ((Options.checkBytes { policy := .collect } "main" careless).run
      (Options.newLog {})).1 = r →
      ∃ v ∈ r.toOption, ∃ d ∈ (parse (Text.decode careless)).1.definitions, ∃ f ∈ v.functions,
        d.Describes f ∧ ∃ x ∈ v.engine.diagnostics, x.Fails ∧ d.Covers x.pos := by
    rintro r rfl
    decide +kernel
  cases checked : ((Options.checkBytes { policy := .collect } "main" careless).run
      (Options.newLog {})).1 with
  | error refusal =>
      obtain ⟨v, none, -⟩ := outcome _ checked
      cases none
  | ok v =>
      obtain ⟨v', same, listed⟩ := outcome _ checked
      cases same
      exact ⟨v, rfl, listed⟩

end Samo
