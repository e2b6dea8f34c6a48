import Samo.Proofs.DeclaredBefore
import Samo.Proofs.JumpPlacement
import Samo.Proofs.PathQueries

/-!
# Returns mean the same on every visit

A returned value is looked at where it stands, when the returns of its function are compared with
its result, and when the ways through the function are read. The later visits find more names
declared in the blocks around. But they are in the same scope, and the names that were looked up on
the first visit stood for something then, so they stand for the same (`Block.recalls`). Detection
reads nothing else.
-/

namespace Samo

open Check Surrounding

/-! ## Names that detection looks up -/

/-- Where more names stand for something, the known ones stand for what they did. -/
theorem Bindings.AgreesOn.of_extends {Γ Γ' : Bindings} {ms : List Mention} (more : Γ.Extends Γ')
    (known : ∀ m ∈ ms, m.Known (fun name => (Γ.lookup name).isSome = true) Γ.builtins) :
    Γ.AgreesOn ms Γ' := by
  have found : ∀ name, (Γ.lookup name).isSome = true → Γ'.lookup name = Γ.lookup name := by
    intro name some
    obtain ⟨symbol, here⟩ := Option.isSome_iff_exists.mp some
    rw [here]
    exact more.found name symbol here
  refine ⟨fun m member => ?_, more.builtins⟩
  have here := known m member
  cases m with
  | value name => exact found name here
  | callee name =>
      show Γ'.lookup name = Γ.lookup name
      rcases here with here | builtin
      · exact found name here
      -- the name of a built-in function is never declared
      · cases missing : Γ.lookup name with
        | none => exact more.reserved name missing builtin
        | some symbol => exact more.found name symbol missing

/-- What a quiet run gives is given wherever the names stand for the same. -/
theorem Check.ReadsNames.of_quiet {α : Type} {ms : List Mention} {m : Check α}
    (reads : ReadsNames ms m) {s s' r : State} {a : α} (run : m s = .ok a s') (quiet : s'.Quiet)
    (agrees : s.symbols.bindings.AgreesOn ms r.symbols.bindings) : m r = .ok a r := by
  obtain ⟨rs, b, made⟩ := reads s.symbols.bindings
  obtain ⟨rfl, rfl⟩ := answer_of_quiet (made s ⟨fun _ _ => rfl, rfl⟩) run quiet
  exact made r agrees

/-- Detection depends on the built-in functions and on what the names looked up for the leaves stand
for. -/
theorem Expr.detect_readsNames (e : Expr) : ReadsNames e.lookups e.detect := by
  have inquiry : Inquiry (fun _ => True) e.lookups False (fun _ => False) e.detect :=
    e.within_anywhere.inquired.leaves.bind fun _ => .pure id
  exact inquiry.readsNames

/-! ## The function around a statement -/

theorem Surrounding.functions_append (inner outer : List Surrounding) :
    functions (inner ++ outer) = functions inner + functions outer := List.countP_append

theorem Part.surrounds_cases (part : Part) :
    (∃ pos header body, part = .stmt (.define pos header body)) ∨ functions part.surrounds = 0 := by
  cases part with
  | stmt st =>
      cases st with
      | define pos header body => exact .inl ⟨pos, header, body, rfl⟩
      | _ => exact .inr rfl
  | block | stmts | branches => exact .inr rfl

/-- A check comes to a statement in a function through the definition of the innermost one. -/
theorem Occasion.Of.in_function {program : Program} {s : State} {x : Occasion}
    (reached : Occasion.Of program s x) (inside : 0 < functions x.around) :
    ∃ inner outer pos header body q, x.around = inner ++ .function header :: outer ∧
      functions inner = 0 ∧
      Occasion.Of program s ⟨outer, ⟨.stmt (.define pos header body), q⟩⟩ ∧
      Relation.ReflTransGen Occasion.Next ⟨outer, ⟨.stmt (.define pos header body), q⟩⟩ x := by
  induction reached with
  | refl => cases inside
  | @tail x y before next ih =>
      obtain ⟨around, part, q⟩ := x
      obtain ⟨around', m'⟩ := y
      obtain ⟨moves, rfl⟩ := next
      dsimp only at moves inside ih ⊢
      rcases part.surrounds_cases with ⟨pos, header, body, rfl⟩ | none
      · exact ⟨[], around, pos, header, body, q, rfl, rfl, before, .single ⟨moves, rfl⟩⟩
      · rw [functions_append, none, Nat.zero_add] at inside
        obtain ⟨inner, outer, pos, header, body, q, rfl, outside, defined, steps⟩ := ih inside
        refine ⟨part.surrounds ++ inner, outer, pos, header, body, q, ?_, ?_, defined,
          steps.tail ⟨moves, rfl⟩⟩
        · exact (List.append_assoc _ _ _).symm
        · rw [functions_append, none, outside]

/-- What is around at the start stays around. -/
theorem Occasion.steps_inside {outer : List Surrounding} {m : Moment} {y : Occasion}
    (steps : Relation.ReflTransGen Next ⟨outer, m⟩ y) :
    ∃ inner, y.around = inner ++ outer ∧
      Relation.ReflTransGen Next ⟨[], m⟩ ⟨inner, y.moment⟩ := by
  induction steps with
  | refl => exact ⟨[], rfl, .refl⟩
  | @tail x y _ next ih =>
      obtain ⟨inner, around, inside⟩ := ih
      refine ⟨x.moment.part.surrounds ++ inner, ?_, inside.tail ⟨next.moment, rfl⟩⟩
      rw [next.around, around, List.append_assoc]

/-- More may be around. -/
theorem Occasion.steps_outside (outer : List Surrounding) {x y : Occasion}
    (steps : Relation.ReflTransGen Next x y) :
    Relation.ReflTransGen Next ⟨x.around ++ outer, x.moment⟩ ⟨y.around ++ outer, y.moment⟩ := by
  induction steps with
  | refl => exact .refl
  | tail _ next ih =>
      refine ih.tail ⟨next.moment, ?_⟩
      dsimp only
      rw [next.around, List.append_assoc]

/-- The way into a definition leads through its body. -/
theorem Occasion.steps_of_define {inner outer : List Surrounding} {pos : Pos} {header : Header}
    {body : Block} {q q₁ a : State} {f : Function} {stmt : Stmt}
    (begun : beginFunction pos header q = .ok (some f) q₁)
    (steps : Relation.ReflTransGen Next ⟨outer, ⟨.stmt (.define pos header body), q⟩⟩
      ⟨inner ++ .function header :: outer, ⟨.stmt stmt, a⟩⟩) :
    Relation.ReflTransGen Next
      ⟨[], ⟨.block .resumeLast body, { q₁ with currentFunction := some f, loopDepth := 0 }⟩⟩
      ⟨inner, ⟨.stmt stmt, a⟩⟩ := by
  rcases steps.cases_head with same | ⟨⟨around, m⟩, ⟨moves, rfl⟩, steps⟩
  · have longer := congrArg (fun x => x.around.length) same
    simp at longer
    omega
  · cases moves with
    | function begun' =>
        rw [begun] at begun'
        cases begun'
        obtain ⟨inner', around, inside⟩ := Occasion.steps_inside steps
        obtain rfl : inner = inner' := List.append_cancel_right around
        exact inside

/-! ## Quiet ends -/

/-- A function that ends quietly passes, and neither look at its returns has anything to report. -/
theorem Check.endFunction_quiet {h : Header} {body : Block} {f : Function} {s s' : State}
    (wf : s.symbols.WellFormed) (run : endFunction h body f s = .ok () s') (quiet : s'.Quiet) :
    checkReturns h.namePos h.result.ty body s = .ok true s ∧
      body.returnsOnAllPaths h.result.ty s = .ok true s := by
  have reads : ReadsTable (checkReturns h.namePos h.result.ty body) := .checkReturns _ _ body
  have reads' := body.returnsOnAllPaths_readsTable h.result.ty
  -- what the two looks say is known from the run under the policy `stop`
  obtain ⟨r, stopped⟩ := (Disciplined.endFunction h body f).stopping_ok run quiet
  obtain ⟨⟨_, right⟩, ⟨_, _, alike, complete⟩, -⟩ :=
    endFunction_ok (policy_stopping s) (by exact wf) stopped
  unfold endFunction at run
  obtain ⟨valid, s₁, checked, run⟩ := bind_eq_ok_iff.mp run
  have table : s₁.symbols = s.symbols := (reads.alike checked).table.symm
  obtain rfl : valid = true := reads.eq_of_ok checked right rfl
  obtain ⟨all, s₂, traced, run⟩ := bind_eq_ok_iff.mp run
  obtain rfl : all = true := reads'.eq_of_ok traced complete (alike.table.symm.trans table.symm)
  cases run
  have quiet₂ : s₂.Quiet := quiet
  have quiet₁ : s₁.Quiet := quiet₂.earlier ((Disciplined.of_readsTable reads').extends_of_ok traced)
  exact ⟨reads.of_quiet checked quiet₁ rfl, reads'.of_quiet traced quiet₂ table.symm⟩

/--
The check of a definition, started in the state `q`, has come to the end of the body in the state
`r`. From there its returns are found to be right, and its ways to return, with nothing to report.
-/
structure Header.Passes (h : Header) (pos : Pos) (body : Block) (q r : State) : Prop where
  checked : ∃ f s, beginFunction pos h q = .ok (some f) s ∧
    inFunction f (body.check .resumeLast) s = .ok () r
  returns : checkReturns h.namePos h.result.ty body r = .ok true r
  ways : body.returnsOnAllPaths h.result.ty r = .ok true r

/-- A return that is checked quietly has a value that detection answers for, and the names looked up
for that stand for something. -/
theorem Stmt.returnWith_quiet {pos : Pos} {e : Expr} {a r : State}
    (run : (Stmt.returnWith pos (some e)).check a = .ok () r) (quiet : r.Quiet) :
    ∃ d, e.detect a = .ok d a ∧ ∀ m ∈ e.lookups,
      m.Known (fun name => (a.symbols.lookup name).isSome = true) a.symbols.builtins := by
  obtain ⟨r', stopped⟩ := (Stmt.check_disciplined _).stopping_ok run quiet
  obtain ⟨inside, found⟩ := Stmt.returnWith_ok (policy_stopping a) stopped
  obtain ⟨d', r₁, detected⟩ := found e rfl
  obtain ⟨leaves, r₂, looked, -⟩ := bind_eq_ok_iff.mp detected
  have known := e.lookups_known (policy_stopping a) looked
  have outside : ¬ a.currentFunction.isNone = true := by
    rw [Option.isNone_iff_eq_none, ← Option.not_isSome_iff_eq_none]
    exact not_not.mpr inside
  rw [Stmt.check, bind_ok (get_run a), if_neg outside] at run
  obtain ⟨d, r₃, detected, given⟩ := bind_eq_ok_iff.mp run
  cases given
  exact ⟨d, e.detect_readsTable.of_quiet detected quiet rfl, known⟩

/-! ## Later visits -/

/--
A value means in the state `w` what it meant in the state `a`. Detection gives the same answer, with
nothing to report, and every name it looks up stood for something and stands for the same.
-/
structure Expr.Recalled (e : Expr) (d : Detection) (a w : State) : Prop where
  first : e.detect a = .ok d a
  again : e.detect w = .ok d w
  known : ∀ m ∈ e.lookups,
    m.Known (fun name => (a.symbols.lookup name).isSome = true) a.symbols.builtins
  same : ∀ m ∈ e.lookups, w.symbols.lookup m.name = a.symbols.lookup m.name

section

variable {mode : EntryMode} {body : Block} {s s' r a : State} {inner : List Surrounding} {pos : Pos}
  {e : Expr}

/-- What a check comes to in a body, outside of functions, is at a site. -/
theorem Block.site_of_steps {stmt : Stmt} (plain : ∀ body, stmt ≠ .block body)
    (steps : Relation.ReflTransGen Occasion.Next ⟨[], ⟨.block mode body, s⟩⟩
      ⟨inner, ⟨.stmt stmt, a⟩⟩) (outside : functions inner = 0) :
    (starts inner, stmt) ∈ body.sites := by
  have listed : (inner, stmt) ∈ body.surrounded [] :=
    Occasion.surrounded_subset steps (Part.mem_surrounded rfl)
  have site : (starts inner, stmt) ∈ (body.surrounded []).filterMap site? :=
    List.mem_filterMap.mpr ⟨_, listed, site?_of_outside outside stmt⟩
  rw [body.surrounded_sites] at site
  rcases List.mem_cons.mp site with same | member
  · exact absurd (Prod.mk.inj same).2 (plain body)
  · exact member

variable (sound : Moment.Sound ⟨.block mode body, s⟩) (fresh : Moment.Fresh ⟨.block mode body, s⟩)
  (run : body.check mode s = .ok () s') (quiet : s'.Quiet) (later : s'.symbols.Grows r.symbols)
  (wf : r.symbols.WellFormed)

include sound fresh run quiet later wf

/-- A value that is returned in a body means the same when the body has been checked. -/
theorem Block.recalls (steps : Relation.ReflTransGen Occasion.Next ⟨[], ⟨.block mode body, s⟩⟩
      ⟨inner, ⟨.stmt (.returnWith pos (some e)), a⟩⟩)
    (inBlock : starts inner ≠ []) : ∃ d, e.Recalled d a (r.enteringAll (starts inner)) := by
  obtain ⟨here, r', done, grows, earlier⟩ :=
    Moment.finishes_of_steps (Occasion.moments_of_steps steps) sound run
  have quiet' : r'.Quiet := quiet.earlier earlier
  obtain ⟨d, first, known⟩ := Stmt.returnWith_quiet done quiet'
  have calm : a.Quiet := quiet'.earlier ((Stmt.check_disciplined _).extends_of_ok done)
  -- the later visit is in the scope of the first one
  have settled : Occasion.Settled True r.symbols ⟨inner, _⟩ :=
    body.settled sound (fun _ => fresh) run later steps
  obtain ⟨-, current⟩ := settled.entered wf (List.getLast?_eq_some_getLast inBlock)
  obtain ⟨c, resume, moved⟩ := r.enteringAll_eq (starts inner)
  have scope : c = a.symbols.current := by
    rw [moved] at current
    exact current trivial
  have bindings : (r.enteringAll (starts inner)).symbols.bindings =
      r.symbols.bindingsAt a.symbols.current := by
    rw [moved, scope]
    exact r.symbols.bindings_moved a.symbols.current resume
  -- and the table has only grown since
  obtain ⟨_, _, declares⟩ := (Stmt.check_modest _).declares here.wellFormed done
  have more := ((declares.grows.trans grows).trans later).bindings wf a.symbols.current
  rw [← bindings] at more
  have agrees := Bindings.AgreesOn.of_extends more known
  exact ⟨d, first, e.detect_readsNames.of_quiet first calm agrees, known, agrees.lookup⟩

variable {namePos : Pos} {ret : Ty} (right : checkReturns namePos ret body r = .ok true r)

include right

/-- It is a value of the function's type. -/
theorem Block.recalls_result (steps : Relation.ReflTransGen Occasion.Next
      ⟨[], ⟨.block mode body, s⟩⟩ ⟨inner, ⟨.stmt (.returnWith pos (some e)), a⟩⟩)
    (member : (starts inner, .returnWith pos (some e)) ∈ body.sites) :
    e.Recalled ⟨true, ret⟩ a (r.enteringAll (starts inner)) := by
  obtain ⟨d, recalled⟩ := body.recalls sound fresh run quiet later wf steps
    (Block.sites_in_block member)
  obtain ⟨r', checked⟩ := checkReturn_of_wellAt (checkReturns_ok right _ member)
  rcases checkReturn_ok checked with
    ⟨none, -⟩ | ⟨e', type, d', s₁, s₂, given, -, detected, sure, same, -⟩
  · cases none
  · cases given
    rw [recalled.again] at detected
    cases detected
    obtain ⟨homogeneous, type⟩ := d
    cases sure
    cases same
    exact recalled

/-- Matching the returns of the body has nothing to report and finds them right. -/
theorem Block.returns_match :
    ∀ x ∈ body.sites, SilentAt (matchIfReturn ret) Stmt.verdict r x := by
  rintro ⟨starts, stmt⟩ member
  cases stmt with
  | returnWith pos value =>
      show (returnMatches ret value >>= fun v => pure [v]) (r.enteringAll starts) = _
      cases value with
      | none =>
          obtain ⟨r', checked⟩ := checkReturn_of_wellAt (checkReturns_ok right _ member)
          rcases checkReturn_ok checked with ⟨-, rfl⟩ | ⟨e, type, d, s₁, s₂, given, -⟩
          · rfl
          · cases given
      | some e =>
          obtain ⟨around, ⟨part, a⟩, steps, shown, rfl, -⟩ := body.site_reached sound run member
          obtain rfl := Part.eq_stmt_of_stmt? shown fun body same => by cases same
          have recalled := body.recalls_result sound fresh run quiet later wf right steps member
          have matched : returnMatches ret (some e) (r.enteringAll (Surrounding.starts around)) =
              .ok true (r.enteringAll (Surrounding.starts around)) := by
            unfold returnMatches
            dsimp only
            rw [bind_ok recalled.again]
            simp [pure_run]
          rw [bind_ok matched]
          rfl
  | _ => rfl

end

/-! ## Accepted programs -/

section

variable {program : Program} {o : Options} {file : String} {builtins : Registry} {log : Log}

/-- In an accepted program every definition begins a function, and its body is checked quietly. -/
theorem Program.Accepted.function_ends
    (accepted : program.Accepted (o.initialState file builtins log)) {pos : Pos} {header : Header}
    {body : Block} {q : State}
    (reached : Moment.Of program (o.initialState file builtins log)
      ⟨.stmt (.define pos header body), q⟩) :
    ∃ f q₁ s', beginFunction pos header q = .ok (some f) q₁ ∧
      body.check .resumeLast { q₁ with currentFunction := some f, loopDepth := 0 } = .ok () s' ∧
      s'.Quiet ∧ s'.symbols.WellFormed ∧
      header.Passes pos body q { s' with currentFunction := none, loopDepth := q₁.loopDepth } := by
  have sound := reached.sound
  obtain ⟨r, done, quiet⟩ := accepted.finishes reached
  dsimp only [Part.check] at done
  rw [Stmt.check] at done
  obtain ⟨found, q₁, begun, done⟩ := bind_eq_ok_iff.mp done
  cases found with
  | none =>
      cases done
      cases Moment.begins_of_quiet begun quiet
  | some f =>
      obtain ⟨u, _, inside, ended⟩ := bind_eq_ok_iff.mp done
      obtain ⟨s', checked, rfl⟩ := inFunction_ok inside
      have entered := Moment.Next.sound (.function begun) sound
      have wf : s'.symbols.WellFormed := entered.wellFormed_of_ok checked
      obtain ⟨returns, ways⟩ := endFunction_quiet (by exact wf) ended quiet
      have before := quiet.earlier ((Disciplined.endFunction header body f).extends_of_ok ended)
      exact ⟨f, q₁, s', begun, checked, before, wf, ⟨f, q₁, begun, inside⟩, returns, ways⟩

end

/--
Returns mean the same on every visit, whatever the built-in functions and the policy are. The braces
of a program that was read from a text can be told apart. Detection depends on nothing in the table
but the built-in functions and the names in `Expr.lookups`. The returns of a function are compared
with its result at one site after the other. What the check comes to is checked from there on.

In an accepted program the check comes to every return with a value, on its way through a
definition. Every definition passes. From the end of its body on, whatever was reported or logged
since, a value returned in it means in the scope of its site what it meant on the first visit:
detection says that it is of the function's type, and each name it looks up stands for what it stood
for then. A return that is asked about for the ways through the body is at one of its sites. It
matches, and its value means what it meant on the first visit.
-/
theorem returns_recalled (program : Program) (o : Options) (file : String) (builtins : Registry)
    (log : Log) :
    (∀ text, Program.DistinctBlocks (parse text).1) ∧
    (∀ e : Expr, ReadsNames e.lookups e.detect) ∧
    (∀ (ret : Ty) (body : Block),
      body.visitScoped (checkIfReturn ret) = visitEach (checkIfReturn ret) body.sites) ∧
    (∀ x, Occasion.Of program (o.initialState file builtins log) x →
      x.moment.CheckedIn program (o.initialState file builtins log)) ∧
    (program.DistinctBlocks → program.Accepted (o.initialState file builtins log) →
      (∀ around pos e, (around, .returnWith pos (some e)) ∈ program.surrounded →
        ∃ a, Occasion.Of program (o.initialState file builtins log)
          ⟨around, ⟨.stmt (.returnWith pos (some e)), a⟩⟩) ∧
      (∀ around pos e a, Occasion.Of program (o.initialState file builtins log)
          ⟨around, ⟨.stmt (.returnWith pos (some e)), a⟩⟩ →
        ∃ inner outer definePos header body q,
          around = inner ++ .function header :: outer ∧ functions inner = 0 ∧
          Occasion.Of program (o.initialState file builtins log)
            ⟨outer, ⟨.stmt (.define definePos header body), q⟩⟩ ∧
          Relation.ReflTransGen Occasion.Next ⟨outer, ⟨.stmt (.define definePos header body), q⟩⟩
            ⟨around, ⟨.stmt (.returnWith pos (some e)), a⟩⟩) ∧
      ∀ outer definePos header body q, Occasion.Of program (o.initialState file builtins log)
          ⟨outer, ⟨.stmt (.define definePos header body), q⟩⟩ →
        ∃ r, header.Passes definePos body q r ∧
          (∀ inner pos e a, functions inner = 0 →
            Relation.ReflTransGen Occasion.Next ⟨outer, ⟨.stmt (.define definePos header body), q⟩⟩
              ⟨inner ++ .function header :: outer, ⟨.stmt (.returnWith pos (some e)), a⟩⟩ →
            (starts inner, .returnWith pos (some e)) ∈ body.sites ∧
            ∀ w : State, w.symbols = r.symbols →
              e.Recalled ⟨true, header.result.ty⟩ a (w.enteringAll (starts inner))) ∧
          ∀ pos value w, body.Asks header.result.ty r pos value w →
            returnMatches header.result.ty value w = .ok true w ∧
            (∃ braces, (braces, .returnWith pos value) ∈ body.sites ∧ w = r.enteringAll braces) ∧
            ∀ e ∈ value, ∃ inner a, functions inner = 0 ∧
              Relation.ReflTransGen Occasion.Next
                ⟨outer, ⟨.stmt (.define definePos header body), q⟩⟩
                ⟨inner ++ .function header :: outer, ⟨.stmt (.returnWith pos (some e)), a⟩⟩ ∧
              e.Recalled ⟨true, header.result.ty⟩ a w) := by
  refine ⟨parse_distinctBlocks, Expr.detect_readsNames, fun ret body => ?_,
    fun x reached => reached.moment.checkedIn, fun distinct accepted => ⟨?_, ?_, ?_⟩⟩
  · exact body.visitScoped_eq_visitEach fun stmt => .of_readsTable (.checkIfReturn ret stmt)
  · intro around pos e member
    obtain ⟨⟨part, a⟩, reached, shown⟩ := accepted.reaches member
    obtain rfl := Part.eq_stmt_of_stmt? shown fun body same => by cases same
    exact ⟨a, reached⟩
  · intro around pos e a reached
    exact reached.in_function (functions_pos_iff.mpr (accepted.placed _ (reached.listed rfl)))
  · intro outer definePos header body q defined
    obtain ⟨f, q₁, s', begun, checked, quiet, wf, passes⟩ := accepted.function_ends defined.moment
    have entered : Moment.Of program (o.initialState file builtins log) _ :=
      defined.moment.tail (.function begun)
    refine ⟨_, passes, fun inner pos e a outside steps => ?_, fun pos value w asks => ?_⟩
    · have steps := Occasion.steps_of_define begun steps
      have member := body.site_of_steps (fun body same => by cases same) steps outside
      refine ⟨member, fun w same => ?_⟩
      have table : w.symbols = s'.symbols := same
      have reads : ReadsTable (checkReturns header.namePos header.result.ty body) :=
        .checkReturns _ _ body
      exact body.recalls_result entered.sound (entered.fresh distinct) checked quiet
        (table ▸ .refl _) (table ▸ wf) (reads.of_quiet passes.returns quiet same) steps member
    · have silent := body.returns_match entered.sound (entered.fresh distinct) checked quiet
        (by exact .refl _) (by exact wf) passes.returns
      obtain ⟨braces, member, rfl⟩ := asks.site silent
      obtain ⟨v, s₁, matched, given⟩ := bind_eq_ok_iff.mp (silent _ member)
      obtain ⟨right, rfl⟩ := pure_eq_ok_iff.mp given
      cases right
      refine ⟨matched, ⟨braces, member, rfl⟩, fun e given => ?_⟩
      cases given
      -- the first visit of the return at that site
      obtain ⟨inner, ⟨part, a⟩, steps, shown, rfl, outside⟩ :=
        body.site_reached entered.sound checked member
      obtain rfl := Part.eq_stmt_of_stmt? shown fun body same => by cases same
      refine ⟨inner, a, outside, ?_, ?_⟩
      · exact (Occasion.steps_outside (.function header :: outer) steps).head ⟨.function begun, rfl⟩
      · exact body.recalls_result entered.sound (entered.fresh distinct) checked quiet
          (by exact .refl _) (by exact wf) passes.returns steps member

def totalHeader : Header :=
  ⟨⟨1, 3⟩, "total", [⟨⟨1, 9⟩, .value .int, ⟨1, 13⟩, "n"⟩], some (⟨1, 16⟩, .value .int)⟩

/-- `step + total(n - 1)` -/
def totalValue : Expr :=
  .binary ⟨1, 61⟩ .add (.ident ⟨1, 56⟩ "step") (.call ⟨1, 63⟩ "total"
    [.binary ⟨1, 71⟩ .sub (.ident ⟨1, 69⟩ "n") (.int ⟨1, 73⟩ "1" 1)])

/-- `int rest = 2;`, behind the return in its block. -/
def totalRest : Stmt := .declare ⟨1, 77⟩ (.value .int) ⟨1, 81⟩ "rest" (some (.int ⟨1, 88⟩ "2" 2))

/-- `{ int step = n; return step + total(n - 1); int rest = 2; }` -/
def totalArm : Block := .mk ⟨1, 33⟩ ⟨1, 91⟩
  [.declare ⟨1, 35⟩ (.value .int) ⟨1, 39⟩ "step" (some (.ident ⟨1, 46⟩ "n")),
    .returnWith ⟨1, 49⟩ (some totalValue), totalRest]

/-- `{ if (n > 0) ... return n; int last = 3; }` -/
def totalBody : Block := .mk ⟨1, 20⟩ ⟨1, 117⟩
  [.branch ⟨1, 22⟩ (.binary ⟨1, 28⟩ .gt (.ident ⟨1, 26⟩ "n") (.int ⟨1, 30⟩ "0" 0)) totalArm .done,
    .returnWith ⟨1, 93⟩ (some (.ident ⟨1, 100⟩ "n")),
    .declare ⟨1, 103⟩ (.value .int) ⟨1, 107⟩ "last" (some (.int ⟨1, 114⟩ "3" 3))]

/-- The function alone. -/
def totalling : Program := [.define ⟨1, 0⟩ totalHeader totalBody]

/-- When the ways through the function are read, `rest` is declared in the block of the first
return, which it was not when the check came to the return. The value that is returned means the
same. -/
theorem total_recalled :
    totalling.DistinctBlocks ∧ totalling.Accepted (echoStart .collect) ∧
    totalValue.lookups = [.value "step", .callee "total", .value "n"] ∧
    ∃ a r w, totalHeader.Passes ⟨1, 0⟩ totalBody (echoStart .collect) r ∧
      Occasion.Of totalling (echoStart .collect)
        ⟨[.block ⟨1, 33⟩, .block ⟨1, 20⟩, .function totalHeader],
          ⟨.stmt (.returnWith ⟨1, 49⟩ (some totalValue)), a⟩⟩ ∧
      totalBody.Asks (.value .int) r ⟨1, 49⟩ (some totalValue) w ∧
      a.symbols.lookup "rest" = none ∧ (w.symbols.lookup "rest").isSome = true ∧
      totalValue.Recalled ⟨true, .value .int⟩ a w ∧
      returnMatches (.value .int) (some totalValue) w = .ok true w ∧
      (⟨.stmt (.returnWith ⟨1, 49⟩ (some totalValue)), a⟩ : Moment).CheckedIn totalling
        (echoStart .collect) := by
  have distinct : totalling.DistinctBlocks := by
    unfold Program.DistinctBlocks
    decide
  have accepted : totalling.Accepted (echoStart .collect) := by
    unfold Program.Accepted
    decide +kernel
  obtain ⟨-, -, -, checked, recalled⟩ :=
    returns_recalled totalling { policy := .collect } "main" .empty ({} : Options).newLog
  obtain ⟨-, -, functions⟩ := recalled distinct accepted
  have defined : Occasion.Of totalling (echoStart .collect)
      ⟨[], ⟨.stmt (.define ⟨1, 0⟩ totalHeader totalBody), echoStart .collect⟩⟩ :=
    .single ⟨.first, rfl⟩
  obtain ⟨r, passes, returned, asked⟩ := functions _ _ _ _ _ defined
  have next : ∀ {around : List Surrounding} {m m' : Moment}, m.Next m' →
      Occasion.Next ⟨around, m⟩ ⟨m.part.surrounds ++ around, m'⟩ := fun moves => ⟨moves, rfl⟩
  -- the first visit of the return
  obtain ⟨a, steps, missing⟩ : ∃ a, Relation.ReflTransGen Occasion.Next
      ⟨[], ⟨.stmt (.define ⟨1, 0⟩ totalHeader totalBody), echoStart .collect⟩⟩
      ⟨[.block ⟨1, 33⟩, .block ⟨1, 20⟩, .function totalHeader],
        ⟨.stmt (.returnWith ⟨1, 49⟩ (some totalValue)), a⟩⟩ ∧ a.symbols.lookup "rest" = none :=
    ⟨_, .head (next (.function rfl)) (.head (next .enter) (.head (next .first)
      (.head (next (.branch rfl)) (.head (next .enter) (.head (next (.others rfl))
      (.single (next .first))))))), rfl⟩
  -- the state at the end of the body
  obtain ⟨f, s, r', begun, inside, declared⟩ : ∃ f s r',
      beginFunction ⟨1, 0⟩ totalHeader (echoStart .collect) = .ok (some f) s ∧
      inFunction f (totalBody.check .resumeLast) s = .ok () r' ∧
      ((r'.enteringAll [⟨1, 20⟩, ⟨1, 33⟩]).symbols.lookup "rest").isSome = true :=
    ⟨_, _, _, rfl, rfl, rfl⟩
  obtain ⟨f', s', begun', inside'⟩ := passes.checked
  rw [begun] at begun'
  cases begun'
  rw [inside] at inside'
  cases inside'
  have asks : totalBody.Asks (.value .int) r ⟨1, 49⟩ (some totalValue)
      (r.enteringAll [⟨1, 20⟩, ⟨1, 33⟩]) :=
    ⟨.start, rfl, .head .enter (.head .first (.head .branch (.head .enter (.head (.others rfl)
      (.single .first)))))⟩
  obtain ⟨-, again⟩ := returned [.block ⟨1, 33⟩, .block ⟨1, 20⟩] ⟨1, 49⟩ totalValue a rfl steps
  exact ⟨distinct, accepted, rfl, a, r, _, passes, defined.trans steps, asks, missing, declared,
    again r rfl, (asked _ _ _ asks).1, checked _ (defined.trans steps)⟩

end Samo
