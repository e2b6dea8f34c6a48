import Samo.Proofs.BlockPositions
import Samo.Proofs.FormedSteps
import Samo.Proofs.SyntaxErrors

/-!
# No false rejections

A well-formed program is accepted. `Stmt.goes` follows its check statement by statement: each one
gets to its end from a state that fits, in a state that fits again. The values of returns are looked
at only when their function ends; that they are right then is carried along as `ReturnsHold`.
-/

namespace Samo

open Check

/-! ## Returns, later on -/

/-- The table of a state that moves around in a later table is later too. -/
theorem SymbolTable.Later.moved {t t' : SymbolTable} (later : t.Later t') (c : Coordinates)
    (resume : List Coordinates) : t.Later { t' with current := c, resume := resume } := by
  have found : SymbolTable.lookupFrom { t' with current := c, resume := resume } = t'.lookupFrom :=
    lookupFrom_congr rfl
  refine ⟨⟨later.grows.builtins, later.grows.scopes, later.grows.blocks, ?_⟩, later.closed⟩
  rw [found]
  exact later.grows.found

/--
The returns among some sites are right, seen from the scope `c` in any table that is later than `t`.
-/
def ReturnsHold (around : Around) (sites : List (List Pos × Stmt)) (c : Coordinates)
    (t : SymbolTable) : Prop :=
  ∀ result, around.returns = some result → ∀ r : State, r.symbols.WellFormed →
    r.symbols.current = c → t.Later r.symbols → ∀ x ∈ sites,
      x.2.ReturnsRight (r.enteringAll x.1).symbols.bindings result

namespace ReturnsHold

variable {around : Around} {sites sites' : List (List Pos × Stmt)} {c : Coordinates}
  {t t' : SymbolTable}

theorem nil : ReturnsHold around [] c t := by
  intro result inside r wf here later x member
  cases member

theorem append (first : ReturnsHold around sites c t) (second : ReturnsHold around sites' c t) :
    ReturnsHold around (sites ++ sites') c t := by
  intro result inside r wf here later x member
  rcases List.mem_append.mp member with member | member
  · exact first result inside r wf here later x member
  · exact second result inside r wf here later x member

/-- A statement that is no return asks for nothing. -/
theorem cons {x : List Pos × Stmt} (other : x.2.verdict = [])
    (rest : ReturnsHold around sites c t) : ReturnsHold around (x :: sites) c t := by
  intro result inside r wf here later y member
  rcases List.mem_cons.mp member with rfl | member
  · obtain ⟨starts, stmt⟩ := y
    cases stmt with
    | returnWith => cases other
    | _ => trivial
  · exact rest result inside r wf here later y member

theorem other {stmt : Stmt} (other : stmt.verdict = []) :
    ReturnsHold around [([], stmt)] c t := nil.cons other

/-- What holds in any table later than `t` holds in any table later than a later one. -/
theorem later {names : List String} {starts : List Pos} (holds : ReturnsHold around sites c t)
    (declares : t.Declares t' names starts) : ReturnsHold around sites c t' :=
  fun result inside r wf here later => holds result inside r wf here (.of_declares declares later)

/-- A return that is right where it stands stays right. -/
theorem returnWith {s : State} {pos : Pos} {value : Option Expr} {result : TypeName}
    (inside : around.returns = some result)
    (right : Returned s.symbols.bindings result value) :
    ReturnsHold around [([], .returnWith pos value)] s.symbols.current s.symbols := by
  intro result' inside' r wf here later x member
  rw [inside] at inside'
  cases inside'
  rw [List.mem_singleton.mp member]
  show Returned r.symbols.bindings result value
  have more : s.symbols.bindings.Extends r.symbols.bindings := by
    rw [SymbolTable.bindings, SymbolTable.bindings, here]
    exact later.grows.bindings wf s.symbols.current
  cases right with
  | nothing => exact .nothing
  | value sane => exact .value ⟨sane.typed.mono more, sane.zeroFree⟩

/-- What holds inside of a block holds outside, as the scope of the block is found again. -/
theorem block {start : Pos} {names : List String} {starts : List Pos} {t₁ : SymbolTable}
    (closes : t.Closes (t₁.register start).leave c start names starts)
    (fresh : t.Unregistered (start :: starts))
    (wf : t₁.WellFormed) (below : ∃ s p, t₁.currentScope? = some s ∧ s.parent = some p)
    (holds : ReturnsHold around sites c t₁) :
    ReturnsHold around (sites.map fun x => (start :: x.1, x.2)) t.current
      (t₁.register start).leave := by
  intro result inside r wfr here later x member
  obtain ⟨y, own, rfl⟩ := List.mem_map.mp member
  obtain ⟨s, p, inner, above⟩ := below
  -- the brace is registered for the scope in which the block was checked, and for no other
  obtain ⟨registered, scope, found, -⟩ := closes.frameAt fresh later
  obtain ⟨resume, entered⟩ := State.enteringAll_concat registered found []
  have entered : r.entering start =
      { r with symbols := { r.symbols with current := c, resume := resume } } := entered
  show Stmt.ReturnsRight ((r.entering start).enteringAll y.1).symbols.bindings result y.2
  rw [entered]
  refine holds result inside { r with symbols := { r.symbols with current := c, resume := resume } }
    ?_ rfl ?_ y own
  · have moved := wfr.moved found
    exact ⟨moved.current, moved.coords, moved.parent, moved.registered, moved.reserved⟩
  · exact (SymbolTable.Later.of_close wf inner above later).moved c resume

end ReturnsHold

/-! ## Steps in a row -/

/-- From a state a step gets to its end, the state fits again then, and the returns that it passed
are right later on. -/
def Goes (builtins : Registry) (around : Around) (st : Stack) (sites : List (List Pos × Stmt))
    (m : Check Unit) (s : State) : Prop :=
  ∃ s' names starts, m s = .ok () s' ∧ Passes s s' names starts ∧ Fits builtins around st s' ∧
    ReturnsHold around sites s.symbols.current s'.symbols

theorem Check.discard_run {α : Type} {m : Check α} {a : α} {s s' : State}
    (run : m s = .ok a s') : discard m s = .ok () s' := by
  show (m >>= fun _ => pure ()) s = _
  rw [bind_ok run]
  rfl

namespace Goes

variable {builtins : Registry} {around : Around} {st st₁ st' : Stack}
  {sites sites' : List (List Pos × Stmt)} {m m' : Check Unit} {s : State}

theorem pure (fits : Fits builtins around st s) : Goes builtins around st [] (pure ()) s :=
  ⟨s, [], [], rfl, .of_readsTable (.pure ()) fits.wellFormed rfl, fits, .nil⟩

/-- One step after another. -/
theorem bind (first : Goes builtins around st₁ sites m s)
    (second : ∀ s₁, m s = .ok () s₁ → Fits builtins around st₁ s₁ →
      Goes builtins around st' sites' m' s₁) :
    Goes builtins around st' (sites ++ sites') (do m; m') s := by
  obtain ⟨s₁, names, starts, run, passes, fits₁, holds⟩ := first
  obtain ⟨s₂, names', starts', run', passes', fits₂, holds'⟩ := second s₁ run fits₁
  refine ⟨s₂, names ++ names', starts ++ starts', ?_, passes.trans passes', fits₂, ?_⟩
  · rw [bind_ok run, run']
  · rw [passes.table.current] at holds'
    exact (holds.later passes'.table).append holds'

/-- A step after one that changes nothing. -/
theorem after {α : Type} {first : Check α} {rest : α → Check Unit} {a : α}
    (run : first s = .ok a s) (goes : Goes builtins around st sites (rest a) s) :
    Goes builtins around st sites (first >>= rest) s := by
  obtain ⟨s', names, starts, run', goes⟩ := goes
  exact ⟨s', names, starts, by rw [bind_ok run, run'], goes⟩

theorem cons {x : List Pos × Stmt} (goes : Goes builtins around st sites m s)
    (other : x.2.verdict = []) : Goes builtins around st (x :: sites) m s := by
  obtain ⟨s', names, starts, run, passes, fits, holds⟩ := goes
  exact ⟨s', names, starts, run, passes, fits, holds.cons other⟩

theorem inUncertainty
    (goes : Goes builtins around st sites m { s with uncertainDepth := s.uncertainDepth + 1 }) :
    Goes builtins around st sites (inUncertainty m) s := by
  obtain ⟨s₁, names, starts, run, passes, fits, holds⟩ := goes
  refine ⟨{ s₁ with uncertainDepth := s₁.uncertainDepth - 1 }, names, starts, ?_, ?_, ?_, holds⟩
  · unfold Check.inUncertainty
    rw [bind_ok (modify_run _ s)]
    exact ensuring_eq_ok_iff.mpr ⟨s₁, run, rfl⟩
  · exact ⟨passes.table, passes.policy, passes.function, passes.loops⟩
  · exact ⟨fits.stop, fits.mild, fits.wellFormed, fits.builtins, fits.stack, fits.function,
      fits.loops⟩

end Goes

namespace Fits

variable {builtins : Registry} {around : Around} {st st' : Stack} {s s' : State}

theorem uncertain (fits : Fits builtins around st s) (depth : Nat) :
    Fits builtins around st { s with uncertainDepth := depth } :=
  ⟨fits.stop, fits.mild, fits.wellFormed, fits.builtins, fits.stack, fits.function, fits.loops⟩

theorem inLoop (fits : Fits builtins around st s) :
    Fits builtins around.loop st { s with loopDepth := s.loopDepth + 1 } :=
  ⟨fits.stop, fits.mild, fits.wellFormed, fits.builtins, fits.stack, fits.function,
    fun _ => Nat.succ_pos _⟩

/-- A statement without a return in it. -/
theorem goes {stmt : Stmt} (fits : Fits builtins around st s) (single : stmt.sites = [([], stmt)])
    (other : stmt.verdict = [])
    (run : ∃ s', stmt.check s = .ok () s' ∧ Fits builtins around st' s') :
    Goes builtins around st' stmt.sites stmt.check s := by
  obtain ⟨s', run, fits'⟩ := run
  refine ⟨s', _, _, run, stmt.check_passes fits.stop fits.wellFormed run, fits', ?_⟩
  rw [single]
  exact .other other

theorem alternatives {pos otherwisePos : Pos} {body alternative : Stmt}
    (fits : Fits builtins around st s) (first : body.declaresOrReturns = false)
    (second : alternative.declaresOrReturns = false) :
    Goes builtins around st [] (Check.checkAlternatives pos body otherwisePos alternative) s := by
  obtain ⟨s₁, run, fits₁⟩ := fits.checkAlternatives first second
  have passes := Unobtrusive.passes (.checkAlternatives _ _ _ _) fits.wellFormed run
  exact ⟨s₁, _, _, run, passes, fits₁, .nil⟩

/-- A block in a scope of its own. -/
theorem block {body : Block} (fits : Fits builtins around st s)
    (inside : ∃ s', body.check .new s = .ok () s' ∧ s'.engine.Mild ∧
      ReturnsHold around body.sites s.symbols.current s'.symbols) :
    Goes builtins around st body.sites (body.check .new) s := by
  obtain ⟨s', run, mild, holds⟩ := inside
  have passes := body.check_passes fits.stop fits.wellFormed run
  exact ⟨s', _, _, run, passes, fits.passed passes mild, holds⟩

/-- The body of a loop. -/
theorem loop {body : Block} (fits : Fits builtins around st s)
    (inside : ∃ s', body.check .new { s with loopDepth := s.loopDepth + 1 } = .ok () s' ∧
      s'.engine.Mild ∧ ReturnsHold around.loop body.sites s.symbols.current s'.symbols) :
    Goes builtins around st body.sites (Check.inLoop (body.check .new)) s := by
  obtain ⟨s₁, run, mild, holds⟩ := inside
  have inner := body.check_passes (s := { s with loopDepth := s.loopDepth + 1 }) fits.stop
    fits.wellFormed run
  have passes : Passes s { s₁ with loopDepth := s₁.loopDepth - 1 } [] body.braces := by
    refine ⟨inner.table, inner.policy, inner.function, ?_⟩
    show s₁.loopDepth - 1 = s.loopDepth
    rw [inner.loops, Nat.add_sub_cancel]
  refine ⟨_, _, _, ?_, passes, fits.passed passes mild, holds⟩
  unfold Check.inLoop
  rw [bind_ok (modify_run _ s)]
  exact ensuring_eq_ok_iff.mpr ⟨s₁, run, rfl⟩

/-- A return is looked at twice: here, and when its function ends. -/
theorem returnWith {pos : Pos} {value : Option Expr} {result : TypeName}
    (fits : Fits builtins around st s) (distinct : builtins.Distinct)
    (inside : around.returns = some result)
    (right : Returned (Stack.bindings st builtins) result value) :
    Goes builtins around st (Stmt.returnWith pos value).sites (Stmt.returnWith pos value).check
      s := by
  have within : s.currentFunction.isNone = false := by
    have inside' := fits.function
    rw [inside] at inside'
    simpa using inside'
  have right : Returned s.symbols.bindings result value := by
    cases right with
    | nothing => exact .nothing
    | value sane => exact .value (fits.sane sane)
  have run : (Stmt.returnWith pos value).check s = .ok () s := by
    cases right with
    | nothing =>
        rw [Stmt.check, bind_ok (get_run s), if_neg (by simp [within])]
        rfl
    | value sane =>
        rw [Stmt.check, bind_ok (get_run s), if_neg (by simp [within])]
        exact discard_run (sane.answers (fits.builtins ▸ distinct)).detect
  refine ⟨s, _, _, run, Stmt.check_passes _ fits.stop fits.wellFormed run, fits, ?_⟩
  rw [Stmt.sites]
  exact .returnWith inside right

/-- The body of a function is checked with the parameters in its scope. -/
theorem define {pos : Pos} {h : Header} {body : Block} {params : List Parameter}
    (fits : Fits builtins around st s) (distinct : builtins.Distinct)
    (fresh : s.symbols.Unregistered body.braces) (outside : around.returns = none)
    (free : Stack.Free builtins st h.name) (takes : h.Takes builtins st params)
    (jumps : body.jumpsInLoops = true) (complete : h.result ≠ .void → ¬ body.Ends .falls)
    (inside : ∀ (t : SymbolTable) (names : List String) (s₁ : State),
      t.Opens (s₁.symbols.enter .resumeLast) names → t.WellFormed →
      Fits builtins (.function h)
        (params.map Parameter.symbol :: Stack.declare (h.symbol params) st)
        { s₁ with symbols := s₁.symbols.enter .resumeLast } → t.Unregistered body.braces →
      ∃ s₂, body.check .resumeLast s₁ = .ok () s₂ ∧ s₂.engine.Mild ∧
        ReturnsHold (.function h) body.sites t.current s₂.symbols) :
    ∃ s', (Stmt.define pos h body).check s = .ok () s' ∧
      Fits builtins around (Stack.declare (h.symbol params) st) s' := by
  obtain ⟨f, s₁, begun, stack, mild, resumed⟩ := fits.beginFunction outside free takes pos
  obtain ⟨_, _, _, same, begins⟩ := beginFunction_ok fits.stop fits.wellFormed begun
  cases same
  have named := begins.named fits.wellFormed
  have opens := begins.opens fits.wellFormed
  have policy := begins.policy
  -- the body starts inside of the function and outside of all loops
  let started : State := { s₁ with currentFunction := some f, loopDepth := 0 }
  have fits₁ : Fits builtins (.function h)
      (params.map Parameter.symbol :: Stack.declare (h.symbol params) st)
      { started with symbols := s₁.symbols.enter .resumeLast } :=
    ⟨policy.trans fits.stop, mild, opens.wellFormed,
      opens.builtins.trans (named.grows.builtins.trans fits.builtins), resumed, rfl, nofun⟩
  obtain ⟨s₂, checked, mild₂, holds⟩ := inside _ _ started opens named.wellFormed fits₁
    (fresh.kept named)
  obtain ⟨closes, -⟩ := body.check_closes (s := started) (policy.trans fits.stop) named.wellFormed
    opens checked
  let ended : State := { s₂ with currentFunction := none, loopDepth := s₁.loopDepth }
  have builtins₂ : ended.symbols.builtins = builtins :=
    closes.declares.grows.builtins.trans (named.grows.builtins.trans fits.builtins)
  have run : (Stmt.define pos h body).check s =
      .ok () { ended with functions := ended.functions ++ [f] } := by
    have inner : inFunction f (body.check .resumeLast) s₁ = .ok () ended := by
      unfold inFunction
      rw [bind_ok (get_run s₁), bind_ok (modify_run _ s₁)]
      exact ensuring_eq_ok_iff.mpr ⟨s₂, checked, rfl⟩
    rw [Stmt.check, bind_ok begun]
    dsimp only
    rw [bind_ok inner]
    -- the table is that of the end of the body, so the returns hold in it
    refine endFunction_run (builtins₂ ▸ distinct) (fun x member => ?_) jumps complete
    exact holds h.result rfl ended closes.declares.wellFormed closes.declares.current (.refl _) x
      member
  refine ⟨_, run, fits.after (Stmt.check_passes _ fits.stop fits.wellFormed run) mild₂ ?_⟩
  exact (closes.declares.stack_eq named.wellFormed).trans stack

end Fits

/-! ## Well-formed statements -/

section

variable {builtins : Registry}

mutual

/-- The check of a well-formed statement gets to its end. -/
theorem Stmt.goes {around : Around} {st st' : Stack} {s : State} (distinct : builtins.Distinct)
    (stmt : Stmt) (formed : stmt.Formed builtins around st st') (fits : Fits builtins around st s)
    (fresh : s.symbols.Unregistered stmt.braces) :
    Goes builtins around st' stmt.sites stmt.check s := by
  have known : s.symbols.builtins.Distinct := fits.builtins ▸ distinct
  cases stmt with
  | block body =>
      cases formed with
      | block inner =>
          rw [Stmt.braces] at fresh
          rw [Stmt.sites, Stmt.check]
          refine .cons (fits.block ?_) rfl
          exact body.goes distinct inner (.enter fits.wellFormed) fits.wellFormed fits.enter fresh
  | declare pos type namePos name init =>
      cases formed with
      | declare free sane =>
          refine fits.goes (by rw [Stmt.sites]) rfl ?_
          rw [Stmt.check]
          exact fits.checkDeclaration distinct free sane
  | infer pos namePos name init =>
      cases formed with
      | infer free sane =>
          refine fits.goes (by rw [Stmt.sites]) rfl ?_
          rw [Stmt.check]
          exact fits.checkInference distinct free sane
  | assign pos name value =>
      cases formed with
      | assign found sane =>
          refine fits.goes (by rw [Stmt.sites]) rfl ⟨s, ?_, fits⟩
          rw [Stmt.check]
          exact fits.checkAssignment distinct found sane
  | call pos name args =>
      cases formed with
      | call sane =>
          refine fits.goes (by rw [Stmt.sites]) rfl ⟨s, ?_, fits⟩
          rw [Stmt.check]
          exact discard_run ((fits.sane sane).resolves known)
  | define pos h body =>
      cases formed with
      | define outside free takes inner complete =>
          rw [Stmt.braces] at fresh
          refine fits.goes (by rw [Stmt.sites]) rfl ?_
          -- the ways through the body are judged by their returns, so no jump may leave it
          exact fits.define distinct fresh outside free takes (inner.jumpsInLoops rfl) complete
            fun t names s₁ opens wf fits₁ fresh₁ => body.goes distinct inner opens wf fits₁ fresh₁
  | branch pos cond body rest =>
      cases formed with
      | branch sane first others =>
          rw [Stmt.braces] at fresh
          rw [Stmt.sites, Stmt.check]
          refine .cons (.cons (.after (checkCondition_run pos .ifWord (fits.sane sane) known) ?_)
            rfl) rfl
          refine .bind (fits.block ?_) fun s₁ run fits₁ => ?_
          · exact body.goes distinct first (.enter fits.wellFormed) fits.wellFormed fits.enter
              fresh.left
          -- the first arm has registered its own blocks only
          · have passes := body.check_passes fits.stop fits.wellFormed run
            exact rest.goes distinct others fits₁ (fresh.right passes.table)
  | loop pos cond body =>
      cases formed with
      | loop sane inner =>
          rw [Stmt.braces] at fresh
          rw [Stmt.sites, Stmt.check]
          refine .cons (.cons (.after (checkCondition_run pos .whileWord (fits.sane sane) known) ?_)
            rfl) rfl
          refine fits.loop ?_
          exact body.goes distinct inner (.enter fits.wellFormed) fits.wellFormed fits.inLoop.enter
            fresh
  | breakOut pos =>
      cases formed with
      | breakOut inside =>
          refine fits.goes (by rw [Stmt.sites]) rfl ⟨s, ?_, fits⟩
          rw [Stmt.check, bind_ok (get_run s), if_neg (Nat.ne_of_gt (fits.loops inside))]
          rfl
  | continueOn pos =>
      cases formed with
      | continueOn inside =>
          refine fits.goes (by rw [Stmt.sites]) rfl ⟨s, ?_, fits⟩
          rw [Stmt.check, bind_ok (get_run s), if_neg (Nat.ne_of_gt (fits.loops inside))]
          rfl
  | returnWith pos value =>
      cases formed with
      | returnWith inside right => exact fits.returnWith distinct inside right
  | needs pos spelling path =>
      cases formed
      refine fits.goes (by rw [Stmt.sites]) rfl ?_
      rw [Stmt.check]
      exact fits.warn pos .needsUnsupported
  | maybe pos probability body =>
      cases formed with
      | maybe sane plain inner =>
          rw [Stmt.braces] at fresh
          rw [Stmt.sites, Stmt.check]
          refine .cons (.after (checkProbability_run pos _ (fits.sane sane) known)
            (.after (checkProbable_run pos plain) (.inUncertainty ?_))) rfl
          exact body.goes distinct inner (fits.uncertain _) fresh
  | maybeOtherwise pos probability body otherwisePos alternative =>
      cases formed with
      | maybeOtherwise sane plain plain' first second =>
          rw [Stmt.braces] at fresh
          rw [Stmt.sites, Stmt.check]
          refine .cons (.after (checkProbability_run pos _ (fits.sane sane) known) ?_) rfl
          -- the look at the alternatives comes to no site
          show Goes builtins around st' ([] ++ (body.sites ++ alternative.sites)) _ s
          refine .bind (fits.alternatives plain plain') fun s₁ run fits₁ => .inUncertainty ?_
          have quiet := Unobtrusive.passes (.checkAlternatives _ _ _ _) fits.wellFormed run
          have fresh₁ := fresh.kept quiet.table
          refine .bind (body.goes distinct first (fits₁.uncertain _) fresh₁.left)
            fun s₂ run₂ fits₂ => ?_
          have passes := body.check_passes (by exact fits₁.stop) (by exact fits₁.wellFormed) run₂
          exact alternative.goes distinct second fits₂ (fresh₁.right passes.table)
  | bad => cases formed

theorem Block.goes {around : Around} {frame : List Symbol} {st : Stack} {s : State}
    {mode : EntryMode} {t : SymbolTable} {names : List String} (distinct : builtins.Distinct)
    (body : Block) (formed : body.Formed builtins around frame st)
    (opens : t.Opens (s.symbols.enter mode) names) (wf : t.WellFormed)
    (fits : Fits builtins around (frame :: st) { s with symbols := s.symbols.enter mode })
    (fresh : t.Unregistered body.braces) :
    ∃ s', body.check mode s = .ok () s' ∧ s'.engine.Mild ∧
      ReturnsHold around body.sites t.current s'.symbols := by
  cases body with
  | mk start stop stmts =>
      cases formed with
      | mk inner =>
          rw [Block.braces] at fresh
          obtain ⟨s₁, names', starts, run, passes, fits₁, holds⟩ := Stmt.allGo distinct stmts inner
            fits (fresh.opened opens)
          have checked : (Block.mk start stop stmts).check mode s =
              .ok () { s₁ with symbols := (s₁.symbols.register start).leave } := by
            rw [Block.check]
            unfold inScope
            rw [bind_ok (modifySymbols_run _ s)]
            apply ensuring_eq_ok_iff.mpr
            refine ⟨{ s₁ with symbols := s₁.symbols.register start }, ?_, rfl⟩
            rw [bind_ok run]
            rfl
          obtain ⟨closes, -⟩ := Block.check_closes (.mk start stop stmts) (by exact fits.stop) wf
            opens checked
          refine ⟨_, checked, fits₁.mild, ?_⟩
          obtain ⟨scope, here, above, -⟩ := opens.scope
          obtain ⟨scope', here', same, -⟩ := passes.table.declared scope here
          rw [Block.sites]
          exact .block closes fresh passes.table.wellFormed
            ⟨scope', _, here', same.trans above⟩ holds

theorem Stmt.allGo {around : Around} {st st' : Stack} {s : State} (distinct : builtins.Distinct)
    (stmts : List Stmt) (formed : Stmt.FormedAll builtins around st stmts st')
    (fits : Fits builtins around st s) (fresh : s.symbols.Unregistered (Stmt.bracesAll stmts)) :
    Goes builtins around st' (Stmt.sitesAll stmts) (Stmt.checkAll stmts) s := by
  cases stmts with
  | nil =>
      cases formed
      rw [Stmt.sitesAll, Stmt.checkAll]
      exact .pure fits
  | cons stmt stmts =>
      cases formed with
      | cons first others =>
          rw [Stmt.bracesAll] at fresh
          rw [Stmt.sitesAll, Stmt.checkAll]
          refine .bind (stmt.goes distinct first fits fresh.left) fun s₁ run fits₁ => ?_
          have passes := stmt.check_passes fits.stop fits.wellFormed run
          exact Stmt.allGo distinct stmts others fits₁ (fresh.right passes.table)

theorem Branches.goes {around : Around} {st : Stack} {s : State} (distinct : builtins.Distinct)
    (rest : Branches) (formed : rest.Formed builtins around st) (fits : Fits builtins around st s)
    (fresh : s.symbols.Unregistered rest.braces) :
    Goes builtins around st rest.sites rest.check s := by
  cases rest with
  | done =>
      rw [Branches.sites, Branches.check]
      exact .pure fits
  | otherwise pos body =>
      cases formed with
      | otherwise inner =>
          rw [Branches.braces] at fresh
          rw [Branches.sites, Branches.check]
          refine .cons (fits.block ?_) rfl
          exact body.goes distinct inner (.enter fits.wellFormed) fits.wellFormed fits.enter fresh
  | elseIf pos cond body rest =>
      cases formed with
      | elseIf sane first others =>
          rw [Branches.braces] at fresh
          rw [Branches.sites, Branches.check]
          refine .cons (.after (checkCondition_run pos .ifWord (fits.sane sane)
            (fits.builtins ▸ distinct)) ?_) rfl
          refine .bind (fits.block ?_) fun s₁ run fits₁ => ?_
          · exact body.goes distinct first (.enter fits.wellFormed) fits.wellFormed fits.enter
              fresh.left
          · have passes := body.check_passes fits.stop fits.wellFormed run
            exact rest.goes distinct others fits₁ (fresh.right passes.table)

end

end

/-! ## Well-formed programs -/

namespace Program

variable {program : Program} {builtins : Registry}

/-- Where a program starts nothing is declared. -/
theorem fits_start (o : Options) (file : String) (builtins : Registry) (log : Log) :
    Fits builtins .top [[]] ({ o with policy := .stop }.initialState file builtins log) :=
  ⟨rfl, nofun, SymbolTable.wellFormed_init builtins, rfl, rfl, rfl, nofun⟩

/-- The check of a well-formed program under the policy `stop` gets to its end. -/
theorem Formed.run (formed : program.Formed builtins) (distinct : program.DistinctBlocks)
    (loaded : builtins.Distinct) (o : Options) (file : String) (log : Log) :
    ∃ s', Stmt.checkAll program ({ o with policy := .stop }.initialState file builtins log) =
      .ok () s' ∧ s'.engine.Mild := by
  obtain ⟨st, formed⟩ := formed
  obtain ⟨s', -, -, run, -, fits, -⟩ := Stmt.allGo loaded program formed
    (fits_start o file builtins log) ⟨distinct, fun _ _ => rfl⟩
  exact ⟨s', run, fits.mild⟩

/-- The check of a well-formed program under any policy records nothing fatal and no error. -/
theorem Formed.mild (formed : program.Formed builtins) (distinct : program.DistinctBlocks)
    (loaded : builtins.Distinct) (o : Options) (file : String) (log : Log) :
    (program.checked (o.initialState file builtins log)).engine.Mild := by
  obtain ⟨s', run, mild⟩ := formed.run distinct loaded o file log
  cases policy : o.policy with
  | stop =>
      have same : { o with policy := .stop }.initialState file builtins log =
          o.initialState file builtins log := by
        simp only [Options.initialState, policy]
      rw [same] at run
      rw [checked_of_ok run]
      exact mild
  | collect =>
      let s := o.initialState file builtins log
      have run : Stmt.checkAll program s.stopping = .ok () s' := run
      have empty : s.engine.NoFatal := by
        intro d member
        cases member
      rcases program.checked_agrees policy empty with ⟨-, _, collected⟩ | ⟨fatal, cut, -⟩
      · rw [run] at collected
        cases collected
        exact mild
      · -- a fatal report would have ended the other run
        obtain ⟨d, member, severe⟩ := Diagnostic.exists_fatal_throughFirstFatal fatal
        rw [← cut, checked_of_ok run] at member
        exact absurd severe (mild d member).1

end Program

/--
No false rejections. The check of a well-formed program records nothing fatal and no error, whatever
its options are, and there is no complaint about the program. The blocks have to start at different
positions, as those of every program read from a text do.
-/
theorem no_false_rejections :
    (∀ text, Program.DistinctBlocks (parse text).1) ∧
    ∀ (program : Program) (o : Options) (file : String) (builtins : Registry) (log : Log),
      Registry.ofLibrary o.library = .ok builtins → program.DistinctBlocks →
      program.Formed builtins →
      (∀ d ∈ (program.checked (o.initialState file builtins log)).engine.diagnostics,
        d.severity ≠ .fatal ∧ d.severity ≠ .error) ∧
      Outcome.complaint? ((o.checkProgram file program).run log).1 = none := by
  refine ⟨parse_distinctBlocks, ?_⟩
  intro program o file builtins log loaded distinct formed
  have mild := formed.mild distinct (Registry.distinct_ofLibrary loaded) o file log
  refine ⟨mild, ?_⟩
  have fine := (Engine.failure?_eq_none_iff (program.checked_counted ⟨rfl, rfl, rfl⟩)).mpr mild
  rw [Options.checkProgram_run loaded]
  simp [Outcome.complaint?, Verdict.complaint?, fine]

def rareHeader : Header :=
  ⟨⟨1, 3⟩, "rare", [⟨⟨1, 8⟩, .value .int, ⟨1, 12⟩, "n"⟩], some (⟨1, 15⟩, .value .boolie)⟩

/-- A loop in the function, which can be left. -/
def rareLoop : Stmt :=
  .loop ⟨2, 2⟩ (.binary ⟨2, 11⟩ .gt (.ident ⟨2, 9⟩ "n") (.int ⟨2, 13⟩ "9" 9))
    (.mk ⟨2, 16⟩ ⟨2, 42⟩
      [.branch ⟨2, 18⟩ (.binary ⟨2, 24⟩ .eq (.ident ⟨2, 22⟩ "n") (.int ⟨2, 27⟩ "10" 10))
        (.mk ⟨2, 31⟩ ⟨2, 40⟩ [.breakOut ⟨2, 33⟩]) .done])

/-- A block in the function, which declares a name of its own and returns. -/
def rareReturn : Stmt :=
  .block (.mk ⟨3, 2⟩ ⟨3, 46⟩
    [.declare ⟨3, 4⟩ (.value .boolie) ⟨3, 11⟩ "low"
      (some (.binary ⟨3, 19⟩ .lt (.ident ⟨3, 17⟩ "n") (.int ⟨3, 21⟩ "0" 0))),
    .returnWith ⟨3, 24⟩ (some (.binary ⟨3, 35⟩ .or (.ident ⟨3, 31⟩ "low")
      (.binary ⟨3, 40⟩ .eq (.ident ⟨3, 38⟩ "n") (.int ⟨3, 43⟩ "0" 0))))])

/-- A variable, with the name that the block in the function has for its own. -/
def rareVariable : Stmt :=
  .infer ⟨5, 0⟩ ⟨5, 4⟩ "low" (.call ⟨5, 10⟩ "rare" [.int ⟨5, 15⟩ "4" 4])

/-- A chance to change the variable. -/
def rareChange : Stmt :=
  .maybe ⟨6, 0⟩ (.int ⟨6, 7⟩ "50" 50)
    (.block (.mk ⟨6, 11⟩ ⟨6, 29⟩
      [.assign ⟨6, 13⟩ "low" (.call ⟨6, 19⟩ "rare"
        [.unary ⟨6, 24⟩ .negate (.int ⟨6, 25⟩ "5" 5)])]))

/-- The function, the variable, the chance to change it, and a call of a built-in function. -/
def rarely : Program :=
  [.define ⟨1, 0⟩ rareHeader (.mk ⟨1, 22⟩ ⟨4, 0⟩ [rareLoop, rareReturn]), rareVariable, rareChange,
  .call ⟨7, 0⟩ "putout" [.ident ⟨7, 7⟩ "low"]]

def rareSymbol : Symbol := rareHeader.symbol [⟨"n", .int⟩]

/-- What is declared at the start of the function's body. -/
def rareStack : Stack := [[Parameter.symbol ⟨"n", .int⟩], [rareSymbol]]

/-- What is declared after the variable. -/
def rareStackAfter : Stack := [[rareSymbol, .var (.fresh .boolie "low" 0)]]

/-- A comparison of a variable with a literal. -/
theorem sane_comparison {Γ : Bindings} {v : Variable} {name spelling : String} {n : Int32}
    {op : BinaryOp} {pos pos₁ pos₂ : Pos} (found : Γ.lookup name = some (.var v))
    (type : v.type = .int) (family : op.family = .relational ∨ op.family = .equality)
    (folds : (Expr.binary pos op (.ident pos₁ name) (.int pos₂ spelling n)).foldError? = none) :
    (Expr.binary pos op (.ident pos₁ name) (.int pos₂ spelling n)).Sane Γ (.value .boolie) := by
  have left : (Expr.ident pos₁ name).HasType Γ (.value .int) := type ▸ .ident found
  refine ⟨?_, (Expr.zeroFree_iff _).mpr ⟨folds, trivial, trivial⟩⟩
  rcases family with family | family
  · exact .relational family left .int
  · exact .equality family left .int

/-- A call of the function. -/
theorem sane_rare {Γ : Bindings} {e : Expr} {pos : Pos} (found : Γ.lookup "rare" = some rareSymbol)
    (plain : e.isBooleanForm = false) (sane : e.Sane Γ (.value .int)) :
    (Expr.call pos "rare" [e]).Sane Γ (.value .boolie) := by
  have handed : (Queues.ofList Expr.isBooleanForm [e]).assign [.int] = [(.int, e)] := by
    simp [Queues.ofList, Queues.assign, Queues.next?, plain]
  refine ⟨.user found rfl fun a given => ?_, Expr.zeroFree_call.mpr fun a given => ?_⟩
  · change a ∈ (Queues.ofList Expr.isBooleanForm [e]).assign [.int] at given
    rw [handed] at given
    rw [List.mem_singleton.mp given]
    exact sane.typed
  · rw [List.mem_singleton.mp given]
    exact sane.zeroFree

theorem rareLoop_formed : rareLoop.Formed .standard (.function rareHeader) rareStack rareStack :=
  .loop (sane_comparison rfl rfl (.inl rfl) rfl)
    (.mk (.cons (.branch (sane_comparison rfl rfl (.inr rfl) rfl)
      (.mk (.cons (.breakOut rfl) .nil)) .done) .nil))

theorem rareReturn_formed :
    rareReturn.Formed .standard (.function rareHeader) rareStack rareStack := by
  refine .block (.mk (.cons (.declare ⟨rfl, rfl⟩ ?_) (.cons (.returnWith rfl (.value ?_)) .nil)))
  · intro e given
    cases given
    exact sane_comparison rfl rfl (.inl rfl) rfl
  · refine ⟨.logical rfl ?_ ?_, (Expr.zeroFree_iff _).mpr ⟨rfl, trivial, trivial, trivial⟩⟩
    · exact .ident (v := .fresh .boolie "low" 0) rfl
    · exact (sane_comparison rfl rfl (.inr rfl) rfl).typed

/-- No way falls off the end of the function, as the block at its end returns. -/
theorem rare_returns {start stop : Pos} :
    ¬ (Block.mk start stop [rareLoop, rareReturn]).Ends .falls := by
  rintro ⟨row⟩
  obtain ⟨-, row⟩ := Stmt.endsAll_cons_falls.mp row
  obtain ⟨⟨⟨inner⟩⟩, -⟩ := Stmt.endsAll_cons_falls.mp row
  obtain ⟨-, inner⟩ := Stmt.endsAll_cons_falls.mp inner
  obtain ⟨ends, -⟩ := Stmt.endsAll_cons_falls.mp inner
  cases ends

theorem rareHeader_takes : rareHeader.Takes .standard [[]] [⟨"n", .int⟩] := by
  refine ⟨rfl, by decide, fun q given => ?_⟩
  rw [List.mem_singleton.mp given]
  exact ⟨rfl, rfl⟩

theorem rareVariable_formed :
    rareVariable.Formed .standard .top [[rareSymbol]] rareStackAfter :=
  .infer ⟨rfl, rfl⟩ (sane_rare rfl rfl ⟨.int, Expr.zeroFree_int⟩)

theorem rareChange_formed : rareChange.Formed .standard .top rareStackAfter rareStackAfter :=
  .maybe ⟨.int, Expr.zeroFree_int⟩ rfl (.block (.mk (.cons (.assign rfl (sane_rare rfl rfl
    ⟨.negate .int, Expr.zeroFree_unary.mpr Expr.zeroFree_int⟩)) .nil)))

/-- The overload of the built-in function is found by the type of the variable. -/
theorem rareOutput_sane {pos pos₁ : Pos} : (Expr.call pos "putout" [.ident pos₁ "low"]).Sane
    (Stack.bindings rareStackAfter .standard) .void := by
  let f : Function := ⟨"putout", 0, [⟨"arg0", .boolie⟩], .void, .global⟩
  have overload : f ∈ Registry.standard.overloads "putout" := by decide
  refine ⟨.builtin (f := f) rfl overload rfl fun a given => ?_,
    Expr.zeroFree_call.mpr fun a given => ?_⟩
  · rw [List.mem_singleton.mp given]
    exact .ident (v := .fresh .boolie "low" 0) rfl
  · rw [List.mem_singleton.mp given]
    exact Expr.zeroFree_ident

theorem rarely_formed : rarely.Formed .standard := by
  have body : (Block.mk ⟨1, 22⟩ ⟨4, 0⟩ [rareLoop, rareReturn]).Formed .standard
      (.function rareHeader) [Parameter.symbol ⟨"n", .int⟩] [[rareSymbol]] :=
    .mk (.cons rareLoop_formed (.cons rareReturn_formed .nil))
  exact ⟨rareStackAfter, .cons (.define rfl ⟨rfl, rfl⟩ rareHeader_takes body fun _ => rare_returns)
    (.cons rareVariable_formed (.cons rareChange_formed (.cons (.call rareOutput_sane) .nil)))⟩

/-- The program is well formed, so there is no complaint about it, whether the check stops at the
first fatal report or not. -/
theorem rarely_uncomplained :
    Registry.ofLibrary .standard = .ok .standard ∧ rarely.DistinctBlocks ∧
      rarely.Formed .standard ∧ ∀ policy, Outcome.complaint?
        ((({ policy } : Options).checkProgram "main" rarely).run ({} : Options).newLog).1 =
          none := by
  have distinct : rarely.DistinctBlocks := by
    unfold Program.DistinctBlocks
    decide
  refine ⟨rfl, distinct, rarely_formed, fun policy => ?_⟩
  exact (no_false_rejections.2 rarely { policy } "main" .standard _ rfl distinct rarely_formed).2

end Samo
