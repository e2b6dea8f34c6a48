import Samo.Proofs.Places
import Samo.Proofs.Typing

/-!
# Symbols that are added

A declaration under any policy puts at most one symbol into the current scope, and only if its name
was free. `SymbolTable.Adds` lists the symbols that are added one after the other; it says what they
are, where `SymbolTable.Declares` only has their names. The parameters of a function are added in a
scope of their own, which is left before the function is declared and resumed by its body
(`SymbolTable.enter_resumeLast`).
-/

namespace Samo

/-- A function with the name, the parameters and the result that a header gives. -/
structure Header.Describes (h : Header) (f : Function) : Prop where
  name : f.name = h.name
  params : f.params.map (fun q => (q.name, TypeName.value q.type)) =
    h.params.map (fun p => (p.name, p.type))
  returns : f.returns = h.result

namespace SymbolTable

/-- A declaration opens no scope. -/
theorem length_row_insert (t : SymbolTable) (symbol : Symbol) (depth : Nat) :
    ((t.insert symbol).row depth).length = (t.row depth).length := by
  unfold insert insert?
  cases t.lookupAt t.current symbol.name with
  | some known => rfl
  | none =>
      rw [Option.getD_some, row_modifyScope]
      split
      · exact List.length_modify ..
      · rfl

/-- Symbols are put into the current scope one after the other, each under a name that is free. -/
inductive Adds : SymbolTable → List Symbol → SymbolTable → Prop
  | nil {t} : Adds t [] t
  | cons {t t' symbol symbols} : t.isBuiltin symbol.name = false → t.lookup symbol.name = none →
      Adds (t.insert symbol) symbols t' → Adds t (symbol :: symbols) t'

namespace Adds

variable {t t₁ t' : SymbolTable} {symbols symbols' : List Symbol}

theorem one {symbol : Symbol} (allowed : t.isBuiltin symbol.name = false)
    (fresh : t.lookup symbol.name = none) : t.Adds [symbol] (t.insert symbol) :=
  .cons allowed fresh .nil

theorem trans (first : t.Adds symbols t₁) (second : t₁.Adds symbols' t') :
    t.Adds (symbols ++ symbols') t' := by
  induction first with
  | nil => exact second
  | cons allowed fresh _ ih => exact .cons allowed fresh (ih second)

theorem declares (wf : t.WellFormed) (adds : t.Adds symbols t') :
    t.Declares t' (symbols.map Symbol.name) [] := by
  induction adds with
  | nil => exact .refl wf
  | cons allowed fresh _ ih =>
      have first := Declares.insert wf fresh allowed
      exact first.trans (ih first.wellFormed)

/-- No scope is opened. -/
theorem missing (wf : t.WellFormed) (adds : t.Adds symbols t') {c : Coordinates}
    (none : t.scope? c = none) : t'.scope? c = .none := by
  induction adds with
  | nil => exact none
  | cons allowed fresh _ ih =>
      apply ih (wf.insert fresh allowed)
      rw [scope?_insert wf fresh, none]
      split
      · rfl
      · rfl

theorem length_row (adds : t.Adds symbols t') (depth : Nat) :
    (t'.row depth).length = (t.row depth).length := by
  induction adds with
  | nil => rfl
  | cons _ _ _ ih => rw [ih, length_row_insert]

/-- The current scope has the symbols behind those it had. -/
theorem scope (wf : t.WellFormed) (adds : t.Adds symbols t') {s : Scope}
    (here : t.currentScope? = some s) :
    t'.currentScope? = some { s with symbols := s.symbols ++ symbols.map (·.settle t.current) } := by
  induction adds generalizing s with
  | nil => rw [here, List.map_nil, List.append_nil]
  | @cons t t' symbol symbols allowed fresh _ ih =>
      have first := Declares.insert wf fresh allowed
      have there : (t.insert symbol).currentScope? = some (s.add symbol) := by
        rw [currentScope?, first.current, scope?_insert wf fresh, if_pos rfl]
        exact congrArg (Option.map _) here
      have coords : s.coords = t.current := wf.coords _ _ here
      rw [ih first.wellFormed there, first.current]
      simp [Scope.add, coords]

/-- A symbol that is added is found under its name. -/
theorem lookup_one {symbol : Symbol} (wf : t.WellFormed) (adds : t.Adds [symbol] t') :
    t'.lookup symbol.name = some (symbol.settle t.current) := by
  cases adds with
  | cons allowed fresh rest =>
      cases rest
      exact lookup_insert wf fresh (wf.insert fresh allowed)

end Adds

end SymbolTable

namespace Check

variable {s s' : State}

/-! ## What changes -/

/--
What statements of one block do to a state: they declare names in the current scope and register
their blocks, and stay in the function and in the loops.
-/
structure Passes (s s' : State) (names : List String) (starts : List Pos) : Prop where
  table : s.symbols.Declares s'.symbols names starts
  policy : s'.engine.policy = s.engine.policy
  function : s'.currentFunction = s.currentFunction
  loops : s'.loopDepth = s.loopDepth

namespace Passes

theorem of_readsTable {α : Type} {m : Check α} {a : α} (reads : ReadsTable m)
    (wf : s.symbols.WellFormed) (run : m s = .ok a s') : Passes s s' [] [] := by
  obtain ⟨policy, same⟩ := reads.kept run
  refine ⟨?_, policy, by rw [same], by rw [same]⟩
  rw [same]
  exact .refl wf

theorem trans {s₁ s₂ s₃ : State} {names names' : List String} {starts starts' : List Pos}
    (first : Passes s₁ s₂ names starts) (second : Passes s₂ s₃ names' starts') :
    Passes s₁ s₃ (names ++ names') (starts ++ starts') :=
  ⟨first.table.trans second.table, second.policy.trans first.policy,
    second.function.trans first.function, second.loops.trans first.loops⟩

end Passes

/-! ## Declarations under any policy -/

/-- Symbols are added, and nothing else changes that a later step could notice. -/
structure Adds (s s' : State) (symbols : List Symbol) : Prop where
  table : s.symbols.Adds symbols s'.symbols
  policy : s'.engine.policy = s.engine.policy
  function : s'.currentFunction = s.currentFunction
  loops : s'.loopDepth = s.loopDepth

namespace Adds

theorem of_readsTable {α : Type} {m : Check α} {a : α} (reads : ReadsTable m)
    (run : m s = .ok a s') : Adds s s' [] := by
  obtain ⟨policy, same⟩ := reads.kept run
  refine ⟨?_, policy, by rw [same], by rw [same]⟩
  rw [same]
  exact .nil

theorem trans {s₁ : State} {symbols symbols' : List Symbol} (first : Adds s s₁ symbols)
    (second : Adds s₁ s' symbols') : Adds s s' (symbols ++ symbols') :=
  ⟨first.table.trans second.table, second.policy.trans first.policy,
    second.function.trans first.function, second.loops.trans first.loops⟩

theorem passes {symbols : List Symbol} (wf : s.symbols.WellFormed) (adds : Adds s s' symbols) :
    Passes s s' (symbols.map Symbol.name) [] :=
  ⟨adds.table.declares wf, adds.policy, adds.function, adds.loops⟩

end Adds

/-- A name that can be declared is free. One that cannot is no end if reports are collected. -/
theorem checkDeclarable_cases {pos : Pos} {name : String} {free : Bool}
    (run : checkDeclarable pos name s = .ok free s') :
    (free = true ∧ s' = s ∧ s.symbols.isBuiltin name = false ∧ s.symbols.lookup name = none) ∨
      (free = false ∧ s.engine.policy ≠ .stop) := by
  unfold checkDeclarable at run
  rw [bind_ok (symbols_run s)] at run
  by_cases builtin : s.symbols.isBuiltin name = true
  · rw [if_pos builtin] at run
    obtain ⟨u, s₁, reported, given⟩ := bind_eq_ok_iff.mp run
    exact .inr ⟨(pure_eq_ok_iff.mp given).1.symm, fun stop => fatal_ne_ok stop reported⟩
  · rw [if_neg builtin, bind_ok (lookup_run name s)] at run
    cases known : s.symbols.lookup name with
    | some symbol =>
        rw [known] at run
        obtain ⟨u, s₁, reported, given⟩ := bind_eq_ok_iff.mp run
        exact .inr ⟨(pure_eq_ok_iff.mp given).1.symm, fun stop => fatal_ne_ok stop reported⟩
    | none =>
        rw [known] at run
        obtain ⟨rfl, rfl⟩ := pure_eq_ok_iff.mp run
        exact .inl ⟨rfl, rfl, Bool.eq_false_iff.mpr builtin, rfl⟩

theorem declareVariable_adds {v : Variable} (allowed : s.symbols.isBuiltin v.name = false)
    (fresh : s.symbols.lookup v.name = none) (run : declareVariable v s = .ok () s') :
    Adds s s' [.var v] := by
  cases run
  exact ⟨.one allowed fresh, rfl, rfl, rfl⟩

/-- A variable with an initial value has the name and the type that it had before. -/
theorem initialise_kept {v v' : Variable} {e : Expr} {pos : Pos}
    (run : initialise v e pos s = .ok v' s') : v'.name = v.name ∧ v'.type = v.type := by
  unfold initialise at run
  obtain ⟨fits, s₁, -, run⟩ := bind_eq_ok_iff.mp run
  split at run
  · unfold foldInto at run
    obtain ⟨folds, s₂, -, run⟩ := bind_eq_ok_iff.mp run
    dsimp only at run
    split at run
    · cases known : e.known? ({ v with initialised := true } : Variable).type with
      | none =>
          rw [known] at run
          obtain ⟨rfl, -⟩ := pure_eq_ok_iff.mp run
          exact ⟨rfl, rfl⟩
      | some value =>
          rw [known] at run
          obtain ⟨rfl, -⟩ := pure_eq_ok_iff.mp run
          refine ⟨rfl, ?_⟩
          unfold Expr.known? at known
          split at known
          · split at known
            · next same =>
              cases known
              exact same
            · cases known
          · cases known
    · obtain ⟨rfl, -⟩ := pure_eq_ok_iff.mp run
      exact ⟨rfl, rfl⟩
  · obtain ⟨rfl, -⟩ := pure_eq_ok_iff.mp run
    exact ⟨rfl, rfl⟩

/-- The variable that is declared once its name was found to be free. -/
theorem declares_cases (namePos : Pos) (name : String) {m : Check Variable} (reads : ReadsTable m)
    (named : ∀ {s v s'}, m s = .ok v s' → v.name = name)
    (run : (do if ← checkDeclarable namePos name then declareVariable (← m)) s = .ok () s') :
    (s.engine.policy ≠ .stop ∧ Adds s s' []) ∨
      ∃ v s₁, m s = .ok v s₁ ∧ Adds s s' [.var v] := by
  obtain ⟨free, s₁, declarable, rest⟩ := bind_eq_ok_iff.mp run
  have first := Adds.of_readsTable (.checkDeclarable namePos name) declarable
  rcases checkDeclarable_cases declarable with ⟨rfl, rfl, allowed, fresh⟩ | ⟨rfl, collects⟩
  · obtain ⟨v, s₂, made, declared⟩ := bind_eq_ok_iff.mp rest
    rw [← named made, (reads.alike made).table] at allowed fresh
    exact .inr ⟨v, s₂, made,
      (Adds.of_readsTable reads made).trans (declareVariable_adds allowed fresh declared)⟩
  · exact .inl ⟨collects, first.trans (.of_readsTable (.pure ()) rest)⟩

theorem checkDeclaration_cases {pos namePos : Pos} {type : TypeName} {name : String}
    {init : Option Expr} (run : checkDeclaration pos type namePos name init s = .ok () s') :
    (s.engine.policy ≠ .stop ∧ Adds s s' []) ∨
      ∃ t v s₁, type = .value t ∧ Adds s s' [.var v] ∧
        init.elim (Pure.pure { Variable.fresh t name namePos.line with known := true })
          (initialise (.fresh t name namePos.line) · namePos) s = .ok v s₁ := by
  unfold checkDeclaration at run
  cases type with
  | void =>
      exact .inl ⟨fun stop => fatal_ne_ok stop run, .of_readsTable (.fatal pos .voidVariable) run⟩
  | value type =>
      cases init with
      | none =>
          have run : (do if ← checkDeclarable namePos name then declareVariable (← Pure.pure
              { Variable.fresh type name namePos.line with known := true })) s = .ok () s' := by
            simpa only [pure_bind] using run
          refine (declares_cases namePos name (.pure _) (fun made => ?_) run).imp_right ?_
          · rw [← (pure_eq_ok_iff.mp made).1]
            rfl
          · rintro ⟨v, s₁, made, adds⟩
            exact ⟨type, v, s₁, rfl, adds, made⟩
      | some e =>
          refine (declares_cases namePos name (.initialise _ e namePos)
            (fun made => (initialise_kept made).1) run).imp_right ?_
          rintro ⟨v, s₁, made, adds⟩
          exact ⟨type, v, s₁, rfl, adds, made⟩

theorem checkInference_cases {namePos : Pos} {name : String} {init : Expr}
    (run : checkInference namePos name init s = .ok () s') :
    (s.engine.policy ≠ .stop ∧ Adds s s' []) ∨
      ∃ t v s₁ s₂, s.Alike s₁ ∧ Adds s s' [.var v] ∧
        initialise { Variable.fresh t name namePos.line with inferred := true } init namePos s₁ =
          .ok v s₂ := by
  unfold checkInference at run
  obtain ⟨found, s₁, detected, run⟩ := bind_eq_ok_iff.mp run
  have alike := init.detect_readsTable.alike detected
  have asked := Adds.of_readsTable init.detect_readsTable detected
  have reported : ∀ {p}, fatal namePos p s₁ = .ok () s' →
      s.engine.policy ≠ .stop ∧ Adds s s' [] := fun run =>
    ⟨fun stop => fatal_ne_ok (asked.policy.trans stop) run,
      asked.trans (.of_readsTable (.fatal _ _) run)⟩
  split at run
  · exact .inl (reported run)
  cases valued : found.type.value? with
  | none =>
      rw [valued] at run
      exact .inl (reported run)
  | some type =>
      rw [valued] at run
      rcases declares_cases namePos name (.initialise _ init namePos)
        (fun made => (initialise_kept made).1) run with ⟨collects, adds⟩ | ⟨v, s₂, made, adds⟩
      · exact .inl ⟨fun stop => collects (asked.policy.trans stop), asked.trans adds⟩
      · exact .inr ⟨type, v, s₁, s₂, alike, asked.trans adds, made⟩

/-! ## Parameters -/

end Check

/-- The variable of a parameter: nothing is known of its value. -/
def Param.Describes (p : Param) (symbol : Symbol) : Prop :=
  ∃ type, p.type = .value type ∧ symbol = .var (.fresh type p.name p.namePos.line)

namespace Param

variable {ps : List Param} {symbols : List Symbol}

theorem names_eq (described : List.Forall₂ Describes ps symbols) :
    symbols.map Symbol.name = ps.map (·.name) := by
  induction described with
  | nil => rfl
  | cons first _ ih =>
      obtain ⟨type, -, rfl⟩ := first
      rw [List.map_cons, List.map_cons, ih]
      rfl

theorem exists_var (described : List.Forall₂ Describes ps symbols) {symbol : Symbol}
    (member : symbol ∈ symbols) : ∃ v, symbol = .var v := by
  induction described with
  | nil => cases member
  | cons first _ ih =>
      rcases List.mem_cons.mp member with rfl | member
      · obtain ⟨type, -, rfl⟩ := first
        exact ⟨_, rfl⟩
      · exact ih member

end Param

namespace Check

variable {s s' : State}

theorem declareParam_adds {function : String} {p : Param} {found : Option Parameter}
    (run : declareParam function p s = .ok found s') :
    ∃ symbols, Adds s s' symbols ∧ (s.engine.policy = .stop → found.isSome = true) ∧
      ∀ q, found = some q → (q.name, TypeName.value q.type) = (p.name, p.type) ∧
        ∃ symbol, symbols = [symbol] ∧ p.Describes symbol := by
  unfold declareParam at run
  cases written : p.type with
  | void =>
      rw [written] at run
      obtain ⟨u, s₁, reported, given⟩ := bind_eq_ok_iff.mp run
      obtain ⟨rfl, rfl⟩ := pure_eq_ok_iff.mp given
      exact ⟨[], .of_readsTable (.fatal _ _) reported,
        fun stop => absurd reported (fatal_ne_ok stop), by simp⟩
  | value type =>
      rw [written] at run
      obtain ⟨free, s₁, declarable, rest⟩ := bind_eq_ok_iff.mp run
      have first := Adds.of_readsTable (.checkDeclarable p.namePos p.name) declarable
      rcases checkDeclarable_cases declarable with ⟨rfl, rfl, allowed, fresh⟩ | ⟨rfl, collects⟩
      · rw [if_pos rfl, bind_ok (modifySymbols_run _ s₁)] at rest
        obtain ⟨rfl, rfl⟩ := pure_eq_ok_iff.mp rest
        let v := Symbol.var (Variable.fresh type p.name p.namePos.line)
        refine ⟨[v], ⟨.one allowed fresh, rfl, rfl, rfl⟩, fun _ => rfl, ?_⟩
        intro q same
        cases same
        exact ⟨rfl, v, rfl, type, written, rfl⟩
      · obtain ⟨rfl, rfl⟩ := pure_eq_ok_iff.mp rest
        exact ⟨[], first, fun stop => absurd stop collects, by simp⟩

/-- The parameters that are declared; if none is wrong, they are all there. -/
theorem declareParams_adds {function : String} {ps : List Param}
    {found : Option (List Parameter)} (run : declareParams function ps s = .ok found s') :
    ∃ symbols, Adds s s' symbols ∧ (s.engine.policy = .stop → found.isSome = true) ∧
      ∀ qs, found = some qs →
        qs.map (fun q => (q.name, TypeName.value q.type)) = ps.map (fun p => (p.name, p.type)) ∧
          List.Forall₂ Param.Describes ps symbols := by
  induction ps generalizing s s' found with
  | nil =>
      obtain ⟨rfl, rfl⟩ := pure_eq_ok_iff.mp run
      refine ⟨[], .of_readsTable (.pure ()) (pure_run _ _), fun _ => rfl, ?_⟩
      intro qs same
      cases same
      exact ⟨rfl, .nil⟩
  | cons p ps ih =>
      unfold declareParams at run
      obtain ⟨first, s₁, declared, run⟩ := bind_eq_ok_iff.mp run
      obtain ⟨others, s₂, declared', given⟩ := bind_eq_ok_iff.mp run
      obtain ⟨rfl, rfl⟩ := pure_eq_ok_iff.mp given
      obtain ⟨symbols, adds, given, right⟩ := declareParam_adds declared
      obtain ⟨symbols', adds', given', right'⟩ := ih declared'
      refine ⟨symbols ++ symbols', adds.trans adds', fun stop => ?_, ?_⟩
      · obtain ⟨q, rfl⟩ := Option.isSome_iff_exists.mp (given stop)
        obtain ⟨qs, rfl⟩ := Option.isSome_iff_exists.mp (given' (adds.policy.trans stop))
        rfl
      intro qs both
      obtain ⟨q, rfl, both⟩ := Option.bind_eq_some_iff.mp both
      obtain ⟨qs, rfl, rfl⟩ := Option.map_eq_some_iff.mp both
      obtain ⟨same, symbol, rfl, describes⟩ := right q rfl
      obtain ⟨same', describes'⟩ := right' qs rfl
      refine ⟨?_, .cons describes describes'⟩
      rw [List.map_cons, List.map_cons, same, same']

/-- The state in which the parameters of a function are declared: they have a scope of their own. -/
def State.declaring (s : State) (h : Header) : State :=
  { s with
    log := s.log.debug s!"Checking function '{h.name}'"
    symbols := s.symbols.enter .new }

/--
The start of a function that is not rejected: the parameters are added in a scope below, which is
left again, and the function is declared.
-/
structure Begins (h : Header) (s s' : State) (f : Function) (t : SymbolTable)
    (params : List Symbol) : Prop where
  outside : s.currentFunction = none
  describes : h.Describes f
  line : f.line = h.namePos.line
  home : f.home = s.symbols.current
  allowed : s.symbols.isBuiltin (Symbol.fn f).name = false
  fresh : s.symbols.lookup (Symbol.fn f).name = none
  declared : ∃ qs r, declareParams h.name h.params (s.declaring h) = .ok (some qs) r ∧ r.symbols = t
  adds : (s.symbols.enter .new).Adds params t
  params : List.Forall₂ Param.Describes h.params params
  table : s'.symbols = t.leave.insert (.fn f)
  policy : s'.engine.policy = s.engine.policy
  function : s'.currentFunction = s.currentFunction
  loops : s'.loopDepth = s.loopDepth

theorem beginFunction_cases {pos : Pos} {h : Header} {found : Option Function}
    (wf : s.symbols.WellFormed) (run : beginFunction pos h s = .ok found s') :
    (found = none ∧ Passes s s' [] []) ∨
      ∃ f t params, found = some f ∧ Begins h s s' f t params := by
  unfold beginFunction at run
  rw [bind_ok (get_run s)] at run
  split at run
  · obtain ⟨u, s₁, reported, given⟩ := bind_eq_ok_iff.mp run
    obtain ⟨rfl, rfl⟩ := pure_eq_ok_iff.mp given
    exact .inl ⟨rfl, .of_readsTable (.fatal _ _) wf reported⟩
  next outside =>
  rw [bind_ok (symbols_run s)] at run
  by_cases builtin : s.symbols.isBuiltin h.name = true
  · rw [if_pos builtin] at run
    obtain ⟨u, s₁, reported, given⟩ := bind_eq_ok_iff.mp run
    obtain ⟨rfl, rfl⟩ := pure_eq_ok_iff.mp given
    exact .inl ⟨rfl, .of_readsTable (.fatal _ _) wf reported⟩
  rw [if_neg builtin, bind_ok (lookup_run h.name s)] at run
  cases fresh : s.symbols.lookup h.name with
  | some previous =>
      rw [fresh] at run
      obtain ⟨u, s₁, reported, given⟩ := bind_eq_ok_iff.mp run
      obtain ⟨rfl, rfl⟩ := pure_eq_ok_iff.mp given
      exact .inl ⟨rfl, .of_readsTable (.fatal _ _) wf reported⟩
  | none =>
      rw [fresh] at run
      obtain ⟨u, s₁, logged, run⟩ := bind_eq_ok_iff.mp run
      obtain ⟨u, s₂, entered, run⟩ := bind_eq_ok_iff.mp run
      obtain ⟨params, s₃, declared, run⟩ := bind_eq_ok_iff.mp run
      obtain ⟨u, s₄, left, run⟩ := bind_eq_ok_iff.mp run
      -- logging, entering and leaving cannot fail, so their ends are known
      cases logged
      cases entered
      cases left
      obtain ⟨symbols, adds, -, right⟩ := declareParams_adds declared
      have names := adds.table.declares (SymbolTable.Opens.enter wf).wellFormed
      cases params with
      | none =>
          obtain ⟨rfl, rfl⟩ := pure_eq_ok_iff.mp run
          exact .inl ⟨rfl, .of_leave_params wf names, adds.policy, adds.function, adds.loops⟩
      | some qs =>
          obtain ⟨same, described⟩ := right qs rfl
          obtain ⟨t, s₅, read, run⟩ := bind_eq_ok_iff.mp run
          obtain ⟨u, s₆, inserted, given⟩ := bind_eq_ok_iff.mp run
          cases read
          cases inserted
          obtain ⟨rfl, rfl⟩ := pure_eq_ok_iff.mp given
          have current : s₃.symbols.leave.current = s.symbols.current := by
            rw [(SymbolTable.leave_params wf names).1]
          exact .inr ⟨_, s₃.symbols, symbols, rfl, by simpa using outside, ⟨rfl, same, rfl⟩, rfl,
            current, Bool.eq_false_iff.mpr builtin, fresh, ⟨qs, s₃, declared, rfl⟩, adds.table,
            described, rfl, adds.policy, adds.function, adds.loops⟩

namespace Begins

variable {h : Header} {f : Function} {t : SymbolTable} {params : List Symbol}

/-- The function is declared in the current scope. -/
theorem named (wf : s.symbols.WellFormed) (begins : Begins h s s' f t params) :
    s.symbols.Declares (s.symbols.insert (.fn f)) [h.name] [] := by
  rw [← begins.describes.name]
  exact .insert wf begins.fresh begins.allowed

/-- The function is found under its name. -/
theorem found (wf : s.symbols.WellFormed) (begins : Begins h s s' f t params) :
    ∃ f', (s.symbols.insert (.fn f)).lookup h.name = some (.fn f') ∧ h.Describes f' := by
  rw [← begins.describes.name]
  exact ⟨_, SymbolTable.lookup_insert wf begins.fresh (begins.named wf).wellFormed,
    begins.describes.name, begins.describes.params, begins.describes.returns⟩

/-- The body of the function resumes the scope of the parameters, below the function's own name. -/
theorem opens (wf : s.symbols.WellFormed) (begins : Begins h s s' f t params) :
    (s.symbols.insert (.fn f)).Opens (s'.symbols.enter .resumeLast) h.paramNames := by
  have entered := (SymbolTable.Opens.enter wf).wellFormed
  rw [begins.table, Header.paramNames, ← Param.names_eq begins.params]
  exact (SymbolTable.Opens.resume wf begins.fresh begins.allowed
    (begins.adds.declares entered) fun c => begins.adds.missing entered).2.1

/-- The scope of the parameters, when it is left and when it is resumed. -/
theorem scope (wf : s.symbols.WellFormed) (begins : Begins h s s' f t params) :
    let c := (s.symbols.enter .new).current
    let scope : Scope := ⟨c, some s.symbols.current, params.map (·.settle c)⟩
    t.currentScope? = some scope ∧ (s'.symbols.enter .resumeLast).currentScope? = some scope ∧
      (s'.symbols.enter .resumeLast).current = c := by
  intro c scope
  have opens := SymbolTable.Opens.enter wf
  have left : t.currentScope? = some scope :=
    begins.adds.scope opens.wellFormed (SymbolTable.currentScope?_enter_new wf)
  obtain ⟨resumed, last⟩ := SymbolTable.enter_resumeLast wf begins.fresh
    begins.allowed (begins.adds.declares opens.wellFormed) fun c =>
      begins.adds.missing opens.wellFormed
  rw [begins.table, resumed]
  exact ⟨left, last.trans left, rfl⟩

theorem names_eq (begins : Begins h s s' f t params) :
    params.map Symbol.name = f.params.map (·.name) := by
  have written : f.params.map (·.name) = h.params.map (·.name) := by
    have both := congrArg (List.map Prod.fst) begins.describes.params
    simpa [Function.comp_def] using both
  rw [written]
  exact Param.names_eq begins.params

/-- The parameters are variables. -/
theorem exists_var (begins : Begins h s s' f t params) {c : Coordinates} {symbol : Symbol}
    (member : symbol ∈ params.map (·.settle c)) : ∃ v, symbol = .var v ∧ v.home = c := by
  obtain ⟨param, listed, rfl⟩ := List.mem_map.mp member
  obtain ⟨v, rfl⟩ := Param.exists_var begins.params listed
  exact ⟨_, rfl, rfl⟩

end Begins

end Check

end Samo
