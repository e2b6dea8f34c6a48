import Samo.Proofs.Acceptance
import Samo.Proofs.Additions
import Samo.Proofs.Moments

/-!
# No name hides another

`SymbolTable.bound` lists what a name is bound to in the scopes from the current one outwards. A
declaration binds only names that are bound to nothing (`SymbolTable.Unhiding`), whatever else is
wrong with it and whatever is reported. So at every moment of a check each name is bound at most
once, but for one case: the name of a function is still free when its parameters are declared, so a
parameter may have it.
-/

namespace Samo

namespace SymbolTable

variable {t t' : SymbolTable}

/-- What a name is bound to in the scopes from the current one outwards, innermost first. -/
def bound (t : SymbolTable) (name : String) : List Symbol :=
  (t.visibleFrom t.current).flatMap fun s => s.symbols.filter (·.name == name)

theorem lookup_eq_head? (t : SymbolTable) (name : String) :
    t.lookup name = (t.bound name).head? := by
  unfold lookup lookupFrom bound
  induction t.visibleFrom t.current with
  | nil => rfl
  | cons s ss ih =>
      rw [List.findSome?_cons, List.flatMap_cons, List.head?_append, List.head?_filter, Scope.find?]
      cases s.symbols.find? (·.name == name) with
      | some symbol => rfl
      | none => simpa using ih

theorem bound_eq_nil_iff {name : String} : t.bound name = [] ↔ t.lookup name = none := by
  rw [lookup_eq_head?, List.head?_eq_none_iff]

/-- What is bound in a scope: its own, and what is bound around it. -/
theorem bound_of_parent (wf : t.WellFormed) {s : Scope} (here : t.currentScope? = some s)
    (name : String) : t.bound name = s.symbols.filter (·.name == name) ++
      (s.parent.elim [] t.visibleFrom).flatMap fun s => s.symbols.filter (·.name == name) := by
  rw [bound, visibleFrom_eq wf here, List.flatMap_cons]

theorem bound_insert (wf : t.WellFormed) {symbol : Symbol}
    (allowed : t.isBuiltin symbol.name = false) (fresh : t.lookup symbol.name = none)
    (name : String) : (t.insert symbol).bound name =
      if name = symbol.name then [symbol.settle t.current] else t.bound name := by
  obtain ⟨s, here⟩ := wf.current
  have coords : s.coords = t.current := wf.coords _ _ here
  have current : (t.insert symbol).current = t.current :=
    (Declares.insert wf fresh allowed).current
  have before := bound_of_parent wf here name
  rw [bound, current, visibleFrom_insert wf fresh allowed here, List.flatMap_cons, Scope.add,
    coords, List.filter_append, List.append_assoc]
  split
  · next same =>
    subst same
    have nothing := bound_eq_nil_iff.mpr fresh
    rw [before, List.append_eq_nil_iff] at nothing
    rw [nothing.1, nothing.2]
    simp
  · next other =>
    have none : [symbol.settle t.current].filter (·.name == name) = [] := by
      simp [Ne.symm other]
    rw [none, List.nil_append, before]

theorem bound_enter (wf : t.WellFormed) (name : String) :
    (t.enter .new).bound name = t.bound name := by
  rw [bound, (Opens.enter wf).visibleFrom_current wf (currentScope?_enter_new wf)]
  rfl

/-! ## Names that are bound once -/

/-- A later table with the same current scope, in which only names are new that were bound to
nothing. -/
structure Unhiding (t t' : SymbolTable) : Prop where
  declares : ∃ names starts, t.Declares t' names starts
  bound : ∀ name, t'.bound name = t.bound name ∨
    t.bound name = [] ∧ (t'.bound name).length ≤ 1

namespace Unhiding

/-- Blocks and rejected functions bind nothing around them. -/
theorem of_declares {starts : List Pos} (wf : t.WellFormed) (declares : t.Declares t' [] starts) :
    t.Unhiding t' := by
  refine ⟨⟨[], starts, declares⟩, fun name => .inl ?_⟩
  rw [SymbolTable.bound, SymbolTable.bound, declares.visibleFrom_current wf]

theorem trans {t₁ : SymbolTable} (first : t.Unhiding t₁) (second : t₁.Unhiding t') :
    t.Unhiding t' := by
  obtain ⟨names, starts, declares⟩ := first.declares
  obtain ⟨names', starts', declares'⟩ := second.declares
  refine ⟨⟨_, _, declares.trans declares'⟩, fun name => ?_⟩
  rcases first.bound name with same | ⟨nothing, once⟩
  · rcases second.bound name with same' | ⟨nothing', once'⟩
    · exact .inl (same'.trans same)
    · exact .inr ⟨same.symm.trans nothing', once'⟩
  · rcases second.bound name with same' | ⟨-, once'⟩
    · exact .inr ⟨nothing, by rw [same']; exact once⟩
    · exact .inr ⟨nothing, once'⟩

theorem insert (wf : t.WellFormed) {symbol : Symbol} (allowed : t.isBuiltin symbol.name = false)
    (fresh : t.lookup symbol.name = none) : t.Unhiding (t.insert symbol) := by
  refine ⟨⟨_, _, .insert wf fresh allowed⟩, fun name => ?_⟩
  rw [bound_insert wf allowed fresh]
  split
  · next same =>
    rw [same]
    exact .inr ⟨bound_eq_nil_iff.mpr fresh, by simp⟩
  · exact .inl rfl

theorem of_adds {symbols : List Symbol} (wf : t.WellFormed) (adds : t.Adds symbols t') :
    t.Unhiding t' := by
  induction adds with
  | nil => exact .of_declares wf (.refl wf)
  | cons allowed fresh _ ih =>
      exact (Unhiding.insert wf allowed fresh).trans (ih (wf.insert fresh allowed))

theorem wellFormed (unhiding : t.Unhiding t') : t'.WellFormed := by
  obtain ⟨names, starts, declares⟩ := unhiding.declares
  exact declares.wellFormed

end Unhiding

end SymbolTable

namespace Check

variable {α β : Type} {s s' : State}

/-! ## Steps that hide nothing -/

/-- A step in the current scope that hides nothing and stays in the function. -/
structure Unhides (s s' : State) : Prop where
  table : s.symbols.Unhiding s'.symbols
  function : s'.currentFunction = s.currentFunction

theorem Unhides.trans {s₁ : State} (first : Unhides s s₁) (second : Unhides s₁ s') :
    Unhides s s' :=
  ⟨first.table.trans second.table, second.function.trans first.function⟩

theorem Unhides.of_passes {starts : List Pos} (wf : s.symbols.WellFormed)
    (passes : Passes s s' [] starts) : Unhides s s' :=
  ⟨.of_declares wf passes.table, passes.function⟩

/-- A step that hides nothing, from wherever it starts. -/
def Modest (m : Check α) : Prop :=
  ∀ s s' a, s.symbols.WellFormed → m s = .ok a s' → Unhides s s'

namespace Modest

theorem of_readsTable {m : Check α} (reads : ReadsTable m) : Modest m := by
  intro s s' a wf run
  exact .of_passes wf (.of_readsTable reads wf run)

theorem bind {m : Check α} {f : α → Check β} (first : Modest m) (second : ∀ a, Modest (f a)) :
    Modest (m >>= f) := by
  intro s s' b wf run
  obtain ⟨a, s₁, ran, run⟩ := bind_eq_ok_iff.mp run
  have unhides := first s s₁ a wf ran
  exact unhides.trans (second a s₁ s' b unhides.table.wellFormed run)

theorem get {f : State → Check α} (all : ∀ s, Modest (f s)) : Modest (MonadState.get >>= f) := by
  intro s s' a wf run
  rw [bind_ok (get_run s)] at run
  exact all s s s' a wf run

theorem warn (pos : Pos) (p : Problem) : Modest (warn pos p) := by
  intro s s' a wf run
  exact .of_passes wf ((Unobtrusive.warn pos p).passes wf run)

theorem stating : Stating (fun _ => True) @Modest where
  ask question := of_readsTable question.readsTable
  bind := bind
  look _ each := get each
  declaration _ _ _ _ _ _ s s' a wf run := by
    rcases checkDeclaration_cases run with ⟨-, adds⟩ | ⟨t, v, s₁, -, adds, -⟩
    · exact ⟨.of_adds wf adds.table, adds.function⟩
    · exact ⟨.of_adds wf adds.table, adds.function⟩
  inference _ _ _ _ s s' a wf run := by
    rcases checkInference_cases run with ⟨-, adds⟩ | ⟨t, v, s₁, s₂, -, adds, -⟩
    · exact ⟨.of_adds wf adds.table, adds.function⟩
    · exact ⟨.of_adds wf adds.table, adds.function⟩

theorem checkAlternatives (pos : Pos) (body : Stmt) (otherwisePos : Pos) (alternative : Stmt) :
    Modest (checkAlternatives pos body otherwisePos alternative) :=
  stating.checkAlternatives (warn _ _) trivial trivial body alternative

theorem inLoop {m : Check Unit} (inner : Modest m) : Modest (inLoop m) := by
  intro s s' a wf run
  obtain ⟨s₁, ran, rfl⟩ := inLoop_ok run
  obtain ⟨table, function⟩ := inner _ s₁ () (by exact wf) ran
  exact ⟨table, function⟩

theorem inUncertainty {m : Check Unit} (inner : Modest m) : Modest (inUncertainty m) := by
  intro s s' a wf run
  obtain ⟨s₁, ran, rfl⟩ := inUncertainty_ok run
  obtain ⟨table, function⟩ := inner _ s₁ () (by exact wf) ran
  exact ⟨table, function⟩

theorem endFunction (h : Header) (body : Block) (f : Function) : Modest (endFunction h body f) := by
  refine stating.endFunction trivial body.within_anywhere f
    (of_readsTable (.checkReturns h.namePos h.result.ty body)) fun s s' a wf run => ?_
  cases run
  exact ⟨.of_declares wf (.refl wf), rfl⟩

end Modest

end Check

open Check

/-- A block hides nothing around it, wherever its scope was opened, if its statements do not. -/
theorem Check.Modest.block {start final : Pos} {stmts : List Stmt}
    (inner : Modest (Stmt.checkAll stmts)) {s s' : State} {mode : EntryMode} {t : SymbolTable}
    {names : List String} (wf : t.WellFormed) (opens : t.Opens (s.symbols.enter mode) names)
    (run : (Block.mk start final stmts).check mode s = .ok () s') :
    t.Unhiding s'.symbols ∧ s'.currentFunction = s.currentFunction := by
  obtain ⟨s₁, checked, rfl⟩ := Block.check_ok run
  have unhides := inner _ s₁ () (by exact opens.wellFormed) checked
  obtain ⟨names', starts, declares⟩ := unhides.table.declares
  exact ⟨.of_declares wf (opens.close wf declares start).declares, unhides.function⟩

theorem Check.Modest.walking : Walking (fun _ => True) (fun _ => True) @Modest where
  toStating := stating
  warn := warn
  definition _ _ _ _ _ _ inner s s' u wf run := by
    rw [Stmt.check] at run
    obtain ⟨found, s₁, begun, run⟩ := bind_eq_ok_iff.mp run
    rcases beginFunction_cases wf begun with ⟨rfl, passes⟩ | ⟨f, t, params, rfl, begins⟩
    · obtain ⟨-, rfl⟩ := pure_eq_ok_iff.mp run
      exact .of_passes wf passes
    · obtain ⟨u, s₂, inside, ended⟩ := bind_eq_ok_iff.mp run
      obtain ⟨s₃, checked, rfl⟩ := inFunction_ok inside
      have named := SymbolTable.Unhiding.insert wf begins.allowed begins.fresh
      have opens := begins.opens wf
      obtain ⟨table, -⟩ := inner.block named.wellFormed (by exact opens) checked
      have whole : Unhides s { s₃ with currentFunction := none, loopDepth := s₁.loopDepth } :=
        ⟨named.trans table, begins.outside.symm⟩
      exact whole.trans (endFunction _ _ f _ s' () (by exact table.wellFormed) ended)
  block _ _ _ inner s s' u wf run := by
    obtain ⟨table, function⟩ := inner.block wf (.enter wf) run
    exact ⟨table, function⟩
  inLoop := inLoop
  inUncertainty := inUncertainty

/-- What statements declare hides nothing, under any policy. -/
theorem Stmt.check_modest (stmt : Stmt) : Modest stmt.check :=
  Modest.walking.stmt stmt stmt.within_anywhere fun _ _ => trivial

theorem Stmt.checkAll_modest (stmts : List Stmt) : Modest (Stmt.checkAll stmts) :=
  Modest.walking.all stmts (Stmt.all_within_anywhere stmts) fun _ _ => trivial

theorem Block.check_unhiding {s s' : State} {mode : EntryMode} {t : SymbolTable}
    {names : List String} (body : Block) (wf : t.WellFormed)
    (opens : t.Opens (s.symbols.enter mode) names) (run : body.check mode s = .ok () s') :
    t.Unhiding s'.symbols ∧ s'.currentFunction = s.currentFunction := by
  cases body with
  | mk start final stmts => exact (Stmt.checkAll_modest stmts).block wf opens run

theorem Block.check_modest (body : Block) : Modest (body.check .new) :=
  Modest.walking.body_new body body.within_anywhere fun _ _ => trivial

theorem Branches.check_modest (rest : Branches) : Modest rest.check :=
  Modest.walking.branches rest rest.within_anywhere fun _ _ => trivial

open Check

namespace Check

/-! ## States in which no name is hidden -/

/--
In the body of a function, a parameter with the name of the function: the name is bound once in the
scope of the parameters and once around it, where the function was declared.
-/
structure State.OwnParameter (s : State) (name : String) (f : Function) (v : Variable) : Prop where
  inside : s.currentFunction = some f
  named : f.name = name
  listed : name ∈ f.params.map (·.name)
  bound : s.symbols.bound name = [.var v, .fn f]
  scope : ∃ scope, s.symbols.scope? v.home = some scope ∧ scope.parent = some f.home ∧
    f.params.map (·.name) <+: scope.names ∧ .var v ∈ scope.symbols
  around : ∃ scope, s.symbols.scope? f.home = some scope ∧ .fn f ∈ scope.symbols

/--
No scope declares the name of a built-in function, and each name is bound at most once, but for the
name of a function that one of its parameters has.
-/
structure State.Unshadowed (s : State) : Prop where
  reserved : ∀ scope ∈ s.symbols.scopes, ∀ name ∈ scope.names, s.symbols.isBuiltin name = false
  once : ∀ name, (s.symbols.bound name).length ≤ 1 ∨ ∃ f v, s.OwnParameter name f v

/-- The same of a well-formed table, as the steps of a check keep it. -/
structure State.Clear (s : State) : Prop where
  wellFormed : s.symbols.WellFormed
  once : ∀ name, (s.symbols.bound name).length ≤ 1 ∨ ∃ f v, s.OwnParameter name f v

namespace State

variable {s s' : State}

theorem Clear.unshadowed (clear : s.Clear) : s.Unshadowed := by
  refine ⟨fun scope member => ?_, clear.once⟩
  obtain ⟨row, listed, member⟩ := List.mem_flatten.mp member
  obtain ⟨d, inRows⟩ := List.mem_iff_getElem?.mp listed
  obtain ⟨i, inRow⟩ := List.mem_iff_getElem?.mp member
  have found : s.symbols.scope? ⟨d, i⟩ = some scope := by
    rw [SymbolTable.scope?, SymbolTable.row, inRows]
    exact inRow
  exact clear.wellFormed.reserved ⟨d, i⟩ scope found

/-- A parameter with the function's name stays what it is when more is declared. -/
theorem OwnParameter.later {name : String} {f : Function} {v : Variable}
    (own : s.OwnParameter name f v) (function : s'.currentFunction = s.currentFunction)
    (bound : s'.symbols.bound name = s.symbols.bound name)
    (grows : s.symbols.Grows s'.symbols) : s'.OwnParameter name f v := by
  refine ⟨function.trans own.inside, own.named, own.listed, bound.trans own.bound, ?_, ?_⟩
  · obtain ⟨scope, found, above, params, member⟩ := own.scope
    obtain ⟨more, found'⟩ := grows.scopes _ _ found
    refine ⟨_, found', above, ?_, List.mem_append_left _ member⟩
    refine params.trans ?_
    rw [Scope.names, Scope.names, List.map_append]
    exact List.prefix_append _ _
  · obtain ⟨scope, found, member⟩ := own.around
    obtain ⟨more, found'⟩ := grows.scopes _ _ found
    exact ⟨_, found', List.mem_append_left _ member⟩

theorem Clear.after (clear : s.Clear) (unhides : Unhides s s') : s'.Clear := by
  obtain ⟨names, starts, declares⟩ := unhides.table.declares
  refine ⟨declares.wellFormed, fun name => ?_⟩
  rcases unhides.table.bound name with same | ⟨-, once⟩
  · rcases clear.once name with once | ⟨f, v, own⟩
    · exact .inl (by rw [same]; exact once)
    · exact .inr ⟨f, v, own.later unhides.function same declares.grows⟩
  · exact .inl once

/-- What a step of a check keeps. -/
theorem Clear.ran {α : Type} {m : Check α} {a : α} (clear : s.Clear) (modest : Modest m)
    (run : m s = .ok a s') : s'.Clear :=
  clear.after (modest s s' a clear.wellFormed run)

theorem Clear.of_same (clear : s.Clear) (table : s'.symbols = s.symbols)
    (function : s'.currentFunction = s.currentFunction) : s'.Clear := by
  refine clear.after ⟨?_, function⟩
  rw [table]
  exact .of_declares clear.wellFormed (.refl clear.wellFormed)

theorem Clear.enter (clear : s.Clear) : Clear { s with symbols := s.symbols.enter .new } := by
  have opens := SymbolTable.Opens.enter clear.wellFormed
  refine ⟨opens.wellFormed, fun name => ?_⟩
  have same : (s.symbols.enter .new).bound name = s.symbols.bound name :=
    SymbolTable.bound_enter clear.wellFormed name
  rcases clear.once name with once | ⟨f, v, own⟩
  · exact .inl (by rw [same]; exact once)
  · exact .inr ⟨f, v, own.later rfl same (opens.grows clear.wellFormed)⟩

/-- Outside of functions each name is bound at most once. -/
theorem Clear.once_outside (clear : s.Clear) (outside : s.currentFunction = none) (name : String) :
    (s.symbols.bound name).length ≤ 1 := by
  rcases clear.once name with once | ⟨f, v, own⟩
  · exact once
  · have inside := own.inside
    rw [outside] at inside
    cases inside

variable {h : Header} {f : Function} {t : SymbolTable} {params : List Symbol}

/-- What a name is bound to at the start of a function's body: a parameter, or what it was bound to
where the function was declared. -/
theorem bound_inFunction (clear : s.Clear) (begins : Begins h s s' f t params) (name : String) :
    let own := (params.map (·.settle (s.symbols.enter .new).current)).filter (·.name == name)
    (own ++ s.symbols.bound name).length ≤ 1 ∧ (s'.symbols.enter .resumeLast).bound name =
      own ++ (s.symbols.insert (.fn f)).bound name := by
  intro own
  have wf := clear.wellFormed
  have opens := SymbolTable.Opens.enter wf
  obtain ⟨left, resumed, -⟩ := begins.scope wf
  constructor
  · -- the parameters were declared where each name was bound at most once
    have once := clear.once_outside begins.outside name
    have below := opens.declares (begins.adds.declares opens.wellFormed)
    have before : t.bound name = own ++ s.symbols.bound name := by
      rw [SymbolTable.bound, below.visibleFrom_current wf left, List.flatMap_cons]
      rfl
    rw [← before]
    rcases (SymbolTable.Unhiding.of_adds opens.wellFormed begins.adds).bound name with same | new
    · rw [same, SymbolTable.bound_enter wf]
      exact once
    · exact new.2
  · have named := SymbolTable.Unhiding.insert wf begins.allowed begins.fresh
    rw [SymbolTable.bound, (begins.opens wf).visibleFrom_current named.wellFormed resumed,
      List.flatMap_cons]
    rfl

/-- A parameter that has the function's name. -/
theorem ownParameter_inFunction (clear : s.Clear) (begins : Begins h s s' f t params)
    {symbol : Symbol}
    (own : (params.map (·.settle (s.symbols.enter .new).current)).filter (·.name == f.name) =
      [symbol])
    (bound : (s'.symbols.enter .resumeLast).bound f.name = [symbol, .fn f]) :
    ∃ v, OwnParameter { s' with
      currentFunction := some f, loopDepth := 0, symbols := s'.symbols.enter .resumeLast }
        f.name f v := by
  have wf := clear.wellFormed
  obtain ⟨-, resumed, current⟩ := begins.scope wf
  have member : symbol ∈ (params.map (·.settle (s.symbols.enter .new).current)).filter
      (·.name == f.name) := by
    rw [own]
    exact List.mem_singleton.mpr rfl
  obtain ⟨listed, named⟩ := List.mem_filter.mp member
  obtain ⟨v, rfl, home⟩ := begins.exists_var listed
  have names : (params.map (·.settle (s.symbols.enter .new).current)).map Symbol.name =
      f.params.map (·.name) := by
    rw [← begins.names_eq, List.map_map]
    simp [Function.comp_def]
  rw [SymbolTable.currentScope?, current, ← home] at resumed
  rw [← home] at listed names
  refine ⟨v, rfl, rfl, ?_, bound, ⟨_, resumed, ?_, ?_, listed⟩, ?_⟩
  · rw [← names, ← beq_iff_eq.mp named]
    exact List.mem_map_of_mem listed
  · exact congrArg some begins.home.symm
  · rw [Scope.names, names]
  · obtain ⟨outer, around⟩ := wf.current
    have kept : (s.symbols.insert (.fn f)).scope? s.symbols.current = some (outer.add (.fn f)) := by
      rw [SymbolTable.scope?_insert wf begins.fresh, if_pos rfl]
      exact congrArg (Option.map _) around
    have coords : outer.coords = f.home := (wf.coords _ _ around).trans begins.home.symm
    refine ⟨outer.add (.fn f), ?_, ?_⟩
    · rw [begins.home]
      exact (begins.opens wf).kept _ _ kept
    · rw [Scope.add, coords]
      exact List.mem_append_right _ (List.mem_singleton.mpr rfl)

/-- The start of the body of a function. The function's own name is the only one that can be bound
twice. -/
theorem Clear.inFunction (clear : s.Clear) (begins : Begins h s s' f t params) :
    Clear { s' with
      currentFunction := some f, loopDepth := 0, symbols := s'.symbols.enter .resumeLast } := by
  have wf := clear.wellFormed
  refine ⟨(begins.opens wf).wellFormed, fun name => ?_⟩
  obtain ⟨once, both⟩ := bound_inFunction clear begins name
  rw [SymbolTable.bound_insert wf begins.allowed begins.fresh] at both
  by_cases own : name = (Symbol.fn f).name
  · have self : (Symbol.fn f).settle s.symbols.current = .fn f := by
      rw [← begins.home]
      rfl
    rw [if_pos own, self] at both
    obtain rfl : name = f.name := own
    have unbound : s.symbols.bound f.name = [] := SymbolTable.bound_eq_nil_iff.mpr begins.fresh
    rw [unbound, List.append_nil] at once
    match found : (params.map (·.settle (s.symbols.enter .new).current)).filter
        (·.name == f.name) with
    | [] =>
        rw [found] at both
        refine .inl ?_
        rw [both]
        exact Nat.le_refl 1
    | [symbol] =>
        rw [found] at both
        exact .inr ⟨f, ownParameter_inFunction clear begins found both⟩
    | _ :: _ :: _ =>
        rw [found] at once
        simp at once
  · rw [if_neg own] at both
    refine .inl ?_
    rw [both]
    exact once

end State

end Check

/-! ## Whole runs -/

namespace Moment

/-- What holds when the check of a part starts. A block starts with its scope. -/
def Ready (m : Moment) : Prop :=
  match m.part with
  | .block mode _ => State.Clear { m.state with symbols := m.state.symbols.enter mode }
  | _ => m.state.Clear

/-- What one step from a part to the next keeps. -/
theorem Next.ready {m m' : Moment} (next : Next m m') (ready : m.Ready) : m'.Ready := by
  cases next with
  | first => exact ready
  | @others st sts s s' done =>
      have clear : s.Clear := ready
      exact clear.ran st.check_modest done
  | enter => exact ready
  | @block body s =>
      have clear : s.Clear := ready
      exact clear.enter
  | @function pos header body s s' f begun =>
      have clear : s.Clear := ready
      -- the body is checked only if its parameters could be declared
      rcases beginFunction_cases clear.wellFormed begun with ⟨none, -⟩ | ⟨f, t, params, same, begins⟩
      · cases none
      · cases same
        have started := clear.inFunction begins
        exact started
  | @branch pos cond body rest s s' condition =>
      have clear : s.Clear := ready
      exact (clear.ran (.of_readsTable (.checkCondition pos .ifWord cond)) condition).enter
  | @arms pos cond body rest s s₁ s₂ condition done =>
      have clear : s.Clear := ready
      have clear₁ := clear.ran (.of_readsTable (.checkCondition pos .ifWord cond)) condition
      exact clear₁.ran body.check_modest done
  | @otherwise pos body s =>
      have clear : s.Clear := ready
      exact clear.enter
  | @elseIf pos cond body rest s s' condition =>
      have clear : s.Clear := ready
      exact (clear.ran (.of_readsTable (.checkCondition pos .ifWord cond)) condition).enter
  | @moreArms pos cond body rest s s₁ s₂ condition done =>
      have clear : s.Clear := ready
      have clear₁ := clear.ran (.of_readsTable (.checkCondition pos .ifWord cond)) condition
      exact clear₁.ran body.check_modest done
  | @loop pos cond body s s' condition =>
      have clear : s.Clear := ready
      have clear₁ := clear.ran (.of_readsTable (.checkCondition pos .whileWord cond)) condition
      have inside : State.Clear { s' with loopDepth := s'.loopDepth + 1 } := clear₁.of_same rfl rfl
      exact inside.enter
  | @maybe pos e body s s₁ s₂ chance probable =>
      have clear : s.Clear := ready
      have clear₁ := clear.ran (.of_readsTable (.checkProbability pos body.isCompound e)) chance
      have clear₂ := clear₁.ran (.of_readsTable (.checkProbable pos body)) probable
      exact clear₂.of_same rfl rfl
  | @maybeBody pos e body otherwisePos alternative s s₁ s₂ chance feasible =>
      have clear : s.Clear := ready
      have clear₁ := clear.ran (.of_readsTable (.checkProbability pos body.isCompound e)) chance
      have clear₂ := clear₁.ran (.checkAlternatives pos body otherwisePos alternative) feasible
      exact clear₂.of_same rfl rfl
  | @alternative pos e body otherwisePos alternative s s₁ s₂ s₃ chance feasible done =>
      have clear : s.Clear := ready
      have clear₁ := clear.ran (.of_readsTable (.checkProbability pos body.isCompound e)) chance
      have clear₂ := clear₁.ran (.checkAlternatives pos body otherwisePos alternative) feasible
      have inside : State.Clear { s₂ with uncertainDepth := s₂.uncertainDepth + 1 } :=
        clear₂.of_same rfl rfl
      exact inside.ran body.check_modest done

theorem ready_init (o : Options) (file : String) (builtins : Registry) (log : Log)
    (program : Program) : Ready ⟨.stmts program, o.initialState file builtins log⟩ := by
  refine ⟨SymbolTable.wellFormed_init builtins, fun name => .inl ?_⟩
  show ((SymbolTable.init builtins).bound name).length ≤ 1
  exact Nat.zero_le 1

/-- What holds at every moment of a run. -/
theorem Of.ready {o : Options} {file : String} {builtins : Registry} {log : Log}
    {program : Program} {m : Moment} (reached : Of program (o.initialState file builtins log) m) :
    m.Ready := by
  induction reached with
  | refl => exact ready_init o file builtins log program
  | tail _ next ih => exact next.ready ih

end Moment

/--
No name hides another, over whole runs. Whatever the program, the built-in functions and the policy
are, whenever the check of a statement starts, and when it gets to its end, no scope declares the
name of a built-in function, and each name is bound at most once in the scopes from the current one
outwards. The one exception is a parameter with the name of its function. The moments are those of
the run: a statement that is halted at one of them halts the program.
-/
theorem no_shadowing (o : Options) (file : String) (builtins : Registry) (log : Log)
    (program : Program) (stmt : Stmt) (s : State)
    (reached : Moment.Of program (o.initialState file builtins log) ⟨.stmt stmt, s⟩) :
    s.Unshadowed ∧ (∀ s', stmt.check s = .ok () s' → s'.Unshadowed) ∧
      ∀ h s', stmt.check s = .error h s' →
        ∃ s₁, Stmt.checkAll program (o.initialState file builtins log) = .error h s₁ := by
  have clear : s.Clear := reached.ready
  refine ⟨clear.unshadowed, fun s' run => (clear.ran stmt.check_modest run).unshadowed, ?_⟩
  intro h s' halted
  exact reached.halts ⟨s', halted⟩

/-- A function with a parameter of its own name. -/
def echoHeader : Header where
  namePos := ⟨1, 3⟩
  name := "echo"
  params := [⟨⟨1, 8⟩, .value .int, ⟨1, 12⟩, "echo"⟩]
  returns := some (⟨1, 18⟩, .value .int)

def echoReturn : Stmt := .returnWith ⟨1, 24⟩ (some (.ident ⟨1, 31⟩ "echo"))

/-- `fn echo(int echo) int { return echo; }` -/
def echoDefinition : Stmt := .define ⟨1, 0⟩ echoHeader (.mk ⟨1, 22⟩ ⟨1, 37⟩ [echoReturn])

def echo : Function :=
  { name := "echo", line := 1, params := [⟨"echo", .int⟩], returns := .value .int }

/-- The parameter, as it is declared. -/
def echoParameter : Variable := { Variable.fresh .int "echo" 1 with home := ⟨1, 0⟩ }

def echoTable : SymbolTable where
  rows := [[⟨.global, none, [.fn echo]⟩], [⟨⟨1, 0⟩, some .global, [.var echoParameter]⟩]]
  current := ⟨1, 0⟩
  blocks := []
  resume := []
  builtins := .empty

/-- The state before the check of the function. -/
def echoStart (policy : Policy) : State :=
  ({ policy } : Options).initialState "main" .empty ({} : Options).newLog

def echoState (policy : Policy) : State :=
  { echoStart policy with
    symbols := echoTable
    log := (echoStart policy).log.debug "Checking function 'echo'"
    currentFunction := some echo }

/-- At the return the name of the function is bound twice, under both policies. -/
theorem echo_unshadowed :
    echoTable.bound "echo" = [.var echoParameter, .fn echo] ∧ ∀ policy,
      Moment.Of [echoDefinition] (echoStart policy) ⟨.stmt echoReturn, echoState policy⟩ ∧
        (echoState policy).symbols = echoTable ∧ (echoState policy).Unshadowed := by
  have twice : echoTable.bound "echo" = [.var echoParameter, .fn echo] := by decide +kernel
  refine ⟨twice, fun policy => ?_⟩
  have reached : Moment.Of [echoDefinition] (echoStart policy)
      ⟨.stmt echoReturn, echoState policy⟩ := by
    have function : Moment.Next ⟨.stmt echoDefinition, echoStart policy⟩ _ := .function rfl
    exact (((Relation.ReflTransGen.single .first).tail function).tail .enter).tail .first
  exact ⟨reached, rfl, (no_shadowing { policy } "main" .empty _ _ _ _ reached).1⟩

end Samo
