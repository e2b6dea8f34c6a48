import Samo.Proofs.Answers
import Samo.Proofs.Regions
import Samo.Proofs.Visits

/-!
# What statements put into the final table

`SymbolTable.Fills` says of some statements what the table has of them when all is done: the symbols
of their declarations in the current scope, and behind the scopes that were there before, depth by
depth, one scope for each of their blocks. `Stmt.checkAll_fills` shows it of all accepted statements.
A block needs most of the work (`SymbolTable.Opened.fills`): its scope comes first, then those of
the blocks in it.
-/

namespace Samo

namespace SymbolTable

/-! ## Scopes of regions -/

/-- Where the innermost block of a path was remembered. The program itself has the global scope. -/
def seat (t : SymbolTable) : List Pos → Coordinates
  | [] => .global
  | start :: _ => (t.blocks.lookup start).getD .global

/-- The scope of a region: it is below the scope of the region around it, it has the symbols of the
region's declarations, and that of a block is remembered under its opening brace. -/
structure Recorded (t : SymbolTable) (r : Region) (c : Coordinates) : Prop where
  seat : t.seat r.path = c
  registered : ∀ start ∈ r.path.head?, t.blocks.lookup start = some c
  scope : ∃ s, t.scope? c = some s ∧ s.parent = r.path.tail?.map t.seat ∧
    List.Forall₂ (Declaration.Describes (t.bindingsAt c) c) r.declares s.symbols

/--
What statements add to a table, as it stands in a final one: symbols in the current scope, and
scopes behind those of each depth.
-/
structure Fills (final t t' : SymbolTable) (declarations : List Declaration)
    (regions : List Region) : Prop where
  current : t'.current = t.current
  symbols : ∀ s, t.currentScope? = some s → ∃ more,
    t'.currentScope? = some { s with symbols := s.symbols ++ more } ∧
      List.Forall₂ (Declaration.Describes (final.bindingsAt t.current) t.current) declarations more
  rows : ∀ depth, (t'.row depth).length =
    (t.row depth).length + (regions.filter (·.depth == depth)).length
  scopes : ∀ depth i r, (regions.filter (·.depth == depth))[i]? = some r →
    final.Recorded r ⟨depth, (t.row depth).length + i⟩

namespace Fills

variable {final t t₁ t' : SymbolTable} {ds ds' : List Declaration} {rs rs' : List Region}

theorem refl (final t : SymbolTable) : Fills final t t [] [] := by
  refine ⟨rfl, ?_, ?_, ?_⟩
  · intro s here
    refine ⟨[], ?_, .nil⟩
    rw [List.append_nil]
    exact here
  · intro depth
    rfl
  · intro depth i r member
    cases member

theorem of_eq (same : t' = t) : Fills final t t' [] [] := by
  rw [same]
  exact .refl final t

theorem trans (first : Fills final t t₁ ds rs) (second : Fills final t₁ t' ds' rs') :
    Fills final t t' (ds ++ ds') (rs ++ rs') := by
  refine ⟨second.current.trans first.current, ?_, ?_, ?_⟩
  · intro s here
    obtain ⟨more, here₁, describes⟩ := first.symbols s here
    obtain ⟨more', here', describes'⟩ := second.symbols _ here₁
    rw [first.current] at describes'
    refine ⟨more ++ more', ?_, List.rel_append describes describes'⟩
    rw [here', List.append_assoc]
  · intro depth
    rw [second.rows, first.rows, List.filter_append, List.length_append, Nat.add_assoc]
  · intro depth i r member
    rw [List.filter_append] at member
    by_cases early : i < (rs.filter (·.depth == depth)).length
    · rw [List.getElem?_append_left early] at member
      exact first.scopes depth i r member
    · rw [List.getElem?_append_right (by omega)] at member
      have recorded := second.scopes depth _ r member
      have place : (t.row depth).length + i =
          (t₁.row depth).length + (i - (rs.filter (·.depth == depth)).length) := by
        rw [first.rows]
        omega
      rw [place]
      exact recorded

/-- Symbols that are added to the current scope. -/
theorem of_adds {symbols : List Symbol} (wf : t.WellFormed) (adds : t.Adds symbols t')
    (describes : List.Forall₂ (Declaration.Describes (final.bindingsAt t.current) t.current) ds
      (symbols.map (·.settle t.current))) : Fills final t t' ds [] := by
  refine ⟨(adds.declares wf).current, ?_, ?_, ?_⟩
  · intro s here
    exact ⟨_, adds.scope wf here, describes⟩
  · intro depth
    rw [adds.length_row]
    rfl
  · intro depth i r member
    cases member

end Fills

end SymbolTable

namespace Check

variable {s s' : State}

/-! ## Declarations -/

/-- What is known of a variable with an initial value is what the value folds to. -/
theorem initialise_fresh {type : ValueType} {name : String} {line : Int} {inferred : Bool}
    {e : Expr} {pos : Pos} {v : Variable} (stop : s.engine.policy = .stop)
    (run : initialise { Variable.fresh type name line with inferred } e pos s = .ok v s') :
    e.HasType s.symbols.bindings (.value type) ∧
      v = { name, line, value := e.value?.getD (.initial type), inferred,
            known := e.value?.isSome, initialised := true } := by
  have fits : (Variable.fresh type name line).type = type := Value.type_initial type
  obtain ⟨-, -, sane⟩ := initialise_ok stop run
  have typed : e.HasType s.symbols.bindings (.value type) := by
    rw [← fits]
    exact sane.typed
  refine ⟨typed, ?_⟩
  unfold initialise at run
  obtain ⟨right, s₁, expected, run⟩ := bind_eq_ok_iff.mp run
  obtain ⟨rfl, -⟩ := expectType_ok stop expected
  rw [if_pos rfl, foldInto_run sane.folds] at run
  cases run
  have known : e.known? (Variable.fresh type name line).type = e.value? := by
    rw [fits]
    exact typed.known?_eq
  show ({ name, line, value := (e.known? (Variable.fresh type name line).type).getD (.initial type),
          inferred, known := (e.known? (Variable.fresh type name line).type).isSome || false,
          initialised := true } : Variable) = _
  rw [known, Bool.or_false]

/-- The variable of a declaration that is accepted. -/
theorem checkDeclaration_describes {pos namePos : Pos} {type : TypeName} {name : String}
    {init : Option Expr} (stop : s.engine.policy = .stop)
    (run : checkDeclaration pos type namePos name init s = .ok () s') :
    ∃ v, Adds s s' [.var v] ∧ ∀ Γ c, s.symbols.bindings.Extends Γ →
      Declaration.Describes Γ c (.variable type namePos name init) ((Symbol.var v).settle c) := by
  rcases checkDeclaration_cases run with ⟨collects, -⟩ | ⟨t, v, s₁, rfl, adds, made⟩
  · exact absurd stop collects
  refine ⟨v, adds, fun Γ c more => ?_⟩
  cases init with
  | none =>
      obtain ⟨rfl, -⟩ := pure_eq_ok_iff.mp made
      exact .plain
  | some e =>
      obtain ⟨typed, rfl⟩ := initialise_fresh stop made
      exact .initialised (typed.mono more)

/-- The variable of a declaration that leaves the type to the initial value. -/
theorem checkInference_describes {namePos : Pos} {name : String} {init : Expr}
    (stop : s.engine.policy = .stop) (run : checkInference namePos name init s = .ok () s') :
    ∃ v, Adds s s' [.var v] ∧ ∀ Γ c, s.symbols.bindings.Extends Γ →
      Declaration.Describes Γ c (.inferred namePos name init) ((Symbol.var v).settle c) := by
  rcases checkInference_cases run with ⟨collects, -⟩ | ⟨t, v, s₁, s₂, alike, adds, made⟩
  · exact absurd stop collects
  obtain ⟨typed, rfl⟩ := initialise_fresh (alike.policy.symm.trans stop) made
  refine ⟨_, adds, fun Γ c more => .inferred (typed.mono ?_)⟩
  rw [← alike.table]
  exact more

end Check

namespace SymbolTable

theorem rows_register (t : SymbolTable) (start : Pos) : (t.register start).rows = t.rows := by
  unfold register
  split
  · rfl
  · rfl

theorem rows_leave (t : SymbolTable) : t.leave.rows = t.rows := by
  unfold leave
  split
  · rfl
  · rfl

/-! ## Blocks -/

/-- A new scope behind the others one level down, which has some parameters already. -/
structure Opened (final t t₁ : SymbolTable) (params : List Declaration) : Prop where
  current : t₁.current = ⟨t.current.depth + 1, (t.row (t.current.depth + 1)).length⟩
  rows : ∀ depth, (t₁.row depth).length =
    (t.row depth).length + if depth = t.current.depth + 1 then 1 else 0
  scope : ∃ s, t₁.currentScope? = some s ∧ s.parent = some t.current ∧
    List.Forall₂ (Declaration.Describes (final.bindingsAt t₁.current) t₁.current) params s.symbols

theorem Opened.enter (final : SymbolTable) {t : SymbolTable} (wf : t.WellFormed) :
    Opened final t (t.enter .new) [] := by
  refine ⟨rfl, ?_, _, currentScope?_enter_new wf, rfl, .nil⟩
  intro depth
  rw [row_enter_new wf]
  split
  · exact List.length_append
  · rfl

/-- A block as a whole: its scope and those of the blocks in it. -/
theorem Opened.fills {final t t₁ t₂ t' : SymbolTable} {params ds : List Declaration}
    {starts : List Pos} {r : Region} {rs : List Region} (opened : Opened final t t₁ params)
    (declares : t.Declares t' [] starts) (inner : Fills final t₁ t₂ ds rs)
    (rows : t'.rows = t₂.rows) (recorded : final.Recorded r t₁.current)
    (deep : r.depth = t.current.depth + 1) : Fills final t t' [] (r :: rs) := by
  have same : ∀ depth, t'.row depth = t₂.row depth := by
    intro depth
    rw [row, row, rows]
  refine ⟨declares.current, ?_, ?_, ?_⟩
  · intro s here
    refine ⟨[], ?_, .nil⟩
    rw [currentScope?, declares.current, List.append_nil]
    exact declares.all_kept _ s here
  · intro depth
    rw [same, inner.rows, opened.rows, List.filter_cons, deep]
    by_cases here : depth = t.current.depth + 1
    · simp [here]
      omega
    · simp [here, Ne.symm here]
  · intro depth i r' member
    rw [List.filter_cons, deep] at member
    by_cases here : depth = t.current.depth + 1
    · subst here
      rw [if_pos (beq_self_eq_true _)] at member
      cases i with
      | zero =>
          cases member
          rw [opened.current] at recorded
          exact recorded
      | succ i =>
          have inside := inner.scopes _ i r' member
          rw [opened.rows, if_pos rfl] at inside
          rw [Nat.add_comm i 1, ← Nat.add_assoc]
          exact inside
    · rw [if_neg (by simpa using Ne.symm here)] at member
      have inside := inner.scopes _ i r' member
      rw [opened.rows, if_neg here] at inside
      exact inside

end SymbolTable

open Check

/-- Before some statements with opening braces at `starts`, in a region of which the final table is
known. -/
structure Filling (final : SymbolTable) (around starts : List Pos) (s : State) : Prop where
  stop : s.engine.policy = .stop
  wellFormed : s.symbols.WellFormed
  fresh : s.symbols.Unregistered starts
  seat : final.seat around = s.symbols.current
  depth : around.length = s.symbols.current.depth

namespace Filling

variable {final : SymbolTable} {around starts starts' : List Pos} {s s' : State}

theorem left (filling : Filling final around (starts ++ starts') s) :
    Filling final around starts s :=
  ⟨filling.stop, filling.wellFormed, filling.fresh.left, filling.seat, filling.depth⟩

/-- Behind the first ones of some statements. -/
theorem after {names : List String} (filling : Filling final around (starts ++ starts') s)
    (passes : Passes s s' names starts) : Filling final around starts' s' := by
  refine ⟨passes.policy.trans filling.stop, passes.table.wellFormed,
    filling.fresh.right passes.table, ?_, ?_⟩
  · rw [passes.table.current]
    exact filling.seat
  · rw [passes.table.current]
    exact filling.depth

theorem passed {names : List String} (filling : Filling final around starts s)
    (passes : Passes s s' names []) : Filling final around starts s' :=
  have filling : Filling final around ([] ++ starts) s := filling
  filling.after passes

/-- Loops and chance are nothing that the table knows of. -/
theorem inLoop (filling : Filling final around starts s) :
    Filling final around starts { s with loopDepth := s.loopDepth + 1 } :=
  ⟨filling.stop, filling.wellFormed, filling.fresh, filling.seat, filling.depth⟩

theorem uncertain (filling : Filling final around starts s) :
    Filling final around starts { s with uncertainDepth := s.uncertainDepth + 1 } :=
  ⟨filling.stop, filling.wellFormed, filling.fresh, filling.seat, filling.depth⟩

end Filling

/-- Before a block that opens its scope below the current one of `t`, with some parameters in it. -/
structure Entering (final t : SymbolTable) (around starts : List Pos) (params : List Declaration)
    (mode : EntryMode) (s : State) : Prop where
  stop : s.engine.policy = .stop
  wellFormed : t.WellFormed
  fresh : t.Unregistered starts
  seat : final.seat around = t.current
  depth : around.length = t.current.depth
  opens : ∃ names, t.Opens (s.symbols.enter mode) names
  opened : SymbolTable.Opened final t (s.symbols.enter mode) params

theorem Filling.enter {final : SymbolTable} {around starts : List Pos} {s : State}
    (filling : Filling final around starts s) :
    Entering final s.symbols around starts [] .new s :=
  ⟨filling.stop, filling.wellFormed, filling.fresh, filling.seat, filling.depth,
    ⟨_, .enter filling.wellFormed⟩, .enter final filling.wellFormed⟩

/-! ## Statements -/

theorem SymbolTable.Fills.of_unobtrusive {α : Type} {final : SymbolTable} {m : Check α} {a : α}
    {s s' : State} (unobtrusive : Unobtrusive m) (run : m s = .ok a s') :
    Fills final s.symbols s'.symbols [] [] := by
  refine .of_eq ?_
  rw [(unobtrusive s a s' run).2]

/-- A step that only reads adds nothing. -/
theorem SymbolTable.Fills.of_readsTable {α : Type} {final : SymbolTable} {m : Check α} {a : α}
    {s s' : State} (reads : ReadsTable m) (run : m s = .ok a s') :
    Fills final s.symbols s'.symbols [] [] :=
  .of_eq (reads.alike run).table.symm

/-- The scope that the body of a function resumes is new below the function's name. -/
theorem Check.Begins.opened {h : Header} {s s' : State} {f : Function} {t : SymbolTable}
    {params : List Symbol} (final : SymbolTable) (wf : s.symbols.WellFormed)
    (begins : Begins h s s' f t params) :
    SymbolTable.Opened final (s.symbols.insert (.fn f)) (s'.symbols.enter .resumeLast)
      (h.params.map .param) := by
  have entered := (SymbolTable.Opens.enter wf).wellFormed
  have current : (s.symbols.insert (.fn f)).current = s.symbols.current :=
    (SymbolTable.Declares.insert wf begins.fresh begins.allowed).current
  obtain ⟨-, here, resumed⟩ := begins.scope wf
  have fresh := SymbolTable.Opened.enter final wf
  refine ⟨?_, ?_, _, here, congrArg some current.symm, ?_⟩
  · rw [resumed, current, SymbolTable.length_row_insert]
    exact fresh.current
  · intro depth
    have rows : (s'.symbols.enter .resumeLast).rows = s'.symbols.rows := by
      rw [begins.table]
      rw [(SymbolTable.enter_resumeLast wf begins.fresh begins.allowed
        (begins.adds.declares entered) fun c => begins.adds.missing entered).1]
    rw [SymbolTable.row, rows, begins.table, ← SymbolTable.row, SymbolTable.length_row_insert,
      SymbolTable.row, SymbolTable.rows_leave, ← SymbolTable.row, begins.adds.length_row,
      fresh.rows, SymbolTable.length_row_insert, current]
  · rw [List.forall₂_map_left_iff, List.forall₂_map_right_iff]
    refine begins.params.imp ?_
    rintro p symbol ⟨type, typed, rfl⟩
    rw [resumed]
    exact .param typed

theorem Header.Describes.settle {h : Header} {f : Function} {c : Coordinates}
    (describes : h.Describes f) : h.Describes { f with home := c } :=
  ⟨describes.name, describes.params, describes.returns⟩

/-- The body of a function, when its name and its parameters are declared. -/
theorem Check.Begins.entering {final t : SymbolTable} {around starts : List Pos} {h : Header}
    {s s' : State} {f : Function} {params : List Symbol} (begins : Begins h s s' f t params)
    (filling : Filling final around starts s) :
    Entering final (s.symbols.insert (.fn f)) around starts (h.params.map .param) .resumeLast
      { s' with currentFunction := some f, loopDepth := 0 } := by
  have declared := SymbolTable.Declares.insert filling.wellFormed begins.fresh begins.allowed
  have opens := begins.opens filling.wellFormed
  have opened := begins.opened final filling.wellFormed
  refine ⟨begins.policy.trans filling.stop, declared.wellFormed, filling.fresh.kept declared, ?_,
    ?_, ⟨_, opens⟩, opened⟩
  · rw [declared.current]
    exact filling.seat
  · rw [declared.current]
    exact filling.depth

/-- An arm of an if statement and the arms after it. -/
structure FillingArm (final : SymbolTable) (around : List Pos) (body : Block) (rest : Branches)
    (s s₁ s₂ s' : State) : Prop where
  condition : SymbolTable.Fills final s.symbols s₁.symbols [] []
  filling : Filling final around body.braces s₁
  checked : body.check .new s₁ = .ok () s₂
  later : s₂.symbols.Later final
  behind : Filling final around rest.braces s₂
  arms : rest.check s₂ = .ok () s'

theorem Filling.arm {final : SymbolTable} {around : List Pos} {s s' : State} {pos : Pos}
    {cond : Expr} {body : Block} {rest : Branches}
    (filling : Filling final around (body.braces ++ rest.braces) s)
    (run : (do checkCondition pos .ifWord cond; body.check .new; rest.check) s = .ok () s')
    (later : s'.symbols.Later final) :
    ∃ s₁ s₂, FillingArm final around body rest s s₁ s₂ s' := by
  obtain ⟨s₁, s₂, -, same, checked, arms⟩ := Branches.arm_ok run
  have filling₁ := filling.passed (same.passes filling.wellFormed)
  have filling₂ := filling₁.after (body.check_passes filling₁.stop filling₁.wellFormed checked)
  have rest := rest.check_passes filling₂.stop filling₂.wellFormed arms
  exact ⟨s₁, s₂, .of_eq same.table, filling₁.left, checked, .of_declares rest.table later,
    filling₂, arms⟩

mutual

theorem Stmt.check_fills {final : SymbolTable} {around : List Pos} {s s' : State} (stmt : Stmt)
    (whole : final.WellFormed) (filling : Filling final around stmt.braces s)
    (run : stmt.check s = .ok () s') (later : s'.symbols.Later final) :
    SymbolTable.Fills final s.symbols s'.symbols stmt.declarations (stmt.regions around) := by
  have passes := stmt.check_passes filling.stop filling.wellFormed run
  -- names that are bound here keep their meaning up to the final table
  have before := (SymbolTable.Later.of_declares passes.table later).grows.bindings whole
    s.symbols.current
  cases stmt <;> rw [Stmt.regions]
  case block body =>
    rw [Stmt.check] at run
    rw [Stmt.braces] at filling
    exact body.check_fills whole filling.enter run later
  case declare pos type namePos name init =>
    rw [Stmt.check] at run
    obtain ⟨v, adds, describes⟩ := checkDeclaration_describes filling.stop run
    exact .of_adds filling.wellFormed adds.table (.cons (describes _ _ before) .nil)
  case infer pos namePos name init =>
    rw [Stmt.check] at run
    obtain ⟨v, adds, describes⟩ := checkInference_describes filling.stop run
    exact .of_adds filling.wellFormed adds.table (.cons (describes _ _ before) .nil)
  case define pos header body =>
    rw [Stmt.check] at run
    rw [Stmt.braces] at filling
    have wf := filling.wellFormed
    obtain ⟨found, s₁, begun, run⟩ := bind_eq_ok_iff.mp run
    obtain ⟨f, t, params, rfl, begins⟩ := beginFunction_ok filling.stop wf begun
    obtain ⟨u, s₂, inside, ended⟩ := bind_eq_ok_iff.mp run
    obtain ⟨s₃, checked, rfl⟩ := inFunction_ok inside
    have entering := begins.entering filling
    obtain ⟨names, opens⟩ := entering.opens
    obtain ⟨closes, policy, -, -⟩ := body.check_closes entering.stop entering.wellFormed opens
      checked
    obtain ⟨-, -, alike, -⟩ := endFunction_ok (by exact policy.trans entering.stop)
      (by exact closes.declares.wellFormed) ended
    have table : s'.symbols = s₃.symbols := alike.table.symm
    rw [table] at later ⊢
    -- the function itself is declared before the blocks of its body
    have named : SymbolTable.Fills final s.symbols (s.symbols.insert (.fn f))
        [.function header] [] := by
      refine .of_adds wf (.one begins.allowed begins.fresh) (.cons ?_ .nil)
      exact .function begins.describes.settle begins.line rfl
    exact named.trans (body.check_fills whole entering checked later)
  case branch pos cond body rest =>
    rw [Stmt.check] at run
    rw [Stmt.braces] at filling
    obtain ⟨s₁, s₂, arm⟩ := filling.arm run later
    have first := body.check_fills whole arm.filling.enter arm.checked arm.later
    have others := rest.check_fills whole arm.behind arm.arms later
    exact arm.condition.trans (first.trans others)
  case loop pos cond body =>
    rw [Stmt.braces] at filling
    obtain ⟨s₁, s₂, same, checked, rfl⟩ := Stmt.loop_ok run
    have filling₁ := filling.passed (same.passes filling.wellFormed)
    have inner := body.check_fills whole filling₁.inLoop.enter checked later
    exact (SymbolTable.Fills.of_eq same.table).trans inner
  case maybe pos probability body =>
    rw [Stmt.braces] at filling
    rw [Stmt.declarations]
    obtain ⟨s₁, s₂, same, checked, rfl⟩ := Stmt.maybe_ok run
    have filling₁ := filling.passed (same.passes filling.wellFormed)
    have inner := body.check_fills whole filling₁.uncertain checked later
    exact (SymbolTable.Fills.of_eq same.table).trans inner
  case maybeOtherwise pos probability body otherwisePos alternative =>
    rw [Stmt.braces] at filling
    rw [Stmt.declarations]
    obtain ⟨s₁, s₂, s₃, same, checked, checked', rfl⟩ := Stmt.maybeOtherwise_ok run
    have filling₁ := (filling.passed (same.passes filling.wellFormed)).uncertain
    have filling₂ := filling₁.after (body.check_passes filling₁.stop filling₁.wellFormed checked)
    have rest := alternative.check_passes filling₂.stop filling₂.wellFormed checked'
    have first := body.check_fills whole filling₁.left checked (.of_declares rest.table later)
    have second := alternative.check_fills whole filling₂ checked' later
    exact (SymbolTable.Fills.of_eq same.table).trans (first.trans second)
  case assign | call | breakOut | continueOn | returnWith | needs | bad =>
    rw [Stmt.declarations]
    exact .of_unobtrusive (.plain rfl (by rw [Stmt.declares])) run

theorem Block.check_fills {final t : SymbolTable} {around : List Pos} {s s' : State}
    {mode : EntryMode} {params : List Declaration} (body : Block) (whole : final.WellFormed)
    (entering : Entering final t around body.braces params mode s)
    (run : body.check mode s = .ok () s') (later : s'.symbols.Later final) :
    SymbolTable.Fills final t s'.symbols [] (body.regions around params) := by
  obtain ⟨stop, wf, fresh, seat, depth, ⟨names, opens⟩, opened⟩ := entering
  obtain ⟨closes, -, -, -⟩ := body.check_closes stop wf opens run
  rw [body.braces_eq] at fresh
  have registered := (closes.frameAt fresh later).registered
  cases body with
  | mk start last stmts =>
      obtain ⟨s₁, checked, rfl⟩ := Block.check_ok run
      rw [Block.regions]
      obtain ⟨scope, here, above, described⟩ := opened.scope
      have passes := Stmt.checkAll_passes stmts (by exact stop) (by exact opens.wellFormed) checked
      have remembered : final.seat (start :: around) = (s.symbols.enter mode).current := by
        exact congrArg (·.getD .global) registered
      have deep : (s.symbols.enter mode).current.depth = around.length + 1 := by
        rw [opened.current, depth]
      have filling : Filling final (start :: around) (Stmt.bracesAll stmts)
          { s with symbols := s.symbols.enter mode } :=
        ⟨stop, opens.wellFormed, fresh.opened opens, remembered, deep.symm⟩
      obtain ⟨scope', here', above', -⟩ := passes.table.declared scope here
      have left := SymbolTable.Left.of_parent passes.table.wellFormed here' (above'.trans above)
        start
      have later₁ : s₁.symbols.Later final :=
        .of_close passes.table.wellFormed here' (above'.trans above) later
      have inner := Stmt.checkAll_fills stmts whole filling checked later₁
      obtain ⟨more, there, described'⟩ := inner.symbols scope here
      refine opened.fills closes.declares inner ?_ ⟨remembered, ?_, ?_⟩ ?_
      · rw [SymbolTable.rows_leave, SymbolTable.rows_register]
      · rintro start' ⟨⟩
        exact registered
      · refine ⟨{ scope with symbols := scope.symbols ++ more }, ?_, ?_,
          List.rel_append described described'⟩
        · apply later.closed
          · rw [left.current, deep, depth]
            exact Nat.lt_succ_self _
          · rw [left.scopes, ← inner.current]
            exact there
        · rw [above, ← seat]
          rfl
      · exact congrArg (· + 1) depth

theorem Stmt.checkAll_fills {final : SymbolTable} {around : List Pos} {s s' : State}
    (stmts : List Stmt) (whole : final.WellFormed)
    (filling : Filling final around (Stmt.bracesAll stmts) s)
    (run : Stmt.checkAll stmts s = .ok () s') (later : s'.symbols.Later final) :
    SymbolTable.Fills final s.symbols s'.symbols (Stmt.declarationsAll stmts)
      (Stmt.regionsAll around stmts) := by
  cases stmts with
  | nil =>
      rw [Stmt.checkAll] at run
      rw [Stmt.regionsAll]
      exact .of_readsTable (.pure ()) run
  | cons stmt stmts =>
      rw [Stmt.checkAll] at run
      rw [Stmt.bracesAll] at filling
      rw [Stmt.regionsAll]
      obtain ⟨u, s₁, first, others⟩ := bind_eq_ok_iff.mp run
      have passes := stmt.check_passes filling.stop filling.wellFormed first
      have filling₁ := filling.after passes
      have rest := Stmt.checkAll_passes stmts filling₁.stop filling₁.wellFormed others
      exact (stmt.check_fills whole filling.left first (.of_declares rest.table later)).trans
        (Stmt.checkAll_fills stmts whole filling₁ others later)

theorem Branches.check_fills {final : SymbolTable} {around : List Pos} {s s' : State}
    (rest : Branches) (whole : final.WellFormed) (filling : Filling final around rest.braces s)
    (run : rest.check s = .ok () s') (later : s'.symbols.Later final) :
    SymbolTable.Fills final s.symbols s'.symbols [] (rest.regions around) := by
  cases rest <;> (rw [Branches.check] at run; rw [Branches.regions])
  case done => exact .of_readsTable (.pure ()) run
  case otherwise pos body =>
    rw [Branches.braces] at filling
    exact body.check_fills whole filling.enter run later
  case elseIf pos cond body rest =>
    rw [Branches.braces] at filling
    obtain ⟨s₁, s₂, arm⟩ := filling.arm run later
    have first := body.check_fills whole arm.filling.enter arm.checked arm.later
    have others := rest.check_fills whole arm.behind arm.arms later
    exact arm.condition.trans (first.trans others)

end

end Samo
