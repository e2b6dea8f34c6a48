import Samo.Proofs.Layouts

/-!
# Checks in every layout

Every step of a check is done in every layout alike. Expressions, returns and the scopes of blocks
come first, then what is declared, and at last whole programs (`Stmt.checkAll_uniform`).
-/

namespace Samo

open Check

/-! ## Expressions -/

theorem Expr.foldError?_mapPos (f : Pos → Pos) (e : Expr) :
    (e.mapPos f).foldError? = e.foldError? := by
  rw [foldError?, foldError?, fold_mapPos]

theorem Expr.known?_mapPos (f : Pos → Pos) (e : Expr) (type : ValueType) :
    (e.mapPos f).known? type = e.known? type := by
  rw [known?, known?, fold_mapPos]

/-- Both questions that can be asked of an expression are answered in every layout alike. -/
structure Expr.Uniform (e : Expr) : Prop where
  leaves : Check.Uniform [] fun φ => (e.mapPos φ.place).leaves
  accepts : ∀ type, Check.Uniform [] fun φ => (e.mapPos φ.place).accepts type

namespace Expr.Uniform

variable {e x y : Expr}

theorem detect (uniform : e.Uniform) : Check.Uniform [] fun φ => (e.mapPos φ.place).detect :=
  uniform.leaves.bind fun leaves => .pure (Detection.ofLeaves leaves)

theorem bothAccept (left : x.Uniform) (right : y.Uniform) (type : ValueType) :
    Check.Uniform [] fun φ =>
      (x.mapPos φ.place).operand.bothAccept (y.mapPos φ.place).operand type :=
  (left.accepts type).bind fun a => (right.accepts type).bind fun b => .pure (a && b)

end Expr.Uniform

namespace Check.UniformUpTo

theorem checkConstant (e : Expr) : Uniform [] fun φ => checkConstant (e.mapPos φ.place) := by
  simp only [Check.checkConstant, Expr.foldError?_mapPos, Expr.start_mapPos]
  cases e.foldError? with
  | none => exact pure true
  | some error =>
      cases error with
      | divisionByZero => exact (fatal e.start .divisionByZero).bind fun _ => pure false

theorem checkArguments (callee : String) (index : Nat) {args : List (ValueType × Expr)}
    (uniform : ∀ a ∈ args, a.2.Uniform) :
    Uniform [] fun φ => checkArguments callee index
      (args.map fun a => (a.1, (a.2.mapPos φ.place).operand)) := by
  induction args generalizing index with
  | nil => exact pure ()
  | cons a rest ih =>
      obtain ⟨type, e⟩ := a
      obtain ⟨first, others⟩ := List.forall_mem_cons.mp uniform
      refine (first.accepts type).bind fun accepted => ?_
      cases accepted with
      | true => exact (checkConstant e).bind fun _ => ih (index + 1) others
      | false =>
          have start : ∀ φ : Layout, (e.mapPos φ.place).operand.expr.start = φ.place e.start :=
            fun φ => e.start_mapPos φ.place
          simp only [start]
          exact (fatal e.start (.argumentMismatch callee index type)).bind fun _ =>
            ih (index + 1) others

theorem argumentTypes (callee : String) (index : Nat) {args : List Expr}
    (uniform : ∀ e ∈ args, e.Uniform) :
    Uniform [] fun φ => argumentTypes callee index
      (args.map fun e => (e.mapPos φ.place).operand) := by
  induction args generalizing index with
  | nil => exact pure (some [])
  | cons e rest ih =>
      obtain ⟨first, others⟩ := List.forall_mem_cons.mp uniform
      have start : ∀ φ : Layout, (e.mapPos φ.place).operand.expr.start = φ.place e.start :=
        fun φ => e.start_mapPos φ.place
      simp only [List.map_cons, Check.argumentTypes, start]
      refine first.detect.bind fun d => .ite ?_ ?_
      · exact (fatal e.start (.argumentMixed callee index)).bind fun _ => pure none
      · cases d.type.value? with
        | none => exact (fatal e.start (.argumentType callee index d.type)).bind fun _ => pure none
        | some type => exact (ih (index + 1) others).bind fun types => pure (types.map (type :: ·))

theorem resolveUser (pos : Pos) (callee : String) (f : Function) {args : List Expr}
    (uniform : ∀ e ∈ args, e.Uniform) :
    Uniform [] fun φ => resolveUser (φ.place pos) callee (f.inLayout φ)
      (args.map fun e => (e.mapPos φ.place).operand) := by
  have handed : ∀ φ : Layout, (Queues.ofList (·.expr.isBooleanForm)
        (args.map fun e => (e.mapPos φ.place).operand)).assign f.paramTypes =
      ((Queues.ofList Expr.isBooleanForm args).assign f.paramTypes).map
        fun a => (a.1, (a.2.mapPos φ.place).operand) := by
    intro φ
    have form : (fun o : Operand => o.expr.isBooleanForm) ∘
        (fun e : Expr => (e.mapPos φ.place).operand) = Expr.isBooleanForm :=
      funext fun e => e.isBooleanForm_mapPos φ.place
    rw [Queues.ofList_map, Queues.assign_map, form]
  have params : ∀ φ : Layout, (f.inLayout φ).paramTypes = f.paramTypes := fun _ => rfl
  have number : ∀ φ : Layout, (f.inLayout φ).params = f.params := fun _ => rfl
  simp only [Check.resolveUser, List.length_map, number, params, handed]
  refine .ite ?_ ?_
  · exact (fatal pos (.argumentCount callee f.params.length args.length)).bind fun _ =>
      pure f.returns.ty
  · refine (checkArguments callee 1 fun a member => ?_).bind fun _ => pure f.returns.ty
    exact uniform a.2 (Queues.mem_of_mem_assign member)

theorem resolveBuiltin (pos : Pos) (callee : String) (o : Overloads) {args : List Expr}
    (uniform : ∀ e ∈ args, e.Uniform) :
    Uniform [] fun φ => resolveBuiltin (φ.place pos) callee o
      (args.map fun e => (e.mapPos φ.place).operand) := by
  refine (argumentTypes callee 1 uniform).bind fun found => ?_
  cases found with
  | none => exact pure o.first.returns.ty
  | some types =>
      refine symbols.bind fun t => ?_
      simp only [SymbolTable.builtins_inLayout]
      cases t.builtins.matching? callee (paramDescriptor (types.map .value)) with
      | error ambiguous =>
          exact (fatal pos (.ambiguousOverload ambiguous)).bind fun _ => pure o.first.returns.ty
      | ok matching =>
          cases matching with
          | none =>
              exact (fatal pos (.noOverload callee o.all)).bind fun _ => pure o.first.returns.ty
          | some f =>
              have handed : ∀ φ : Layout, types.zip (args.map fun e => (e.mapPos φ.place).operand) =
                  (types.zip args).map fun a => (a.1, (a.2.mapPos φ.place).operand) :=
                fun φ => List.zip_map_right ..
              simp only [handed]
              refine (checkArguments callee 1 fun a member => ?_).bind fun _ => pure f.returns.ty
              exact uniform a.2 (List.of_mem_zip member).2

theorem resolve (pos : Pos) (callee : String) {args : List Expr}
    (uniform : ∀ e ∈ args, e.Uniform) :
    Uniform [] fun φ => resolve (φ.place pos) callee
      (args.map fun e => (e.mapPos φ.place).operand) := by
  refine (lookup callee).bind fun found => ?_
  cases found with
  | some symbol =>
      cases symbol with
      | fn f => exact resolveUser pos callee f uniform
      | var v => exact (fatal pos (.notCallable callee (.value v.type))).bind fun _ => pure Ty.thing
  | none =>
      refine symbols.bind fun t => ?_
      simp only [SymbolTable.builtins_inLayout]
      cases t.builtins.overloads? callee with
      | some o => exact resolveBuiltin pos callee o uniform
      | none => exact (fatal pos (.unknownFunction callee)).bind fun _ => pure Ty.thing

theorem identifier (pos : Pos) (name : String) :
    UniformUpTo (fun φ => Option.map (Symbol.inLayout φ)) []
      fun φ => identifier (φ.place pos) name := by
  refine (lookup name).bind fun found => ?_
  cases found with
  | some symbol => exact pure (some symbol)
  | none => exact (fatal pos (.unknownIdentifier name)).bind fun _ => pure none

theorem checkComparison (pos : Pos) (op : BinaryOp) {x y : Expr} (left : x.Uniform)
    (right : y.Uniform) :
    Uniform [] fun φ => checkComparison (φ.place pos) op (x.mapPos φ.place).operand
      (y.mapPos φ.place).operand := by
  refine left.detect.bind fun d => .ite ?_ (right.detect.bind fun d' => ?_)
  on_goal 2 => refine .ite ?_ (.ite ?_ (.ite ?_ ?_))
  · exact (error pos .leftMixed).bind fun _ => pure false
  · exact (error pos .rightMixed).bind fun _ => pure false
  · exact (error pos (.incomparable d.type d'.type)).bind fun _ => pure false
  · exact (error pos (.operatorType op d.type)).bind fun _ => pure false
  · cases d.type.value? with
    | none => exact pure false
    | some type => exact left.bothAccept right type

end Check.UniformUpTo

/-- An expression is asked in every layout alike. -/
theorem Expr.uniform (e : Expr) : e.Uniform := by
  induction e using Expr.induction with
  | int | string | boolie =>
      refine ⟨?_, fun type => ?_⟩
      · simp only [mapPos, leaves]
        exact .pure _
      · simp only [mapPos, accepts]
        exact .pure _
  | ident p name =>
      -- a layout moves the place of a symbol and keeps its type
      have type : ∀ (φ : Layout) (found : Option Symbol),
          (found.map (Symbol.inLayout φ)).map (·.type) = found.map (·.type) := by
        intro φ found
        rw [Option.map_map]
        exact congrArg (Option.map · found) (funext fun symbol => symbol.type_inLayout φ)
      refine ⟨?_, fun t => ?_⟩
      · simp only [mapPos, leaves]
        refine (UniformUpTo.identifier p name).bind fun found => ?_
        simp only [type]
        exact .pure _
      · simp only [mapPos, accepts]
        refine (UniformUpTo.identifier p name).bind fun found => ?_
        simp only [type]
        exact .pure _
  | unary p op x ih =>
      cases op with
      | not =>
          refine ⟨?_, fun type => ?_⟩
          · simp only [mapPos, leaves]
            exact .pure _
          · simp only [mapPos, accepts]
            exact .ite (ih.accepts .boolie) (.pure _)
      | negate =>
          refine ⟨?_, fun type => ?_⟩
          · simp only [mapPos, leaves]
            exact ih.leaves
          · simp only [mapPos, accepts]
            exact .ite (ih.accepts .int) (.pure _)
  | binary p op x y left right =>
      refine ⟨?_, fun type => ?_⟩
      · simp only [mapPos, leaves]
        exact .ite (left.leaves.bind fun _ => right.leaves.bind fun _ => .pure _) (.pure _)
      · simp only [mapPos, accepts_binary]
        split
        · exact left.bothAccept right .int
        · exact .ite (left.bothAccept right .string) (.pure _)
        · exact left.bothAccept right .boolie
        · exact .checkComparison p op left right
        · exact .checkComparison p op left right
        · exact .pure _
  | paren p x ih =>
      refine ⟨?_, fun type => ?_⟩
      · simp only [mapPos, leaves]
        exact ih.leaves
      · simp only [mapPos, accepts]
        exact ih.accepts type
  | call p name args ih =>
      have resolved := UniformUpTo.resolve p name ih
      -- the arguments are moved one by one, so the hypotheses apply to them
      have operands : ∀ φ : Layout, Expr.operands (mapPosAll φ.place args) =
          args.map fun e => (e.mapPos φ.place).operand := by
        intro φ
        rw [operands_eq_map, mapPosAll_eq_map, List.map_map]
        rfl
      refine ⟨?_, fun type => ?_⟩
      · simp only [mapPos, leaves, operands]
        refine resolved.bind fun result => ?_
        refine .ite ?_ ?_
        · exact (UniformUpTo.fatal p .voidCall).bind fun _ => .pure _
        · exact .pure _
      · simp only [mapPos, accepts, operands]
        exact resolved.bind fun _ => .pure _

theorem Check.UniformUpTo.resolveAll (pos : Pos) (callee : String) (args : List Expr) :
    Uniform [] fun φ => Check.resolve (φ.place pos) callee
      (Expr.operands (args.map (Expr.mapPos φ.place))) := by
  simp only [Expr.operands_eq_map, List.map_map]
  exact resolve pos callee fun e _ => e.uniform

/-! ## Returns and paths -/

namespace Check.UniformUpTo

theorem checkReturn (pos : Pos) (ret : Ty) (value : Option Expr) :
    Uniform [] fun φ => checkReturn (φ.place pos) ret (value.map (Expr.mapPos φ.place)) := by
  cases value with
  | none => exact .ite (pure true) ((error pos (.returnMissing ret)).bind fun _ => pure false)
  | some e =>
      refine .ite ?_ (e.uniform.detect.bind fun d => .ite ?_ (.ite ?_ ?_))
      · exact (error pos .returnFromVoid).bind fun _ => pure false
      · exact (error pos .returnMixed).bind fun _ => pure false
      · exact (error pos (.returnType ret d.type)).bind fun _ => pure false
      · have valid : Uniform [] fun φ : Layout =>
            ret.value?.elim (Pure.pure false) (e.mapPos φ.place).accepts := by
          cases ret.value? with
          | none => exact pure false
          | some type => exact e.uniform.accepts type
        refine valid.bind fun valid => .ite ?_ (checkConstant e)
        exact (error pos (.returnInvalid ret)).bind fun _ => pure false

theorem checkIfReturn (ret : Ty) (s : Stmt) :
    Uniform [] fun φ => checkIfReturn ret (s.mapPos φ.place) := by
  cases s with
  | returnWith pos value =>
      exact (checkReturn pos ret value).bind fun verdict => pure [verdict]
  | block | declare | infer | assign | call | define | branch | loop | breakOut | continueOn
  | needs | maybe | maybeOtherwise | bad => exact pure []

theorem returnMatches (ret : Ty) (value : Option Expr) :
    Uniform [] fun φ => returnMatches ret (value.map (Expr.mapPos φ.place)) := by
  cases value with
  | none => exact pure _
  | some e => exact e.uniform.detect.bind fun d => pure _

end Check.UniformUpTo

section Visits

variable {α : Type} {visit : Stmt → Check (List α)}

mutual

/-- A visit of the statements in a statement is made in every layout alike. -/
theorem Stmt.visitScoped_uniform
    (uniform : ∀ s : Stmt, Uniform [] fun φ => visit (s.mapPos φ.place)) (s : Stmt) :
    Uniform [] fun φ => (s.mapPos φ.place).visitScoped visit := by
  have here := uniform s
  cases s <;> simp only [Stmt.mapPos, Stmt.visitScoped]
  case block b =>
    refine here.bind fun _ => ?_
    exact (b.visitScoped_uniform uniform).bind fun _ => .pure _
  case branch p c b rest =>
    -- the block of an arm is visited as a statement before what is in it
    refine here.bind fun _ => (uniform (.block b)).bind fun _ => ?_
    refine (b.visitScoped_uniform uniform).bind fun _ => ?_
    exact (rest.visitScoped_uniform uniform).bind fun _ => .pure _
  case loop p c b =>
    refine here.bind fun _ => (uniform (.block b)).bind fun _ => ?_
    exact (b.visitScoped_uniform uniform).bind fun _ => .pure _
  case maybe p e body =>
    refine here.bind fun _ => ?_
    exact (body.visitScoped_uniform uniform).bind fun _ => .pure _
  case maybeOtherwise p e body q alternative =>
    refine here.bind fun _ => ?_
    refine (body.visitScoped_uniform uniform).bind fun _ => ?_
    exact (alternative.visitScoped_uniform uniform).bind fun _ => .pure _
  case declare | infer | assign | call | define | breakOut | continueOn | returnWith | needs |
      bad =>
    exact here

theorem Block.visitScoped_uniform
    (uniform : ∀ s : Stmt, Uniform [] fun φ => visit (s.mapPos φ.place)) (b : Block) :
    Uniform [] fun φ => (b.mapPos φ.place).visitScoped visit := by
  cases b with
  | mk start stop stmts =>
      simp only [Block.mapPos, Block.visitScoped]
      exact (Stmt.visitAllScoped_uniform uniform stmts).inScopeOf start

theorem Stmt.visitAllScoped_uniform
    (uniform : ∀ s : Stmt, Uniform [] fun φ => visit (s.mapPos φ.place)) (ss : List Stmt) :
    Uniform [] fun φ => Stmt.visitAllScoped visit (Stmt.mapPosAll φ.place ss) := by
  cases ss with
  | nil =>
      simp only [Stmt.mapPosAll, Stmt.visitAllScoped]
      exact .pure _
  | cons s ss =>
      simp only [Stmt.mapPosAll, Stmt.visitAllScoped]
      refine (s.visitScoped_uniform uniform).bind fun _ => ?_
      exact (Stmt.visitAllScoped_uniform uniform ss).bind fun _ => .pure _

theorem Branches.visitScoped_uniform
    (uniform : ∀ s : Stmt, Uniform [] fun φ => visit (s.mapPos φ.place)) (rest : Branches) :
    Uniform [] fun φ => (rest.mapPos φ.place).visitScoped visit := by
  cases rest <;> simp only [Branches.mapPos, Branches.visitScoped]
  case done => exact .pure _
  case otherwise p b =>
    refine (uniform (.block b)).bind fun _ => ?_
    exact (b.visitScoped_uniform uniform).bind fun _ => .pure _
  case elseIf p c b rest =>
    refine (uniform (.block b)).bind fun _ => (b.visitScoped_uniform uniform).bind fun _ => ?_
    exact (rest.visitScoped_uniform uniform).bind fun _ => .pure _

end

end Visits

theorem Branches.last?_mapPos (f : Pos → Pos) (rest : Branches) :
    (rest.mapPos f).last?.isSome = rest.last?.isSome := by
  cases rest with
  | done => simp only [Branches.mapPos]
  | otherwise p b => simp only [Branches.mapPos, Branches.last?, Option.isSome_some]
  | elseIf p c b rest =>
      simp only [Branches.mapPos, Branches.last?]
      exact Branches.last?_mapPos f rest

mutual

/-- The shape of a body is read off in every layout alike. -/
theorem Stmt.trace_uniform (ret : Ty) (s : Stmt) (t : Trail) :
    Uniform [] fun φ => (s.mapPos φ.place).trace ret t := by
  cases s <;> simp only [Stmt.mapPos, Stmt.trace, Branches.last?_mapPos]
  case returnWith p value =>
    exact .ite (.pure _) ((UniformUpTo.returnMatches ret value).bind fun _ =>
      .ite (.pure _) (.pure _))
  case block b => exact b.trace_uniform ret t
  case branch p c b rest =>
    refine (b.trace_uniform ret .start).bind fun _ => ?_
    exact (rest.trace_uniform ret).bind fun _ => .pure _
  case loop p c b => exact (b.trace_uniform ret .start).bind fun _ => .pure _
  case maybe p e body => exact (body.trace_uniform ret .start).bind fun _ => .pure _
  case maybeOtherwise p e body q alternative =>
    refine (body.trace_uniform ret .start).bind fun _ => ?_
    exact (alternative.trace_uniform ret .start).bind fun _ => .pure _
  case declare | infer | assign | call | define | breakOut | continueOn | needs | bad =>
    exact .pure t

theorem Block.trace_uniform (ret : Ty) (b : Block) (t : Trail) :
    Uniform [] fun φ => (b.mapPos φ.place).trace ret t := by
  cases b with
  | mk start stop stmts =>
      simp only [Block.mapPos, Block.trace]
      exact (Stmt.traceAll_uniform ret stmts t).inScopeOf start

theorem Stmt.traceAll_uniform (ret : Ty) (ss : List Stmt) (t : Trail) :
    Uniform [] fun φ => Stmt.traceAll ret (Stmt.mapPosAll φ.place ss) t := by
  cases ss with
  | nil =>
      simp only [Stmt.mapPosAll, Stmt.traceAll]
      exact .pure t
  | cons s ss =>
      simp only [Stmt.mapPosAll, Stmt.traceAll]
      exact (s.trace_uniform ret t).bind fun t => Stmt.traceAll_uniform ret ss t

theorem Branches.trace_uniform (ret : Ty) (rest : Branches) :
    Uniform [] fun φ => (rest.mapPos φ.place).trace ret := by
  cases rest <;> simp only [Branches.mapPos, Branches.trace]
  case done => exact .pure _
  case otherwise p b => exact (b.trace_uniform ret .start).bind fun _ => .pure _
  case elseIf p c b rest =>
    refine (b.trace_uniform ret .start).bind fun _ => ?_
    exact (rest.trace_uniform ret).bind fun _ => .pure _

end

namespace Check.UniformUpTo

theorem checkReturns (namePos : Pos) (ret : Ty) (body : Block) :
    Uniform [] fun φ => checkReturns (φ.place namePos) ret (body.mapPos φ.place) := by
  refine (body.visitScoped_uniform (checkIfReturn ret)).bind fun verdicts => .ite ?_ (pure _)
  exact (error namePos (.noReturn ret)).bind fun _ => pure false

theorem returnsOnAllPaths (ret : Ty) (body : Block) :
    Uniform [] fun φ => (body.mapPos φ.place).returnsOnAllPaths ret := by
  refine .ite (pure true) ?_
  exact ((body.trace_uniform ret .start).bind fun _ => pure _).bind fun _ => pure _

end Check.UniformUpTo

/-! ## Declarations -/

/-- The positions of the names that a header declares. -/
def Header.names (h : Header) : List Pos := h.namePos :: h.params.map Param.namePos

mutual

/-- The positions of the names that a statement declares, in order. -/
def Stmt.names : Stmt → List Pos
  | .block body => body.names
  | .declare _ _ np _ _ | .infer _ np _ _ => [np]
  | .define _ header body => header.names ++ body.names
  | .branch _ _ body rest => body.names ++ rest.names
  | .loop _ _ body => body.names
  | .maybe _ _ body => body.names
  | .maybeOtherwise _ _ body _ alternative => body.names ++ alternative.names
  | .assign .. | .call .. | .breakOut _ | .continueOn _ | .returnWith .. | .needs .. | .bad .. => []

/-- The positions of the names that a block declares. -/
def Block.names : Block → List Pos
  | .mk _ _ stmts => Stmt.namesAll stmts

/-- The positions of the names that some arms declare. -/
def Branches.names : Branches → List Pos
  | .done => []
  | .otherwise _ body => body.names
  | .elseIf _ _ body rest => body.names ++ rest.names

/-- The positions of the names that some statements declare. -/
def Stmt.namesAll : List Stmt → List Pos
  | [] => []
  | s :: ss => s.names ++ Stmt.namesAll ss

end

namespace Check.UniformUpTo

/-- A name that is declared already is reported at the place of its new declaration. -/
theorem checkDeclarable (pos : Pos) (name : String) :
    Uniform [pos] fun φ => checkDeclarable (φ.place pos) name := by
  refine .ite_isBuiltin name ?_ ?_
  · exact ((fatal pos (.builtinRedeclared name)).bind fun _ => pure false).weaken
      (List.nil_sublist _)
  · refine (lookup name).bind fun found => ?_
    cases found with
    | none => exact (pure true).weaken (List.nil_sublist _)
    | some previous =>
        -- the report names the line of the earlier declaration, which moves with the layout
        simp only [Option.map_some, Symbol.line_inLayout]
        exact (fatal pos (.declaredBefore name previous.line)).bind fun _ => pure false

theorem expectType (type : ValueType) (e : Expr) (pos : Pos) :
    Uniform [] fun φ => expectType type (e.mapPos φ.place) (φ.place pos) := by
  refine (e.uniform.accepts type).bind fun accepted => .ite (pure true) ?_
  refine e.uniform.detect.bind fun found => .ite ?_ ?_
  · exact (fatal pos (.invalidValue type)).bind fun _ => pure false
  · exact (fatal pos (.wrongValue type found)).bind fun _ => pure false

theorem foldInto (v : Variable) (e : Expr) :
    UniformUpTo Variable.inLayout [] fun φ => foldInto (v.inLayout φ) (e.mapPos φ.place) := by
  refine (checkConstant e).bind fun fine => .ite ?_ (pure v)
  have type : ∀ φ : Layout, (v.inLayout φ).type = v.type := fun _ => rfl
  simp only [Expr.known?_mapPos, type]
  cases e.known? v.type with
  | some value => exact pure { v with value, known := true }
  | none => exact pure v

theorem initialise (v : Variable) (e : Expr) (pos : Pos) :
    UniformUpTo Variable.inLayout [] fun φ =>
      initialise (v.inLayout φ) (e.mapPos φ.place) (φ.place pos) := by
  refine (expectType v.type e pos).bind fun fine => .ite ?_ ?_
  · exact foldInto { v with initialised := true } e
  · exact pure { v with initialised := true }

theorem insert (symbol : Symbol) :
    Uniform [] fun φ => Check.modifySymbols (·.insert (symbol.inLayout φ)) :=
  modifySymbols fun φ t => t.insert_inLayout φ symbol

theorem declareVariable (v : Variable) :
    Uniform [] fun φ => declareVariable (v.inLayout φ) :=
  symbols.bind fun _ => (insert (.var v)).bind fun _ => debug _

theorem checkDeclaration (pos : Pos) (type : TypeName) (namePos : Pos) (name : String)
    (init : Option Expr) :
    Uniform [namePos] fun φ => checkDeclaration (φ.place pos) type (φ.place namePos) name
      (init.map (Expr.mapPos φ.place)) := by
  cases type with
  | void => exact (fatal pos .voidVariable).weaken (List.nil_sublist _)
  | value type =>
      simp only [Check.checkDeclaration, Layout.line_place]
      refine (checkDeclarable namePos name).bind fun fine => .ite ?_ (pure ())
      cases init with
      | none => exact declareVariable { Variable.fresh type name namePos.line with known := true }
      | some e =>
          exact (initialise (Variable.fresh type name namePos.line) e namePos).bind declareVariable

theorem checkInference (namePos : Pos) (name : String) (init : Expr) :
    Uniform [namePos] fun φ => checkInference (φ.place namePos) name (init.mapPos φ.place) := by
  simp only [Check.checkInference, Layout.line_place]
  refine init.uniform.detect.bind fun found => .ite ?_ ?_
  · exact (fatal namePos .inferenceMixed).weaken (List.nil_sublist _)
  · cases found.type.value? with
    | none => exact (fatal namePos (.inferenceType name found.type)).weaken (List.nil_sublist _)
    | some type =>
        refine (checkDeclarable namePos name).bind fun fine => .ite ?_ (pure ())
        exact (initialise { Variable.fresh type name namePos.line with inferred := true } init
          namePos).bind declareVariable

theorem checkAssignment (pos : Pos) (name : String) (value : Expr) :
    Uniform [] fun φ => checkAssignment (φ.place pos) name (value.mapPos φ.place) := by
  refine .ite_isBuiltin name (fatal pos (.builtinAssigned name)) ?_
  refine (lookup name).bind fun found => ?_
  cases found with
  | none => exact fatal pos .undeclaredAssigned
  | some symbol =>
      cases symbol with
      | fn f => exact fatal pos .functionAssigned
      | var v =>
          refine (expectType v.type value pos).bind fun fine => .ite ?_ (pure ())
          exact (checkConstant value).bind fun _ => pure ()

/-! ## Conditions, chances and surroundings -/

theorem checkCondition (pos : Pos) (keyword : Keyword) (cond : Expr) :
    Uniform [] fun φ => checkCondition (φ.place pos) keyword (cond.mapPos φ.place) := by
  refine (cond.uniform.accepts .boolie).bind fun accepted => .ite ?_ ?_
  · exact (checkConstant cond).bind fun _ => pure ()
  · exact fatal pos (.condition keyword)

theorem checkProbability (pos : Pos) (compound : Bool) (e : Expr) :
    Uniform [] fun φ => checkProbability (φ.place pos) compound (e.mapPos φ.place) := by
  refine e.uniform.detect.bind fun found => .ite (fatal pos (.probabilityMixed compound)) ?_
  have last : ∀ valid : Bool, Uniform [] (fun φ : Layout => do
      if valid then
        let _ ← Check.checkConstant (e.mapPos φ.place)
      else Check.fatal (φ.place pos) (.probabilityType compound)) :=
    fun valid => .ite ((checkConstant e).bind fun _ => pure ())
      (fatal pos (.probabilityType compound))
  exact .ite ((e.uniform.accepts .int).bind last) (last false)

end Check.UniformUpTo

theorem Stmt.declaresOrReturns_mapPos (f : Pos → Pos) (s : Stmt) :
    (s.mapPos f).declaresOrReturns = s.declaresOrReturns := by
  cases s <;> simp only [Stmt.mapPos, Stmt.declaresOrReturns]

theorem Stmt.isCompound_mapPos (f : Pos → Pos) (s : Stmt) :
    (s.mapPos f).isCompound = s.isCompound := by
  cases s <;> simp only [Stmt.mapPos, Stmt.isCompound]

namespace Check.UniformUpTo

theorem checkProbable (pos : Pos) (body : Stmt) :
    Uniform [] fun φ => checkProbable (φ.place pos) (body.mapPos φ.place) := by
  simp only [Check.checkProbable, Stmt.declaresOrReturns_mapPos]
  exact .ite (fatal pos .probableDeclaration) (pure ())

theorem checkAlternatives (pos : Pos) (body : Stmt) (otherwisePos : Pos) (alternative : Stmt) :
    Uniform [] fun φ => checkAlternatives (φ.place pos) (body.mapPos φ.place)
      (φ.place otherwisePos) (alternative.mapPos φ.place) := by
  simp only [Check.checkAlternatives, Stmt.declaresOrReturns_mapPos]
  have nested : Uniform [] (fun φ : Layout => do
      if 0 < (← get).uncertainDepth then Check.warn (φ.place pos) .nestedAlternatives) :=
    read (fun _ _ _ _ => rfl) fun s =>
      .ite (x := 0 < s.uncertainDepth) (warn pos .nestedAlternatives) (pure ())
  have second : Uniform [] (fun φ : Layout => do
      if alternative.declaresOrReturns = true then
        Check.fatal (φ.place otherwisePos) .infeasibleAlternative
      if 0 < (← get).uncertainDepth then Check.warn (φ.place pos) .nestedAlternatives) :=
    .ite ((fatal otherwisePos .infeasibleAlternative).bind fun _ => nested) nested
  exact .ite ((fatal pos .infeasibleBody).bind fun _ => second) second

variable {names : List Pos} {m : Layout → Check Unit}

theorem inScope (mode : EntryMode) (uniform : Uniform names m) :
    Uniform names fun φ => inScope mode (m φ) := by
  refine (modifySymbols fun φ t => t.enter_inLayout φ mode).bind fun _ => ?_
  exact uniform.ensuring (.symbols fun φ t => t.leave_inLayout φ)

theorem inLoop (uniform : Uniform names m) : Uniform names fun φ => inLoop (m φ) :=
  (of_modify (.depths (· + 1) id)).bind fun _ => uniform.ensuring (.depths (· - 1) id)

theorem inUncertainty (uniform : Uniform names m) : Uniform names fun φ => inUncertainty (m φ) :=
  (of_modify (.depths id (· + 1))).bind fun _ => uniform.ensuring (.depths id (· - 1))

theorem inFunction (f : Function) (uniform : Uniform names m) :
    Uniform names fun φ => inFunction (f.inLayout φ) (m φ) := by
  have enter : ChangesAlike
      (fun φ s => { s with currentFunction := some (f.inLayout φ), loopDepth := 0 })
      fun s => { s with currentFunction := some f, loopDepth := 0 } :=
    ⟨fun _ _ _ _ => rfl, fun _ _ => rfl, fun _ _ => rfl⟩
  have exit : ∀ loopDepth : Nat,
      ChangesAlike (fun _ s => { s with currentFunction := none, loopDepth })
        fun s => { s with currentFunction := none, loopDepth } :=
    fun _ => ⟨fun _ _ _ _ => rfl, fun _ _ => rfl, fun _ _ => rfl⟩
  refine read (fun _ _ _ _ => rfl) fun s => ?_
  exact (of_modify enter).bind fun _ => uniform.ensuring (exit s.loopDepth)

/-! ## Functions -/

theorem declareParam (function : String) (p : Param) :
    Uniform [p.namePos] fun φ => declareParam function (p.mapPos φ.place) := by
  obtain ⟨typePos, type, namePos, name⟩ := p
  cases type with
  | void =>
      exact ((fatal typePos (.parameterType function name .void)).bind fun _ => pure none).weaken
        (List.nil_sublist _)
  | value type =>
      simp only [Check.declareParam, Param.mapPos, Layout.line_place]
      refine (checkDeclarable namePos name).bind fun fine => .ite ?_ (pure none)
      refine (insert (.var (Variable.fresh type name namePos.line))).bind fun _ => ?_
      exact pure (some (Parameter.mk name type))

theorem declareParams (function : String) (params : List Param) :
    Uniform (params.map Param.namePos) fun φ =>
      declareParams function (params.map (Param.mapPos φ.place)) := by
  induction params with
  | nil => exact pure (some [])
  | cons p ps ih =>
      have both := (declareParam function p).bind fun first => ih.bind fun rest =>
        (pure (first.bind fun q => rest.map (q :: ·)) : Uniform [] _)
      exact both.weaken (by rw [List.append_nil]; exact .refl _)

end Check.UniformUpTo

theorem Header.result_mapPos (f : Pos → Pos) (h : Header) : (h.mapPos f).result = h.result := by
  unfold result mapPos
  cases h.returns <;> rfl

namespace Check.UniformUpTo

theorem beginFunction (pos : Pos) (h : Header) :
    UniformUpTo (fun φ => Option.map (Function.inLayout φ)) h.names
      fun φ => beginFunction (φ.place pos) (h.mapPos φ.place) := by
  have name : ∀ φ : Layout, (h.mapPos φ.place).name = h.name := fun _ => rfl
  have namePos : ∀ φ : Layout, (h.mapPos φ.place).namePos = φ.place h.namePos := fun _ => rfl
  have params : ∀ φ : Layout, (h.mapPos φ.place).params = h.params.map (Param.mapPos φ.place) :=
    fun _ => rfl
  simp only [Check.beginFunction, name, namePos, params, Header.result_mapPos, Layout.line_place]
  refine read (fun _ _ _ _ => rfl) fun s => ?_
  -- whether a function is being defined is the same in every layout, though its line is not
  have inside : ∀ φ : Layout, (s.inLayout φ).currentFunction.isSome = s.currentFunction.isSome :=
    fun φ => Option.isSome_map
  simp only [inside]
  refine .ite ?_ (.ite_isBuiltin h.name ?_ ?_)
  · exact ((fatal pos .nestedFunction).bind fun _ => pure none).weaken (List.nil_sublist _)
  · exact ((fatal h.namePos (.builtinRedefined h.name)).bind fun _ => pure none).weaken
      (List.nil_sublist _)
  · refine (lookup h.name).bind fun found => ?_
    cases found with
    | some previous =>
        simp only [Option.map_some, Symbol.line_inLayout]
        refine ((fatal h.namePos (.declaredBefore h.name previous.line)).bind fun _ =>
          pure none).weaken ?_
        exact (List.nil_sublist _).cons_cons h.namePos
    | none =>
        have sub : ([] ++ ([] ++ (h.params.map Param.namePos ++ ([] ++ [])))).Sublist h.names := by
          simp only [List.nil_append, List.append_nil]
          exact (List.Sublist.refl _).cons h.namePos
        refine UniformUpTo.weaken ?_ sub
        refine (debug _).bind fun _ => ?_
        refine (modifySymbols fun φ t => t.enter_inLayout φ .new).bind fun _ => ?_
        refine (declareParams h.name h.params).bind fun params => ?_
        refine (modifySymbols fun φ t => t.leave_inLayout φ).bind fun _ => ?_
        cases params with
        | none => exact pure none
        | some params =>
            refine symbols.bind fun t => ?_
            -- the function before it is put in a layout
            let f : Function := ⟨h.name, h.namePos.line, params, h.result, t.current⟩
            exact (insert (.fn f)).bind fun _ => pure (some f)

theorem endFunction (h : Header) (body : Block) (f : Function) :
    Uniform [] fun φ => endFunction (h.mapPos φ.place) (body.mapPos φ.place) (f.inLayout φ) := by
  simp only [Check.endFunction, Header.result_mapPos]
  refine (checkReturns h.namePos h.result.ty body).bind fun valid => ?_
  have last : ∀ complete : Bool, Uniform [] fun φ : Layout =>
      if (valid && complete) = true then
        modify fun s : State => { s with functions := s.functions ++ [f.inLayout φ] }
      else Pure.pure () := fun complete => .ite (list f) (pure ())
  have paths : Uniform [] (fun φ : Layout => do
      let complete ← (body.mapPos φ.place).returnsOnAllPaths h.result.ty
      if !complete then Check.fatal (φ.place h.namePos) (.pathsIncomplete h.result)
      if valid && complete then
        modify fun s : State => { s with functions := s.functions ++ [f.inLayout φ] }) := by
    refine (returnsOnAllPaths h.result.ty body).bind fun complete => .ite ?_ (last complete)
    exact (fatal h.namePos (.pathsIncomplete h.result)).bind fun _ => last complete
  exact .ite ((fatal h.namePos .bodyInvalid).bind fun _ => paths) paths

end Check.UniformUpTo

/-! ## Statements -/

mutual

/-- A statement is checked in every layout alike. -/
theorem Stmt.check_uniform (s : Stmt) : Uniform s.names fun φ => (s.mapPos φ.place).check := by
  cases s <;> simp only [Stmt.mapPos, Stmt.check, Stmt.names, Stmt.isCompound_mapPos]
  case block body => exact body.check_uniform .new
  case declare pos type namePos name init => exact .checkDeclaration pos type namePos name init
  case infer pos namePos name init => exact .checkInference namePos name init
  case assign pos name value => exact .checkAssignment pos name value
  case call pos name args => exact (UniformUpTo.resolveAll pos name args).bind fun _ => .pure ()
  case define pos header body =>
    refine (UniformUpTo.beginFunction pos header).bind fun found => ?_
    cases found with
    | none => exact (UniformUpTo.pure ()).weaken (List.nil_sublist _)
    | some f =>
        have both := ((body.check_uniform .resumeLast).inFunction f).bind fun _ =>
          UniformUpTo.endFunction header body f
        rw [List.append_nil] at both
        exact both
  case branch pos cond body rest =>
    refine (UniformUpTo.checkCondition pos .ifWord cond).bind fun _ => ?_
    exact (body.check_uniform .new).bind fun _ => rest.check_uniform
  case loop pos cond body =>
    refine (UniformUpTo.checkCondition pos .whileWord cond).bind fun _ => ?_
    exact (body.check_uniform .new).inLoop
  case breakOut pos =>
    exact .read (fun _ _ _ _ => rfl) fun s =>
      .ite (x := s.loopDepth = 0) (.fatal pos .breakOutside) (.pure ())
  case continueOn pos =>
    exact .read (fun _ _ _ _ => rfl) fun s =>
      .ite (x := s.loopDepth = 0) (.fatal pos .continueOutside) (.pure ())
  case returnWith pos value =>
    refine .read (fun _ _ _ _ => rfl) fun s => ?_
    have outside : ∀ φ : Layout,
        (s.inLayout φ).currentFunction.isNone = s.currentFunction.isNone :=
      fun φ => Option.isNone_map
    simp only [outside]
    refine .ite (.fatal pos .returnOutside) ?_
    cases value with
    | none => exact .pure ()
    | some e => exact e.uniform.detect.bind fun _ => .pure ()
  case needs pos spelling path => exact .warn pos .needsUnsupported
  case maybe pos probability body =>
    refine (UniformUpTo.checkProbability pos body.isCompound probability).bind fun _ => ?_
    refine (UniformUpTo.checkProbable pos body).bind fun _ => ?_
    exact body.check_uniform.inUncertainty
  case maybeOtherwise pos probability body otherwisePos alternative =>
    refine (UniformUpTo.checkProbability pos body.isCompound probability).bind fun _ => ?_
    refine (UniformUpTo.checkAlternatives pos body otherwisePos alternative).bind fun _ => ?_
    exact (body.check_uniform.bind fun _ => alternative.check_uniform).inUncertainty
  case bad pos fault => exact .fatal pos (.syntaxError pos fault)

theorem Block.check_uniform (mode : EntryMode) (body : Block) :
    Uniform body.names fun φ => (body.mapPos φ.place).check mode := by
  cases body with
  | mk start stop stmts =>
      simp only [Block.mapPos, Block.check, Block.names]
      have registered : Uniform [] fun φ => modifySymbols (·.register (φ.place start)) :=
        .modifySymbols fun φ t => t.register_inLayout φ start
      have both := (Stmt.checkAll_uniform stmts).bind fun _ => registered
      rw [List.append_nil] at both
      exact both.inScope mode

/-- Statements are checked in every layout alike. -/
theorem Stmt.checkAll_uniform (stmts : List Stmt) :
    Uniform (Stmt.namesAll stmts) fun φ => Stmt.checkAll (Stmt.mapPosAll φ.place stmts) := by
  cases stmts with
  | nil =>
      simp only [Stmt.mapPosAll, Stmt.checkAll, Stmt.namesAll]
      exact .pure ()
  | cons s ss =>
      simp only [Stmt.mapPosAll, Stmt.checkAll, Stmt.namesAll]
      exact s.check_uniform.bind fun _ => Stmt.checkAll_uniform ss

theorem Branches.check_uniform (rest : Branches) :
    Uniform rest.names fun φ => (rest.mapPos φ.place).check := by
  cases rest <;> simp only [Branches.mapPos, Branches.check, Branches.names]
  case done => exact .pure ()
  case otherwise pos body => exact body.check_uniform .new
  case elseIf pos cond body rest =>
    refine (UniformUpTo.checkCondition pos .ifWord cond).bind fun _ => ?_
    exact (body.check_uniform .new).bind fun _ => rest.check_uniform

end

end Samo
