import Samo.Proofs.Places
import Samo.Proofs.Questions

/-!
# Properties of steps

A check is built from questions, reports and changes of the surroundings. A property that holds of
these, and of two steps in a row if it holds of both, holds of a whole check. `Check.Compositional`,
`Check.Declaring` and `Check.Walking` say what has to be known of a property, and what is built from
steps is gone through here only once (`Check.Walking.stmt`). The questions are about a part of a
text, `Q`, and blocks start at positions of which `B` is known.
-/

namespace Samo

/-- A statement without another one in it, that defines no function. -/
def Stmt.isSimple : Stmt → Bool
  | .declare .. | .infer .. | .assign .. | .call .. | .breakOut _ | .continueOn _ | .returnWith ..
  | .needs .. | .bad .. => true
  | _ => false

namespace Check

/-! ## Steps in a row -/

/-- A property of questions and looks at the surroundings, and of steps in a row. -/
structure Compositional (Q : Pos → Prop) (P : {α : Type} → Check α → Prop) : Prop where
  ask : ∀ {α : Type} {m : Check α}, Question Q False (fun _ => False) m → P m
  bind : ∀ {α β : Type} {m : Check α} {f : α → Check β}, P m → (∀ a, P (f a)) → P (m >>= f)
  look : ∀ {α : Type} {f : State → Check α},
    (∀ s e l, f { s with engine := e, log := l } = f s) → (∀ s, P (f s)) → P (get >>= f)

variable {Q B : Pos → Prop} {P : {α : Type} → Check α → Prop}

namespace Compositional

variable (holds : Compositional Q P)
include holds

theorem pure {α : Type} (a : α) : P (Pure.pure a : Check α) := holds.ask (.pure id)

theorem fatal {pos : Pos} (here : Q pos) (p : Problem) : P (Check.fatal pos p) :=
  holds.ask (.fatal here p)

/-- A report before the rest, or the rest at once. -/
theorem report {c : Prop} [Decidable c] {pos : Pos} (here : Q pos) (p : Problem)
    {m : Unit → Check Unit} (rest : P (m ())) :
    P (if c then Check.fatal pos p >>= m else m ()) := by
  split
  · exact holds.bind (holds.fatal here p) fun _ => rest
  · exact rest

theorem checkAlternatives {pos otherwisePos : Pos} (warn : P (Check.warn pos .nestedAlternatives))
    (here : Q pos) (there : Q otherwisePos) (body alternative : Stmt) :
    P (checkAlternatives pos body otherwisePos alternative) := by
  unfold Check.checkAlternatives
  refine holds.report here _ ?_
  refine holds.report there _ ?_
  refine holds.look (fun _ _ _ => rfl) fun s => ?_
  split
  · exact warn
  · exact holds.pure ()

/-- The end of a function, if the property holds of the look at its returns. -/
theorem endFunction {h : Header} (here : Q h.namePos) {body : Block} (within : body.Within Q)
    (f : Function) (returns : P (checkReturns h.namePos h.result.ty body))
    (list : P (modify fun s : State => { s with functions := s.functions ++ [f] })) :
    P (endFunction h body f) := by
  refine holds.bind returns fun valid => holds.report here _ ?_
  refine holds.bind (holds.ask (body.returnsOnAllPaths_question h.result.ty within)) fun _ => ?_
  refine holds.report here _ ?_
  split
  · exact list
  · exact holds.pure ()

/-- A simple statement that declares nothing. -/
theorem plain {s : Stmt} (simple : s.isSimple = true) (undeclared : s.declares = [])
    (warn : ∀ pos spelling path, s = .needs pos spelling path →
      P (Check.warn pos .needsUnsupported)) (within : s.Within Q) : P s.check := by
  cases within with
  | assign here inner =>
      rw [Stmt.check]
      exact holds.ask (.checkAssignment here _ inner)
  | call here inner =>
      rw [Stmt.check]
      exact holds.bind (holds.ask (Expr.Within.resolve here _ inner)) fun _ => holds.pure ()
  | breakOut here | continueOn here =>
      rw [Stmt.check]
      refine holds.look (fun _ _ _ => rfl) fun _ => ?_
      split
      · exact holds.fatal here _
      · exact holds.pure ()
  | @returnWith pos value here inner =>
      cases value with
      | none =>
          rw [Stmt.check]
          refine holds.look (fun _ _ _ => rfl) fun _ => ?_
          split
          · exact holds.fatal here _
          · exact holds.pure ()
      | some e =>
          rw [Stmt.check]
          refine holds.look (fun _ _ _ => rfl) fun _ => ?_
          split
          · exact holds.fatal here _
          · exact holds.bind (holds.ask (inner e rfl).detect) fun _ => holds.pure ()
  | needs here =>
      rw [Stmt.check]
      exact warn _ _ _ rfl
  | bad here =>
      rw [Stmt.check]
      exact holds.fatal here _
  | declare | infer =>
      rw [Stmt.declares] at undeclared
      cases undeclared
  | block | define | branch | loop | maybe | maybeOtherwise => cases simple

end Compositional

/-! ## Declarations -/

/-- A property that holds when something is declared, too. -/
structure Declaring (Q : Pos → Prop) (P : {α : Type} → Check α → Prop) : Prop
    extends Compositional Q P where
  insert : ∀ symbol, P (modifySymbols (·.insert symbol))
  debug : ∀ message, P (Check.debug message)

namespace Declaring

variable (holds : Declaring Q P)
include holds

theorem declareVariable (v : Variable) : P (declareVariable v) :=
  holds.bind (holds.ask .symbols) fun _ => holds.bind (holds.insert _) fun _ => holds.debug _

theorem checkDeclaration {pos namePos : Pos} (here : Q pos) (type : TypeName) (name : String)
    (there : Q namePos) {init : Option Expr} (within : ∀ e ∈ init, e.Within Q) :
    P (checkDeclaration pos type namePos name init) := by
  unfold Check.checkDeclaration
  split
  · exact holds.fatal here _
  refine holds.bind (holds.ask (.checkDeclarable there name)) fun _ => ?_
  split
  · split
    · exact holds.declareVariable _
    · next e =>
      exact holds.bind (holds.ask (.initialise _ (within e rfl) there)) holds.declareVariable
  · exact holds.pure ()

theorem checkInference {namePos : Pos} (here : Q namePos) (name : String) {init : Expr}
    (within : init.Within Q) : P (checkInference namePos name init) := by
  refine holds.bind (holds.ask within.detect) fun found => ?_
  split
  · exact holds.fatal here _
  split
  · exact holds.fatal here _
  refine holds.bind (holds.ask (.checkDeclarable here name)) fun _ => ?_
  split
  · exact holds.bind (holds.ask (.initialise _ within here)) holds.declareVariable
  · exact holds.pure ()

theorem declareParam (function : String) {p : Param} (within : p.Within Q) :
    P (declareParam function p) := by
  unfold Check.declareParam
  split
  · exact holds.bind (holds.fatal within.type _) fun _ => holds.pure none
  refine holds.bind (holds.ask (.checkDeclarable within.name _)) fun _ => ?_
  split
  · exact holds.bind (holds.insert _) fun _ => holds.pure _
  · exact holds.pure none

theorem declareParams (function : String) {ps : List Param} (within : ∀ p ∈ ps, p.Within Q) :
    P (declareParams function ps) := by
  induction ps with
  | nil => exact holds.pure _
  | cons p ps ih =>
      obtain ⟨first, rest⟩ := List.forall_mem_cons.mp within
      exact holds.bind (holds.declareParam function first) fun _ =>
        holds.bind (ih rest) fun _ => holds.pure _

theorem beginFunction (enter : P (modifySymbols (·.enter .new)))
    (leave : P (modifySymbols (·.leave))) {pos : Pos} {h : Header} (here : Q pos)
    (within : h.Within Q) : P (beginFunction pos h) := by
  have rejected : ∀ {pos}, Q pos → ∀ p, P (do Check.fatal pos p; return (none : Option Function)) :=
    fun here p => holds.bind (holds.fatal here p) fun _ => holds.pure none
  refine holds.look (fun _ _ _ => rfl) fun s => ?_
  split
  · exact rejected here _
  refine holds.bind (holds.ask .symbols) fun t => ?_
  split
  · exact rejected within.name _
  refine holds.bind (holds.ask (.lookup h.name)) fun found => ?_
  cases found with
  | some previous => exact rejected within.name _
  | none =>
      refine holds.bind (holds.debug _) fun _ => holds.bind enter fun _ => ?_
      refine holds.bind (holds.declareParams h.name within.params) fun params => ?_
      refine holds.bind leave fun _ => ?_
      cases params with
      | none => exact holds.pure none
      | some params =>
          exact holds.bind (holds.ask .symbols) fun _ =>
            holds.bind (holds.insert _) fun _ => holds.pure _

end Declaring

/-! ## Statements -/

/-- A property that holds of declarations, too. -/
structure Stating (Q : Pos → Prop) (P : {α : Type} → Check α → Prop) : Prop
    extends Compositional Q P where
  declaration : ∀ {pos namePos : Pos} (type : TypeName) (name : String) {init : Option Expr},
    Q pos → Q namePos → (∀ e ∈ init, e.Within Q) → P (checkDeclaration pos type namePos name init)
  inference : ∀ {namePos : Pos} (name : String) {init : Expr}, Q namePos → init.Within Q →
    P (checkInference namePos name init)

theorem Declaring.stating (holds : Declaring Q P) : Stating Q P where
  toCompositional := holds.toCompositional
  declaration type name _ here there inner := holds.checkDeclaration here type name there inner
  inference name _ here inner := holds.checkInference here name inner

theorem Stating.simple (holds : Stating Q P) {s : Stmt} (simple : s.isSimple = true)
    (warn : ∀ pos spelling path, s = .needs pos spelling path →
      P (Check.warn pos .needsUnsupported)) (within : s.Within Q) : P s.check := by
  have whole := within
  cases within with
  | declare here there inner =>
      rw [Stmt.check]
      exact holds.declaration _ _ here there inner
  | infer here inner =>
      rw [Stmt.check]
      exact holds.inference _ here inner
  | assign | call | breakOut | continueOn | returnWith | needs | bad =>
      exact holds.plain rfl (by rw [Stmt.declares]) warn whole
  | block | define | branch | loop | maybe | maybeOtherwise => cases simple

/-- A property that is kept by all ways to put statements into others. -/
structure Walking (Q B : Pos → Prop) (P : {α : Type} → Check α → Prop) : Prop
    extends Stating Q P where
  warn : ∀ pos p, P (Check.warn pos p)
  definition : ∀ {pos start : Pos} {h : Header} (stop : Pos) {stmts : List Stmt}, Q pos →
    h.Within Q → (∀ s ∈ stmts, s.Within Q) → B start → P (Stmt.checkAll stmts) →
    P (Stmt.define pos h (.mk start stop stmts)).check
  block : ∀ {start : Pos} (stop : Pos) {stmts : List Stmt}, B start → P (Stmt.checkAll stmts) →
    P ((Block.mk start stop stmts).check .new)
  inLoop : ∀ {m : Check Unit}, P m → P (inLoop m)
  inUncertainty : ∀ {m : Check Unit}, P m → P (inUncertainty m)

/-- Declarations, and a function that has been begun, are gone through as the rest is. -/
theorem Declaring.walking (holds : Declaring Q P) (warn : ∀ pos p, P (Check.warn pos p))
    (begun : ∀ {pos : Pos} {h : Header}, Q pos → h.Within Q → P (Check.beginFunction pos h))
    (function : ∀ (f : Function) {h : Header} {start : Pos} (stop : Pos) {stmts : List Stmt},
      h.Within Q → (∀ s ∈ stmts, s.Within Q) → B start → P (Stmt.checkAll stmts) →
      P (do inFunction f ((Block.mk start stop stmts).check .resumeLast)
            endFunction h (.mk start stop stmts) f))
    (block : ∀ {start : Pos} (stop : Pos) {stmts : List Stmt}, B start → P (Stmt.checkAll stmts) →
      P ((Block.mk start stop stmts).check .new))
    (inLoop : ∀ {m : Check Unit}, P m → P (inLoop m))
    (inUncertainty : ∀ {m : Check Unit}, P m → P (inUncertainty m)) : Walking Q B P where
  toStating := holds.stating
  warn := warn
  definition stop _ here head inner own all := by
    rw [Stmt.check]
    refine holds.bind (begun here head) fun found => ?_
    cases found with
    | none => exact holds.pure ()
    | some f => exact function f stop head inner own all
  block := block
  inLoop := inLoop
  inUncertainty := inUncertainty

namespace Walking

variable (holds : Walking Q B P)
include holds

mutual

theorem stmt (s : Stmt) (within : s.Within Q) (starts : ∀ start ∈ s.braces, B start) :
    P s.check := by
  have whole := within
  cases within <;> rw [Stmt.braces] at starts
  case block body inner =>
    rw [Stmt.check]
    exact body_new body inner starts
  case define pos header body here head inner =>
    cases inner with
    | @mk start stop stmts inner =>
        rw [Block.braces] at starts
        obtain ⟨own, others⟩ := List.forall_mem_cons.mp starts
        exact holds.definition stop here head inner own (all stmts inner others)
  case branch pos cond body rest here value inner arms =>
    rw [Stmt.check]
    obtain ⟨first, others⟩ := List.forall_mem_append.mp starts
    exact holds.bind (holds.ask (.checkCondition here .ifWord value)) fun _ =>
      holds.bind (body_new body inner first) fun _ => branches rest arms others
  case loop pos cond body here value inner =>
    rw [Stmt.check]
    exact holds.bind (holds.ask (.checkCondition here .whileWord value)) fun _ =>
      holds.inLoop (body_new body inner starts)
  case maybe pos e body here value inner =>
    rw [Stmt.check]
    exact holds.bind (holds.ask (.checkProbability here _ value)) fun _ =>
      holds.bind (holds.ask (.checkProbable here body)) fun _ =>
        holds.inUncertainty (stmt body inner starts)
  case maybeOtherwise pos e body otherwisePos alternative here value inner there other =>
    rw [Stmt.check]
    obtain ⟨first, second⟩ := List.forall_mem_append.mp starts
    exact holds.bind (holds.ask (.checkProbability here _ value)) fun _ =>
      holds.bind (holds.checkAlternatives (holds.warn _ _) here there body alternative) fun _ =>
        holds.inUncertainty (holds.bind (stmt body inner first) fun _ =>
          stmt alternative other second)
  case declare | infer | assign | call | breakOut | continueOn | returnWith | needs | bad =>
    exact holds.simple rfl (fun _ _ _ _ => holds.warn _ _) whole

theorem body_new (body : Block) (within : body.Within Q) (starts : ∀ start ∈ body.braces, B start) :
    P (body.check .new) := by
  cases within with
  | @mk start stop stmts inner =>
      rw [Block.braces] at starts
      obtain ⟨own, others⟩ := List.forall_mem_cons.mp starts
      exact holds.block stop own (all stmts inner others)

theorem all (stmts : List Stmt) (within : ∀ s ∈ stmts, s.Within Q)
    (starts : ∀ start ∈ Stmt.bracesAll stmts, B start) : P (Stmt.checkAll stmts) := by
  cases stmts with
  | nil =>
      rw [Stmt.checkAll]
      exact holds.pure ()
  | cons s ss =>
      rw [Stmt.checkAll]
      rw [Stmt.bracesAll] at starts
      obtain ⟨first, rest⟩ := List.forall_mem_cons.mp within
      obtain ⟨own, others⟩ := List.forall_mem_append.mp starts
      exact holds.bind (stmt s first own) fun _ => all ss rest others

theorem branches (rest : Branches) (within : rest.Within Q)
    (starts : ∀ start ∈ rest.braces, B start) : P rest.check := by
  cases within <;> rw [Branches.check]
  case done => exact holds.pure ()
  case otherwise pos body inner =>
    rw [Branches.braces] at starts
    exact body_new body inner starts
  case elseIf pos cond body rest here value inner arms =>
    rw [Branches.braces] at starts
    obtain ⟨first, others⟩ := List.forall_mem_append.mp starts
    exact holds.bind (holds.ask (.checkCondition here .ifWord value)) fun _ =>
      holds.bind (body_new body inner first) fun _ => branches rest arms others

end

end Walking

end Check

end Samo
