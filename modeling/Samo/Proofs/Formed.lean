import Samo.Proofs.ControlPaths
import Samo.Proofs.Sites
import Samo.Proofs.Stacks

/-!
# Well-formed programs

The rules for a program, read from its start to its end with a stack of scopes. `Stmt.Formed`
relates what is declared before a statement to what is declared after it. The rules do not speak of
passes or of reports: an expression has a type where it stands and divides no known number by a
known zero, a name is free where it is declared, a return gives what its function is to return, and
no way through a function that returns something falls off its end.
-/

namespace Samo

/-! ## The rules -/

/-- What is around a statement: the result of the function it is in, and whether a loop of that
function is around it. -/
structure Around where
  returns : Option TypeName
  inLoop : Bool
deriving DecidableEq, Repr

namespace Around

/-- Outside of everything. -/
def top : Around := ⟨none, false⟩

def loop (a : Around) : Around := { a with inLoop := true }

/-- In a function. A loop around the function is none for its body. -/
def function (h : Header) : Around := ⟨some h.result, false⟩

end Around

/-- A return in a function with a result: a value of its type, or nothing if there is none. -/
inductive Returned (Γ : Bindings) : TypeName → Option Expr → Prop
  | nothing : Returned Γ .void none
  | value {type e} : e.Sane Γ (.value type) → Returned Γ (.value type) (some e)

/-- A parameter as a name of the function's scope. -/
def Parameter.symbol (q : Parameter) : Symbol := .var (.fresh q.type q.name 0)

/-- A function as a name of the scope it is defined in. -/
def Header.symbol (h : Header) (params : List Parameter) : Symbol :=
  .fn { name := h.name, line := 0, params, returns := h.result }

/-- The parameters of a header: none of them is void, no two have one name, and each name is free.
The function's own name may be among them. -/
structure Header.Takes (h : Header) (builtins : Registry) (st : Stack) (params : List Parameter) :
    Prop where
  types : h.params.map (fun p => (p.name, p.type)) = params.map (fun q => (q.name, .value q.type))
  distinct : (params.map Parameter.name).Nodup
  free : ∀ q ∈ params, Stack.Free builtins st q.name

mutual

/-- A well-formed statement, between what is declared before it and what is declared after it. -/
inductive Stmt.Formed (builtins : Registry) : Around → Stack → Stmt → Stack → Prop
  | block {around st body} : body.Formed builtins around [] st →
      Stmt.Formed builtins around st (.block body) st
  | declare {around st pos type namePos name init} : Stack.Free builtins st name →
      (∀ e ∈ init, e.Sane (Stack.bindings st builtins) (.value type)) →
      Stmt.Formed builtins around st (.declare pos (.value type) namePos name init)
        (Stack.declare (.var (.fresh type name 0)) st)
  | infer {around st pos namePos name init type} : Stack.Free builtins st name →
      init.Sane (Stack.bindings st builtins) (.value type) →
      Stmt.Formed builtins around st (.infer pos namePos name init)
        (Stack.declare (.var (.fresh type name 0)) st)
  | assign {around st pos name value v} : Stack.lookup st name = some (.var v) →
      value.Sane (Stack.bindings st builtins) (.value v.type) →
      Stmt.Formed builtins around st (.assign pos name value) st
  | call {around st pos name args result} :
      (Expr.call pos name args).Sane (Stack.bindings st builtins) result →
      Stmt.Formed builtins around st (.call pos name args) st
  | define {around st pos h body params} : around.returns = none →
      Stack.Free builtins st h.name → h.Takes builtins st params →
      body.Formed builtins (.function h) (params.map Parameter.symbol)
        (Stack.declare (h.symbol params) st) →
      (h.result ≠ .void → ¬ body.Ends .falls) →
      Stmt.Formed builtins around st (.define pos h body) (Stack.declare (h.symbol params) st)
  | branch {around st pos cond body rest} :
      cond.Sane (Stack.bindings st builtins) (.value .boolie) → body.Formed builtins around [] st →
      rest.Formed builtins around st →
      Stmt.Formed builtins around st (.branch pos cond body rest) st
  | loop {around st pos cond body} :
      cond.Sane (Stack.bindings st builtins) (.value .boolie) →
      body.Formed builtins around.loop [] st →
      Stmt.Formed builtins around st (.loop pos cond body) st
  | breakOut {around st pos} : around.inLoop = true →
      Stmt.Formed builtins around st (.breakOut pos) st
  | continueOn {around st pos} : around.inLoop = true →
      Stmt.Formed builtins around st (.continueOn pos) st
  | returnWith {around st pos value result} : around.returns = some result →
      Returned (Stack.bindings st builtins) result value →
      Stmt.Formed builtins around st (.returnWith pos value) st
  | needs {around st pos spelling path} :
      Stmt.Formed builtins around st (.needs pos spelling path) st
  | maybe {around st st' pos probability body} :
      probability.Sane (Stack.bindings st builtins) (.value .int) →
      body.declaresOrReturns = false → Stmt.Formed builtins around st body st' →
      Stmt.Formed builtins around st (.maybe pos probability body) st'
  | maybeOtherwise {around st st₁ st' pos probability body otherwisePos alternative} :
      probability.Sane (Stack.bindings st builtins) (.value .int) →
      body.declaresOrReturns = false → alternative.declaresOrReturns = false →
      Stmt.Formed builtins around st body st₁ → Stmt.Formed builtins around st₁ alternative st' →
      Stmt.Formed builtins around st
        (.maybeOtherwise pos probability body otherwisePos alternative) st'

/-- A well-formed block, with the names that its scope has from the start. -/
inductive Block.Formed (builtins : Registry) : Around → List Symbol → Stack → Block → Prop
  | mk {around frame st st' start stop stmts} :
      Stmt.FormedAll builtins around (frame :: st) stmts st' →
      Block.Formed builtins around frame st (.mk start stop stmts)

inductive Stmt.FormedAll (builtins : Registry) : Around → Stack → List Stmt → Stack → Prop
  | nil {around st} : Stmt.FormedAll builtins around st [] st
  | cons {around st st₁ st' s ss} : Stmt.Formed builtins around st s st₁ →
      Stmt.FormedAll builtins around st₁ ss st' → Stmt.FormedAll builtins around st (s :: ss) st'

inductive Branches.Formed (builtins : Registry) : Around → Stack → Branches → Prop
  | done {around st} : Branches.Formed builtins around st .done
  | otherwise {around st pos body} : body.Formed builtins around [] st →
      Branches.Formed builtins around st (.otherwise pos body)
  | elseIf {around st pos cond body rest} :
      cond.Sane (Stack.bindings st builtins) (.value .boolie) → body.Formed builtins around [] st →
      Branches.Formed builtins around st rest →
      Branches.Formed builtins around st (.elseIf pos cond body rest)

end

/-- A well-formed program. At its start nothing is declared. -/
def Program.Formed (builtins : Registry) (program : Program) : Prop :=
  ∃ st, Stmt.FormedAll builtins .top [[]] program st

/-! ## Jumps -/

variable {builtins : Registry} {around : Around}

mutual

/-- Outside of a loop no jump leaves a statement. -/
theorem Stmt.Formed.jumpsInLoops {st st' : Stack} :
    ∀ {s : Stmt}, s.Formed builtins around st st' → around.inLoop = false → s.jumpsInLoops = true
  | .block _, .block inner, outside => by
      rw [Stmt.jumpsInLoops]
      exact inner.jumpsInLoops outside
  | .branch .., .branch _ first others, outside => by
      rw [Stmt.jumpsInLoops, first.jumpsInLoops outside, others.jumpsInLoops outside]
      rfl
  | .breakOut _, .breakOut inside, outside | .continueOn _, .continueOn inside, outside => by
      rw [outside] at inside
      cases inside
  | .maybe .., .maybe _ _ inner, outside => by
      rw [Stmt.jumpsInLoops]
      exact inner.jumpsInLoops outside
  | .maybeOtherwise .., .maybeOtherwise _ _ _ first second, outside => by
      rw [Stmt.jumpsInLoops, first.jumpsInLoops outside, second.jumpsInLoops outside]
      rfl
  | .declare .., _, _ | .infer .., _, _ | .assign .., _, _ | .call .., _, _ | .define .., _, _
  | .loop .., _, _ | .returnWith .., _, _ | .needs .., _, _ | .bad .., _, _ => by
      rw [Stmt.jumpsInLoops]

theorem Block.Formed.jumpsInLoops {frame : List Symbol} {st : Stack} :
    ∀ {body : Block}, body.Formed builtins around frame st → around.inLoop = false →
      body.jumpsInLoops = true
  | .mk .., .mk inner, outside => by
      rw [Block.jumpsInLoops]
      exact inner.jumpsInLoops outside

theorem Stmt.FormedAll.jumpsInLoops {st st' : Stack} :
    ∀ {ss : List Stmt}, Stmt.FormedAll builtins around st ss st' → around.inLoop = false →
      Stmt.allJumpInLoops ss = true
  | [], _, _ => by rw [Stmt.allJumpInLoops]
  | _ :: _, .cons first others, outside => by
      rw [Stmt.allJumpInLoops, first.jumpsInLoops outside, others.jumpsInLoops outside]
      rfl

theorem Branches.Formed.jumpsInLoops {st : Stack} :
    ∀ {rest : Branches}, rest.Formed builtins around st → around.inLoop = false →
      rest.jumpsInLoops = true
  | .done, _, _ => by rw [Branches.jumpsInLoops]
  | .otherwise .., .otherwise inner, outside => by
      rw [Branches.jumpsInLoops]
      exact inner.jumpsInLoops outside
  | .elseIf .., .elseIf _ first others, outside => by
      rw [Branches.jumpsInLoops, first.jumpsInLoops outside, others.jumpsInLoops outside]
      rfl

end

end Samo
