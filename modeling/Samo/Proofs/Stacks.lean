import Samo.Proofs.Typing

/-!
# Stacks of scopes

What is declared at some point of a program can be written down as a stack: the names of each open
scope, innermost first, and what types they have. `SymbolTable.stack` is the stack of a table. It
decides the types of expressions (`Expr.Sane.of_stack`), declaring a name adds to its first scope
(`SymbolTable.stack_insert`), and a block that is left leaves it as it was
(`SymbolTable.Declares.stack_eq`).
-/

namespace Samo

/-! ## Bindings that give the same types -/

/-- Names stand for the same as far as types go. -/
structure Bindings.Alike (Γ Γ' : Bindings) : Prop where
  lookup : ∀ name, (Γ.lookup name).map Symbol.plain = (Γ'.lookup name).map Symbol.plain
  builtins : Γ.builtins = Γ'.builtins

namespace Bindings.Alike

variable {Γ Γ' : Bindings}

theorem exists_plain (alike : Γ.Alike Γ') {name : String} {symbol : Symbol}
    (found : Γ.lookup name = some symbol) :
    ∃ symbol', Γ'.lookup name = some symbol' ∧ symbol'.plain = symbol.plain := by
  have same := alike.lookup name
  rw [found, Option.map_some] at same
  exact Option.map_eq_some_iff.mp same.symm

theorem missing (alike : Γ.Alike Γ') {name : String} (unknown : Γ.lookup name = none) :
    Γ'.lookup name = none := by
  have same := alike.lookup name
  rw [unknown, Option.map_none] at same
  exact Option.map_eq_none_iff.mp same.symm

end Bindings.Alike

theorem Expr.HasType.of_alike {Γ Γ' : Bindings} (alike : Γ.Alike Γ') {e : Expr} {type : TypeName}
    (typed : e.HasType Γ type) : e.HasType Γ' type :=
  typed.transfer (fun _ _ found => alike.exists_plain found)
    (fun _ missing _ => alike.missing missing) alike.builtins.symm

/-! ## Stacks -/

/-- What is declared in the open scopes, innermost first. -/
abbrev Stack := List (List Symbol)

namespace Stack

def lookup (st : Stack) (name : String) : Option Symbol :=
  st.findSome? (·.find? (·.name == name))

/-- What the names stand for, beside the built-in functions. -/
def bindings (st : Stack) (builtins : Registry) : Bindings := ⟨st.lookup, builtins⟩

/-- One more name in the innermost scope. -/
def declare (symbol : Symbol) : Stack → Stack
  | [] => [[symbol]]
  | frame :: frames => (frame ++ [symbol]) :: frames

/-- A name that can be declared: it is not a built-in function's and stands for nothing yet. -/
structure Free (builtins : Registry) (st : Stack) (name : String) : Prop where
  reserved : builtins.contains name = false
  undeclared : st.lookup name = none

end Stack

namespace SymbolTable

/-- What is visible from some coordinates of a table, scope by scope. -/
def stackAt (t : SymbolTable) (c : Coordinates) : Stack :=
  (t.visibleFrom c).map fun s => s.symbols.map Symbol.plain

def stack (t : SymbolTable) : Stack := t.stackAt t.current

variable {t t' : SymbolTable}

theorem lookup_stack (t : SymbolTable) (name : String) :
    t.stack.lookup name = (t.lookup name).map Symbol.plain := by
  unfold stack stackAt Stack.lookup SymbolTable.lookup lookupFrom
  induction t.visibleFrom t.current with
  | nil => rfl
  | cons s ss ih =>
      have first : (s.symbols.map Symbol.plain).find? (·.name == name) =
          (s.find? name).map Symbol.plain := by
        rw [List.find?_map, Scope.find?]
        simp only [Function.comp_def, Symbol.name_plain]
      rw [List.map_cons, List.findSome?_cons, List.findSome?_cons, first]
      cases s.find? name with
      | some symbol => rfl
      | none => exact ih

theorem bindings_stack (t : SymbolTable) : (t.stack.bindings t.builtins).Alike t.bindings := by
  refine ⟨fun name => ?_, rfl⟩
  show (t.stack.lookup name).map Symbol.plain = (t.lookup name).map Symbol.plain
  rw [lookup_stack, Option.map_map]
  congr 1
  funext s
  exact s.plain_plain

/-- What is declared in a scope, and what is visible from its parent. -/
theorem stackAt_eq (wf : t.WellFormed) {c : Coordinates} {s : Scope}
    (found : t.scope? c = some s) :
    t.stackAt c = s.symbols.map Symbol.plain :: s.parent.elim [] t.stackAt := by
  unfold stackAt
  rw [visibleFrom_eq wf found, List.map_cons]
  cases s.parent with
  | none => rfl
  | some p => rfl

/-- Declaring a name adds to the innermost scope. -/
theorem stack_insert (wf : t.WellFormed) {symbol : Symbol} (fresh : t.lookup symbol.name = none)
    (allowed : t.isBuiltin symbol.name = false) :
    (t.insert symbol).stack = t.stack.declare symbol.plain := by
  obtain ⟨s, here⟩ := wf.current
  have current : (t.insert symbol).current = t.current :=
    (Declares.insert wf fresh allowed).current
  unfold stack stackAt
  rw [current, visibleFrom_insert wf fresh allowed here, visibleFrom_eq wf here, List.map_cons,
    List.map_cons]
  show (s.symbols ++ [symbol.settle s.coords]).map Symbol.plain :: _ = _
  rw [List.map_append, List.map_singleton, Symbol.plain_settle]
  rfl

/-- Statements that declare nothing leave the stack alone. -/
theorem Declares.stack_eq {starts : List Pos} (wf : t.WellFormed)
    (declares : t.Declares t' [] starts) : t'.stack = t.stack := by
  unfold stack stackAt
  rw [declares.visibleFrom_current wf]

/-- A scope that was opened stands on the stack as it was. -/
theorem Opens.stack_eq {names : List String} (wf : t.WellFormed) (opens : t.Opens t' names)
    {s : Scope} (here : t'.currentScope? = some s) :
    t'.stack = s.symbols.map Symbol.plain :: t.stack := by
  unfold stack stackAt
  rw [opens.visibleFrom_current wf here, List.map_cons]

theorem stack_enter (wf : t.WellFormed) : (t.enter .new).stack = [] :: t.stack :=
  (Opens.enter wf).stack_eq wf (currentScope?_enter_new wf)

end SymbolTable

/-- The stack of a table decides the types of expressions. -/
theorem Expr.Sane.of_stack {t : SymbolTable} {e : Expr} {type : TypeName}
    (sane : e.Sane (t.stack.bindings t.builtins) type) : e.Sane t.bindings type :=
  ⟨sane.typed.of_alike t.bindings_stack, sane.zeroFree⟩

end Samo
