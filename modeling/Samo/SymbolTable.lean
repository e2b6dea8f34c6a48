import Samo.Builtin
import Samo.Position

/-!
# The symbol table

Scopes are never thrown away: they are kept in rows by depth, so that a block can be entered again
after it was left. One scope is current. `enter` goes down one level, to a new scope or to the last
one of that level, and `leave` goes to the parent. `register` remembers the current scope under the
position of a block, `goTo?` jumps to a remembered scope, and `restore` undoes the last jump.
-/

namespace Samo

/-- The names declared in one block, in order, and where the scopes around it begin. -/
structure Scope where
  coords : Coordinates
  parent : Option Coordinates
  symbols : List Symbol
deriving DecidableEq, Repr

namespace Scope

/-- What a name stands for in this scope alone. -/
def find? (s : Scope) (name : String) : Option Symbol := s.symbols.find? (·.name == name)

def sorted (s : Scope) : List Symbol := s.symbols.mergeSort fun a b => a.name ≤ b.name

/-- One more symbol, settled in this scope. -/
def add (s : Scope) (symbol : Symbol) : Scope :=
  { s with symbols := s.symbols ++ [symbol.settle s.coords] }

end Scope

/-- Which scope to enter one level down: a new one, or the last one if there is one. -/
inductive EntryMode where
  | new
  | resumeLast
deriving DecidableEq, Repr

/-- Every scope so far, the current one, and the built-in functions. -/
structure SymbolTable where
  rows : List (List Scope)
  current : Coordinates
  blocks : List (Pos × Coordinates)
  resume : List Coordinates
  builtins : Registry
deriving DecidableEq, Repr

namespace SymbolTable

/-- A table with the global scope alone. -/
def init (builtins : Registry) : SymbolTable :=
  { rows := [[⟨.global, none, []⟩]], current := .global, blocks := [], resume := [], builtins }

/-- A table with the built-in functions of a library. -/
def ofLibrary (library : Library) : Except RegistryError SymbolTable :=
  init <$> Registry.ofLibrary library

/-! ## Reading -/

/-- The scopes of a depth. -/
def row (t : SymbolTable) (depth : Nat) : List Scope := (t.rows[depth]?).getD []

def scope? (t : SymbolTable) (c : Coordinates) : Option Scope := (t.row c.depth)[c.index]?

/-- The scope that new symbols go into. -/
def currentScope? (t : SymbolTable) : Option Scope := t.scope? t.current

/-- The scope at some coordinates and the ones around it, at most `n` of them. -/
def chain (t : SymbolTable) : Nat → Coordinates → List Scope
  | 0, c => (t.scope? c).toList
  | n + 1, c =>
    match t.scope? c with
    | none => []
    | some s => s :: s.parent.elim [] (t.chain n)

/-- The scopes that are visible at some coordinates, innermost first. -/
def visibleFrom (t : SymbolTable) (c : Coordinates) : List Scope := t.chain c.depth c

/-- What a name stands for at some coordinates. -/
def lookupFrom (t : SymbolTable) (c : Coordinates) (name : String) : Option Symbol :=
  (t.visibleFrom c).findSome? (·.find? name)

/-- What a name stands for here. -/
def lookup (t : SymbolTable) (name : String) : Option Symbol := t.lookupFrom t.current name

/-- What a name stands for in the scope at some coordinates alone. -/
def lookupAt (t : SymbolTable) (c : Coordinates) (name : String) : Option Symbol :=
  (t.scope? c).bind (·.find? name)

/-- The symbols of the scope at some coordinates, by name. -/
def sortedAt (t : SymbolTable) (c : Coordinates) : List Symbol := (t.scope? c).elim [] Scope.sorted

/-- Every scope, by depth and then by number. -/
def scopes (t : SymbolTable) : List Scope := t.rows.flatten

def isBuiltin (t : SymbolTable) (name : String) : Bool := t.builtins.contains name

/-! ## Changing -/

def modifyScope (t : SymbolTable) (c : Coordinates) (f : Scope → Scope) : SymbolTable :=
  { t with rows := t.rows.modify c.depth (·.modify c.index f) }

/-- Declares a symbol in the current scope, unless its name is declared there already. -/
def insert? (t : SymbolTable) (symbol : Symbol) : Option SymbolTable :=
  match t.lookupAt t.current symbol.name with
  | some _ => none
  | none => some (t.modifyScope t.current (·.add symbol))

/-- Declares a symbol in the current scope; the first declaration of a name stays. -/
def insert (t : SymbolTable) (symbol : Symbol) : SymbolTable := (t.insert? symbol).getD t

/-- Puts a scope at the end of a row; the row is new if it is the one after the last. -/
def addScope (t : SymbolTable) (s : Scope) : SymbolTable :=
  if s.coords.depth = t.rows.length then { t with rows := t.rows ++ [[s]] }
  else { t with rows := t.rows.modify s.coords.depth (· ++ [s]) }

/-- Goes one level down. -/
def enter (t : SymbolTable) (mode : EntryMode) : SymbolTable :=
  let depth := t.current.depth + 1
  match mode, (t.row depth).getLast? with
  | .resumeLast, some s => { t with current := s.coords }
  | _, _ =>
    let s : Scope := ⟨⟨depth, (t.row depth).length⟩, some t.current, []⟩
    { t.addScope s with current := s.coords }

/-- Goes to the scope around the current one. The global scope has none. -/
def leave (t : SymbolTable) : SymbolTable :=
  match t.currentScope?.bind (·.parent) with
  | some c => { t with current := c }
  | none => t

/-- Remembers the current scope under a position. The first one under a position stays. -/
def register (t : SymbolTable) (p : Pos) : SymbolTable :=
  match t.blocks.lookup p with
  | some _ => t
  | none => { t with blocks := t.blocks ++ [(p, t.current)] }

/-- Jumps to the scope remembered under a position, if there is one. -/
def goTo? (t : SymbolTable) (p : Pos) : Option SymbolTable := do
  let c ← t.blocks.lookup p
  let _ ← t.scope? c
  some { t with current := c, resume := t.current :: t.resume }

/-- Goes back to where the last jump started. -/
def restore (t : SymbolTable) : SymbolTable :=
  match t.resume with
  | [] => t
  | c :: rest => { t with current := c, resume := rest }

end SymbolTable

end Samo
