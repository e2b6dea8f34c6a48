import Samo.Proofs.MapPos
import Samo.Proofs.Traces

/-!
# Layouts

A layout says where the words of a program stand. No two words stand in one place, so the symbol
table finds the scope of a block in every layout alike. A step is done alike if it tells the same
events in every layout, each at its place (`Check.Uniform`). What a check keeps of a place beyond
that is the line of a declaration, which a later declaration of the name reports; at which places
that can happen is kept in view.
-/

namespace Samo

/-- Where words stand. The line of a word is a matter of its line before. -/
structure Layout where
  place : Pos → Pos
  line : Int → Int
  injective : Function.Injective place
  line_place : ∀ p, (place p).line = line p.line

/-! ## Symbol tables -/

variable (φ : Layout)

def Variable.inLayout (v : Variable) : Variable := { v with line := φ.line v.line }

def Function.inLayout (f : Function) : Function := { f with line := φ.line f.line }

def Symbol.inLayout : Symbol → Symbol
  | var v => var (v.inLayout φ)
  | fn f => fn (f.inLayout φ)

/-- A scope whose symbols were declared in a layout. -/
def Scope.inLayout (s : Scope) : Scope := { s with symbols := s.symbols.map (Symbol.inLayout φ) }

/-- The symbol table of a program in a layout. -/
def SymbolTable.inLayout (t : SymbolTable) : SymbolTable :=
  { t with
    rows := t.rows.map (List.map (Scope.inLayout φ))
    blocks := t.blocks.map fun block => (φ.place block.1, block.2) }

namespace Symbol

theorem name_inLayout (s : Symbol) : (s.inLayout φ).name = s.name := by cases s <;> rfl

theorem type_inLayout (s : Symbol) : (s.inLayout φ).type = s.type := by cases s <;> rfl

theorem line_inLayout (s : Symbol) : (s.inLayout φ).line = φ.line s.line := by cases s <;> rfl

theorem settle_inLayout (s : Symbol) (c : Coordinates) :
    (s.inLayout φ).settle c = (s.settle c).inLayout φ := by
  cases s <;> rfl

end Symbol

namespace Scope

theorem find?_inLayout (s : Scope) (name : String) :
    (s.inLayout φ).find? name = (s.find? name).map (Symbol.inLayout φ) := by
  have same : (fun symbol : Symbol => symbol.name == name) ∘ Symbol.inLayout φ =
      fun symbol => symbol.name == name := by
    funext symbol
    exact congrArg (· == name) (symbol.name_inLayout φ)
  rw [find?, inLayout, List.find?_map, same]
  rfl

theorem add_inLayout (s : Scope) (symbol : Symbol) :
    (s.inLayout φ).add (symbol.inLayout φ) = (s.add symbol).inLayout φ := by
  simp only [add, inLayout, List.map_append, List.map_cons, List.map_nil, Symbol.settle_inLayout]

end Scope

/-- A change of one item and a change of all can be made in any order. -/
theorem modify_map_comm {α β : Type} {g : α → β} {f : α → α} {f' : β → β}
    (same : ∀ a, f' (g a) = g (f a)) (as : List α) (i : Nat) :
    (as.map g).modify i f' = (as.modify i f).map g := by
  refine List.ext_getElem? fun j => ?_
  rw [List.getElem?_modify, List.getElem?_map, List.getElem?_map, List.getElem?_modify]
  cases as[j]? with
  | none => rfl
  | some a =>
      by_cases here : i = j
      · simp [here, same]
      · simp [here]

namespace SymbolTable

theorem current_inLayout (t : SymbolTable) : (t.inLayout φ).current = t.current := rfl

theorem builtins_inLayout (t : SymbolTable) : (t.inLayout φ).builtins = t.builtins := rfl

theorem row_inLayout (t : SymbolTable) (depth : Nat) :
    (t.inLayout φ).row depth = (t.row depth).map (Scope.inLayout φ) := by
  unfold row inLayout
  rw [List.getElem?_map]
  cases t.rows[depth]? <;> rfl

theorem scope?_inLayout (t : SymbolTable) (c : Coordinates) :
    (t.inLayout φ).scope? c = (t.scope? c).map (Scope.inLayout φ) := by
  unfold scope?
  rw [row_inLayout, List.getElem?_map]

theorem chain_inLayout (t : SymbolTable) (n : Nat) (c : Coordinates) :
    (t.inLayout φ).chain n c = (t.chain n c).map (Scope.inLayout φ) := by
  induction n generalizing c with
  | zero =>
      rw [chain, chain, scope?_inLayout]
      cases t.scope? c <;> rfl
  | succ n ih =>
      rw [chain, chain, scope?_inLayout]
      cases t.scope? c with
      | none => rfl
      | some s =>
          have parent : (s.inLayout φ).parent = s.parent := rfl
          show s.inLayout φ :: (s.inLayout φ).parent.elim [] ((t.inLayout φ).chain n) = _
          rw [parent, List.map_cons]
          cases s.parent with
          | none => rfl
          | some c => exact congrArg _ (ih c)

theorem lookupFrom_inLayout (t : SymbolTable) (c : Coordinates) (name : String) :
    (t.inLayout φ).lookupFrom c name = (t.lookupFrom c name).map (Symbol.inLayout φ) := by
  unfold lookupFrom visibleFrom
  rw [chain_inLayout]
  induction t.chain c.depth c with
  | nil => rfl
  | cons s ss ih =>
      rw [List.map_cons, List.findSome?_cons, List.findSome?_cons, Scope.find?_inLayout]
      cases s.find? name with
      | none => exact ih
      | some symbol => rfl

theorem lookup_inLayout (t : SymbolTable) (name : String) :
    (t.inLayout φ).lookup name = (t.lookup name).map (Symbol.inLayout φ) :=
  t.lookupFrom_inLayout φ t.current name

theorem modifyScope_inLayout {f : Scope → Scope} {f' : Scope → Scope}
    (same : ∀ s, f' (s.inLayout φ) = (f s).inLayout φ) (t : SymbolTable) (c : Coordinates) :
    (t.inLayout φ).modifyScope c f' = (t.modifyScope c f).inLayout φ := by
  have rows : (t.rows.map (List.map (Scope.inLayout φ))).modify c.depth (·.modify c.index f') =
      (t.rows.modify c.depth (·.modify c.index f)).map (List.map (Scope.inLayout φ)) :=
    modify_map_comm (fun row => modify_map_comm same row c.index) t.rows c.depth
  exact congrArg (fun rows => { t.inLayout φ with rows }) rows

theorem insert_inLayout (t : SymbolTable) (symbol : Symbol) :
    (t.inLayout φ).insert (symbol.inLayout φ) = (t.insert symbol).inLayout φ := by
  have here : (t.inLayout φ).lookupAt (t.inLayout φ).current (symbol.inLayout φ).name =
      (t.lookupAt t.current symbol.name).map (Symbol.inLayout φ) := by
    rw [lookupAt, lookupAt, Symbol.name_inLayout, scope?_inLayout, current_inLayout]
    cases t.scope? t.current with
    | none => rfl
    | some s => exact s.find?_inLayout φ symbol.name
  unfold insert insert?
  rw [here]
  cases t.lookupAt t.current symbol.name with
  | some _ => rfl
  | none => exact t.modifyScope_inLayout φ (fun s => s.add_inLayout φ symbol) t.current

theorem addScope_inLayout (t : SymbolTable) (s : Scope) :
    (t.inLayout φ).addScope (s.inLayout φ) = (t.addScope s).inLayout φ := by
  have length : (t.inLayout φ).rows.length = t.rows.length := List.length_map _
  have coords : (s.inLayout φ).coords = s.coords := rfl
  unfold addScope
  rw [length, coords]
  split
  · simp only [inLayout, List.map_append, List.map_cons, List.map_nil]
  · have rows : (t.rows.map (List.map (Scope.inLayout φ))).modify s.coords.depth
        (· ++ [s.inLayout φ]) =
        (t.rows.modify s.coords.depth (· ++ [s])).map (List.map (Scope.inLayout φ)) := by
      refine modify_map_comm (fun row => ?_) t.rows s.coords.depth
      rw [List.map_append, List.map_cons, List.map_nil]
    exact congrArg (fun rows => { t.inLayout φ with rows }) rows

theorem enter_inLayout (t : SymbolTable) (mode : EntryMode) :
    (t.inLayout φ).enter mode = (t.enter mode).inLayout φ := by
  -- a scope that is just opened holds no symbol that could move
  have new : ∀ s : Scope, s.symbols = [] →
      { (t.inLayout φ).addScope s with current := s.coords } =
        ({ t.addScope s with current := s.coords } : SymbolTable).inLayout φ := by
    intro s empty
    have same : s.inLayout φ = s := by
      unfold Scope.inLayout
      rw [empty, List.map_nil, ← empty]
    have added := t.addScope_inLayout φ s
    rw [same] at added
    rw [added]
    rfl
  unfold enter
  dsimp only
  rw [current_inLayout, row_inLayout, List.getLast?_map, List.length_map]
  cases mode with
  | new => exact new _ rfl
  | resumeLast =>
      cases (t.row (t.current.depth + 1)).getLast? with
      | none => exact new _ rfl
      | some s => rfl

theorem leave_inLayout (t : SymbolTable) : (t.inLayout φ).leave = t.leave.inLayout φ := by
  have current : (t.inLayout φ).currentScope? = t.currentScope?.map (Scope.inLayout φ) :=
    t.scope?_inLayout φ t.current
  unfold leave
  rw [current]
  cases t.currentScope? with
  | none => rfl
  | some s =>
      have parent : (s.inLayout φ).parent = s.parent := rfl
      rw [Option.map_some, Option.bind_some, Option.bind_some, parent]
      cases s.parent <;> rfl

/-- No two words stand in one place, so a block is found where it was registered. -/
theorem lookup_blocks_inLayout (blocks : List (Pos × Coordinates)) (p : Pos) :
    (blocks.map fun block => (φ.place block.1, block.2)).lookup (φ.place p) = blocks.lookup p := by
  induction blocks with
  | nil => rfl
  | cons block blocks ih =>
      have same : (φ.place p == φ.place block.1) = (p == block.1) := by
        rw [Bool.eq_iff_iff, beq_iff_eq, beq_iff_eq]
        exact ⟨fun equal => φ.injective equal, congrArg φ.place⟩
      rw [List.map_cons, List.lookup_cons, List.lookup_cons, ih, same]

theorem register_inLayout (t : SymbolTable) (p : Pos) :
    (t.inLayout φ).register (φ.place p) = (t.register p).inLayout φ := by
  have found : (t.inLayout φ).blocks.lookup (φ.place p) = t.blocks.lookup p :=
    lookup_blocks_inLayout φ t.blocks p
  unfold register
  rw [found]
  cases t.blocks.lookup p with
  | some _ => rfl
  | none => simp only [inLayout, List.map_append, List.map_cons, List.map_nil]

theorem goTo?_inLayout (t : SymbolTable) (p : Pos) :
    (t.inLayout φ).goTo? (φ.place p) = (t.goTo? p).map (inLayout φ) := by
  have found : (t.inLayout φ).blocks.lookup (φ.place p) = t.blocks.lookup p :=
    lookup_blocks_inLayout φ t.blocks p
  unfold goTo?
  rw [found]
  cases t.blocks.lookup p with
  | none => rfl
  | some c =>
      show ((t.inLayout φ).scope? c).bind _ = _
      rw [scope?_inLayout]
      show _ = ((t.scope? c).bind _).map (inLayout φ)
      cases t.scope? c <;> rfl

theorem restore_inLayout (t : SymbolTable) : (t.inLayout φ).restore = t.restore.inLayout φ := by
  have resume : (t.inLayout φ).resume = t.resume := rfl
  unfold restore
  rw [resume]
  cases t.resume <;> rfl

end SymbolTable

/-! ## Events -/

namespace Check

/-- The state of a check of a program in a layout. -/
def State.inLayout (s : State) : State :=
  { s with
    symbols := s.symbols.inLayout φ
    functions := s.functions.map (Function.inLayout φ)
    currentFunction := s.currentFunction.map (Function.inLayout φ) }

end Check

/-- A problem that is reported at a place, in a layout. A syntax error names the place. -/
def Problem.inLayout (pos : Pos) : Problem → Problem
  | .syntaxError _ fault => .syntaxError (φ.place pos) fault
  | .declaredBefore name line => .declaredBefore name (φ.line line)
  | p => p

/-- The place where the problem is reported, if it is that a name was declared before. -/
def Problem.redeclaredAt (pos : Pos) : Problem → List Pos
  | .declaredBefore .. => [pos]
  | _ => []

namespace Check

def Report.inLayout : Report → Report
  | .fatal pos p => .fatal (φ.place pos) (p.inLayout φ pos)
  | .error pos p => .error (φ.place pos) (p.inLayout φ pos)

namespace Event

def inLayout : Event → Event
  | report r => report (r.inLayout φ)
  | warning pos p => warning (φ.place pos) (p.inLayout φ pos)
  | listed f => listed (f.inLayout φ)

/-- The place of the event, if it tells that a name was declared before. -/
def redeclaredAt : Event → List Pos
  | report (.fatal pos p) | report (.error pos p) | warning pos p => p.redeclaredAt pos
  | listed _ => []

/-- The places where names were declared before, in order. -/
def redeclared (es : List Event) : List Pos := es.flatMap redeclaredAt

theorem redeclared_append (es es' : List Event) :
    redeclared (es ++ es') = redeclared es ++ redeclared es' :=
  List.flatMap_append

theorem redeclared_singleton (e : Event) : redeclared [e] = e.redeclaredAt :=
  List.flatMap_singleton ..

end Event

/-! ## Steps that are done in every layout alike -/

variable {α β γ δ : Type}

/--
A step that tells the same events in every layout, and whose results are those that `g` gives for
one value. Names are found to be declared before at most at the given places.
-/
def UniformUpTo (g : Layout → β → α) (names : List Pos) (m : Layout → Check α) : Prop :=
  ∀ s : State, ∃ (es : List Event) (b : β) (s' : State), (Event.redeclared es).Sublist names ∧
    ∀ φ, Tells (m φ) (s.inLayout φ) (es.map (Event.inLayout φ)) (g φ b) (s'.inLayout φ)

/-- A step that tells the same events in every layout and gives the same result. -/
abbrev Uniform (names : List Pos) (m : Layout → Check α) : Prop :=
  UniformUpTo (fun _ a => a) names m

/-- A change of the surroundings that is made in every layout alike. -/
structure ChangesAlike (f : Layout → State → State) (u : State → State) : Prop where
  twinned : ∀ φ, Twinned (f φ)
  functions : ∀ φ s, (f φ s).functions = s.functions
  same : ∀ φ s, f φ (s.inLayout φ) = (u s).inLayout φ

/-- How deep a check is in loops and chances is the same in every layout. -/
theorem ChangesAlike.depths (f g : Nat → Nat) :
    ChangesAlike (fun _ s => { s with
        loopDepth := f s.loopDepth, uncertainDepth := g s.uncertainDepth })
      fun s => { s with loopDepth := f s.loopDepth, uncertainDepth := g s.uncertainDepth } :=
  ⟨fun _ _ _ _ => rfl, fun _ _ => rfl, fun _ _ => rfl⟩

theorem ChangesAlike.symbols {f : Layout → SymbolTable → SymbolTable}
    {u : SymbolTable → SymbolTable} (same : ∀ φ t, f φ (t.inLayout φ) = (u t).inLayout φ) :
    ChangesAlike (fun φ s => { s with symbols := f φ s.symbols })
      fun s => { s with symbols := u s.symbols } := by
  refine ⟨fun _ _ _ _ => rfl, fun _ _ => rfl, fun φ s => ?_⟩
  exact congrArg (fun symbols => { s.inLayout φ with symbols }) (same φ s.symbols)

namespace UniformUpTo

variable {g : Layout → β → α} {h : Layout → δ → γ} {names names' : List Pos}
  {m m' : Layout → Check α}

theorem pure (b : β) : UniformUpTo g [] fun φ => pure (g φ b) :=
  fun s => ⟨[], b, s, .refl _, fun _ => .pure _ _⟩

theorem bind {k : Layout → α → Check γ} (first : UniformUpTo g names m)
    (second : ∀ b, UniformUpTo h names' fun φ => k φ (g φ b)) :
    UniformUpTo h (names ++ names') fun φ => m φ >>= k φ := by
  intro s
  obtain ⟨es, b, s₁, sub, tells⟩ := first s
  obtain ⟨es', d, s₂, sub', tells'⟩ := second b s₁
  refine ⟨es ++ es', d, s₂, ?_, fun φ => ?_⟩
  · rw [Event.redeclared_append]
    exact sub.append sub'
  · rw [List.map_append]
    exact (tells φ).bind (tells' φ)

theorem weaken (uniform : UniformUpTo g names m) (sub : names.Sublist names') :
    UniformUpTo g names' m := by
  intro s
  obtain ⟨es, b, s', here, tells⟩ := uniform s
  exact ⟨es, b, s', here.trans sub, tells⟩

theorem ite {x : Prop} [Decidable x] (left : UniformUpTo g names m)
    (right : UniformUpTo g names m') : UniformUpTo g names fun φ => if x then m φ else m' φ := by
  by_cases here : x
  · simpa only [if_pos here] using left
  · simpa only [if_neg here] using right

/-- A look at the surroundings. -/
theorem read {k : Layout → State → Check α}
    (same : ∀ φ s e l, k φ { s with engine := e, log := l } = k φ s)
    (uniform : ∀ s : State, UniformUpTo g names fun φ => k φ (s.inLayout φ)) :
    UniformUpTo g names fun φ => get >>= k φ := by
  intro s
  obtain ⟨es, b, s', sub, tells⟩ := uniform s s
  exact ⟨es, b, s', sub, fun φ => .read (same φ _) (tells φ)⟩

theorem symbols : UniformUpTo SymbolTable.inLayout [] fun _ => symbols := by
  refine read (fun _ _ _ _ => rfl) fun s => ?_
  exact pure s.symbols

theorem ite_isBuiltin (name : String) (left : UniformUpTo g names m)
    (right : UniformUpTo g names m') : UniformUpTo g names (fun φ => do
      if (← Check.symbols).isBuiltin name then m φ else m' φ) := by
  refine symbols.bind fun t => ?_
  exact ite (x := t.isBuiltin name = true) left right

theorem lookup (name : String) :
    UniformUpTo (fun φ => Option.map (Symbol.inLayout φ)) [] fun _ => lookup name := by
  refine symbols.bind fun t => ?_
  simp only [SymbolTable.lookup_inLayout]
  exact pure (t.lookup name)

theorem of_modify {f : Layout → State → State} {u : State → State} (alike : ChangesAlike f u) :
    Uniform [] fun φ => modify (f φ) := by
  intro s
  refine ⟨[], (), u s, .refl _, fun φ => ?_⟩
  rw [← alike.same]
  exact .of_modify (alike.twinned φ _) (alike.functions φ _)

theorem modifySymbols {f : Layout → SymbolTable → SymbolTable} {u : SymbolTable → SymbolTable}
    (same : ∀ φ t, f φ (t.inLayout φ) = (u t).inLayout φ) :
    Uniform [] fun φ => modifySymbols (f φ) :=
  of_modify (.symbols same)

/-- What is undone on the way out is undone in every layout alike. -/
theorem ensuring {f : Layout → State → State} {u : State → State} (alike : ChangesAlike f u)
    (uniform : UniformUpTo g names m) : UniformUpTo g names fun φ => ensuring (m φ) (f φ) := by
  intro s
  obtain ⟨es, b, s', sub, tells⟩ := uniform s
  refine ⟨es, b, u s', sub, fun φ => ?_⟩
  rw [← alike.same]
  exact (tells φ).ensuring ⟨alike.twinned φ, alike.functions φ⟩

/-- A block is found again in every layout. -/
theorem inScopeOf (start : Pos) (uniform : UniformUpTo g names m) :
    UniformUpTo g names fun φ => inScopeOf (φ.place start) (m φ) := by
  intro s
  have jump : ∀ φ, (s.inLayout φ).symbols.goTo? (φ.place start) =
      (s.symbols.goTo? start).map (SymbolTable.inLayout φ) :=
    fun φ => s.symbols.goTo?_inLayout φ start
  -- the block was registered in every layout or in none
  cases found : s.symbols.goTo? start with
  | none =>
      obtain ⟨es, b, s', sub, tells⟩ := uniform s
      refine ⟨es, b, s', sub, fun φ => (tells φ).congr ?_⟩
      rintro t ⟨e, l, rfl⟩
      have none := jump φ
      rw [found] at none
      simp only [Check.inScopeOf, none, Option.map_none]
  | some t =>
      have inside : UniformUpTo g names (fun φ => do
          Check.modifySymbols fun _ => t.inLayout φ
          Check.ensuring (m φ) fun s => { s with symbols := s.symbols.restore }) := by
        refine (modifySymbols fun φ _ => rfl).bind fun _ => ?_
        exact uniform.ensuring (.symbols fun φ t => t.restore_inLayout φ)
      obtain ⟨es, b, s', sub, tells⟩ := inside s
      refine ⟨es, b, s', sub, fun φ => (tells φ).congr ?_⟩
      rintro u ⟨e, l, rfl⟩
      have some := jump φ
      rw [found] at some
      simp only [Check.inScopeOf, some, Option.map_some]
      rfl

theorem debug (message : Layout → String) : Uniform [] fun φ => debug (message φ) :=
  fun s => ⟨[], (), s, .refl _, fun _ => .debug _ _⟩

theorem fatal (pos : Pos) (p : Problem) :
    Uniform (p.redeclaredAt pos) fun φ => fatal (φ.place pos) (p.inLayout φ pos) := by
  refine fun s => ⟨[.report (.fatal pos p)], (), s, ?_, fun φ => .fatal _ _ _⟩
  rw [Event.redeclared_singleton]
  exact .refl _

theorem error (pos : Pos) (p : Problem) :
    Uniform (p.redeclaredAt pos) fun φ => error (φ.place pos) (p.inLayout φ pos) := by
  refine fun s => ⟨[.report (.error pos p)], (), s, ?_, fun φ => .error _ _ _⟩
  rw [Event.redeclared_singleton]
  exact .refl _

theorem warn (pos : Pos) (p : Problem) :
    Uniform (p.redeclaredAt pos) fun φ => warn (φ.place pos) (p.inLayout φ pos) := by
  refine fun s => ⟨[.warning pos p], (), s, ?_, fun φ => .warn _ _ _⟩
  rw [Event.redeclared_singleton]
  exact .refl _

/-- A function that passes is listed with the line it has in the layout. -/
theorem list (f : Function) : Uniform [] fun φ =>
    modify fun s : State => { s with functions := s.functions ++ [f.inLayout φ] } := by
  refine fun s => ⟨[.listed f], (), { s with functions := s.functions ++ [f] }, ?_, fun φ => ?_⟩
  · rw [Event.redeclared_singleton]
    exact .refl _
  · have listed := Tells.list (f.inLayout φ) (s.inLayout φ)
    have same : { s.inLayout φ with functions := (s.inLayout φ).functions ++ [f.inLayout φ] } =
        State.inLayout φ { s with functions := s.functions ++ [f] } := by
      simp only [State.inLayout, List.map_append, List.map_cons, List.map_nil]
    rw [same] at listed
    exact listed

end UniformUpTo

end Check

end Samo
