import Samo.SymbolTable
import Mathlib.Tactic.Common

/-!
# Scopes of a symbol table

What the operations of a symbol table do to its scopes, one at a time (`scope?_addScope`,
`scope?_modifyScope`), and what a name stands for in terms of a scope and its parent
(`lookupFrom_eq`). A table is `WellFormed` if its scopes stand where their coordinates say and lead
out to the global one. A later table (`Grows`) has the same scopes with more symbols in them, and
every name that stood for something still stands for the same.
-/

namespace Samo

/-- The names declared in a scope, in order. -/
def Scope.names (s : Scope) : List String := s.symbols.map Symbol.name

namespace SymbolTable

variable {t t' : SymbolTable} {s : Scope} {c : Coordinates} {symbol : Symbol} {starts : List Pos}
  {names names' : List String}

/-! ## Single scopes -/

/-- There is a scope at the coordinates. -/
def Has (t : SymbolTable) (c : Coordinates) : Prop := ∃ s, t.scope? c = some s

theorem Has.depth_lt (here : t.Has c) : c.depth < t.rows.length := by
  obtain ⟨s, found⟩ := here
  by_contra outside
  have none : t.rows[c.depth]? = none := List.getElem?_eq_none (Nat.le_of_not_lt outside)
  rw [scope?, row, none] at found
  cases found

/-- A change at some coordinates leaves the other rows alone. -/
theorem row_modifyScope (t : SymbolTable) (c : Coordinates) (f : Scope → Scope) (depth : Nat) :
    (t.modifyScope c f).row depth =
      if depth = c.depth then (t.row depth).modify c.index f else t.row depth := by
  simp only [row, modifyScope, List.getElem?_modify, eq_comm]
  cases t.rows[depth]? with
  | none => simp
  | some row => split <;> rfl

/-- A change at some coordinates leaves the other scopes alone. -/
theorem scope?_modifyScope (t : SymbolTable) (c c' : Coordinates) (f : Scope → Scope) :
    (t.modifyScope c f).scope? c' = if c' = c then (t.scope? c').map f else t.scope? c' := by
  obtain ⟨d, i⟩ := c
  obtain ⟨d', i'⟩ := c'
  simp only [scope?, row_modifyScope, Coordinates.mk.injEq]
  by_cases deep : d' = d
  · by_cases here : i' = i
    · simp [deep, here]
    · simp [deep, here, Ne.symm here]
  · simp [deep]

theorem getElem?_concat_of_ne {α : Type} {l : List α} {a : α} {i : Nat} (other : i ≠ l.length) :
    (l ++ [a])[i]? = l[i]? := by
  by_cases inside : i < l.length
  · exact List.getElem?_append_left inside
  · have beyond : l.length + 1 ≤ i := by omega
    rw [List.getElem?_eq_none (by simpa using beyond), List.getElem?_eq_none (by omega)]

/-- A scope is put behind the others of its row. -/
theorem row_addScope (fits : s.coords.depth ≤ t.rows.length) (depth : Nat) :
    (t.addScope s).row depth =
      if depth = s.coords.depth then t.row depth ++ [s] else t.row depth := by
  unfold addScope
  by_cases new : s.coords.depth = t.rows.length
  · rw [if_pos new]
    by_cases here : depth = s.coords.depth
    · simp [row, here, new]
    · rw [if_neg here]
      show ((t.rows ++ [[s]])[depth]?).getD [] = (t.rows[depth]?).getD []
      rw [getElem?_concat_of_ne (by omega)]
  · rw [if_neg new]
    have inside : s.coords.depth < t.rows.length := by omega
    simp only [row, List.getElem?_modify]
    by_cases here : depth = s.coords.depth
    · subst here
      simp [inside]
    · simp [here, Ne.symm here]

/-- A scope that is put at the end of a row is found there, and the other scopes stay. -/
theorem scope?_addScope (fits : s.coords.depth ≤ t.rows.length)
    (last : s.coords.index = (t.row s.coords.depth).length) (c : Coordinates) :
    (t.addScope s).scope? c = if c = s.coords then some s else t.scope? c := by
  obtain ⟨depth, index⟩ := c
  simp only [scope?, row_addScope fits]
  by_cases deep : depth = s.coords.depth
  · subst deep
    rw [if_pos rfl]
    by_cases here : index = s.coords.index
    · subst here
      rw [if_pos rfl, last]
      exact List.getElem?_concat_length
    · rw [if_neg (fun same => here (congrArg Coordinates.index same)),
        getElem?_concat_of_ne (by omega)]
  · rw [if_neg deep, if_neg (fun same => deep (congrArg Coordinates.depth same))]

/-! ## Well-formed tables -/

/--
Every scope stands where its coordinates say and has its parent one level up, or is a global one.
The current scope and the registered ones exist, and no scope declares the name of a built-in
function.
-/
structure WellFormed (t : SymbolTable) : Prop where
  current : ∃ s, t.currentScope? = some s
  coords : ∀ c s, t.scope? c = some s → s.coords = c
  parent : ∀ c s, t.scope? c = some s →
    (s.parent = none ∧ c.depth = 0) ∨
      ∃ p s', s.parent = some p ∧ c.depth = p.depth + 1 ∧ t.scope? p = some s'
  registered : ∀ start c, t.blocks.lookup start = some c → ∃ s, t.scope? c = some s
  reserved : ∀ c s, t.scope? c = some s → ∀ name ∈ s.names, t.isBuiltin name = false

namespace WellFormed

/-- The parent of a scope is a scope one level up. -/
theorem parent_found (wf : t.WellFormed) {p : Coordinates} (found : t.scope? c = some s)
    (above : s.parent = some p) : c.depth = p.depth + 1 ∧ ∃ s', t.scope? p = some s' := by
  rcases wf.parent c s found with ⟨none, -⟩ | ⟨q, s', same, below, there⟩
  · rw [above] at none
    cases none
  · rw [above] at same
    cases same
    exact ⟨below, s', there⟩

/-- What holds of a scope if it holds of its parent holds of every scope. -/
theorem induction {motive : Coordinates → Scope → Prop} (wf : t.WellFormed)
    (step : ∀ c s, t.scope? c = some s →
      (∀ p s', s.parent = some p → t.scope? p = some s' → motive p s') → motive c s)
    (found : t.scope? c = some s) : motive c s := by
  generalize depth : c.depth = n
  induction n generalizing c s with
  | zero =>
      refine step c s found fun p s' above _ => ?_
      have below := (wf.parent_found found above).1
      omega
  | succ n ih =>
      refine step c s found fun p s' above outer => ih outer ?_
      have below := (wf.parent_found found above).1
      omega

end WellFormed

theorem lookupFrom_of_scope?_eq_none (missing : t.scope? c = none) (name : String) :
    t.lookupFrom c name = none := by
  unfold lookupFrom visibleFrom
  cases c.depth with
  | zero => simp [chain, missing]
  | succ n => simp [chain, missing]

/-- What is visible from a scope: itself, and what is visible from its parent. -/
theorem visibleFrom_eq (wf : t.WellFormed) (found : t.scope? c = some s) :
    t.visibleFrom c = s :: s.parent.elim [] t.visibleFrom := by
  unfold visibleFrom
  rcases wf.parent c s found with ⟨none, top⟩ | ⟨p, s', some, below, -⟩
  · simp [top, chain, found, none]
  · simp [below, chain, found, some]

/-- A name stands for what the scope says, and else for what it stands for in the parent. -/
theorem lookupFrom_eq (wf : t.WellFormed) (found : t.scope? c = some s) (name : String) :
    t.lookupFrom c name = (s.find? name).or (s.parent.bind (t.lookupFrom · name)) := by
  unfold lookupFrom
  rw [visibleFrom_eq wf found, List.findSome?_cons]
  cases s.find? name with
  | some symbol => rfl
  | none =>
      cases s.parent with
      | none => rfl
      | some p => rfl

theorem find?_isSome_iff {name : String} : (s.find? name).isSome = true ↔ name ∈ s.names := by
  simp [Scope.find?, Scope.names]

/-- A name is visible if the scope declares it or it is visible from the parent. -/
theorem lookupFrom_isSome_iff (wf : t.WellFormed) (found : t.scope? c = some s) (name : String) :
    (t.lookupFrom c name).isSome = true ↔
      name ∈ s.names ∨ ∃ p, s.parent = some p ∧ (t.lookupFrom p name).isSome = true := by
  rw [lookupFrom_eq wf found name, Option.isSome_or, Bool.or_eq_true, find?_isSome_iff]
  refine or_congr_right ?_
  cases s.parent with
  | none => simp
  | some p => simp

/-- The name of a built-in function stands for nothing else. -/
theorem lookupFrom_of_isBuiltin (wf : t.WellFormed) {name : String}
    (builtin : t.isBuiltin name = true) (c : Coordinates) : t.lookupFrom c name = none := by
  cases found : t.scope? c with
  | none => exact lookupFrom_of_scope?_eq_none found name
  | some s =>
      refine wf.induction (motive := fun c _ => t.lookupFrom c name = none) ?_ found
      intro c s found outer
      have undeclared : s.find? name = none := by
        by_contra declared
        have member := find?_isSome_iff.mp (Option.isSome_iff_ne_none.mpr declared)
        rw [wf.reserved c s found name member] at builtin
        cases builtin
      rw [lookupFrom_eq wf found name, undeclared, Option.none_or]
      rcases wf.parent c s found with ⟨none, -⟩ | ⟨p, s', above, -, there⟩
      · rw [none]
        rfl
      · rw [above]
        exact outer p s' above there

/-- If the scopes up to a depth stay as they are, so does what is visible from there. -/
theorem visibleFrom_of_kept (wf : t.WellFormed) (wf' : t'.WellFormed) {depth : Nat}
    (kept : ∀ c s, c.depth ≤ depth → t.scope? c = some s → t'.scope? c = some s)
    (found : t.scope? c = some s) (above : c.depth ≤ depth) :
    t'.visibleFrom c = t.visibleFrom c := by
  revert above
  refine wf.induction
    (motive := fun c _ => c.depth ≤ depth → t'.visibleFrom c = t.visibleFrom c) ?_ found
  intro c s found outer above
  rw [visibleFrom_eq wf found, visibleFrom_eq wf' (kept c s above found)]
  cases up : s.parent with
  | none => rfl
  | some p =>
      obtain ⟨below, s', there⟩ := wf.parent_found found up
      show s :: t'.visibleFrom p = s :: t.visibleFrom p
      rw [outer p s' up there (by omega)]

/-- If every scope stays as it is, so does what every name stands for. -/
theorem lookupFrom_of_kept (wf : t.WellFormed) (wf' : t'.WellFormed)
    (kept : ∀ c s, t.scope? c = some s → t'.scope? c = some s) (found : t.scope? c = some s)
    (name : String) : t'.lookupFrom c name = t.lookupFrom c name := by
  unfold lookupFrom
  rw [visibleFrom_of_kept wf wf' (fun c s _ found => kept c s found) found (Nat.le_refl _)]

/-- What names stand for depends on the scopes alone. -/
theorem lookupFrom_congr (same : t'.rows = t.rows) : t'.lookupFrom = t.lookupFrom := by
  have scopes : t'.scope? = t.scope? := by
    funext c
    rw [scope?, row, same]
    rfl
  have chains : ∀ n, t'.chain n = t.chain n := by
    intro n
    induction n with
    | zero =>
        funext c
        rw [chain, chain, scopes]
    | succ n ih =>
        funext c
        rw [chain, chain, scopes, ih]
  funext c name
  rw [lookupFrom, lookupFrom, visibleFrom, visibleFrom, chains]

/-! ## Later tables -/

/--
A later table: the same scopes with more symbols, the same registered blocks and more, and every
name still stands for what it stood for.
-/
structure Grows (t t' : SymbolTable) : Prop where
  builtins : t'.builtins = t.builtins
  scopes : ∀ c s, t.scope? c = some s →
    ∃ more, t'.scope? c = some { s with symbols := s.symbols ++ more }
  blocks : ∀ start c, t.blocks.lookup start = some c → t'.blocks.lookup start = some c
  found : ∀ c name symbol, t.lookupFrom c name = some symbol → t'.lookupFrom c name = some symbol

namespace Grows

theorem refl (t : SymbolTable) : t.Grows t :=
  ⟨rfl, fun c s found => ⟨[], by rw [List.append_nil, found]⟩, fun _ _ => id, fun _ _ _ => id⟩

theorem trans {t₁ t₂ t₃ : SymbolTable} (first : t₁.Grows t₂) (second : t₂.Grows t₃) :
    t₁.Grows t₃ := by
  refine ⟨second.builtins.trans first.builtins, ?_, ?_, ?_⟩
  · intro c s found
    obtain ⟨more, found⟩ := first.scopes c s found
    obtain ⟨more', found⟩ := second.scopes c _ found
    exact ⟨more ++ more', by rw [found, List.append_assoc]⟩
  · exact fun start c here => second.blocks start c (first.blocks start c here)
  · exact fun c name symbol here => second.found c name symbol (first.found c name symbol here)

theorem of_kept (wf : t.WellFormed) (wf' : t'.WellFormed) (builtins : t'.builtins = t.builtins)
    (kept : ∀ c s, t.scope? c = some s → t'.scope? c = some s)
    (blocks : ∀ start c, t.blocks.lookup start = some c → t'.blocks.lookup start = some c) :
    t.Grows t' := by
  refine ⟨builtins, fun c s found => ⟨[], ?_⟩, blocks, fun c name symbol stands => ?_⟩
  · rw [List.append_nil, kept c s found]
  · cases found : t.scope? c with
    | none =>
        rw [lookupFrom_of_scope?_eq_none found] at stands
        cases stands
    | some s => rw [lookupFrom_of_kept wf wf' kept found, stands]

end Grows

/-! ## Declaring a name -/

theorem insert_eq (fresh : t.lookup symbol.name = none) (wf : t.WellFormed) :
    t.insert symbol = t.modifyScope t.current (·.add symbol) := by
  obtain ⟨s, here⟩ := wf.current
  have unknown : s.find? symbol.name = none := by
    rw [lookup, lookupFrom_eq wf here, Option.or_eq_none_iff] at fresh
    exact fresh.1
  have missing : t.lookupAt t.current symbol.name = none := by
    simp only [currentScope?] at here
    rw [lookupAt, here, Option.bind_some, unknown]
  rw [insert, insert?, missing, Option.getD_some]

theorem scope?_insert (wf : t.WellFormed) (fresh : t.lookup symbol.name = none) (c : Coordinates) :
    (t.insert symbol).scope? c =
      if c = t.current then (t.scope? c).map (·.add symbol) else t.scope? c := by
  rw [insert_eq fresh wf, scope?_modifyScope]

theorem names_add (s : Scope) (symbol : Symbol) :
    (s.add symbol).names = s.names ++ [symbol.name] := by
  simp [Scope.names, Scope.add]

/-- A new name stands for its symbol. -/
theorem lookup_insert (wf : t.WellFormed) (fresh : t.lookup symbol.name = none)
    (wf' : (t.insert symbol).WellFormed) :
    (t.insert symbol).lookup symbol.name = some (symbol.settle t.current) := by
  obtain ⟨s, here⟩ := wf.current
  have current : (t.insert symbol).current = t.current := by
    rw [insert_eq fresh wf]
    rfl
  have here' : (t.insert symbol).scope? t.current = some (s.add symbol) := by
    rw [scope?_insert wf fresh, if_pos rfl]
    exact congrArg _ here
  have unknown : s.symbols.find? (·.name == symbol.name) = none := by
    rw [lookup, lookupFrom_eq wf here, Option.or_eq_none_iff] at fresh
    exact fresh.1
  have coords : s.coords = t.current := wf.coords _ _ here
  rw [lookup, current, lookupFrom_eq wf' here']
  simp [Scope.find?, Scope.add, List.find?_append, unknown, coords]

theorem WellFormed.insert (wf : t.WellFormed) (fresh : t.lookup symbol.name = none)
    (allowed : t.isBuiltin symbol.name = false) : (t.insert symbol).WellFormed := by
  -- the scopes are where they were, and one of them has one more name
  have scopes : ∀ c s, (t.insert symbol).scope? c = some s → ∃ s', t.scope? c = some s' ∧
      s.coords = s'.coords ∧ s.parent = s'.parent ∧
        ∀ name ∈ s.names, name ∈ s'.names ∨ name = symbol.name := by
    intro c s found
    rw [scope?_insert wf fresh] at found
    by_cases here : c = t.current
    · rw [if_pos here, Option.map_eq_some_iff] at found
      obtain ⟨s', found, rfl⟩ := found
      refine ⟨s', found, rfl, rfl, fun name member => ?_⟩
      rw [names_add, List.mem_append, List.mem_singleton] at member
      exact member
    · rw [if_neg here] at found
      exact ⟨s, found, rfl, rfl, fun name member => .inl member⟩
  have exist : ∀ c s, t.scope? c = some s → ∃ s', (t.insert symbol).scope? c = some s' := by
    intro c s found
    rw [scope?_insert wf fresh]
    split
    · exact ⟨s.add symbol, by rw [found]; rfl⟩
    · exact ⟨s, found⟩
  have same : (t.insert symbol).current = t.current ∧ (t.insert symbol).blocks = t.blocks ∧
      (t.insert symbol).builtins = t.builtins := by
    rw [insert_eq fresh wf]
    exact ⟨rfl, rfl, rfl⟩
  constructor
  · obtain ⟨s, here⟩ := wf.current
    obtain ⟨s', here'⟩ := exist t.current s here
    exact ⟨s', by rw [currentScope?, same.1, here']⟩
  · intro c s found
    obtain ⟨s', found', coords, -⟩ := scopes c s found
    exact coords.trans (wf.coords c s' found')
  · intro c s found
    obtain ⟨s', found', -, parent, -⟩ := scopes c s found
    rw [parent]
    rcases wf.parent c s' found' with top | ⟨p, outer, above, below, there⟩
    · exact .inl top
    · obtain ⟨outer', there'⟩ := exist p outer there
      exact .inr ⟨p, outer', above, below, there'⟩
  · intro start c registered
    rw [same.2.1] at registered
    obtain ⟨s, found⟩ := wf.registered start c registered
    exact exist c s found
  · intro c s found name member
    obtain ⟨s', found', -, -, names⟩ := scopes c s found
    simp only [isBuiltin, same.2.2]
    rcases names name member with member | rfl
    · exact wf.reserved c s' found' name member
    · exact allowed

/-- A new name hides nothing: it stood for nothing in the scope and around it. -/
theorem Grows.insert (wf : t.WellFormed) (fresh : t.lookup symbol.name = none)
    (allowed : t.isBuiltin symbol.name = false) : t.Grows (t.insert symbol) := by
  have wf' := wf.insert fresh allowed
  refine ⟨by rw [insert_eq fresh wf]; rfl, ?_, ?_, ?_⟩
  · intro c s found
    rw [scope?_insert wf fresh]
    split
    · exact ⟨[symbol.settle s.coords], by rw [found]; rfl⟩
    · exact ⟨[], by rw [List.append_nil, found]⟩
  · intro start c registered
    rw [insert_eq fresh wf]
    exact registered
  · intro c name found stands
    cases here : t.scope? c with
    | none =>
        rw [lookupFrom_of_scope?_eq_none here] at stands
        cases stands
    | some s =>
        -- outwards along the parents: only the current scope is another one
        refine wf.induction (motive := fun c _ => t.lookupFrom c name = some found →
          (t.insert symbol).lookupFrom c name = some found) ?_ here stands
        intro c s here outer stands
        have parents : s.parent.bind (t.lookupFrom · name) = some found →
            s.parent.bind ((t.insert symbol).lookupFrom · name) = some found := by
          intro stands
          rcases wf.parent c s here with ⟨none, -⟩ | ⟨p, s', above, -, there⟩
          · rw [none] at stands
            cases stands
          · rw [above, Option.bind_some] at stands ⊢
            exact outer p s' above there stands
        have same : ∃ s', (t.insert symbol).scope? c = some s' ∧ s'.parent = s.parent ∧
            s'.find? name = s.find? name := by
          by_cases current : c = t.current
          · -- the name is not the new one, since that one stands for nothing here
            have other : symbol.name ≠ name := by
              rintro rfl
              rw [lookup, ← current, stands] at fresh
              cases fresh
            refine ⟨s.add symbol, ?_, rfl, ?_⟩
            · rw [scope?_insert wf fresh, if_pos current, here]
              rfl
            · simp [Scope.find?, Scope.add, other]
          · exact ⟨s, by rw [scope?_insert wf fresh, if_neg current, here], rfl, rfl⟩
        obtain ⟨s', here', parent, same⟩ := same
        rw [lookupFrom_eq wf here] at stands
        rw [lookupFrom_eq wf' here', same, parent]
        rcases Option.or_eq_some_iff.mp stands with direct | ⟨missing, above⟩
        · rw [direct]
          rfl
        · rw [missing]
          exact parents above

/-! ## Statements -/

/--
What statements of one block do to a table: they declare names in the current scope, in order, leave
the other scopes alone and register their blocks.
-/
structure Declares (t t' : SymbolTable) (names : List String) (starts : List Pos) : Prop where
  grows : t.Grows t'
  wellFormed : t'.WellFormed
  current : t'.current = t.current
  kept : ∀ c s, c ≠ t.current → t.scope? c = some s → t'.scope? c = some s
  declared : ∀ s, t.currentScope? = some s → ∃ s', t'.currentScope? = some s' ∧
    s'.parent = s.parent ∧ s'.names = s.names ++ names
  starts : ∀ start, (t'.blocks.lookup start).isSome = true ↔
    (t.blocks.lookup start).isSome = true ∨ start ∈ starts

namespace Declares

theorem refl (wf : t.WellFormed) : t.Declares t [] [] :=
  ⟨.refl t, wf, rfl, fun _ _ _ => id, fun s here => ⟨s, here, rfl, by simp⟩, fun _ => by simp⟩

theorem trans {t₁ t₂ t₃ : SymbolTable} {starts' : List Pos} (first : t₁.Declares t₂ names starts)
    (second : t₂.Declares t₃ names' starts') :
    t₁.Declares t₃ (names ++ names') (starts ++ starts') := by
  refine ⟨first.grows.trans second.grows, second.wellFormed, second.current.trans first.current,
    ?_, ?_, ?_⟩
  · intro c s other found
    exact second.kept c s (first.current ▸ other) (first.kept c s other found)
  · intro s here
    obtain ⟨s₂, here₂, parent₂, names₂⟩ := first.declared s here
    obtain ⟨s₃, here₃, parent₃, names₃⟩ := second.declared s₂ here₂
    exact ⟨s₃, here₃, parent₃.trans parent₂, by rw [names₃, names₂, List.append_assoc]⟩
  · intro start
    rw [second.starts, first.starts, List.mem_append, or_assoc]

theorem insert (wf : t.WellFormed) (fresh : t.lookup symbol.name = none)
    (allowed : t.isBuiltin symbol.name = false) :
    t.Declares (t.insert symbol) [symbol.name] [] := by
  have same := insert_eq fresh wf
  refine ⟨.insert wf fresh allowed, wf.insert fresh allowed, by rw [same]; rfl, ?_, ?_, ?_⟩
  · intro c s other found
    rw [scope?_insert wf fresh, if_neg other, found]
  · intro s here
    refine ⟨s.add symbol, ?_, rfl, names_add s symbol⟩
    have current : (t.insert symbol).current = t.current := by
      rw [same]
      rfl
    unfold currentScope? at here ⊢
    rw [current, scope?_insert wf fresh, if_pos rfl, here]
    rfl
  · intro start
    rw [same]
    simp [modifyScope]

/-- What a name stands for in the current scope stays. -/
theorem lookup_eq (declares : t.Declares t' names starts) {name : String}
    (known : t.lookup name = some symbol) : t'.lookup name = some symbol := by
  show t'.lookupFrom t'.current name = some symbol
  rw [declares.current]
  exact declares.grows.found _ _ _ known

/-- Where no block is registered, the registered blocks are the same. -/
theorem blocks_eq (declares : t.Declares t' names []) (start : Pos) :
    t'.blocks.lookup start = t.blocks.lookup start := by
  cases known : t.blocks.lookup start with
  | some c => exact declares.grows.blocks start c known
  | none =>
      by_contra registered
      have registered := (declares.starts start).mp (Option.isSome_iff_ne_none.mpr registered)
      simp [known] at registered

/-- The scopes around the current one stay as they are. -/
theorem visibleFrom_parent (wf : t.WellFormed) (declares : t.Declares t' names starts)
    {p : Coordinates} (here : t.currentScope? = some s) (above : s.parent = some p) :
    t'.visibleFrom p = t.visibleFrom p := by
  obtain ⟨below, s', there⟩ := wf.parent_found here above
  refine visibleFrom_of_kept wf declares.wellFormed (fun c s higher found => ?_) there
    (Nat.le_refl _)
  refine declares.kept c s ?_ found
  rintro rfl
  omega

/-- What is visible afterwards: what was visible and what was declared. -/
theorem visible (wf : t.WellFormed) (declares : t.Declares t' names starts) (name : String) :
    (t'.lookup name).isSome = true ↔ (t.lookup name).isSome = true ∨ name ∈ names := by
  obtain ⟨s, here⟩ := wf.current
  obtain ⟨s', here', parent, declared⟩ := declares.declared s here
  have outer : ∀ p, s.parent = some p → t'.lookupFrom p name = t.lookupFrom p name := by
    intro p above
    unfold lookupFrom
    rw [declares.visibleFrom_parent wf here above]
  rw [lookup, lookup, lookupFrom_isSome_iff wf here,
    lookupFrom_isSome_iff declares.wellFormed here', declared, parent, List.mem_append]
  constructor
  · rintro ((own | new) | ⟨p, above, visible⟩)
    · exact .inl (.inl own)
    · exact .inr new
    · exact .inl (.inr ⟨p, above, by rw [← outer p above, visible]⟩)
  · rintro ((own | ⟨p, above, visible⟩) | new)
    · exact .inl (.inl own)
    · exact .inr ⟨p, above, by rw [outer p above, visible]⟩
    · exact .inl (.inr new)

/-- Where nothing is declared, every scope stays as it is. -/
theorem all_kept (declares : t.Declares t' [] starts) (c : Coordinates) (s : Scope)
    (found : t.scope? c = some s) : t'.scope? c = some s := by
  by_cases here : c = t.current
  · subst here
    obtain ⟨more, grown⟩ := declares.grows.scopes _ _ found
    obtain ⟨s', found', -, names⟩ := declares.declared s found
    rw [currentScope?, declares.current, grown] at found'
    cases found'
    have none : more = [] := by
      simpa [Scope.names] using names
    rw [grown, none, List.append_nil]
  · exact declares.kept c s here found

/-- Where nothing is declared, the same is visible. -/
theorem visibleFrom_current (wf : t.WellFormed) (declares : t.Declares t' [] starts) :
    t'.visibleFrom t'.current = t.visibleFrom t.current := by
  obtain ⟨s, here⟩ := wf.current
  rw [declares.current]
  exact visibleFrom_of_kept wf declares.wellFormed (fun c s _ found => declares.all_kept c s found)
    here (Nat.le_refl _)

end Declares

/-- A new name goes to the innermost of the visible scopes. -/
theorem visibleFrom_insert (wf : t.WellFormed) (fresh : t.lookup symbol.name = none)
    (allowed : t.isBuiltin symbol.name = false) (here : t.currentScope? = some s) :
    (t.insert symbol).visibleFrom t.current =
      s.add symbol :: s.parent.elim [] t.visibleFrom := by
  have there : (t.insert symbol).scope? t.current = some (s.add symbol) := by
    rw [scope?_insert wf fresh, if_pos rfl]
    exact congrArg (Option.map _) here
  rw [visibleFrom_eq (wf.insert fresh allowed) there]
  show _ :: s.parent.elim [] (t.insert symbol).visibleFrom = _
  cases up : s.parent with
  | none => rfl
  | some p =>
      show _ :: (t.insert symbol).visibleFrom p = _ :: t.visibleFrom p
      rw [(Declares.insert wf fresh allowed).visibleFrom_parent wf here up]

/-! ## Blocks -/

/-- A table whose current scope is a new one below that of another table. -/
structure Opens (t t' : SymbolTable) (names : List String) : Prop where
  wellFormed : t'.WellFormed
  builtins : t'.builtins = t.builtins
  blocks : ∀ start, t'.blocks.lookup start = t.blocks.lookup start
  kept : ∀ c s, t.scope? c = some s → t'.scope? c = some s
  new : t.scope? t'.current = none
  scope : ∃ s, t'.currentScope? = some s ∧ s.parent = some t.current ∧ s.names = names

theorem WellFormed.depth_lt (wf : t.WellFormed) :
    t.current.depth < t.rows.length := Has.depth_lt wf.current

/-- A scope below the current one is put behind the others of its depth. -/
theorem scope?_enter_of_lt (deep : t.current.depth < t.rows.length) (c : Coordinates) :
    (t.enter .new).scope? c =
      if c = (t.enter .new).current then some ⟨(t.enter .new).current, some t.current, []⟩
      else t.scope? c :=
  scope?_addScope (s := ⟨⟨_, (t.row (t.current.depth + 1)).length⟩, some t.current, []⟩) deep rfl c

theorem scope?_enter_new (wf : t.WellFormed) (c : Coordinates) : (t.enter .new).scope? c =
      if c = (t.enter .new).current then some ⟨(t.enter .new).current, some t.current, []⟩
      else t.scope? c :=
  scope?_enter_of_lt wf.depth_lt c

theorem row_enter_new (wf : t.WellFormed) (depth : Nat) :
    (t.enter .new).row depth = if depth = t.current.depth + 1 then
      t.row depth ++ [⟨(t.enter .new).current, some t.current, []⟩] else t.row depth := by
  have deep := wf.depth_lt
  exact row_addScope (s := ⟨⟨_, (t.row (t.current.depth + 1)).length⟩, some t.current, []⟩)
    deep depth

theorem currentScope?_enter_new (wf : t.WellFormed) :
    (t.enter .new).currentScope? = some ⟨(t.enter .new).current, some t.current, []⟩ := by
  rw [currentScope?, scope?_enter_new wf, if_pos rfl]

theorem current_enter_new (t : SymbolTable) :
    (t.enter .new).current = ⟨t.current.depth + 1, (t.row (t.current.depth + 1)).length⟩ := rfl

theorem blocks_enter_new (t : SymbolTable) : (t.enter .new).blocks = t.blocks := by
  simp only [enter, addScope]
  split
  · rfl
  · rfl

theorem builtins_enter_new (t : SymbolTable) : (t.enter .new).builtins = t.builtins := by
  simp only [enter, addScope]
  split
  · rfl
  · rfl

/-- Entering a new scope. -/
theorem Opens.enter (wf : t.WellFormed) : t.Opens (t.enter .new) [] := by
  -- the new scope is put where none was, so the others are found as before
  have missing : t.scope? (t.enter .new).current = none :=
    List.getElem?_eq_none (Nat.le_refl _)
  have kept : ∀ c s, t.scope? c = some s → (t.enter .new).scope? c = some s := by
    intro c s found
    rw [scope?_enter_new wf, if_neg, found]
    rintro rfl
    rw [missing] at found
    cases found
  have current := currentScope?_enter_new wf
  refine ⟨⟨⟨_, current⟩, ?_, ?_, ?_, ?_⟩, builtins_enter_new t, fun _ => by rw [blocks_enter_new],
    kept, missing, _, current, rfl, rfl⟩
  · intro c s found
    rw [scope?_enter_new wf] at found
    split at found
    · next here =>
      cases found
      exact here.symm
    · exact wf.coords c s found
  · intro c s found
    rw [scope?_enter_new wf] at found
    split at found
    · next here =>
      cases found
      obtain ⟨outer, there⟩ := wf.current
      exact .inr ⟨t.current, outer, rfl, by rw [here]; rfl, kept _ _ there⟩
    · rcases wf.parent c s found with top | ⟨p, outer, above, below, there⟩
      · exact .inl top
      · exact .inr ⟨p, outer, above, below, kept _ _ there⟩
  · intro start c registered
    rw [blocks_enter_new] at registered
    obtain ⟨s, found⟩ := wf.registered start c registered
    exact ⟨s, kept c s found⟩
  · intro c s found name member
    rw [scope?_enter_new wf] at found
    simp only [isBuiltin, builtins_enter_new]
    split at found
    · cases found
      cases member
    · exact wf.reserved c s found name member

namespace Opens

theorem grows (wf : t.WellFormed) (opens : t.Opens t' names) : t.Grows t' :=
  .of_kept wf opens.wellFormed opens.builtins opens.kept fun start c registered => by
    rw [opens.blocks start, registered]

theorem ne_current (wf : t.WellFormed) (opens : t.Opens t' names) : t.current ≠ t'.current := by
  obtain ⟨s, here⟩ := wf.current
  intro same
  rw [currentScope?, same, opens.new] at here
  cases here

/-- What is visible in the new scope: what was visible before, and its own names. -/
theorem visible (wf : t.WellFormed) (opens : t.Opens t' names) (name : String) :
    (t'.lookup name).isSome = true ↔ (t.lookup name).isSome = true ∨ name ∈ names := by
  obtain ⟨s, here, parent, own⟩ := opens.scope
  obtain ⟨outer, there⟩ := wf.current
  have same := lookupFrom_of_kept wf opens.wellFormed opens.kept there name
  rw [lookup, lookupFrom_isSome_iff opens.wellFormed here, own, parent, lookup, ← same]
  constructor
  · rintro (own | ⟨p, above, visible⟩)
    · exact .inr own
    · cases above
      exact .inl visible
  · rintro (visible | own)
    · exact .inr ⟨t.current, rfl, visible⟩
    · exact .inl own

/-- The scopes that are visible in the new scope: itself, and those that were visible before. -/
theorem visibleFrom_current (wf : t.WellFormed) (opens : t.Opens t' names)
    (here : t'.currentScope? = some s) :
    t'.visibleFrom t'.current = s :: t.visibleFrom t.current := by
  obtain ⟨s', here', above, -⟩ := opens.scope
  obtain rfl : s' = s := Option.some.inj (here'.symm.trans here)
  obtain ⟨outer, around⟩ := wf.current
  rw [visibleFrom_eq opens.wellFormed here, above]
  show s' :: t'.visibleFrom t.current = s' :: t.visibleFrom t.current
  rw [visibleFrom_of_kept wf opens.wellFormed (fun c s _ found => opens.kept c s found) around
    (Nat.le_refl _)]

end Opens

/-- Another scope may be the current one, if it exists. -/
theorem WellFormed.moved (wf : t.WellFormed) (found : t.scope? c = some s) :
    WellFormed { t with current := c } :=
  ⟨⟨s, found⟩, wf.coords, wf.parent, wf.registered, wf.reserved⟩

theorem leave_eq {p : Coordinates} (here : t.currentScope? = some s) (above : s.parent = some p) :
    t.leave = { t with current := p } := by
  rw [leave, here, Option.bind_some, above]

theorem lookup_register (t : SymbolTable) (p start : Pos) :
    (t.register p).blocks.lookup start =
      (t.blocks.lookup start).or (if start = p then some t.current else none) := by
  unfold register
  cases known : t.blocks.lookup p with
  | some c =>
      by_cases same : start = p
      · subst same
        rw [known]
        rfl
      · rw [if_neg same, Option.or_none]
  | none =>
      simp only [List.lookup_append]
      by_cases same : start = p
      · subst same
        simp
      · have other : (start == p) = false := beq_false_of_ne same
        simp [List.lookup_cons, other, same]

@[simp] theorem scope?_register (t : SymbolTable) (p : Pos) (c : Coordinates) :
    (t.register p).scope? c = t.scope? c := by
  unfold register
  split
  · rfl
  · rfl

@[simp] theorem current_register (t : SymbolTable) (p : Pos) :
    (t.register p).current = t.current := by
  unfold register
  split
  · rfl
  · rfl

@[simp] theorem builtins_register (t : SymbolTable) (p : Pos) :
    (t.register p).builtins = t.builtins := by
  unfold register
  split
  · rfl
  · rfl

theorem WellFormed.register (wf : t.WellFormed) (p : Pos) : (t.register p).WellFormed := by
  refine ⟨?_, ?_, ?_, ?_, ?_⟩
  · rw [currentScope?, scope?_register, current_register]
    exact wf.current
  · intro c s found
    rw [scope?_register] at found
    exact wf.coords c s found
  · intro c s found
    simp only [scope?_register] at found ⊢
    exact wf.parent c s found
  · intro start c registered
    rw [scope?_register]
    rw [lookup_register] at registered
    rcases Option.or_eq_some_iff.mp registered with known | ⟨-, new⟩
    · exact wf.registered start c known
    · split at new
      · cases new
        exact wf.current
      · cases new
  · intro c s found name member
    rw [scope?_register] at found
    simp only [isBuiltin, builtins_register]
    exact wf.reserved c s found name member

/-- The scopes around a block stay as they are while it declares something. -/
theorem Opens.stays {t₁ t₂ : SymbolTable} (opens : t.Opens t₁ names)
    (declares : t₁.Declares t₂ names' starts) (found : t.scope? c = some s) :
    t₂.scope? c = some s := by
  refine declares.kept c s ?_ (opens.kept c s found)
  rintro rfl
  rw [opens.new] at found
  cases found

/-- A scope that was opened is still the same one when more is declared in it. -/
theorem Opens.declares {t₁ t₂ : SymbolTable} (opens : t.Opens t₁ names)
    (declares : t₁.Declares t₂ names' []) : t.Opens t₂ (names ++ names') := by
  obtain ⟨s₁, here₁, parent₁, names₁⟩ := opens.scope
  obtain ⟨s₂, here₂, parent₂, names₂⟩ := declares.declared s₁ here₁
  refine ⟨declares.wellFormed, declares.grows.builtins.trans opens.builtins, ?_, ?_, ?_, s₂, here₂,
    parent₂.trans parent₁, by rw [names₂, names₁]⟩
  · intro start
    rw [declares.blocks_eq, opens.blocks]
  · exact fun c s found => opens.stays declares found
  · rw [declares.current]
    exact opens.new

/-- The end of a block: it is registered, and the scope around it is the current one again. -/
structure Left (t t' : SymbolTable) (start : Pos) (p : Coordinates) : Prop where
  wellFormed : t'.WellFormed
  current : t'.current = p
  scopes : ∀ c, t'.scope? c = t.scope? c
  blocks : ∀ q, t'.blocks.lookup q =
    (t.blocks.lookup q).or (if q = start then some t.current else none)
  grows : t.Grows t'

theorem Left.of_parent {p : Coordinates} (wf : t.WellFormed) (here : t.currentScope? = some s)
    (above : s.parent = some p) (start : Pos) : t.Left (t.register start).leave start p := by
  have left : (t.register start).leave = { t.register start with current := p } := by
    refine leave_eq (s := s) ?_ above
    rw [currentScope?, scope?_register, current_register]
    exact here
  obtain ⟨-, outer, there⟩ := wf.parent_found here above
  have scopes : ∀ c, (t.register start).leave.scope? c = t.scope? c := by
    intro c
    rw [left]
    exact scope?_register t start c
  have blocks : ∀ q, (t.register start).leave.blocks.lookup q =
      (t.blocks.lookup q).or (if q = start then some t.current else none) := by
    intro q
    rw [left]
    exact lookup_register t start q
  have wf' : (t.register start).leave.WellFormed := by
    rw [left]
    exact (wf.register start).moved (by rw [scope?_register, there])
  refine ⟨wf', by rw [left], scopes, blocks, ?_⟩
  refine .of_kept wf wf' ?_ (fun c s found => by rw [scopes, found]) fun q c known => ?_
  · rw [left]
    exact builtins_register t start
  · rw [blocks, known]
    rfl

/-- The end of a block: its scope is remembered under its opening brace and left. -/
structure Closes (t t' : SymbolTable) (c : Coordinates) (start : Pos) (names : List String)
    (starts : List Pos) : Prop where
  declares : t.Declares t' [] (start :: starts)
  scope : ∃ s, t'.scope? c = some s ∧ s.parent = some t.current ∧ s.names = names
  registered : t'.blocks.lookup start = some c ∨ (t.blocks.lookup start).isSome = true ∨
    start ∈ starts

/-- A block as a whole: a new scope is entered, filled, remembered and left. -/
theorem Opens.close {t₁ t₂ : SymbolTable} (wf : t.WellFormed) (opens : t.Opens t₁ names)
    (declares : t₁.Declares t₂ names' starts) (start : Pos) :
    t.Closes (t₂.register start).leave t₁.current start (names ++ names') starts := by
  obtain ⟨s₁, here₁, parent₁, names₁⟩ := opens.scope
  obtain ⟨s₂, here₂, parent₂, names₂⟩ := declares.declared s₁ here₁
  have left := Left.of_parent declares.wellFormed here₂ (parent₂.trans parent₁) start
  have stays : ∀ c s, t.scope? c = some s → (t₂.register start).leave.scope? c = some s := by
    intro c s found
    rw [left.scopes, opens.stays declares found]
  refine ⟨⟨(opens.grows wf).trans (declares.grows.trans left.grows), left.wellFormed, left.current,
    ?_, ?_, ?_⟩, ⟨s₂, ?_, parent₂.trans parent₁, by rw [names₂, names₁]⟩, ?_⟩
  · exact fun c s _ found => stays c s found
  · intro s here
    refine ⟨s, ?_, rfl, by simp⟩
    rw [currentScope?, left.current]
    exact stays t.current s here
  · intro p
    rw [left.blocks, Option.isSome_or, Bool.or_eq_true, declares.starts, opens.blocks,
      List.mem_cons]
    by_cases same : p = start
    · simp [same]
    · simp [same]
  · rw [left.scopes, ← declares.current]
    exact here₂
  · rw [left.blocks, if_pos rfl]
    cases known : t₂.blocks.lookup start with
    | none => exact .inl (by rw [Option.none_or, declares.current])
    | some c =>
        have known : (t₂.blocks.lookup start).isSome = true := by rw [known]; rfl
        rw [declares.starts, opens.blocks] at known
        exact .inr known

/-! ## Functions -/

/-- The last scope of a row is the one behind which there is none. -/
theorem getLast?_row {d i : Nat} (here : t.scope? ⟨d, i⟩ = some s)
    (next : t.scope? ⟨d, i + 1⟩ = none) : (t.row d).getLast? = some s := by
  simp only [scope?] at here next
  have inside := (List.getElem?_eq_some_iff.mp here).1
  have beyond := List.getElem?_eq_none_iff.mp next
  rw [List.getLast?_eq_getElem?, ← here]
  congr 1
  omega

section

variable {t₂ : SymbolTable} {f : Symbol}

/-- The scope of the parameters is left for the one around it. -/
theorem leave_params (wf : t.WellFormed) (params : (t.enter .new).Declares t₂ names []) :
    t₂.leave = { t₂ with current := t.current } ∧ t₂.leave.WellFormed := by
  have opens := Opens.enter wf
  obtain ⟨s₁, here₁, parent₁, -⟩ := opens.scope
  obtain ⟨s₂, here₂, parent₂, -⟩ := params.declared s₁ here₁
  obtain ⟨outer, there⟩ := wf.current
  have left : t₂.leave = { t₂ with current := t.current } :=
    leave_eq here₂ (parent₂.trans parent₁)
  refine ⟨left, ?_⟩
  rw [left]
  exact params.wellFormed.moved (opens.stays params there)

/-- A scope that was opened for parameters and left for good changes nothing around it. -/
theorem Declares.of_leave_params (wf : t.WellFormed)
    (params : (t.enter .new).Declares t₂ names []) : t.Declares t₂.leave [] [] := by
  obtain ⟨left, wf₃⟩ := leave_params wf params
  have opens := Opens.enter wf
  have stays : ∀ c s, t.scope? c = some s → t₂.leave.scope? c = some s := by
    intro c s found
    rw [left]
    exact (opens.stays params found :)
  have blocks : ∀ start, t₂.leave.blocks.lookup start = t.blocks.lookup start := by
    intro start
    rw [left]
    exact (params.blocks_eq start).trans (opens.blocks start)
  have current : t₂.leave.current = t.current := by rw [left]
  refine ⟨.of_kept wf wf₃ ?_ stays fun start c known => by rw [blocks, known], wf₃, current,
    fun c s _ => stays c s, ?_, ?_⟩
  · rw [left]
    exact params.grows.builtins.trans opens.builtins
  · intro s here
    refine ⟨s, ?_, rfl, by simp⟩
    rw [currentScope?, current]
    exact stays _ _ here
  · intro start
    simp [blocks]

/-- The parameters went into the scope below, so the function's name is as free as before. -/
theorem free_leave_params (wf : t.WellFormed) (fresh : t.lookup f.name = none)
    (allowed : t.isBuiltin f.name = false) (params : (t.enter .new).Declares t₂ names []) :
    t₂.leave.lookup f.name = none ∧ t₂.leave.isBuiltin f.name = false := by
  obtain ⟨left, wf₃⟩ := leave_params wf params
  obtain ⟨outer, there⟩ := wf.current
  have opens := Opens.enter wf
  have builtins : t₂.builtins = t.builtins := params.grows.builtins.trans opens.builtins
  rw [left] at wf₃ ⊢
  constructor
  · rw [← fresh]
    exact lookupFrom_of_kept wf wf₃ (fun c s found => (opens.stays params found :)) there f.name
  · simpa only [isBuiltin, builtins] using allowed

/-- The scopes after the declaration of a function: its own one has the function, the one below has
the parameters. -/
theorem scope?_leave_insert (wf : t.WellFormed) (fresh : t.lookup f.name = none)
    (allowed : t.isBuiltin f.name = false) (params : (t.enter .new).Declares t₂ names [])
    (c : Coordinates) : (t₂.leave.insert f).scope? c =
      if c = t.current then (t₂.scope? c).map (·.add f) else t₂.scope? c := by
  obtain ⟨left, wf₃⟩ := leave_params wf params
  rw [scope?_insert wf₃ (free_leave_params wf fresh allowed params).1, left]
  rfl

/-- The body of a function resumes the scope of its parameters. -/
theorem enter_resumeLast (wf : t.WellFormed) (fresh : t.lookup f.name = none)
    (allowed : t.isBuiltin f.name = false) (params : (t.enter .new).Declares t₂ names [])
    (same : ∀ c, (t.enter .new).scope? c = none → t₂.scope? c = none) :
    (t₂.leave.insert f).enter .resumeLast =
        { t₂.leave.insert f with current := (t.enter .new).current } ∧
      (t₂.leave.insert f).scope? (t.enter .new).current = t₂.currentScope? := by
  obtain ⟨left, wf₃⟩ := leave_params wf params
  have scopes := scope?_leave_insert wf fresh allowed params
  obtain ⟨s₂, here₂⟩ := params.wellFormed.current
  rw [here₂]
  rw [currentScope?, params.current] at here₂
  have last : (t₂.leave.insert f).scope? (t.enter .new).current = some s₂ := by
    rw [scopes, if_neg ((Opens.enter wf).ne_current wf).symm, here₂]
  -- no scope was opened after the one of the parameters, so it is still the last of its row
  have final : ((t₂.leave.insert f).row (t.current.depth + 1)).getLast? = some s₂ := by
    have next : (t₂.leave.insert f).scope?
        ⟨t.current.depth + 1, (t.row (t.current.depth + 1)).length + 1⟩ = none := by
      rw [scopes, if_neg]
      · apply same
        rw [scope?_enter_new wf, current_enter_new, if_neg]
        · exact List.getElem?_eq_none (Nat.le_succ _)
        · simp
      · intro deep
        have := congrArg Coordinates.depth deep
        simp at this
    exact getLast?_row last next
  have depth : (t₂.leave.insert f).current.depth = t.current.depth := by
    rw [insert_eq (free_leave_params wf fresh allowed params).1 wf₃, left]
    rfl
  have coords : s₂.coords = (t.enter .new).current := params.wellFormed.coords _ _ here₂
  refine ⟨?_, last⟩
  simp only [SymbolTable.enter, depth, final, coords]

/--
The scope of a function: its parameters are declared in a new scope, which is left to declare the
function itself and then entered again. So it is a new scope below one that has the function's name.
-/
theorem Opens.resume (wf : t.WellFormed) (fresh : t.lookup f.name = none)
    (allowed : t.isBuiltin f.name = false) (params : (t.enter .new).Declares t₂ names [])
    (same : ∀ c, (t.enter .new).scope? c = none → t₂.scope? c = none) :
    t.Declares (t.insert f) [f.name] [] ∧
      (t.insert f).Opens ((t₂.leave.insert f).enter .resumeLast) names ∧
      ((t₂.leave.insert f).enter .resumeLast).currentScope? = t₂.currentScope? := by
  have opens := Opens.enter wf
  obtain ⟨s₁, here₁, parent₁, names₁⟩ := opens.scope
  obtain ⟨s₂, here₂, parent₂, names₂⟩ := params.declared s₁ here₁
  obtain ⟨left, wf₃⟩ := leave_params wf params
  obtain ⟨fresh₃, allowed₃⟩ := free_leave_params wf fresh allowed params
  obtain ⟨resumed, last⟩ := enter_resumeLast wf fresh allowed params same
  have scopes := scope?_leave_insert wf fresh allowed params
  have equal : t₂.leave.insert f =
      { t₂ with current := t.current }.modifyScope t.current (·.add f) := by
    rw [insert_eq fresh₃ wf₃, left]
  rw [here₂] at last
  rw [resumed, here₂]
  refine ⟨.insert wf fresh allowed, ⟨(wf₃.insert fresh₃ allowed₃).moved last, ?_, ?_, ?_, ?_, s₂,
    last, ?_, ?_⟩, last⟩
  · rw [equal, insert_eq fresh wf]
    exact params.grows.builtins.trans opens.builtins
  · intro start
    rw [equal, insert_eq fresh wf]
    show t₂.blocks.lookup start = t.blocks.lookup start
    rw [params.blocks_eq, opens.blocks]
  · intro c s found
    show (t₂.leave.insert f).scope? c = some s
    rw [scope?_insert wf fresh] at found
    rw [scopes]
    split at found
    · next here =>
      rw [if_pos here]
      obtain ⟨s', before, rfl⟩ := Option.map_eq_some_iff.mp found
      rw [opens.stays params before]
      rfl
    · next other =>
      rw [if_neg other]
      exact opens.stays params found
  · show (t.insert f).scope? (t.enter .new).current = none
    rw [scope?_insert wf fresh, if_neg (opens.ne_current wf).symm, opens.new]
  · rw [insert_eq fresh wf]
    exact parent₂.trans parent₁
  · rw [names₂, names₁]
    rfl

end

end SymbolTable

end Samo
