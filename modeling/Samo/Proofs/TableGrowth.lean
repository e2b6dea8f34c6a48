import Samo.Proofs.TableOperations

/-!
# Symbol tables only grow

What was found in a symbol table once is found there ever after, whatever else is done to the table:
a scope keeps its coordinates and its parent, a name its symbol, and a position its scope
(`Extends`). A declaration adds one binding and moves nothing (`Declared`). So a scope that is
entered and left, and a jump that is undone, lead back to where they started, also when they contain
each other (`Nested.returns`).
-/

namespace Samo

/-- A name that was found before is found first. -/
theorem Scope.find?_add (s : Scope) (symbol : Symbol) (name : String) :
    (s.add symbol).find? name = (s.find? name).or
      (if symbol.name = name then some (symbol.settle s.coords) else none) := by
  unfold Scope.find? Scope.add
  rw [List.find?_append, List.find?_singleton, Symbol.name_settle]
  simp only [beq_iff_eq]

namespace SymbolTable

variable {t t' : SymbolTable}

/-! ## What stays -/

/-- A table with the same scopes and more symbols in them, and the same registered positions. -/
structure Extends (t t' : SymbolTable) : Prop where
  scopes : ∀ c s, t.scope? c = some s →
    ∃ more, t'.scope? c = some { s with symbols := s.symbols ++ more }
  blocks : ∀ p c, t.blocks.lookup p = some c → t'.blocks.lookup p = some c

namespace Extends

theorem of_scopes (kept : ∀ c s, t.scope? c = some s → t'.scope? c = some s)
    (same : t'.blocks = t.blocks) : t.Extends t' := by
  refine ⟨fun c s found => ⟨[], ?_⟩, fun p c here => ?_⟩
  · rw [List.append_nil]
    exact kept c s found
  · rw [same]
    exact here

theorem refl (t : SymbolTable) : t.Extends t := .of_scopes (fun _ _ found => found) rfl

theorem trans {t₁ : SymbolTable} (first : t.Extends t₁) (second : t₁.Extends t') :
    t.Extends t' := by
  refine ⟨fun c s found => ?_, fun p c here => second.blocks p c (first.blocks p c here)⟩
  obtain ⟨more, found⟩ := first.scopes c s found
  obtain ⟨more', found⟩ := second.scopes c _ found
  exact ⟨more ++ more', by rw [found, List.append_assoc]⟩

/-- A name keeps its symbol, since new symbols stand behind the old ones. -/
theorem lookupAt (extended : t.Extends t') {c : Coordinates} {name : String} {symbol : Symbol}
    (bound : t.lookupAt c name = some symbol) : t'.lookupAt c name = some symbol := by
  obtain ⟨s, found, here⟩ := Option.bind_eq_some_iff.mp bound
  obtain ⟨more, found'⟩ := extended.scopes c s found
  unfold Scope.find? at here
  rw [SymbolTable.lookupAt, found', Option.bind_some, Scope.find?, List.find?_append, here,
    Option.some_or]

end Extends

/-! ## Declarations -/

/-- The table has one more binding, in its current scope, and is the same otherwise. -/
structure Declared (t : SymbolTable) (symbol : Symbol) (t' : SymbolTable) : Prop where
  scopes : ∃ s, t.currentScope? = some s ∧
    ∀ c, t'.scope? c = if c = t.current then some (s.add symbol) else t.scope? c
  bindings : ∀ c name, t'.lookupAt c name =
    if c = t.current ∧ name = symbol.name then some (symbol.settle t.current)
    else t.lookupAt c name
  current : t'.current = t.current
  resume : t'.resume = t.resume
  blocks : t'.blocks = t.blocks
  builtins : t'.builtins = t.builtins

theorem insert?_eq_none_iff {symbol : Symbol} :
    t.insert? symbol = none ↔ ∃ bound, t.lookupAt t.current symbol.name = some bound := by
  unfold insert?
  split
  · next bound found => exact ⟨fun _ => ⟨bound, found⟩, fun _ => rfl⟩
  · next missing =>
    refine ⟨fun none => ?_, ?_⟩
    · cases none
    · rintro ⟨bound, found⟩
      rw [missing] at found
      cases found

theorem insert?_eq_some_iff {symbol : Symbol} :
    t.insert? symbol = some t' ↔ t.lookupAt t.current symbol.name = none ∧
      t' = t.modifyScope t.current (·.add symbol) := by
  unfold insert?
  split
  · next bound found =>
    refine ⟨fun none => ?_, ?_⟩
    · cases none
    · rintro ⟨missing, -⟩
      rw [found] at missing
      cases missing
  · next missing =>
    rw [Option.some.injEq]
    exact ⟨fun same => ⟨missing, same.symm⟩, fun same => same.2.symm⟩

theorem Declared.of_insert? (arranged : t.Arranged) {symbol : Symbol}
    (inserted : t.insert? symbol = some t') : t.Declared symbol t' := by
  obtain ⟨missing, rfl⟩ := insert?_eq_some_iff.mp inserted
  obtain ⟨s, here⟩ := arranged.current
  have scopes : ∀ c, (t.modifyScope t.current (·.add symbol)).scope? c =
      if c = t.current then some (s.add symbol) else t.scope? c := by
    intro c
    rw [scope?_modifyScope]
    split
    · next same => rw [same, here, Option.map_some]
    · rfl
  refine ⟨⟨s, here, scopes⟩, fun c name => ?_, rfl, rfl, rfl, rfl⟩
  unfold lookupAt at missing ⊢
  rw [scopes]
  by_cases same : c = t.current
  · subst same
    rw [here, Option.bind_some] at missing
    rw [if_pos rfl, here, Option.bind_some, Option.bind_some, Scope.find?_add,
      (arranged.scopes _ s here).coords]
    by_cases new : name = symbol.name
    · rw [if_pos new.symm, if_pos ⟨rfl, new⟩, new, missing, Option.none_or]
    · rw [if_neg (Ne.symm new), if_neg fun both => new both.2, Option.or_none]
  · rw [if_neg same, if_neg fun both => same both.1]

theorem Declared.extends {symbol : Symbol} (declared : t.Declared symbol t') : t.Extends t' := by
  obtain ⟨s, here, scopes⟩ := declared.scopes
  refine ⟨fun c s' found => ?_, fun p c registered => ?_⟩
  · rw [scopes]
    split
    · next same =>
      subst same
      rw [currentScope?, found] at here
      cases here
      exact ⟨_, rfl⟩
    · exact ⟨[], by rw [List.append_nil, found]⟩
  · rw [declared.blocks]
    exact registered

/-! ## Any operations -/

theorem goTo?_eq_some {p : Pos} (jumped : t.goTo? p = some t') :
    ∃ c, t' = { t with current := c, resume := t.current :: t.resume } := by
  unfold goTo? at jumped
  obtain ⟨c, -, jumped⟩ := Option.bind_eq_some_iff.mp jumped
  obtain ⟨s, -, jumped⟩ := Option.bind_eq_some_iff.mp jumped
  exact ⟨c, (Option.some.inj jumped).symm⟩

/-- Positions lead to a scope if one was registered under them. -/
theorem goTo?_eq_none_iff (arranged : t.Arranged) {p : Pos} :
    t.goTo? p = none ↔ t.blocks.lookup p = none := by
  unfold goTo?
  cases known : t.blocks.lookup p with
  | none => exact ⟨fun _ => rfl, fun _ => rfl⟩
  | some c =>
      obtain ⟨l₁, l₂, split, -⟩ := List.lookup_eq_some_iff.mp known
      have member : (p, c) ∈ t.blocks := split ▸ List.mem_append_right _ List.mem_cons_self
      obtain ⟨s, there⟩ := arranged.blocks _ member
      simp [there]

namespace Extends

theorem enter_new (arranged : t.Arranged) : t.Extends (t.enter .new) := by
  refine .of_scopes (fun c s found => ?_) (blocks_enter_new t)
  rw [scope?_enter_of_lt arranged.current.depth_lt, if_neg, found]
  rintro rfl
  -- there is nothing behind the last scope of a row
  have missing : t.scope? (t.enter .new).current = none := List.getElem?_eq_none (Nat.le_refl _)
  rw [missing] at found
  cases found

theorem enter (arranged : t.Arranged) (mode : EntryMode) : t.Extends (t.enter mode) := by
  unfold SymbolTable.enter
  dsimp only
  split
  · exact .of_scopes (fun _ _ found => found) rfl
  · exact enter_new arranged

theorem leave (t : SymbolTable) : t.Extends t.leave := by
  unfold SymbolTable.leave
  split
  · exact .of_scopes (fun _ _ found => found) rfl
  · exact .refl t

theorem register (t : SymbolTable) (p : Pos) : t.Extends (t.register p) := by
  refine ⟨fun c s found => ⟨[], ?_⟩, fun p' c registered => ?_⟩
  · rw [scope?_register, List.append_nil, found]
  · rw [lookup_register, registered, Option.some_or]

theorem restore (t : SymbolTable) : t.Extends t.restore := by
  unfold SymbolTable.restore
  split
  · exact .refl t
  · exact .of_scopes (fun _ _ found => found) rfl

theorem perform (arranged : t.Arranged) (op : Operation) : t.Extends (t.perform op) := by
  cases op with
  | insert symbol =>
      show t.Extends ((t.insert? symbol).getD t)
      cases inserted : t.insert? symbol with
      | none => exact .refl t
      | some t' => exact (Declared.of_insert? arranged inserted).extends
  | enter mode => exact .enter arranged mode
  | leave => exact .leave t
  | register p => exact .register t p
  | goTo p =>
      show t.Extends ((t.goTo? p).getD t)
      cases jumped : t.goTo? p with
      | none => exact .refl t
      | some t' =>
          obtain ⟨c, rfl⟩ := goTo?_eq_some jumped
          exact .of_scopes (fun _ _ found => found) rfl
  | restore => exact .restore t

theorem performAll (arranged : t.Arranged) (ops : List Operation) :
    t.Extends (t.performAll ops) := by
  induction ops generalizing t with
  | nil => exact .refl t
  | cons op ops ih => exact (perform arranged op).trans (ih (arranged.perform op))

end Extends

/-! ## Back to the start -/

/--
Operations in which every scope that is entered is a new one and is left again, and every jump gets
somewhere and is undone, in the opposite order. In between there may be declarations and
registrations.
-/
inductive Nested : SymbolTable → List Operation → Prop
  | nil (t : SymbolTable) : Nested t []
  | insert {t : SymbolTable} {symbol ops} : Nested (t.perform (.insert symbol)) ops →
      Nested t (.insert symbol :: ops)
  | register {t : SymbolTable} {p ops} : Nested (t.perform (.register p)) ops →
      Nested t (.register p :: ops)
  | scope {t : SymbolTable} {inner ops} : Nested (t.enter .new) inner →
      Nested ((t.enter .new).performAll inner).leave ops →
      Nested t (.enter .new :: inner ++ .leave :: ops)
  | jump {t t' : SymbolTable} {p inner ops} : t.goTo? p = some t' → Nested t' inner →
      Nested (t'.performAll inner).restore ops →
      Nested t (.goTo p :: inner ++ .restore :: ops)

/-- The table is where it was: in the same scope, with the same jumps to undo. -/
structure Returns (t t' : SymbolTable) : Prop where
  current : t'.current = t.current
  resume : t'.resume = t.resume

namespace Returns

theorem refl (t : SymbolTable) : t.Returns t := ⟨rfl, rfl⟩

theorem trans {t₁ : SymbolTable} (first : t.Returns t₁) (second : t₁.Returns t') : t.Returns t' :=
  ⟨second.current.trans first.current, second.resume.trans first.resume⟩

theorem insert (arranged : t.Arranged) (symbol : Symbol) :
    t.Returns (t.perform (.insert symbol)) := by
  show t.Returns ((t.insert? symbol).getD t)
  cases inserted : t.insert? symbol with
  | none => exact .refl t
  | some t' =>
      have declared := Declared.of_insert? arranged inserted
      exact ⟨declared.current, declared.resume⟩

theorem register (t : SymbolTable) (p : Pos) : t.Returns (t.perform (.register p)) := by
  show t.Returns (t.register p)
  unfold SymbolTable.register
  split
  · exact .refl t
  · exact ⟨rfl, rfl⟩

theorem resume_enter_new (t : SymbolTable) : (t.enter .new).resume = t.resume := by
  simp only [SymbolTable.enter, addScope]
  split
  · rfl
  · rfl

/-- A new scope keeps its parent, so to leave it is to go back. -/
theorem leave (arranged : t.Arranged) (extended : (t.enter .new).Extends t')
    (inside : (t.enter .new).Returns t') : t.Returns t'.leave := by
  have entered := scope?_enter_of_lt arranged.current.depth_lt (t.enter .new).current
  rw [if_pos rfl] at entered
  obtain ⟨more, here⟩ := extended.scopes _ _ entered
  rw [← inside.current] at here
  rw [leave_eq here rfl]
  exact ⟨rfl, inside.resume.trans (resume_enter_new t)⟩

/-- A jump is undone by going back to where it started. -/
theorem restore {t₁ : SymbolTable} {p : Pos} (jumped : t.goTo? p = some t₁)
    (inside : t₁.Returns t') : t.Returns t'.restore := by
  obtain ⟨c, rfl⟩ := goTo?_eq_some jumped
  have resume : t'.resume = t.current :: t.resume := inside.resume
  unfold SymbolTable.restore
  rw [resume]
  exact ⟨rfl, rfl⟩

end Returns

theorem performAll_around (t : SymbolTable) (first last : Operation) (inner ops : List Operation) :
    t.performAll (first :: inner ++ last :: ops) =
      (((t.perform first).performAll inner).perform last).performAll ops := by
  unfold performAll
  rw [List.foldl_append, List.foldl_cons, List.foldl_cons]

theorem Nested.returns {ops : List Operation} (nested : Nested t ops) (arranged : t.Arranged) :
    t.Returns (t.performAll ops) := by
  induction nested with
  | nil t => exact .refl t
  | @insert t symbol ops _ ih =>
      exact (Returns.insert arranged symbol).trans (ih (arranged.perform _))
  | @register t p ops _ ih => exact (Returns.register t p).trans (ih (arranged.perform _))
  | @scope t inner ops _ _ ih ih' =>
      have entered := arranged.enter .new
      rw [performAll_around]
      have back := Returns.leave arranged (.performAll entered inner) (ih entered)
      exact back.trans (ih' (entered.performAll inner).leave)
  | @jump t t' p inner ops jumped _ _ ih ih' =>
      have there : t.perform (.goTo p) = t' := by
        show (t.goTo? p).getD t = t'
        rw [jumped, Option.getD_some]
      have moved := there ▸ arranged.perform (.goTo p)
      rw [performAll_around, there]
      exact (Returns.restore jumped (ih moved)).trans (ih' (moved.performAll inner).restore)

/-! ## Reachable tables -/

/--
Whatever has been done to a table, and whatever is done next: names keep their symbols, scopes their
coordinates and parents, and positions their scopes. A declaration is refused if its name is taken
in the current scope, and a jump if its position is not known; then nothing changes. Otherwise a
declaration adds one binding. Operations that are nested end where they started.
-/
theorem tables_only_grow {library : Library} (loaded : ofLibrary library = .ok t)
    (before after : List Operation) :
    let t₁ := t.performAll before
    let t₂ := t₁.performAll after
    (∀ c name symbol, t₁.lookupAt c name = some symbol → t₂.lookupAt c name = some symbol) ∧
      t₁.Extends t₂ ∧
      (∀ symbol,
        ((t₁.insert? symbol).isNone ↔ (t₁.lookupAt t₁.current symbol.name).isSome) ∧
        (t₁.insert? symbol = none → t₁.perform (.insert symbol) = t₁) ∧
        ∀ t', t₁.insert? symbol = some t' →
          t₁.perform (.insert symbol) = t' ∧ t₁.Declared symbol t') ∧
      (∀ p, (t₁.goTo? p = none ↔ t₁.blocks.lookup p = none) ∧
        (t₁.goTo? p = none → t₁.perform (.goTo p) = t₁)) ∧
      (Nested t₁ after → t₁.Returns t₂) := by
  intro t₁ t₂
  have arranged : t₁.Arranged := (Arranged.of_library loaded).performAll before
  have extended : t₁.Extends t₂ := .performAll arranged after
  refine ⟨fun _ _ _ => extended.lookupAt, extended, fun symbol => ⟨?_, ?_, ?_⟩, fun p => ⟨?_, ?_⟩,
    fun nested => nested.returns arranged⟩
  · rw [Option.isNone_iff_eq_none, insert?_eq_none_iff, Option.isSome_iff_exists]
  · intro refused
    show (t₁.insert? symbol).getD t₁ = t₁
    rw [refused, Option.getD_none]
  · intro t' inserted
    refine ⟨?_, .of_insert? arranged inserted⟩
    show (t₁.insert? symbol).getD t₁ = t'
    rw [inserted, Option.getD_some]
  · exact goTo?_eq_none_iff arranged
  · intro refused
    show (t₁.goTo? p).getD t₁ = t₁
    rw [refused, Option.getD_none]

/-- A block with a name in it. -/
def firstBlock : List Operation :=
  [.enter .new, .insert (.var (.fresh .int "x" 1)), .register ⟨1, 0⟩, .leave]

/-- In the block another scope is opened, and a name is declared again. -/
def visit : List Operation :=
  .enter .new :: [.insert (.var (.fresh .int "y" 2)), .register ⟨2, 0⟩] ++
    .leave :: [.insert (.var (.fresh .string "x" 3))]

/-- From inside a scope, a jump into the block. -/
def detour : List Operation :=
  .enter .new :: (.goTo ⟨1, 0⟩ :: visit ++ .restore :: []) ++ .leave :: []

theorem detour_nested
    (registered : (((t.performAll firstBlock).enter .new).goTo? ⟨1, 0⟩).isSome = true) :
    Nested (t.performAll firstBlock) detour := by
  obtain ⟨t', jumped⟩ := Option.isSome_iff_exists.mp registered
  have inside : Nested t' visit := .scope (.insert (.register (.nil _))) (.insert (.nil _))
  exact .scope (.jump jumped inside (.nil _)) (.nil _)

theorem detour_returns : ∃ t, ofLibrary .standard = .ok t ∧
    ((t.performAll firstBlock).performAll detour).lookupAt ⟨1, 0⟩ "x" =
      some (.var { Variable.fresh .int "x" 1 with home := ⟨1, 0⟩ }) ∧
    ((t.performAll firstBlock).performAll detour).lookupAt ⟨2, 0⟩ "y" =
      some (.var { Variable.fresh .int "y" 2 with home := ⟨2, 0⟩ }) ∧
    (t.performAll firstBlock).Returns ((t.performAll firstBlock).performAll detour) := by
  have loaded : ofLibrary .standard = .ok _ := rfl
  obtain ⟨kept, -, -, -, returns⟩ := tables_only_grow loaded firstBlock detour
  exact ⟨_, rfl, kept _ _ _ rfl, rfl, returns (detour_nested (by decide +kernel))⟩

end SymbolTable

end Samo
