import Samo.Proofs.Scopes

/-!
# Symbol tables under any operations

A check uses the operations of its table in a strict order, but nothing in the table asks for it:
`enter .resumeLast` may lead to a scope that is not below the current one, jumps need not be undone,
and scopes may be opened inside a block that was jumped to. Whatever is done, the scopes stay where
their coordinates say, with their parents one level up, and the table only points to scopes it has
(`Arranged`). One operation preserves that (`Arranged.perform`), so every sequence of them does.
-/

namespace Samo.SymbolTable

/-- What can be done to a symbol table. -/
inductive Operation where
  | insert (symbol : Symbol)
  | enter (mode : EntryMode)
  | leave
  | register (p : Pos)
  | goTo (p : Pos)
  | restore

/-- One operation. A declaration of a known name and a jump to an unknown position do nothing. -/
def perform (t : SymbolTable) : Operation → SymbolTable
  | .insert symbol => t.insert symbol
  | .enter mode => t.enter mode
  | .leave => t.leave
  | .register p => t.register p
  | .goTo p => (t.goTo? p).getD t
  | .restore => t.restore

/-- Operations one after the other. -/
def performAll (t : SymbolTable) (ops : List Operation) : SymbolTable := ops.foldl perform t

/-- A scope stands where its coordinates say, with its parent one level up unless it is at the top,
and its symbols carry its coordinates. -/
structure Places (t : SymbolTable) (c : Coordinates) (s : Scope) : Prop where
  coords : s.coords = c
  parent : c.depth ≠ 0 → ∃ p, s.parent = some p ∧ p.depth + 1 = c.depth ∧ t.Has p
  home : ∀ symbol ∈ s.symbols, symbol.home = c

/--
A table in order. Every scope is in its place, no row is empty, and the first one holds the global
scope alone. The current scope, the ones to go back to and the registered ones exist.
-/
structure Arranged (t : SymbolTable) : Prop where
  scopes : ∀ c s, t.scope? c = some s → t.Places c s
  filled : ∀ row ∈ t.rows, row ≠ []
  global : ∃ s, t.row 0 = [s] ∧ s.parent = none
  current : t.Has t.current
  resume : ∀ c ∈ t.resume, t.Has c
  blocks : ∀ b ∈ t.blocks, t.Has b.2

variable {t t' : SymbolTable}

theorem forall_mem_rows_ne_nil_iff :
    (∀ row ∈ t.rows, row ≠ []) ↔ ∀ depth < t.rows.length, t.row depth ≠ [] := by
  have at_depth : ∀ depth, (inside : depth < t.rows.length) → t.row depth = t.rows[depth] := by
    intro depth inside
    rw [row, List.getElem?_eq_getElem inside, Option.getD_some]
  constructor
  · intro filled depth inside
    rw [at_depth depth inside]
    exact filled _ (List.getElem_mem inside)
  · intro filled row member
    obtain ⟨depth, inside, rfl⟩ := List.mem_iff_getElem.mp member
    rw [← at_depth depth inside]
    exact filled depth inside

namespace Places

variable {c : Coordinates} {s : Scope}

theorem mono (placed : t.Places c s) (has : ∀ c, t.Has c → t'.Has c) : t'.Places c s := by
  refine ⟨placed.coords, fun deep => ?_, placed.home⟩
  obtain ⟨p, above, below, there⟩ := placed.parent deep
  exact ⟨p, above, below, has p there⟩

/-- A symbol is settled in the scope it is added to. -/
theorem add (placed : t.Places c s) (symbol : Symbol) : t.Places c (s.add symbol) := by
  refine ⟨placed.coords, placed.parent, fun x member => ?_⟩
  rcases List.mem_append.mp member with known | new
  · exact placed.home x known
  · rw [List.mem_singleton.mp new, Symbol.home_settle]
    exact placed.coords

end Places

namespace Arranged

theorem init (builtins : Registry) : (SymbolTable.init builtins).Arranged := by
  refine ⟨?_, ?_, ⟨_, rfl, rfl⟩, ⟨_, rfl⟩, List.forall_mem_nil _, List.forall_mem_nil _⟩
  · rintro ⟨_ | depth, _ | index⟩ s found
    · cases found
      exact ⟨rfl, absurd rfl, List.forall_mem_nil _⟩
    · cases found
    · cases found
    · cases found
  · intro row member
    rw [List.mem_singleton.mp member]
    exact List.cons_ne_nil _ _

/-! ## Moving around -/

/-- The table may point to other scopes, if it has them. -/
theorem moved (arranged : t.Arranged) (same : t'.rows = t.rows) (current : t.Has t'.current)
    (resume : ∀ c ∈ t'.resume, t.Has c) (blocks : ∀ b ∈ t'.blocks, t.Has b.2) : t'.Arranged := by
  have rows : ∀ depth, t'.row depth = t.row depth := by
    intro depth
    rw [row, same]
    rfl
  have scopes : ∀ c, t'.scope? c = t.scope? c := by
    intro c
    rw [scope?, rows]
    rfl
  have has : ∀ c, t.Has c → t'.Has c := by
    rintro c ⟨s, found⟩
    exact ⟨s, (scopes c).trans found⟩
  constructor
  · intro c s found
    rw [scopes] at found
    exact (arranged.scopes c s found).mono has
  · rw [same]
    exact arranged.filled
  · rw [rows]
    exact arranged.global
  · exact has _ current
  · exact fun c member => has c (resume c member)
  · exact fun b member => has b.2 (blocks b member)

theorem leave (arranged : t.Arranged) : t.leave.Arranged := by
  obtain ⟨s, here⟩ := arranged.current
  unfold SymbolTable.leave
  split
  · next c above =>
    rw [currentScope?, here, Option.bind_some] at above
    have deep : t.current.depth ≠ 0 := by
      intro top
      obtain ⟨g, only, none⟩ := arranged.global
      rw [scope?, top, only] at here
      have same : s ∈ [g] := List.mem_of_getElem? here
      rw [List.mem_singleton.mp same, none] at above
      cases above
    obtain ⟨p, same, -, there⟩ := (arranged.scopes _ s here).parent deep
    rw [above] at same
    cases same
    exact arranged.moved rfl there arranged.resume arranged.blocks
  · exact arranged

theorem register (arranged : t.Arranged) (p : Pos) : (t.register p).Arranged := by
  unfold SymbolTable.register
  split
  · exact arranged
  · refine arranged.moved rfl arranged.current arranged.resume fun b member => ?_
    rcases List.mem_append.mp member with known | new
    · exact arranged.blocks b known
    · rw [List.mem_singleton.mp new]
      exact arranged.current

theorem goTo (arranged : t.Arranged) (p : Pos) : ((t.goTo? p).getD t).Arranged := by
  cases jumped : t.goTo? p with
  | none => exact arranged
  | some t' =>
      unfold goTo? at jumped
      obtain ⟨c, -, jumped⟩ := Option.bind_eq_some_iff.mp jumped
      obtain ⟨s, there, jumped⟩ := Option.bind_eq_some_iff.mp jumped
      cases jumped
      refine arranged.moved rfl ⟨s, there⟩ (fun c member => ?_) arranged.blocks
      rcases List.mem_cons.mp member with rfl | member
      · exact arranged.current
      · exact arranged.resume c member

theorem restore (arranged : t.Arranged) : t.restore.Arranged := by
  unfold SymbolTable.restore
  split
  · exact arranged
  · next c rest resume =>
    have frames := arranged.resume
    rw [resume] at frames
    exact arranged.moved rfl (frames c List.mem_cons_self)
      (fun c member => frames c (List.mem_cons_of_mem _ member)) arranged.blocks

/-! ## Changing scopes -/

/-- Scopes may be added and changed, as long as all of them are in their places. -/
theorem changed (arranged : t.Arranged) (scopes : ∀ c s, t'.scope? c = some s → t.Places c s)
    (has : ∀ c, t.Has c → t'.Has c)
    (filled : ∀ depth < t'.rows.length, t'.row depth ≠ [])
    (global : ∃ s, t'.row 0 = [s] ∧ s.parent = none) (current : t'.current = t.current)
    (resume : t'.resume = t.resume) (blocks : t'.blocks = t.blocks) : t'.Arranged := by
  refine ⟨fun c s found => (scopes c s found).mono has, forall_mem_rows_ne_nil_iff.mpr filled, global,
    ?_, ?_, ?_⟩
  · rw [current]
    exact has _ arranged.current
  · rw [resume]
    exact fun c member => has c (arranged.resume c member)
  · rw [blocks]
    exact fun b member => has b.2 (arranged.blocks b member)

theorem insert (arranged : t.Arranged) (symbol : Symbol) : (t.insert symbol).Arranged := by
  unfold SymbolTable.insert insert?
  split
  · exact arranged
  show (t.modifyScope t.current (·.add symbol)).Arranged
  have scopes := t.scope?_modifyScope t.current
  refine arranged.changed ?_ ?_ ?_ ?_ rfl rfl rfl
  · intro c s found
    rw [scopes] at found
    split at found
    · obtain ⟨s, found, rfl⟩ := Option.map_eq_some_iff.mp found
      exact (arranged.scopes c s ‹_›).add symbol
    · exact arranged.scopes c s found
  · rintro c ⟨s, found⟩
    unfold Has
    rw [scopes, found]
    split
    · exact ⟨_, rfl⟩
    · exact ⟨_, rfl⟩
  · intro depth inside
    have filled := forall_mem_rows_ne_nil_iff.mp arranged.filled depth
      (by simpa [modifyScope] using inside)
    rw [row_modifyScope]
    split
    · simpa using filled
    · exact filled
  · obtain ⟨g, only, none⟩ := arranged.global
    rw [row_modifyScope, only]
    split
    · cases t.current.index with
      | zero => exact ⟨g.add symbol, rfl, none⟩
      | succ n => exact ⟨g, by simp, none⟩
    · exact ⟨g, rfl, none⟩

/-- A new scope is put at the end of a row that is not the first one. -/
theorem addScope (arranged : t.Arranged) {s : Scope} (placed : t.Places s.coords s)
    (deep : s.coords.depth ≠ 0) (fits : s.coords.depth ≤ t.rows.length)
    (last : s.coords.index = (t.row s.coords.depth).length) : (t.addScope s).Arranged := by
  have scopes := scope?_addScope fits last
  have same : (t.addScope s).current = t.current ∧ (t.addScope s).resume = t.resume ∧
      (t.addScope s).blocks = t.blocks := by
    unfold SymbolTable.addScope
    split
    · exact ⟨rfl, rfl, rfl⟩
    · exact ⟨rfl, rfl, rfl⟩
  have rows : ∀ depth < (t.addScope s).rows.length, depth ≠ s.coords.depth →
      depth < t.rows.length := by
    intro depth inside other
    unfold SymbolTable.addScope at inside
    split at inside
    · simp only [List.length_append, List.length_singleton] at inside
      omega
    · simpa using inside
  refine arranged.changed ?_ ?_ ?_ ?_ same.1 same.2.1 same.2.2
  · intro c s' found
    rw [scopes] at found
    split at found
    · next here =>
      cases found
      exact here ▸ placed
    · exact arranged.scopes c s' found
  · rintro c ⟨s', found⟩
    unfold Has
    rw [scopes, found]
    split
    · exact ⟨_, rfl⟩
    · exact ⟨_, rfl⟩
  · intro depth inside
    rw [row_addScope fits]
    split
    · simp
    · next other =>
      exact forall_mem_rows_ne_nil_iff.mp arranged.filled depth (rows depth inside other)
  · rw [row_addScope fits, if_neg deep.symm]
    exact arranged.global

theorem enter_new (arranged : t.Arranged) : (t.enter .new).Arranged := by
  have fits := arranged.current.depth_lt
  have below : t.current.depth + 1 ≠ 0 := Nat.succ_ne_zero _
  let s : Scope := ⟨(t.enter .new).current, some t.current, []⟩
  have placed : t.Places s.coords s :=
    ⟨rfl, fun _ => ⟨t.current, rfl, rfl, arranged.current⟩, List.forall_mem_nil _⟩
  have added : (t.addScope s).Arranged := arranged.addScope placed below fits rfl
  have there : (t.addScope s).scope? s.coords = some s := by
    rw [scope?_addScope (s := s) fits rfl, if_pos rfl]
  exact added.moved rfl ⟨s, there⟩ added.resume added.blocks

theorem enter (arranged : t.Arranged) (mode : EntryMode) : (t.enter mode).Arranged := by
  cases mode with
  | new => exact arranged.enter_new
  | resumeLast =>
      cases last : (t.row (t.current.depth + 1)).getLast? with
      | none =>
          have same : t.enter .resumeLast = t.enter .new := by simp only [SymbolTable.enter, last]
          rw [same]
          exact arranged.enter_new
      | some s =>
          -- the last scope of the row need not be below the current one, but the table has it
          obtain ⟨index, found⟩ := List.mem_iff_getElem?.mp (List.mem_of_getLast? last)
          have there : t.scope? ⟨t.current.depth + 1, index⟩ = some s := found
          have has : t.Has s.coords := by
            rw [(arranged.scopes _ s there).coords]
            exact ⟨s, there⟩
          simp only [SymbolTable.enter, last]
          exact arranged.moved rfl has arranged.resume arranged.blocks

theorem perform (arranged : t.Arranged) (op : Operation) : (t.perform op).Arranged := by
  cases op with
  | insert symbol => exact arranged.insert symbol
  | enter mode => exact arranged.enter mode
  | leave => exact arranged.leave
  | register p => exact arranged.register p
  | goTo p => exact arranged.goTo p
  | restore => exact arranged.restore

theorem performAll (arranged : t.Arranged) (ops : List Operation) :
    (t.performAll ops).Arranged := by
  induction ops generalizing t with
  | nil => exact arranged
  | cons op ops ih => exact ih (arranged.perform op)

end Arranged

theorem Arranged.of_library {library : Library} (loaded : ofLibrary library = .ok t) :
    t.Arranged := by
  unfold ofLibrary at loaded
  cases known : Registry.ofLibrary library with
  | error e =>
      rw [known] at loaded
      cases loaded
  | ok builtins =>
      rw [known] at loaded
      cases loaded
      exact .init builtins

/--
Symbol tables stay in order under any use: start from the table of any library that loads, and do
anything to it in any order. Besides, `enter` finds its row or adds the next one.
-/
theorem operations_keep_order {library : Library} (loaded : ofLibrary library = .ok t)
    (ops : List Operation) :
    (t.performAll ops).Arranged ∧
      (t.performAll ops).current.depth + 1 ≤ (t.performAll ops).rows.length := by
  have arranged := (Arranged.of_library loaded).performAll ops
  exact ⟨arranged, arranged.current.depth_lt⟩

/-- From a block that was jumped to, `enter .resumeLast` goes down into another block. -/
def sidestep : List Operation :=
  [.enter .new, .register ⟨1, 0⟩, .leave, .enter .new, .enter .new, .leave, .leave, .goTo ⟨1, 0⟩,
    .enter .resumeLast, .insert (.var (.fresh .int "x" 1))]

theorem sidestep_in_order : ∃ t, ofLibrary .standard = .ok t ∧
    (t.performAll sidestep).currentScope?.map
        (fun s => (s.coords, s.parent, s.symbols.map Symbol.home)) =
      some (⟨2, 0⟩, some ⟨1, 1⟩, [⟨2, 0⟩]) ∧
    (t.performAll sidestep).resume = [.global] ∧
    (t.performAll sidestep).blocks = [(⟨1, 0⟩, ⟨1, 0⟩)] ∧
    (t.performAll sidestep).Arranged ∧
    (t.performAll sidestep).current.depth + 1 ≤ (t.performAll sidestep).rows.length :=
  ⟨_, rfl, by decide +kernel, by decide +kernel, by decide +kernel,
    operations_keep_order (show ofLibrary .standard = .ok _ from rfl) sidestep⟩

end Samo.SymbolTable
