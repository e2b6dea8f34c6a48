import Mathlib.Data.List.Nodup
import Samo.Proofs.BlockPositions
import Samo.Proofs.Filling
import Samo.Proofs.SyntaxErrors

/-!
# The final table mirrors the program

An accepted program leaves one scope for itself and one for each of its blocks, and no other. Each
stands where the block stands in the program: at its depth, behind the scopes of the blocks that
start before it, and below the scope of the block around it. The main statement is
`final_table_mirrors`.
-/

namespace Samo

open Check

/-! ## What a table and a program have in common -/

namespace SymbolTable

/-- The scope of a region of a program. Its coordinates are the depth of the region and its number at
that depth, its parent is the scope of the region around it, its symbols are those of the region's
declarations in their order, and a jump to the opening brace ends in it. -/
structure Records (t : SymbolTable) (program : Program) (r : Region) (s : Scope) : Prop where
  coords : s.coords = program.coordinates r.path
  parent : s.parent = r.path.tail?.map program.coordinates
  symbols : List.Forall₂ (Declaration.Describes (t.bindingsAt s.coords) s.coords) r.declares
    s.symbols
  reached : ∀ start ∈ r.path.head?, ∃ t', t.goTo? start = some t' ∧ t'.currentScope? = some s

/-- The scopes of a table are those of the regions of a program, depth by depth and in the order in
which the regions start. -/
structure Mirrors (t : SymbolTable) (program : Program) : Prop where
  ordered : (program.regions.filterMap (·.path.head?)).Pairwise Pos.Before
  rows : ∀ depth, List.Forall₂ (t.Records program) (program.regionsAt depth) (t.row depth)

end SymbolTable

/-! ## Paths of regions -/

namespace Program

/-- The regions start at the opening braces of the program, apart from the program itself. -/
theorem heads_regions (program : Program) :
    program.regions.map (·.path.head?) = none :: (Stmt.bracesAll program).map some := by
  rw [regions, List.map_cons, Stmt.heads_regionsAll]
  rfl

theorem filterMap_head?_regions (program : Program) :
    program.regions.filterMap (·.path.head?) = Stmt.bracesAll program := by
  have heads := congrArg (List.filterMap id) program.heads_regions
  simpa [Function.comp_def] using heads

theorem nodup_paths {program : Program} (distinct : program.DistinctBlocks) :
    (program.regions.map Region.path).Nodup := by
  apply List.Nodup.of_map List.head?
  rw [List.map_map]
  show (program.regions.map (·.path.head?)).Nodup
  rw [heads_regions, List.nodup_cons]
  exact ⟨by simp, distinct.map fun _ _ => Option.some.inj⟩

/-- The region around a block of the program is a region of the program. -/
theorem outer_mem {program : Program} {r : Region} {outer : List Pos}
    (member : r ∈ program.regions) (tail : r.path.tail? = some outer) :
    outer ∈ program.regions.map Region.path := by
  rw [regions, List.map_cons]
  rcases List.mem_cons.mp member with rfl | member
  · cases tail
  · obtain ⟨start, outer', path, up⟩ := Stmt.nested_regionsAll [] program r member
    rw [path] at tail
    cases tail
    rcases up with rfl | up
    · exact List.mem_cons_self
    · exact List.mem_cons_of_mem _ up

theorem regionsAt_eq (program : Program) (depth : Nat) :
    program.regionsAt depth =
      (if depth = 0 then [⟨[], Stmt.declarationsAll program⟩] else []) ++
        (Stmt.regionsAll [] program).filter (·.depth == depth) := by
  rw [regionsAt, regions, List.filter_cons]
  by_cases top : depth = 0
  · subst top
    rfl
  · have other : ((⟨[], Stmt.declarationsAll program⟩ : Region).depth == depth) = false := by
      simpa [Region.depth] using Ne.symm top
    rw [if_neg top, other]
    rfl

/-- The number of a region among those of its depth. -/
theorem coordinates_eq {program : Program} {depth i : Nat} {r : Region}
    (distinct : program.DistinctBlocks) (here : (program.regionsAt depth)[i]? = some r) :
    program.coordinates r.path = ⟨depth, i⟩ := by
  obtain ⟨short, rfl⟩ := List.getElem?_eq_some_iff.mp here
  have deep : (program.regionsAt depth)[i].path.length = depth := by
    have member := List.mem_filter.mp (List.getElem_mem short)
    exact eq_of_beq member.2
  have nodup : ((program.regionsAt depth).map Region.path).Nodup :=
    (nodup_paths distinct).sublist (List.filter_sublist.map _)
  have number := nodup.idxOf_getElem i (by simpa using short)
  rw [List.getElem_map] at number
  rw [coordinates, deep, number]

end Program

/-! ## Accepted programs -/

/-- The table that an accepted program leaves has one scope for each region. -/
structure SymbolTable.Complete (t : SymbolTable) (program : Program) : Prop where
  wellFormed : t.WellFormed
  length_row : ∀ depth, (t.row depth).length = (program.regionsAt depth).length
  recorded : ∀ depth i r, (program.regionsAt depth)[i]? = some r → t.Recorded r ⟨depth, i⟩

theorem Program.Accepted.complete {program : Program} {o : Options} {file : String}
    {builtins : Registry} {log : Log} (distinct : program.DistinctBlocks)
    (accepted : program.Accepted (o.initialState file builtins log)) :
    (program.checked (o.initialState file builtins log)).symbols.Complete program := by
  obtain ⟨s', run, table⟩ := accepted.run
  rw [← table]
  have start := Standing.top o file builtins log
  have passes := Stmt.checkAll_passes program start.stop start.wellFormed run
  have filling : Filling s'.symbols [] (Stmt.bracesAll program)
      ({ o with policy := .stop }.initialState file builtins log) :=
    ⟨start.stop, start.wellFormed, ⟨distinct, fun _ _ => rfl⟩, rfl, rfl⟩
  have fills := Stmt.checkAll_fills program passes.table.wellFormed filling run (.refl _)
  -- before the check there is one scope, that of the program itself
  have first : ∀ depth, (({ o with policy := .stop }.initialState file builtins log).symbols.row
      depth).length = if depth = 0 then 1 else 0 := by
    intro depth
    cases depth with
    | zero => rfl
    | succ depth => rfl
  refine ⟨passes.table.wellFormed, ?_, ?_⟩
  · intro depth
    rw [fills.rows, program.regionsAt_eq, List.length_append, first]
    split
    · rfl
    · rfl
  · intro depth i r here
    rw [program.regionsAt_eq] at here
    by_cases top : depth = 0
    · subst top
      cases i with
      | zero =>
          cases here
          obtain ⟨more, found, described⟩ := fills.symbols _ rfl
          rw [SymbolTable.currentScope?, fills.current] at found
          exact ⟨rfl, by simp, _, found, rfl, described⟩
      | succ i =>
          have inner := fills.scopes 0 i r here
          rw [first, if_pos rfl, Nat.add_comm] at inner
          exact inner
    · rw [if_neg top] at here
      have inner := fills.scopes depth i r here
      rw [first, if_neg top, Nat.zero_add] at inner
      exact inner

namespace SymbolTable.Complete

variable {t : SymbolTable} {program : Program}

theorem seat_eq (complete : t.Complete program) (distinct : program.DistinctBlocks)
    {path : List Pos} (member : path ∈ program.regions.map Region.path) :
    t.seat path = program.coordinates path := by
  obtain ⟨r, listed, rfl⟩ := List.mem_map.mp member
  have level : r ∈ program.regionsAt r.depth := List.mem_filter.mpr ⟨listed, beq_self_eq_true _⟩
  obtain ⟨i, here⟩ := List.mem_iff_getElem?.mp level
  rw [(complete.recorded _ i r here).seat, Program.coordinates_eq distinct here]

theorem records (complete : t.Complete program) (distinct : program.DistinctBlocks)
    {depth i : Nat} {r : Region} {s : Scope} (here : (program.regionsAt depth)[i]? = some r)
    (found : t.scope? ⟨depth, i⟩ = some s) : t.Records program r s := by
  have recorded := complete.recorded depth i r here
  obtain ⟨s', found', above, described⟩ := recorded.scope
  rw [found] at found'
  cases found'
  have coords : s.coords = ⟨depth, i⟩ := complete.wellFormed.coords _ _ found
  have listed : r ∈ program.regions := (List.mem_filter.mp (List.mem_of_getElem? here)).1
  refine ⟨?_, ?_, ?_, ?_⟩
  · rw [coords, Program.coordinates_eq distinct here]
  · rw [above]
    apply Option.map_congr
    intro outer tail
    exact complete.seat_eq distinct (Program.outer_mem listed tail)
  · rw [coords]
    exact described
  · intro start head
    refine ⟨{ t with current := ⟨depth, i⟩, resume := t.current :: t.resume }, ?_, found⟩
    unfold goTo?
    rw [recorded.registered start head, Option.bind_eq_bind, Option.bind_some, found]
    rfl

theorem mirrors (complete : t.Complete program)
    (ordered : (Stmt.bracesAll program).Pairwise Pos.Before) : t.Mirrors program := by
  have distinct : program.DistinctBlocks := ordered.imp Pos.Before.ne
  refine ⟨?_, fun depth => ?_⟩
  · rw [program.filterMap_head?_regions]
    exact ordered
  · rw [List.forall₂_iff_get]
    refine ⟨(complete.length_row depth).symm, fun i short short' => ?_⟩
    exact complete.records distinct (List.getElem?_eq_getElem short)
      (List.getElem?_eq_getElem short')

end SymbolTable.Complete

/--
The final table mirrors the program. If a text is checked without a complaint, the scopes of the
table are those of the program and of its blocks, one for each.
-/
theorem final_table_mirrors {o : Options} {file : String} {source : Bytes} {log : Log}
    {v : Verdict} (checked : ((o.checkBytes file source).run log).1 = .ok v)
    (fine : v.complaint? = none) : v.symbols.Mirrors (parse (Text.decode source)).1 := by
  obtain ⟨builtins, log', _, rfl, rfl⟩ := Options.checkBytes_ok checked
  have accepted : (parse (Text.decode source)).1.Accepted (o.initialState file builtins log') := by
    unfold Program.Accepted
    simpa [Verdict.complaint?] using fine
  exact (accepted.complete (parse_distinctBlocks _)).mirrors (parse_orderedBlocks _)

/-- A function with three blocks in it, and two alternatives behind it. -/
def alternatives : Bytes :=
  ("int n = 2 + 3; fn twice(int k) int \x7b if (k > 0) \x7b return k + k; \x7d " ++
    "else \x7b \x7b let m = k; \x7d \x7d return n; \x7d maybe (n) \x7b n = 1; \x7d " ++
    "otherwise \x7b string s; \x7d").toUTF8.toList

theorem alternatives_mirrored :
    ∃ v, ((Options.checkBytes {} "main" alternatives).run (Options.newLog {})).1 = .ok v ∧
      v.complaint? = none ∧ v.symbols.Mirrors (parse (Text.decode alternatives)).1 ∧
      (v.symbols.rows.map List.length) = [1, 3, 2, 1] := by
  have outcome : ∀ r, ((Options.checkBytes {} "main" alternatives).run (Options.newLog {})).1 = r →
      (r.toOption.map fun v => (v.complaint?, v.symbols.rows.map List.length)) =
        some (none, [1, 3, 2, 1]) := by
    rintro r rfl
    decide +kernel
  cases checked : ((Options.checkBytes {} "main" alternatives).run (Options.newLog {})).1 with
  | error refusal => cases outcome _ checked
  | ok v =>
      have both := outcome _ checked
      simp only [Except.toOption, Option.map_some, Option.some.injEq, Prod.mk.injEq] at both
      exact ⟨v, rfl, both.1, final_table_mirrors checked both.1, both.2⟩

end Samo
