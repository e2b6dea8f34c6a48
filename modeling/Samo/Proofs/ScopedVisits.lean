import Samo.Proofs.Registration
import Samo.Proofs.Returns

/-!
# Visits after the check

When the body of a function has been checked, its statements are visited again, for their returns
and for the ways through the body. Such a visit goes to each statement of the body once, in order,
but not into functions (`Block.surrounded_sites`), in the scope that was registered for the
innermost block around it, which is the scope that it was checked in (`Block.site_scope`).
Afterwards nothing has changed but the reports and the log, also if a report halted the visit on its
way.
-/

namespace Samo

open Check

/-! ## Sites are surroundings without functions -/

namespace Surrounding

/-- The opening braces of the blocks, the outermost first. -/
def starts (around : List Surrounding) : List Pos := (around.filterMap start?).reverse

/-- Where a visit comes to a statement, if it is not in a function. -/
def site? (z : List Surrounding × Stmt) : Option (List Pos × Stmt) :=
  if functions z.1 = 0 then some (starts z.1, z.2) else none

variable {around : List Surrounding}

theorem starts_cons_block (start : Pos) (around : List Surrounding) :
    starts (.block start :: around) = starts around ++ [start] := by
  simp [starts, start?]

theorem starts_cons_loop (around : List Surrounding) :
    starts (.loop :: around) = starts around := rfl

theorem getLast?_starts (around : List Surrounding) :
    (starts around).getLast? = innermost? around := by
  rw [starts, List.getLast?_reverse, List.head?_filterMap, innermost?]

theorem site?_of_outside (outside : functions around = 0) (stmt : Stmt) :
    site? (around, stmt) = some (starts around, stmt) := if_pos outside

theorem site?_eq_some_iff {z : List Surrounding × Stmt} {x : List Pos × Stmt} :
    site? z = some x ↔ functions z.1 = 0 ∧ starts z.1 = x.1 ∧ z.2 = x.2 := by
  unfold site?
  split
  · next outside => simp [outside, Prod.ext_iff]
  · next inside => simp [inside]

end Surrounding

open Surrounding

/-- Where a function is around there are no sites. -/
theorem Block.no_sites {around : List Surrounding} (inside : functions around ≠ 0) (body : Block) :
    (body.surrounded around).filterMap site? = [] := by
  rw [List.filterMap_eq_nil_iff]
  intro z member
  have more := functions_le (body.around_suffix z member)
  exact if_neg (by omega)

/-- A site, seen from outside of some blocks. -/
def under (starts : List Pos) (x : List Pos × Stmt) : List Pos × Stmt := (starts ++ x.1, x.2)

mutual

theorem Stmt.sites_of_surrounded {around : List Surrounding} (outside : functions around = 0)
    (stmt : Stmt) :
    (stmt.surrounded around).filterMap site? = stmt.sites.map (under (starts around)) := by
  have here := site?_of_outside outside
  have self : ∀ stmt, under (starts around) ([], stmt) = (starts around, stmt) := by simp [under]
  cases stmt with
  | block body =>
      rw [Stmt.surrounded, Stmt.sites, body.sites_of_surrounded outside, List.map_cons, self]
  | define pos header body =>
      have inside : functions (.function header :: around) ≠ 0 := by
        rw [functions_cons_function]
        omega
      rw [Stmt.surrounded, Stmt.sites, List.filterMap_cons_some (here _), body.no_sites inside,
        List.map_singleton, self]
  | branch pos cond body rest =>
      rw [Stmt.surrounded, Stmt.sites, List.filterMap_cons_some (here _), List.filterMap_append,
        body.sites_of_surrounded outside, rest.sites_of_surrounded outside]
      simp [self]
  | loop pos cond body =>
      rw [Stmt.surrounded, Stmt.sites, List.filterMap_cons_some (here _),
        body.sites_of_surrounded (by exact outside), starts_cons_loop]
      simp [self]
  | maybe pos probability body =>
      rw [Stmt.surrounded, Stmt.sites, List.filterMap_cons_some (here _),
        body.sites_of_surrounded outside, List.map_cons, self]
  | maybeOtherwise pos probability body otherwisePos alternative =>
      rw [Stmt.surrounded, Stmt.sites, List.filterMap_cons_some (here _), List.filterMap_append,
        body.sites_of_surrounded outside, alternative.sites_of_surrounded outside]
      simp [self]
  | declare | infer | assign | call | breakOut | continueOn | returnWith | needs | bad =>
      rw [Stmt.surrounded, Stmt.sites, List.filterMap_cons_some (here _), List.map_singleton, self]
      rfl

theorem Block.sites_of_surrounded {around : List Surrounding} (outside : functions around = 0)
    (body : Block) : (body.surrounded around).filterMap site? =
      (starts around, .block body) :: body.sites.map (under (starts around)) := by
  cases body with
  | mk start stop stmts =>
      rw [Block.surrounded, Block.sites, List.filterMap_cons_some (site?_of_outside outside _),
        Stmt.sites_of_surroundedAll (by exact outside) stmts, starts_cons_block, List.map_map]
      simp [under, Function.comp_def]

theorem Stmt.sites_of_surroundedAll {around : List Surrounding} (outside : functions around = 0)
    (stmts : List Stmt) : (Stmt.surroundedAll around stmts).filterMap site? =
      (Stmt.sitesAll stmts).map (under (starts around)) := by
  cases stmts with
  | nil =>
      rw [Stmt.surroundedAll, Stmt.sitesAll]
      rfl
  | cons stmt stmts =>
      rw [Stmt.surroundedAll, Stmt.sitesAll, List.filterMap_append, List.map_append,
        stmt.sites_of_surrounded outside, Stmt.sites_of_surroundedAll outside stmts]

theorem Branches.sites_of_surrounded {around : List Surrounding} (outside : functions around = 0)
    (rest : Branches) :
    (rest.surrounded around).filterMap site? = rest.sites.map (under (starts around)) := by
  have self : ∀ stmt, under (starts around) ([], stmt) = (starts around, stmt) := by simp [under]
  cases rest with
  | done =>
      rw [Branches.surrounded, Branches.sites]
      rfl
  | otherwise pos body =>
      rw [Branches.surrounded, Branches.sites, body.sites_of_surrounded outside, List.map_cons,
        self]
  | elseIf pos cond body rest =>
      rw [Branches.surrounded, Branches.sites, List.filterMap_append,
        body.sites_of_surrounded outside, rest.sites_of_surrounded outside]
      simp [self]

end

/-- The sites of a block are the statements in it that are not in a function, in order. -/
theorem Block.surrounded_sites (body : Block) :
    (body.surrounded []).filterMap site? = ([], .block body) :: body.sites := by
  have same : body.sites.map (under (starts [])) = body.sites := List.map_id _
  rw [body.sites_of_surrounded rfl, same]
  rfl

/-! ## The scope of a site -/

theorem Block.sites_in_block {body : Block} {x : List Pos × Stmt} (member : x ∈ body.sites) :
    x.1 ≠ [] := by
  cases body with
  | mk start stop stmts =>
      rw [Block.sites] at member
      obtain ⟨y, -, rfl⟩ := List.mem_map.mp member
      exact List.cons_ne_nil _ _

section

variable {clean : Prop} {mode : EntryMode} {body : Block} {s s' r : State} {x : List Pos × Stmt}
  {around : List Surrounding} {m : Moment}

/-- Entering the blocks around an occasion leads to the scope registered for the innermost one. It
is the current one on the occasion, if the braces can be told apart. -/
theorem Occasion.Settled.entered (settled : Settled clean r.symbols ⟨around, m⟩)
    (wf : r.symbols.WellFormed) {start : Pos} (last : (starts around).getLast? = some start) :
    r.symbols.blocks.lookup start = some (r.enteringAll (starts around)).symbols.current ∧
      (clean → (r.enteringAll (starts around)).symbols.current = m.state.symbols.current) := by
  obtain ⟨c, registered, same⟩ := settled.scope start (by rw [← getLast?_starts, last]; rfl)
  obtain ⟨scope, found⟩ := wf.registered start c registered
  obtain ⟨outer, split⟩ := List.getLast?_eq_some_iff.mp last
  obtain ⟨resume, entered⟩ := State.enteringAll_concat registered found outer
  have current : (r.enteringAll (starts around)).symbols.current = c := by rw [split, entered]
  rw [current]
  exact ⟨registered, same⟩

/-- A check that got to the end of a block has come to each of its sites, through what is around it
there. -/
theorem Block.site_reached (sound : Moment.Sound ⟨.block mode body, s⟩)
    (run : body.check mode s = .ok () s') (member : x ∈ body.sites) :
    ∃ around m, Relation.ReflTransGen Occasion.Next ⟨[], ⟨.block mode body, s⟩⟩ ⟨around, m⟩ ∧
      m.part.stmt? = some x.2 ∧ starts around = x.1 ∧ functions around = 0 := by
  have listed : x ∈ (body.surrounded []).filterMap site? := by
    rw [body.surrounded_sites]
    exact List.mem_cons_of_mem _ member
  obtain ⟨z, inside, site⟩ := List.mem_filterMap.mp listed
  obtain ⟨outside, braces, same⟩ := site?_eq_some_iff.mp site
  obtain ⟨m, steps, shown⟩ :=
    Occasion.reaches (x := ⟨[], ⟨.block mode body, s⟩⟩) sound run (.inr outside) inside
  exact ⟨z.1, m, steps, same ▸ shown, braces, outside⟩

/-- Occasions in a block that gets to its end are settled later. -/
theorem Block.settled (sound : Moment.Sound ⟨.block mode body, s⟩)
    (fresh : clean → Moment.Fresh ⟨.block mode body, s⟩) (run : body.check mode s = .ok () s')
    (later : s'.symbols.Grows r.symbols)
    (steps : Relation.ReflTransGen Occasion.Next ⟨[], ⟨.block mode body, s⟩⟩ ⟨around, m⟩) :
    Occasion.Settled clean r.symbols ⟨around, m⟩ := by
  refine Occasion.settled_of_steps steps ⟨sound, fresh, ⟨s', run, later⟩, fun start innermost => ?_⟩
  cases innermost

/-- The scope of a site in a later table is the one registered for the innermost block. It is the
one that the site was checked in, if the braces can be told apart. -/
theorem Block.site_scope (sound : Moment.Sound ⟨.block mode body, s⟩)
    (fresh : clean → Moment.Fresh ⟨.block mode body, s⟩) (run : body.check mode s = .ok () s')
    (later : s'.symbols.Grows r.symbols) (wf : r.symbols.WellFormed) (member : x ∈ body.sites) :
    ∃ start, x.1.getLast? = some start ∧
      r.symbols.blocks.lookup start = some (r.enteringAll x.1).symbols.current ∧
      ∃ around m, Relation.ReflTransGen Occasion.Next ⟨[], ⟨.block mode body, s⟩⟩ ⟨around, m⟩ ∧
        m.part.stmt? = some x.2 ∧ starts around = x.1 ∧
        (clean → (r.enteringAll x.1).symbols.current = m.state.symbols.current) := by
  obtain ⟨around, m, steps, shown, braces, -⟩ := body.site_reached sound run member
  obtain ⟨start, last⟩ : ∃ start, x.1.getLast? = some start :=
    ⟨_, List.getLast?_eq_some_getLast (Block.sites_in_block member)⟩
  rw [← braces] at last ⊢
  have settled := body.settled sound fresh run later steps
  obtain ⟨registered, same⟩ := settled.entered wf last
  exact ⟨start, last, registered, around, m, steps, shown, rfl, same⟩

end

/--
Visits after the check go to every statement once, in the right scope, and leave no trace.

Whatever a visit does that leaves the table alone, a scoped visit of a body is one visit after the
other at its sites. These are the statements in the body that are not in a function, in order. If
the check of a body got to its end, then in every later state the scope of a site is the one
registered for the innermost block around it. Where the braces of the program can be told apart,
that is the scope in which the check came to the statement. Looking at the returns of any body, or
at the ways through it, changes nothing but the reports and the log, wherever it ends.
-/
theorem returns_revisited :
    (∀ {α : Type} (visit : Stmt → Check (List α)) (body : Block),
      (∀ stmt, Leaves State.SameTable (visit stmt)) →
      body.visitScoped visit = visitEach visit body.sites) ∧
    (∀ body : Block, ([], .block body) :: body.sites = (body.surrounded []).filterMap site? ∧
      (body.surrounded []).map Prod.snd = Node.stmts (body.visited fun _ => true)) ∧
    (∀ (o : Options) (file : String) (builtins : Registry) (log : Log) (program : Program)
      (mode : EntryMode) (body : Block) (s s' r : State),
      Moment.Of program (o.initialState file builtins log) ⟨.block mode body, s⟩ →
      body.check mode s = .ok () s' → s'.symbols.Grows r.symbols → r.symbols.WellFormed →
      ∀ x ∈ body.sites, ∃ start, x.1.getLast? = some start ∧
        r.symbols.blocks.lookup start = some (r.enteringAll x.1).symbols.current ∧
        ∃ around m, Relation.ReflTransGen Occasion.Next ⟨[], ⟨.block mode body, s⟩⟩ ⟨around, m⟩ ∧
          m.part.stmt? = some x.2 ∧ starts around = x.1 ∧
          (program.DistinctBlocks →
            (r.enteringAll x.1).symbols.current = m.state.symbols.current)) ∧
    ∀ (body : Block) (ret : Ty) (namePos : Pos) (s : State),
      s.Untouched (stateOf (checkReturns namePos ret body s)) ∧
      s.Untouched (stateOf (body.path ret s)) ∧
      s.Untouched (stateOf (body.returnsOnAllPaths ret s)) := by
  refine ⟨fun visit body keeps => body.visitScoped_eq_visitEach keeps,
    fun body => ⟨body.surrounded_sites.symm, body.map_surrounded []⟩, ?_, ?_⟩
  · intro o file builtins log program mode body s s' r reached run later wf x member
    exact body.site_scope reached.sound (fun distinct => reached.fresh distinct) run later wf member
  · intro body ret namePos s
    have path : ReadsTable (body.path ret) :=
      (body.trace_readsTable ret .start).bind fun _ => .pure _
    exact ⟨Leaves.of_readsTable (.checkReturns namePos ret body) s, Leaves.of_readsTable path s,
      Leaves.of_readsTable (body.returnsOnAllPaths_readsTable ret) s⟩

/-- `fn pick() int { ... }` -/
def pickHeader : Header := ⟨⟨1, 3⟩, "pick", [], some (⟨1, 10⟩, .value .int)⟩

/-- A return in a block of its own: `return x;` -/
def pickReturn : Stmt := .returnWith ⟨1, 39⟩ (some (.ident ⟨1, 46⟩ "x"))

/-- `{ if (true) { int x = 1; return x; } fn none() { return; } return 2; }` -/
def pickBody : Block := .mk ⟨1, 14⟩ ⟨1, 83⟩
  [.branch ⟨1, 16⟩ (.boolie ⟨1, 20⟩ true) (.mk ⟨1, 26⟩ ⟨1, 49⟩
      [.declare ⟨1, 28⟩ (.value .int) ⟨1, 32⟩ "x" (some (.int ⟨1, 36⟩ "1" 1)), pickReturn]) .done,
    .define ⟨1, 51⟩ ⟨⟨1, 54⟩, "none", [], none⟩ (.mk ⟨1, 61⟩ ⟨1, 71⟩ [.returnWith ⟨1, 63⟩ none]),
    .returnWith ⟨1, 73⟩ (some (.int ⟨1, 80⟩ "2" 2))]

/-- The return in `pick` that stands in a block of its own is visited in the scope of that block.
The one in `none` is not visited. -/
theorem pick_revisited :
    pickBody.visitScoped (checkIfReturn (.value .int)) =
      visitEach (checkIfReturn (.value .int)) pickBody.sites ∧
    ([⟨1, 14⟩, ⟨1, 26⟩], pickReturn) ∈ pickBody.sites ∧
    (∀ x ∈ pickBody.sites, x.2 ≠ .returnWith ⟨1, 63⟩ none) ∧
    ∃ s s', Moment.Of [.define ⟨1, 0⟩ pickHeader pickBody] (echoStart .collect)
        ⟨.block .resumeLast pickBody, s⟩ ∧
      pickBody.check .resumeLast s = .ok () s' ∧
      s'.symbols.blocks.lookup ⟨1, 26⟩ =
        some (s'.enteringAll [⟨1, 14⟩, ⟨1, 26⟩]).symbols.current ∧
      s'.Untouched (stateOf (checkReturns ⟨1, 3⟩ (.value .int) pickBody s')) := by
  obtain ⟨each, -, scope, untouched⟩ := returns_revisited
  have member : ([⟨1, 14⟩, ⟨1, 26⟩], pickReturn) ∈ pickBody.sites := by
    simp [pickBody, pickReturn, Block.sites, Stmt.sitesAll, Stmt.sites, Branches.sites]
  have others : ∀ x ∈ pickBody.sites, x.2 ≠ .returnWith ⟨1, 63⟩ none := by
    simp [pickBody, pickReturn, Block.sites, Stmt.sitesAll, Stmt.sites, Branches.sites]
  obtain ⟨s, reached, collects⟩ : ∃ s, Moment.Of [.define ⟨1, 0⟩ pickHeader pickBody]
      (echoStart .collect) ⟨.block .resumeLast pickBody, s⟩ ∧ s.engine.policy = .collect :=
    ⟨_, (Relation.ReflTransGen.single .first).tail (.function rfl), rfl⟩
  obtain ⟨u, s', run, -, -⟩ := (pickBody.check_disciplined .resumeLast).collects s collects
  have wf := (Moment.Of.sound reached).wellFormed_of_ok run
  obtain ⟨start, last, registered, -⟩ := scope { policy := .collect } "main" .empty _ _ _ _ _ _ s'
    reached run (.refl _) wf _ member
  cases last
  exact ⟨each _ _ fun stmt => .of_readsTable (.checkIfReturn _ stmt), member, others, s, s',
    reached, run, registered, (untouched _ _ _ s').1⟩

end Samo
