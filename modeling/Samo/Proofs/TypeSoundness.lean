import Samo.Proofs.BlockPositions
import Samo.Proofs.Demands
import Samo.Proofs.Returns

/-!
# Accepted programs are well typed

The main result on types. Every statement of an accepted program has what it demands in the table
that the whole check leaves, at the scope of the block around it: names are looked up once, but they
still stand for the same when everything is declared.
-/

namespace Samo

open Check

/-- A statement at a place has what it demands, with names looked up from a scope outwards. -/
def Stmt.WellTypedAt (t : SymbolTable) (c : Coordinates) (p : Place) (stmt : Stmt) : Prop :=
  stmt.Demands (t.lookupFrom c) (fun e type => e.HasType (t.bindingsAt c) type) p

/-- What a visited statement demands it has in the later table. -/
theorem Visit.wellTypedAt {clean : Prop} {t : SymbolTable} {p q : Place} {c : Coordinates}
    {stmt : Stmt} {s s' : State} {fs : List Frame} (visit : Visit clean t q c (p, stmt) s s' fs)
    (wf : t.WellFormed) (other : ∀ pos value, stmt ≠ .returnWith pos value) :
    stmt.WellTypedAt t s.symbols.current p := by
  have passes := stmt.check_passes visit.standing.stop visit.standing.wellFormed visit.run
  have grows := visit.later.grows
  rw [← passes.table.current]
  refine (stmt.check_demands visit.standing visit.run other).mono ?_ ?_
  · exact fun name symbol known => grows.found _ _ _ known
  · exact fun e type typed => typed.hasType grows wf

/-- A settled return has what it demands in the later table, at the scope of the block around it. -/
theorem Settled.wellTypedAt {t t₀ : SymbolTable} {p : Place} {pos : Pos} {value : Option Expr}
    {h : Header} {c c' c₀ : Coordinates} (settled : Settled t p value h t₀ c)
    (wf : t.WellFormed) (framed : t.Framed p.frames c' c₀) :
    (Stmt.returnWith pos value).WellTypedAt t c' p := by
  obtain ⟨f, fs, frames, registered⟩ := settled.registered
  rw [frames] at framed
  obtain ⟨above, ⟨registered', -⟩, -⟩ := framed
  have same : c' = c := by
    rw [settled.grows.blocks f.start c registered] at registered'
    exact (Option.some.inj registered').symm
  subst same
  refine ⟨h, settled.function, settled.void, fun e member => ?_⟩
  exact (settled.typed e member).mono (settled.grows.bindings wf c')

/--
Type soundness. In an accepted program every statement has what it demands in the table that the
check leaves, with the names looked up from the scope of the innermost block around it outwards. The
blocks have to start at different positions, as those of every program read from a text do.
-/
theorem type_soundness :
    (∀ text, Program.DistinctBlocks (parse text).1) ∧
    ∀ (program : Program) (o : Options) (file : String) (builtins : Registry) (log : Log),
      program.DistinctBlocks → program.Accepted (o.initialState file builtins log) →
      ∀ p stmt, (p, stmt) ∈ program.located →
        ∃ c,
          (program.checked (o.initialState file builtins log)).symbols.Framed p.frames c .global ∧
          stmt.WellTypedAt (program.checked (o.initialState file builtins log)).symbols c p := by
  refine ⟨parse_distinctBlocks, ?_⟩
  intro program o file builtins log distinct accepted p stmt member
  obtain ⟨s, s', fs, visit⟩ := accepted.visits _ member
  have framed := visit.framed distinct
  have frames : p.frames = fs := by
    rw [visit.frames]
    exact List.append_nil fs
  rw [← frames] at framed
  refine ⟨s.symbols.current, framed, ?_⟩
  by_cases returns : ∃ pos value, stmt = .returnWith pos value
  · obtain ⟨pos, value, rfl⟩ := returns
    obtain ⟨h, t₀, c, settled⟩ := accepted.returned distinct member
    exact settled.wellTypedAt accepted.table.1 framed
  · refine visit.wellTypedAt accepted.table.1 fun pos value same => ?_
    exact returns ⟨pos, value, same⟩

/-- The header of a function that tells whether a number is even and positive. -/
def halvesHeader : Header :=
  ⟨⟨1, 3⟩, "halves", [⟨⟨1, 10⟩, .value .int, ⟨1, 14⟩, "n"⟩], some (⟨1, 17⟩, .value .boolie)⟩

/-- What the function returns, from a block inside its body. -/
def halvesReturn : Stmt :=
  .returnWith ⟨3, 4⟩ (some (.binary ⟨3, 17⟩ .and
    (.binary ⟨3, 13⟩ .gt (.ident ⟨3, 11⟩ "n") (.int ⟨3, 15⟩ "0" 0))
    (.binary ⟨3, 29⟩ .eq
      (.binary ⟨3, 23⟩ .mod (.ident ⟨3, 21⟩ "n") (.ident ⟨3, 25⟩ "two")) (.int ⟨3, 32⟩ "0" 0))))

/-- The definition of the function and a call of it. -/
def halving : Program :=
  [.define ⟨1, 0⟩ halvesHeader
    (.mk ⟨1, 24⟩ ⟨4, 0⟩
      [.declare ⟨2, 2⟩ (.value .int) ⟨2, 6⟩ "two" (some (.int ⟨2, 12⟩ "2" 2)),
      .block (.mk ⟨3, 2⟩ ⟨3, 35⟩ [halvesReturn])]),
  .infer ⟨5, 0⟩ ⟨5, 4⟩ "even" (.call ⟨5, 11⟩ "halves"
    [.binary ⟨5, 20⟩ .add (.int ⟨5, 18⟩ "3" 3) (.int ⟨5, 22⟩ "1" 1)])]

/-- Where the function returns. -/
def halvesPlace : Place where
  frames := [⟨⟨3, 2⟩, []⟩, ⟨⟨1, 24⟩, ["n", "two"]⟩]
  before := ["halves", "n", "two"]
  within := ["halves", "n", "two"]
  function := some halvesHeader
  loops := 0

/-- The program is accepted, so what the function returns is well typed in the last table. -/
theorem halving_wellTyped :
    halving.DistinctBlocks ∧
      halving.Accepted (({} : Options).initialState "main" .empty ({} : Options).newLog) ∧
      (halvesPlace, halvesReturn) ∈ halving.located ∧
      ∃ c, (halving.checked
          (({} : Options).initialState "main" .empty ({} : Options).newLog)).symbols.Framed
            halvesPlace.frames c .global ∧
        halvesReturn.WellTypedAt (halving.checked
          (({} : Options).initialState "main" .empty ({} : Options).newLog)).symbols c
            halvesPlace := by
  have distinct : halving.DistinctBlocks := by
    unfold Program.DistinctBlocks
    decide
  have accepted : halving.Accepted
      (({} : Options).initialState "main" .empty ({} : Options).newLog) := by
    unfold Program.Accepted
    decide +kernel
  have member : (halvesPlace, halvesReturn) ∈ halving.located :=
    .tail _ (.tail _ (.tail _ (.head _)))
  exact ⟨distinct, accepted, member,
    type_soundness.2 halving _ _ _ _ distinct accepted halvesPlace halvesReturn member⟩

end Samo
