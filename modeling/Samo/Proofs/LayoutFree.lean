import Samo.Proofs.LayoutRecords
import Samo.Proofs.NoFalseRejections
import Samo.Proofs.Numbering

/-!
# Layout does not matter

Two texts with the same words are one program in two layouts. So their trees differ in positions
alone, and a check tells the same events of both. What is recorded of the events is the same too: a
name stands in one place only, so no layout makes two reports on a declaration read the same
(`layout_free`).
-/

namespace Samo

/-! ## Names are spots -/

theorem Header.names_sublist (h : Header) : h.names.Sublist h.spots := by
  have params : (h.params.map Param.namePos).Sublist (h.params.flatMap Param.spots) := by
    induction h.params with
    | nil => exact .refl _
    | cons p ps ih => exact .cons _ (ih.cons_cons p.namePos)
  exact (params.trans (List.sublist_append_left _ _)).cons_cons h.namePos

mutual

theorem Stmt.names_sublist (s : Stmt) : s.names.Sublist s.spots := by
  cases s with
  | block body => exact body.names_sublist
  | declare p type np name init => exact .cons p ((List.nil_sublist _).cons_cons np)
  | infer p np name init => exact .cons p ((List.nil_sublist _).cons_cons np)
  | define p header body => exact .cons p (header.names_sublist.append body.names_sublist)
  | branch p cond body rest =>
      refine .cons p (.trans ?_ (List.sublist_append_right _ _))
      exact body.names_sublist.append rest.names_sublist
  | loop p cond body => exact .cons p (body.names_sublist.trans (List.sublist_append_right _ _))
  | maybe p e body => exact .cons p (body.names_sublist.trans (List.sublist_append_right _ _))
  | maybeOtherwise p e body op alternative =>
      refine .cons p (.trans ?_ (List.sublist_append_right _ _))
      exact body.names_sublist.append (.cons op alternative.names_sublist)
  | assign | call | breakOut | continueOn | returnWith | needs | bad => exact List.nil_sublist _

theorem Block.names_sublist (body : Block) : body.names.Sublist body.spots := by
  cases body with
  | mk start stop stmts =>
      exact .cons start ((Stmt.namesAll_sublist stop stmts).trans (List.sublist_append_left _ _))

theorem Branches.names_sublist (rest : Branches) : rest.names.Sublist rest.spots := by
  cases rest with
  | done => exact .refl _
  | otherwise p body => exact .cons p body.names_sublist
  | elseIf p cond body rest =>
      refine .cons p (.trans ?_ (List.sublist_append_right _ _))
      exact body.names_sublist.append rest.names_sublist

theorem Stmt.namesAll_sublist (stop : Pos) (stmts : List Stmt) :
    (Stmt.namesAll stmts).Sublist (Stmt.spotsAll stop stmts) := by
  cases stmts with
  | nil => exact .refl _
  | cons s ss =>
      rw [Stmt.namesAll, Stmt.spotsAll]
      refine .append ?_ (Stmt.namesAll_sublist stop ss)
      split
      · -- a bad statement declares nothing
        next last =>
        cases s with
        | bad => exact List.nil_sublist _
        | block | declare | infer | assign | call | define | branch | loop | breakOut | continueOn
        | returnWith | needs | maybe | maybeOtherwise => simp [Stmt.isBadAt] at last
      · exact s.names_sublist

end

theorem Cursor.numbered_ordered (ls : List Lexeme) : (numbered ls).places.Pairwise Pos.Before := by
  have positions : (numbered ls).positions = ls.mapIdx fun i _ => ⟨i, 0⟩ := by
    rw [Cursor.positions, numbered, rest_look]
    refine List.ext_getElem? fun i => ?_
    simp only [List.getElem?_map, List.getElem?_mapIdx, Option.map_map]
    rfl
  have eof : (numbered ls).eof.pos = ⟨ls.length, 0⟩ := congrArg Token.pos (eof_look _)
  rw [places, positions, eof, List.pairwise_append]
  refine ⟨?_, List.pairwise_singleton _ _, ?_⟩
  · rw [List.pairwise_iff_getElem]
    intro i j _ _ before
    simp only [List.getElem_mapIdx]
    exact .inl (Int.ofNat_lt.mpr before)
  · intro p member q last
    obtain ⟨i, bound, rfl⟩ := List.mem_mapIdx.mp member
    rw [List.mem_singleton.mp last]
    exact .inl (Int.ofNat_lt.mpr bound)

/-- Numbered words are read as a program, and no name in it stands where another does. -/
theorem Parser.program_numbered (ls : List Lexeme) : ∃ program c,
    Parser.program (.numbered ls) = .ok program c ∧ (Stmt.namesAll program).Nodup := by
  have ends : (Cursor.numbered ls).eof.kind = .endOfFile := by
    rw [Cursor.numbered, Cursor.eof_look]
    rfl
  obtain ⟨program, c, run, -, ordered⟩ :=
    Parser.program_orderedSpots ends (Cursor.numbered_ordered ls)
  have spots := (ordered.sublist (List.sublist_append_left _ _)).imp Pos.Before.ne
  exact ⟨program, c, run, spots.sublist (Stmt.namesAll_sublist _ program)⟩

/-! ## Events in a layout -/

namespace Check

/-- What a step tells from a state it tells from a twin. -/
theorem Tells.twin {α : Type} {m : Check α} {s s' t : State} {es : List Event} {a : α}
    (tells : Tells m s es a s') (twin : s.Twin t) : Tells m t es a s' := by
  obtain ⟨e, l, rfl⟩ := twin
  refine ⟨tells.functions, ?_, ?_⟩
  · rintro t ⟨e', l', rfl⟩ quiet
    exact tells.finished _ ⟨e', l', rfl⟩ quiet
  · rintro t ⟨e', l', rfl⟩ stop fatal
    exact tells.halted _ ⟨e', l', rfl⟩ stop fatal

namespace Event

theorem isFatal_inLayout (φ : Layout) (e : Event) : (e.inLayout φ).isFatal = e.isFatal := by
  rcases e with ⟨r | r⟩ | ⟨pos, p⟩ | f <;> rfl

theorem heard_inLayout (φ : Layout) (policy : Policy) (es : List Event) :
    heard policy (es.map (inLayout φ)) = (heard policy es).map (inLayout φ) := by
  cases policy with
  | collect => rfl
  | stop =>
      induction es with
      | nil => rfl
      | cons e es ih =>
          unfold heard at ih ⊢
          simp only [List.map_cons, throughFatal, isFatal_inLayout, ih]
          split <;> rfl

theorem functions_inLayout (φ : Layout) (es : List Event) :
    functions (es.map (inLayout φ)) = (functions es).map (Function.inLayout φ) := by
  induction es with
  | nil => rfl
  | cons e es ih =>
      cases e with
      | listed f => exact congrArg (f.inLayout φ :: ·) ih
      | report r => exact ih
      | warning pos p => exact ih

theorem heard_sublist (policy : Policy) (es : List Event) : (heard policy es).Sublist es := by
  cases policy with
  | collect => exact .refl es
  | stop => exact throughFatal_sublist es

end Event

end Check

/-! ## Checks in a layout -/

/-- What a check says of a program wherever its words stand. -/
structure Gist where
  failed : Bool
  severities : List Severity
  functions : List (String × String)
deriving DecidableEq

/-- Whether the check failed, how bad each diagnostic is, and the functions that passed. -/
def Verdict.gist (v : Verdict) : Gist where
  failed := v.complaint?.isSome
  severities := v.engine.diagnostics.map (·.severity)
  functions := v.functions.map fun f => (f.name, f.descriptor)

/-- A check failed if one of its diagnostics is bad enough. -/
theorem Engine.isSome_failure? {e : Engine} (counted : e.Counted) : e.failure?.isSome =
    (e.diagnostics.map (·.severity)).any fun s => s == .fatal || s == .error := by
  have failed : e.failure?.isSome = e.hasFailed := by
    unfold failure?
    cases e.hasFailed <;> rfl
  rw [failed, Bool.eq_iff_iff, hasFailed_iff counted]
  simp

namespace Program

open Check

/-- What the check of a program leaves is what is heard of its events, in the layout. -/
theorem checked_inLayout {program : Program} {o : Options} {file : String} {builtins : Registry}
    {log : Log} {es : List Event} {s' : State} {φ : Layout}
    (tells : Tells (Stmt.checkAll (Stmt.mapPosAll φ.place program))
      ((o.initialState file builtins log).inLayout φ) (es.map (Event.inLayout φ)) () s')
    (log' : Log) :
    let c := Program.checked (Stmt.mapPosAll φ.place program) (o.initialState file builtins log')
    let heard := Event.heard o.policy es
    c.engine = Event.recordAll { policy := o.policy, file } (heard.map (Event.inLayout φ)) ∧
      c.functions = (Event.functions heard).map (Function.inLayout φ) := by
  -- the log that a check writes to does not matter
  have twin : State.Twin ((o.initialState file builtins log).inLayout φ)
      (o.initialState file builtins log') := ⟨_, log', rfl⟩
  obtain ⟨engine, functions⟩ := Program.checked_of_tells (tells.twin twin)
  dsimp only
  rw [engine, functions, ← Event.functions_inLayout, ← Event.heard_inLayout]
  exact ⟨rfl, rfl⟩

/-- A program is judged the same in every layout. -/
theorem gist_inLayout {program : Program} (nodup : (Stmt.namesAll program).Nodup)
    (o : Options) (file : String) (builtins : Registry) (φ ψ : Layout) (log log' : Log) :
    let c := Program.checked (Stmt.mapPosAll φ.place program) (o.initialState file builtins log)
    let d := Program.checked (Stmt.mapPosAll ψ.place program) (o.initialState file builtins log')
    Verdict.gist ⟨file, c.symbols, c.functions, c.engine⟩ =
      Verdict.gist ⟨file, d.symbols, d.functions, d.engine⟩ := by
  obtain ⟨es, ⟨⟩, s', names, tells⟩ :=
    Stmt.checkAll_uniform program (o.initialState file builtins log)
  -- under the policy `stop` fewer names are reported, so they are still distinct
  have distinct : (Event.redeclared (Event.heard o.policy es)).Nodup :=
    nodup.sublist ((sublist_flatMap _ (Event.heard_sublist o.policy es)).trans names)
  obtain ⟨engine, functions⟩ := checked_inLayout (tells φ) log
  obtain ⟨engine', functions'⟩ := checked_inLayout (tells ψ) log'
  intro c d
  have severities :
      c.engine.diagnostics.map (·.severity) = d.engine.diagnostics.map (·.severity) := by
    rw [engine, engine']
    exact Event.severities_recordAll distinct rfl φ ψ
  have listed : c.functions.map (fun f => (f.name, f.descriptor)) =
      d.functions.map (fun f => (f.name, f.descriptor)) := by
    rw [functions, functions', List.map_map, List.map_map]
    rfl
  have failed : c.engine.failure?.isSome = d.engine.failure?.isSome := by
    rw [Engine.isSome_failure? (checked_counted _ ⟨rfl, rfl, rfl⟩),
      Engine.isSome_failure? (checked_counted _ ⟨rfl, rfl, rfl⟩), severities]
  simp only [Verdict.gist, Verdict.complaint?, Option.isSome_map, severities, listed, failed]

end Program

/-! ## Texts with the same words -/

/--
Layout does not matter. Two texts with the same words, comments left out, have the same tree up to
positions and the same syntax errors, in order. Each check fails on both or on none, gives
diagnostics of the same severities in the same order, and lets the same functions pass.
-/
theorem layout_free {source source' : Bytes}
    (same : words (Text.decode source) = words (Text.decode source')) :
    (parse (Text.decode source)).1.bare = (parse (Text.decode source')).1.bare ∧
      (parse (Text.decode source)).2.map (·.fault.message) =
        (parse (Text.decode source')).2.map (·.fault.message) ∧
      ∀ (o : Options) (name : String) (log log' : Log),
        ((o.checkText name source).run log).1.map Verdict.gist =
          ((o.checkText name source').run log').1.map Verdict.gist := by
  have lexemes : (Cursor.ofText (Text.decode source')).lexemes =
      (Cursor.ofText (Text.decode source)).lexemes := by
    rw [Cursor.lexemes_eq_map_words, Cursor.lexemes_eq_map_words, same]
  -- both texts are the program of the numbered words, each in its own layout
  obtain ⟨program, c, run, nodup⟩ :=
    Parser.program_numbered (Cursor.ofText (Text.decode source)).lexemes
  obtain ⟨tree, errors⟩ := parse_eq_numbered run
  obtain ⟨tree', errors'⟩ := parse_eq_numbered (lexemes ▸ run)
  refine ⟨?_, ?_, fun o name log log' => ?_⟩
  · rw [tree, tree', Program.bare, Program.bare, Stmt.bareAll_mapPosAll, Stmt.bareAll_mapPosAll]
  · rw [errors, errors', List.map_map, List.map_map]
    rfl
  · cases library : Registry.ofLibrary o.library with
    | error e => rw [Options.checkText_refused library, Options.checkText_refused library]
    | ok builtins =>
        obtain ⟨l, checked⟩ := Options.checkText_run library name source log
        obtain ⟨l', checked'⟩ := Options.checkText_run library name source' log'
        rw [checked, checked', tree, tree']
        exact congrArg Except.ok (Program.gist_inLayout nodup o name builtins _ _ l l')

/-- A name is declared again on the line after. -/
def twoLines : Bytes := "int x = 1; fn f() \x7b\x7d // first\nint x = 2;".toUTF8.toList

/-- The same on one line. -/
def oneLine : Bytes := "int x=1;fn f()\x7b\x7dint x=2;".toUTF8.toList

/-- Both are rejected for the second declaration, and the function passes in both. -/
theorem twoLines_layout_free :
    words (Text.decode twoLines) = words (Text.decode oneLine) ∧
      ((Options.checkText { policy := .collect } "main" twoLines).run (Options.newLog {})).1.map
        Verdict.gist = .ok ⟨true, [.fatal], [("f", "()V")]⟩ := by
  have same : words (Text.decode twoLines) = words (Text.decode oneLine) := by decide +kernel
  refine ⟨same, ((layout_free same).2.2 _ _ _ (Options.newLog {})).trans ?_⟩
  decide +kernel

end Samo
