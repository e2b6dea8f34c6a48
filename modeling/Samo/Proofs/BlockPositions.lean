import Samo.Proofs.Places
import Samo.Proofs.Spots

/-!
# Blocks start at different positions

The opening braces of a program are among the words that it names. So the blocks of a program that
was read from a text can be told apart by where they start (`parse_distinctBlocks`).
-/

namespace Samo

mutual

/-- The opening braces in a statement are among its words. -/
theorem Stmt.braces_sublist : (s : Stmt) → s.braces.Sublist s.spots
  | .block body => by
      rw [Stmt.braces, Stmt.spots]
      exact body.braces_sublist
  | .define _ header body => by
      rw [Stmt.braces, Stmt.spots]
      exact (body.braces_sublist.trans (List.sublist_append_right ..)).cons _
  | .branch _ cond body rest => by
      rw [Stmt.braces, Stmt.spots]
      have arms := body.braces_sublist.append rest.braces_sublist
      exact (arms.trans (List.sublist_append_right ..)).cons _
  | .loop _ cond body => by
      rw [Stmt.braces, Stmt.spots]
      exact (body.braces_sublist.trans (List.sublist_append_right ..)).cons _
  | .maybe _ e body => by
      rw [Stmt.braces, Stmt.spots]
      exact (body.braces_sublist.trans (List.sublist_append_right ..)).cons _
  | .maybeOtherwise _ e body op alternative => by
      rw [Stmt.braces, Stmt.spots]
      have both := body.braces_sublist.append (alternative.braces_sublist.cons op)
      exact (both.trans (List.sublist_append_right ..)).cons _
  | .declare .. | .infer .. | .assign .. | .call .. | .breakOut _ | .continueOn _ | .returnWith ..
  | .needs .. | .bad .. => by
      rw [Stmt.braces]
      exact List.nil_sublist _

theorem Block.braces_sublist : (body : Block) → body.braces.Sublist body.spots
  | .mk start stop stmts => by
      rw [Block.braces, Block.spots]
      exact ((Stmt.bracesAll_sublist stop stmts).trans (List.sublist_append_left ..)).cons_cons _

/-- A statement that is missing has no braces. -/
theorem Stmt.bracesAll_sublist (stop : Pos) :
    (ss : List Stmt) → (Stmt.bracesAll ss).Sublist (Stmt.spotsAll stop ss)
  | [] => by
      rw [Stmt.bracesAll]
      exact List.nil_sublist _
  | s :: ss => by
      rw [Stmt.bracesAll, Stmt.spotsAll]
      refine List.Sublist.append ?_ (Stmt.bracesAll_sublist stop ss)
      split
      · next missing =>
        cases s with
        | bad p fault => simp only [Stmt.braces, List.nil_sublist]
        | _ => simp [Stmt.isBadAt] at missing
      · exact s.braces_sublist

theorem Branches.braces_sublist : (rest : Branches) → rest.braces.Sublist rest.spots
  | .done => by
      rw [Branches.braces]
      exact List.nil_sublist _
  | .otherwise _ body => by
      rw [Branches.braces, Branches.spots]
      exact body.braces_sublist.cons _
  | .elseIf _ cond body rest => by
      rw [Branches.braces, Branches.spots]
      have arms := body.braces_sublist.append rest.braces_sublist
      exact (arms.trans (List.sublist_append_right ..)).cons _

end

/-- The blocks of a program that was read from a text start one behind the other. -/
theorem parse_orderedBlocks (cs : List Char) :
    (Stmt.bracesAll (parse cs).1).Pairwise Pos.Before := by
  obtain ⟨stop, -, ordered⟩ := parse_orderedSpots cs
  exact ordered.sublist ((Stmt.bracesAll_sublist stop _).trans (List.sublist_append_left ..))

/-- The blocks of a program that was read from a text start at different positions. -/
theorem parse_distinctBlocks (cs : List Char) : Program.DistinctBlocks (parse cs).1 :=
  (parse_orderedBlocks cs).imp Pos.Before.ne

end Samo
