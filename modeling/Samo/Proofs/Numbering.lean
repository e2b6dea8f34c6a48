import Mathlib.Data.List.TakeWhile
import Mathlib.Logic.Denumerable
import Samo.Proofs.Bounds
import Samo.Proofs.Layouts
import Samo.Proofs.Reading
import Samo.Proofs.Spots
import Samo.Proofs.SyntaxErrors

/-!
# Programs with numbered words

What a word is can be told from its spelling alone (`tokensFrom_ofText`). So the words that the
grammar sees give a program of their own, in which the only place a word has is its number. A text
is that program in the layout that puts each word where the text has it (`parse_eq_numbered`).
-/

namespace Samo

/-! ## The kind of a word -/

namespace Scan

theorem kind_string_tail (cs : List Char) : (string (string cs).tail).kind = (string cs).kind := by
  fun_induction string cs with
  | case1 => rfl
  | case2 => simp [string]
  | case3 => simp [string]
  | case4 => simp [string]
  | case5 c quote back feed => simp [string, quote, back, feed]
  | case6 => simp [string]
  | case7 d cs escape _ ih => simpa [string, push, escape] using ih
  | case8 => simp [string]
  | case9 => simp [string]
  | case10 c d cs quote back feed ih =>
      -- the tail may be empty now, where the literal is cut off at the end of its line
      simp only [push]
      cases tail : (string (d :: cs)).tail with
      | nil =>
          rw [tail] at ih
          simpa [string, quote, back, feed] using ih
      | cons e tail' =>
          rw [tail] at ih
          simpa [string, push, quote, back, feed] using ih

theorem kind_sign_tail (c : Char) (cs : List Char) :
    (sign c (sign c cs).tail).kind = (sign c cs).kind := by
  fun_cases sign c cs
  · next alone => simp only [sign, alone]
  · next paired rest => simp only [sign, paired]
  · next paired _ => simp only [sign, paired]

/-- A sign is never the start of a comment. -/
theorem head?_sign_tail (c : Char) (cs : List Char) : (sign c cs).tail.head? ≠ some '/' := by
  fun_cases sign c cs <;> simp

end Scan

/-- The kind of a word is found again when nothing follows it. -/
theorem kind_scan_tail (c : Char) (cs : List Char) :
    (scan c (scan c cs).tail).kind = (scan c cs).kind := by
  unfold scan
  split
  · simp only [Scan.word, Scan.span, List.takeWhile_idem]
  split
  · rfl
  split
  · exact Scan.kind_string_tail cs
  split
  · next slashes =>
    have both : c = '/' ∧ cs.head? = some '/' := by simpa using slashes
    have second : (Scan.span .comment (· != '\n') cs).tail.head? = some '/' := by
      obtain ⟨cs', rfl⟩ := List.head?_eq_some_iff.mp both.2
      rfl
    rw [second, both.1]
    rfl
  · rw [if_neg]
    · exact Scan.kind_sign_tail c cs
    · simp [Scan.head?_sign_tail c cs]

/-- What a word is on its own. -/
def Lexeme.ofText (text : String) : Lexeme :=
  match text.toList with
  | [] => ⟨.endOfFile, text⟩
  | c :: cs => ⟨(scan c cs).kind, text⟩

/-- Every word of a text is what it is on its own. -/
theorem tokensFrom_ofText (m : Mark) (cs : List Char) :
    ∀ t ∈ tokensFrom m cs, t.toLexeme = .ofText t.text := by
  intro t member
  obtain ⟨c, cs', -, scanned⟩ := exists_scan_of_mem_tokensFrom member
  rw [scanned, Lexeme.ofText, String.toList_ofList]
  dsimp only
  rw [kind_scan_tail]

/-- The words of a text that the grammar sees, each with the code of its kind, up to the end. -/
def words (cs : List Char) : List (Int × String) :=
  ((lex cs).filter (!·.kind.isHidden)).map fun t => (t.kind.code, t.text)

theorem Cursor.rest_ofText (cs : List Char) :
    (ofText cs).rest = (tokensFrom .start cs).filter (!·.kind.isHidden) :=
  rest_look _

theorem Cursor.eof_ofText (cs : List Char) : (ofText cs).eof = endToken cs := eof_look _

/-- The kinds of the words are told by their spelling. -/
theorem Cursor.lexemes_eq_map_words (cs : List Char) :
    (ofText cs).lexemes = ((words cs).dropLast.map Prod.snd).map Lexeme.ofText := by
  have shown : words cs =
      (ofText cs).rest.map (fun t => (t.kind.code, t.text)) ++ [(-1, "<EOF>")] := by
    rw [words, lex, List.filter_append, List.map_append, rest_ofText]
    rfl
  rw [shown, List.dropLast_concat, List.map_map, List.map_map, lexemes]
  -- the codes are not needed: the spelling says more, it also tells one flaw from another
  refine List.map_congr_left fun t member => ?_
  rw [rest_ofText] at member
  exact tokensFrom_ofText .start cs t (List.mem_filter.mp member).1

/-! ## Places for numbers -/

/-- The number that the position stands for: words are numbered downwards, one on each line. -/
def Pos.number? (p : Pos) : Option Nat :=
  if p.column = 0 ∧ 0 ≤ p.line then some p.line.toNat else none

theorem Pos.number?_eq_some {p : Pos} {i : Nat} (found : p.number? = some i) : p = ⟨i, 0⟩ := by
  unfold number? at found
  split at found
  · next here =>
    obtain ⟨line, column⟩ := p
    cases found
    simp only [mk.injEq]
    exact ⟨(Int.toNat_of_nonneg here.2).symm, here.1⟩
  · cases found

theorem Pos.number?_mk (i : Nat) : (Pos.mk i 0).number? = some i := by simp [number?]

namespace Layout

variable (ps : List Pos)

/-- The line of the word with a number. -/
def lineAt (l : Int) : Int := (ps[l.toNat]?).elim 0 (·.line)

/-- A place left of every text that no other position has. -/
def aside (p : Pos) : Pos := ⟨lineAt ps p.line, -1 - Encodable.encode (p.line, p.column)⟩

/-- The place of a word with a number, and a place aside for everything else. -/
def placeAt (p : Pos) : Pos := (p.number?.bind (ps[·]?)).getD (aside ps p)

theorem line_placeAt (p : Pos) : (placeAt ps p).line = lineAt ps p.line := by
  unfold placeAt
  cases found : p.number?.bind (ps[·]?) with
  | none => rfl
  | some q =>
      obtain ⟨i, number, here⟩ := Option.bind_eq_some_iff.mp found
      rw [Pos.number?_eq_some number, lineAt, Int.toNat_natCast, here]
      rfl

theorem aside_injective : Function.Injective (aside ps) := by
  intro p q same
  have columns := congrArg Pos.column same
  simp only [aside] at columns
  have codes : Encodable.encode (p.line, p.column) = Encodable.encode (q.line, q.column) := by
    omega
  have both := Prod.mk.inj (Encodable.encode_injective codes)
  obtain ⟨l, c⟩ := p
  obtain ⟨l', c'⟩ := q
  exact congrArg₂ Pos.mk both.1 both.2

variable {ps}

theorem placeAt_injective (nodup : ps.Nodup) (inside : ∀ p ∈ ps, 0 ≤ p.column) :
    Function.Injective (placeAt ps) := by
  -- no word has a place aside
  have apart : ∀ (p : Pos) (i : Nat) (q : Pos), ps[i]? = some q → q ≠ aside ps p := by
    rintro p i q here rfl
    have left := inside _ (List.mem_of_getElem? here)
    simp only [aside] at left
    omega
  intro p q same
  unfold placeAt at same
  cases found : p.number?.bind (ps[·]?) with
  | none =>
      cases found' : q.number?.bind (ps[·]?) with
      | none =>
          rw [found, found'] at same
          exact aside_injective ps same
      | some r =>
          obtain ⟨i, -, here⟩ := Option.bind_eq_some_iff.mp found'
          rw [found, found'] at same
          exact absurd same.symm (apart p i r here)
  | some r =>
      obtain ⟨i, number, here⟩ := Option.bind_eq_some_iff.mp found
      cases found' : q.number?.bind (ps[·]?) with
      | none =>
          rw [found, found'] at same
          exact absurd same (apart q i r here)
      | some r' =>
          obtain ⟨j, number', here'⟩ := Option.bind_eq_some_iff.mp found'
          rw [found, found'] at same
          obtain rfl : r = r' := same
          have bound : i < ps.length := (List.getElem?_eq_some_iff.mp here).1
          obtain rfl : i = j := (List.getElem?_inj bound nodup).mp (here.trans here'.symm)
          rw [Pos.number?_eq_some number, Pos.number?_eq_some number']

/-- The layout that puts each numbered word in its place. -/
def ofPositions (nodup : ps.Nodup) (inside : ∀ p ∈ ps, 0 ≤ p.column) : Layout where
  place := placeAt ps
  line := lineAt ps
  injective := placeAt_injective nodup inside
  line_place := line_placeAt ps

theorem placeAt_mk {i : Nat} {p : Pos} (here : ps[i]? = some p) : placeAt ps ⟨i, 0⟩ = p := by
  rw [placeAt, Pos.number?_mk, Option.bind_some, here]
  rfl

end Layout

/-! ## Texts as layouts -/

theorem Mark.column_step {m : Mark} (inside : 0 ≤ m.pos.column) (c : Char) :
    0 ≤ (m.step c).pos.column := by
  unfold step
  split
  · exact Int.le_refl 0
  · show 0 ≤ m.pos.column + 1
    omega

theorem Mark.column_advance {m : Mark} (inside : 0 ≤ m.pos.column) (cs : List Char) :
    0 ≤ (m.advance cs).pos.column := by
  induction cs generalizing m with
  | nil => exact inside
  | cons c cs ih => exact ih (column_step inside c)

theorem tokensFrom_column (m : Mark) (cs : List Char) (inside : 0 ≤ m.pos.column) :
    ∀ t ∈ tokensFrom m cs, 0 ≤ t.pos.column := by
  fun_induction tokensFrom m cs with
  | case1 m => simp
  | case2 m c cs space ih => exact ih (Mark.column_step inside c)
  | case3 m c cs space s ih =>
      intro t member
      rcases List.mem_cons.mp member with rfl | member
      · exact inside
      · exact ih (Mark.column_advance inside _) t member

namespace Cursor

/-- The positions of the words that are left and of the end. -/
def places (c : Cursor) : List Pos := c.positions ++ [c.eof.pos]

theorem nodup_places (cs : List Char) : (ofText cs).places.Nodup :=
  (ofText_ordered cs).imp Pos.Before.ne

theorem column_places (cs : List Char) : ∀ p ∈ (ofText cs).places, 0 ≤ p.column := by
  intro p member
  rcases List.mem_append.mp member with word | last
  · obtain ⟨t, kept, rfl⟩ := List.mem_map.mp word
    rw [rest_ofText] at kept
    exact tokensFrom_column .start cs (Int.le_refl 0) t (List.mem_filter.mp kept).1
  · rw [List.mem_singleton.mp last, eof_ofText]
    exact Mark.column_advance (Int.le_refl 0) cs

/-- A cursor before numbered words. -/
def numbered (ls : List Lexeme) : Cursor :=
  look ⟨ls.mapIdx fun i l => ⟨l, ⟨0, ⟨i, 0⟩⟩⟩, .endOfFile ⟨0, ⟨ls.length, 0⟩⟩, []⟩

theorem ends_numbered (ls : List Lexeme) : (numbered ls).eof.kind = .endOfFile := by
  rw [numbered, eof_look]
  rfl

end Cursor

/-- The layout of a text. -/
def Layout.ofText (cs : List Char) : Layout :=
  .ofPositions (Cursor.nodup_places cs) (Cursor.column_places cs)

/-- Numbered words that stand where a text has them are the words of the text. -/
theorem Cursor.numbered_via (cs : List Char) :
    (numbered (ofText cs).lexemes).via (Layout.ofText cs).place
        (Token.mapPos (Layout.ofText cs).place) [] = (ofText cs).via id (Token.mapPos id) [] := by
  have word : ∀ (i : Nat) (t : Token), (ofText cs).rest[i]? = some t →
      (Layout.ofText cs).place ⟨i, 0⟩ = t.pos := by
    intro i t here
    refine Layout.placeAt_mk ?_
    have bound : i < (ofText cs).positions.length := by
      rw [positions, List.length_map]
      exact (List.getElem?_eq_some_iff.mp here).1
    rw [places, List.getElem?_append_left bound, positions, List.getElem?_map, here]
    rfl
  have last : (Layout.ofText cs).place ⟨(ofText cs).lexemes.length, 0⟩ = (ofText cs).eof.pos := by
    refine Layout.placeAt_mk ?_
    simp [places, positions, lexemes]
  have rest : ((ofText cs).lexemes.mapIdx fun i l => (⟨l, ⟨0, ⟨i, 0⟩⟩⟩ : Token)).map
      (Token.mapPos (Layout.ofText cs).place) = (ofText cs).rest.map (Token.mapPos id) := by
    refine List.ext_getElem? fun i => ?_
    rw [List.getElem?_map, List.getElem?_mapIdx, lexemes, List.getElem?_map, List.getElem?_map]
    cases here : (ofText cs).rest[i]? with
    | none => rfl
    | some t => exact congrArg (fun p => some (⟨t.toLexeme, ⟨0, p⟩⟩ : Token)) (word i t here)
  have eof : (Token.endOfFile ⟨0, ⟨(ofText cs).lexemes.length, 0⟩⟩).mapPos
      (Layout.ofText cs).place = (endToken cs).mapPos id := by
    rw [eof_ofText] at last
    exact congrArg (fun p => Token.endOfFile ⟨0, p⟩) last
  rw [rest_ofText] at rest
  rw [numbered, ← look_via [] _ (Token.mapPos_moved _), via, rest, eof]
  exact look_via [] ⟨(tokensFrom .start cs).filter (!·.kind.isHidden), endToken cs, []⟩
    (Token.mapPos_moved id)

/-- A text is the program of its numbered words, in the layout of the text. -/
theorem parse_eq_numbered {cs : List Char} {program : Program} {c : Cursor}
    (run : Parser.program (.numbered (Cursor.ofText cs).lexemes) = .ok program c) :
    (parse cs).1 = Stmt.mapPosAll (Layout.ofText cs).place program ∧
      (parse cs).2 = c.errors.map (SyntaxError.mapPos (Layout.ofText cs).place) := by
  obtain ⟨program', c', run'⟩ := Parser.program_total (.ofText cs)
  -- moved to the places of the text, or not moved at all, the tokens are the same
  have moved := Parser.Lockstep.program.via (Token.mapPos_moved (Layout.ofText cs).place) []
    (Cursor.ends_numbered (Cursor.ofText cs).lexemes) (Nat.le_refl _)
  have still := Parser.Lockstep.program.via (Token.mapPos_moved id) [] (Cursor.ends_ofText cs)
    (Nat.le_refl _)
  rw [run, Cursor.numbered_via, still, run'] at moved
  injection moved with programs cursors
  have errors := congrArg Cursor.errors cursors
  rw [parse, run']
  rw [List.map_id'' Stmt.mapPos_id] at programs
  refine ⟨programs.trans (Stmt.mapPosAll_eq_map ..).symm, ?_⟩
  exact (List.map_id c'.errors).symm.trans errors

end Samo
