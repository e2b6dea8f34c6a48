import Samo.Proofs.LexingLines
import Samo.Proofs.Reading
import Samo.Proofs.Spellings
import Samo.Proofs.Words

/-!
# String literals and quoted text

There are three ways to read what stands between quotes. The lexer looks for the closing quote, a
literal is read with its four escapes, and text that was quoted for a report is read with many more:
letters for control characters, and numbers for bytes and characters (`Text.unquote?`). All three
agree on every token that is a string literal (`literals_round_trip`): what the lexer takes for one
spells some characters (`Literal.Spells`), and no other escape gets through.
-/

namespace Samo

namespace Text

/-! ## Reading quoted text -/

/-- The value of a digit; a character that is none has a value that no base allows. -/
def digitValue (c : Char) : Nat :=
  if '0' ≤ c ∧ c ≤ '9' then c.toNat - '0'.toNat
  else if 'a' ≤ c ∧ c ≤ 'f' then c.toNat - 'a'.toNat + 10
  else if 'A' ≤ c ∧ c ≤ 'F' then c.toNat - 'A'.toNat + 10
  else 16

/-- The number that the first `n` characters are in a base. -/
def number? (base n : Nat) (cs : List Char) : Option Nat :=
  let digits := (cs.take n).map digitValue
  if digits.length = n ∧ digits.all (· < base) then some (digits.foldl (· * base + ·) 0) else none

/-- A number that is a byte. -/
def byte? (n : Nat) : Option Bytes := if n < 256 then some [UInt8.ofNat n] else none

/-- A number that is a character, as bytes. -/
def point? (n : Nat) : Option Bytes :=
  if n.isValidChar then some (String.utf8EncodeChar (Char.ofNat n)) else none

/-- The byte that a letter or a sign behind a backslash stands for. -/
def letter? : Char → Option UInt8
  | 'a' => some 0x07
  | 'b' => some 0x08
  | 't' => some 0x09
  | 'n' => some 0x0A
  | 'v' => some 0x0B
  | 'f' => some 0x0C
  | 'r' => some 0x0D
  | '"' => some 0x22
  | '\\' => some 0x5C
  | _ => none

/-- What characters behind a backslash stand for, and how many of them do. -/
def escape? : List Char → Option (Bytes × Nat)
  | [] => none
  | c :: cs =>
    match letter? c with
    | some b => some ([b], 1)
    | none =>
      if c = 'x' then ((number? 16 2 cs).bind byte?).map (·, 3)
      else if c = 'u' then ((number? 16 4 cs).bind point?).map (·, 5)
      else if c = 'U' then ((number? 16 8 cs).bind point?).map (·, 9)
      else ((number? 8 3 (c :: cs)).bind byte?).map (·, 3)

/-- The bytes of quoted text up to the closing quote, which must be the last character. -/
def unquoteBody? : List Char → Option Bytes
  | [] => none
  | c :: cs =>
    if c = '"' then if cs.isEmpty then some [] else none
    else if c = '\n' then none
    else if c = '\\' then do
      let (bytes, n) ← escape? cs
      return bytes ++ (← unquoteBody? (cs.drop n))
    else return String.utf8EncodeChar c ++ (← unquoteBody? cs)
termination_by cs => cs.length
decreasing_by
  · rw [List.length_drop, List.length_cons]
    omega
  · exact Nat.lt_succ_self _

/-- The bytes of quoted text. -/
def unquote? : List Char → Option Bytes
  | '"' :: cs => unquoteBody? cs
  | _ => none

end Text

namespace Literal

/-! ## Spelling -/

/-- The characters that may follow a backslash, each with the one that it stands for. -/
def escapes : List (Char × Char) := [('\\', '\\'), ('"', '"'), ('n', '\n'), ('t', '\t')]

/-- What stands between quotes for some characters. -/
inductive Spells : List Char → List Char → Prop
  | nil : Spells [] []
  | plain {c : Char} {w v : List Char} (quote : c ≠ '"') (backslash : c ≠ '\\') (feed : c ≠ '\n')
      (others : Spells w v) : Spells (c :: w) (c :: v)
  | escaped {d e : Char} {w v : List Char} (known : (d, e) ∈ escapes) (others : Spells w v) :
      Spells ('\\' :: d :: w) (e :: v)

theorem mem_escapes_of_unescape? {d e : Char} (found : unescape? d = some e) :
    (d, e) ∈ escapes := by
  unfold unescape? at found
  split at found <;> cases found <;> decide

/-- What is read from a literal is what is spelled before its closing quote. -/
theorem spells_of_readBody? {cs v : List Char} (read : readBody? cs = some v) :
    ∃ w, cs = w ++ ['"'] ∧ Spells w v := by
  fun_induction readBody? cs generalizing v with
  | case1 => cases read
  | case2 =>
      cases read
      exact ⟨[], rfl, .nil⟩
  | case3 => cases read
  | case4 d cs ih =>
      obtain ⟨e, known, read⟩ := Option.bind_eq_some_iff.mp read
      obtain ⟨body, inner, read⟩ := Option.bind_eq_some_iff.mp read
      cases read
      obtain ⟨w, rfl, spells⟩ := ih inner
      exact ⟨'\\' :: d :: w, rfl, .escaped (mem_escapes_of_unescape? known) spells⟩
  | case5 => cases read
  | case6 c d cs backslash other ih =>
      obtain ⟨body, inner, rfl⟩ := Option.map_eq_some_iff.mp read
      obtain ⟨w, split, spells⟩ := ih inner
      simp only [Bool.or_eq_true, decide_eq_true_eq, not_or] at other
      exact ⟨c :: w, by rw [split]; rfl, .plain other.1 backslash other.2 spells⟩

/-- What is spelled is what quoted text is read as. -/
theorem Spells.unquoteBody? {w v : List Char} (spells : Spells w v) :
    Text.unquoteBody? (w ++ ['"']) = some (v.flatMap String.utf8EncodeChar) := by
  induction spells with
  | nil => decide +kernel
  | plain quote backslash feed others ih =>
      rw [List.cons_append, Text.unquoteBody?, if_neg quote, if_neg feed, if_neg backslash, ih]
      rfl
  | @escaped d e w v known others ih =>
      -- the byte behind the backslash is the one character it stands for
      have letter : Text.escape? (d :: (w ++ ['"'])) = some (String.utf8EncodeChar e, 1) := by
        simp only [escapes, List.mem_cons, List.not_mem_nil, or_false, Prod.mk.injEq] at known
        rcases known with ⟨rfl, rfl⟩ | ⟨rfl, rfl⟩ | ⟨rfl, rfl⟩ | ⟨rfl, rfl⟩ <;> rfl
      rw [List.cons_append, List.cons_append, Text.unquoteBody?, if_neg (by decide),
        if_neg (by decide), if_pos rfl, letter]
      show (Text.unquoteBody? (w ++ ['"'])).bind _ = _
      rw [ih]
      rfl

/-- A literal that is read is a spelling between quotes, and quoted text. -/
theorem spells_of_read? {text v : List Char} (read : read? text = some v) :
    ∃ w, text = '"' :: (w ++ ['"']) ∧ Spells w v ∧
      Text.unquote? text = some (v.flatMap String.utf8EncodeChar) := by
  unfold read? at read
  split at read
  · obtain ⟨w, rfl, spells⟩ := spells_of_readBody? read
    exact ⟨w, rfl, spells, spells.unquoteBody?⟩
  · cases read

theorem read?_write (v : List Char) : read? (write v) = some v := readBody?_writeBody v

theorem value_of_read? {text : String} {v : List Char} (read : read? text.toList = some v) :
    value text = String.ofList v := by
  rw [value, read]

end Literal

/-- A written literal is one token, wherever it stands. -/
theorem tokensFrom_write (m : Mark) (v rest : List Char) :
    tokensFrom m (Literal.write v ++ rest) =
      ⟨⟨.stringLiteral, String.ofList (Literal.write v)⟩, m⟩ ::
        tokensFrom (m.advance (Literal.write v)) rest := by
  have closed : Scan.string (Literal.writeBody v ++ rest) =
      ⟨.stringLiteral, Literal.writeBody v, rest⟩ :=
    Scan.string_of_read (by rw [Literal.readBody?_writeBody]; rfl) rest
  have found : scan '"' (Literal.writeBody v ++ rest) =
      ⟨.stringLiteral, Literal.writeBody v, rest⟩ := closed
  rw [Literal.write, List.cons_append, tokensFrom, if_neg (by decide)]
  dsimp only
  rw [found]

/--
String literals round-trip. The literal that is written for some characters is one token, there is
no error, and its value is those characters. And every token that is a string literal has a value of
its own and not its text: what is spelled between its quotes, with the four escapes resolved and
everything else as it stands, which is also what it is as quoted text.
-/
theorem literals_round_trip :
    (∀ v, lex (Literal.write v) =
          [⟨⟨.stringLiteral, String.ofList (Literal.write v)⟩, .start⟩,
            endToken (Literal.write v)] ∧
        lexErrors (Literal.write v) = [] ∧
        Literal.value (String.ofList (Literal.write v)) = String.ofList v) ∧
    ∀ text, ∀ t ∈ lex text, t.kind = .stringLiteral →
      ∃ body v, t.text.toList = '"' :: (body ++ ['"']) ∧ Literal.Spells body v ∧
        Literal.read? t.text.toList = some v ∧ Literal.value t.text = String.ofList v ∧
        Text.unquote? t.text.toList = some (v.flatMap String.utf8EncodeChar) := by
  refine ⟨fun v => ?_, fun text t member kind => ?_⟩
  · have one : lex (Literal.write v) =
        [⟨⟨.stringLiteral, String.ofList (Literal.write v)⟩, .start⟩,
          endToken (Literal.write v)] := by
      have tokens := tokensFrom_write .start v []
      rw [List.append_nil, tokensFrom] at tokens
      rw [lex, tokens]
      rfl
    refine ⟨one, by rw [lexErrors, one]; rfl, Literal.value_of_read? ?_⟩
    rw [String.toList_ofList]
    exact Literal.read?_write v
  · have word : t.toLexeme.IsWord := by
      rcases List.mem_append.mp member with inside | last
      · rcases tokensFrom_isWord _ _ t inside with word | comment | ⟨flaw, invalid⟩
        · exact word
        · cases kind.symm.trans comment
        · cases kind.symm.trans invalid
      · rw [List.mem_singleton.mp last] at kind
        cases kind
    have read := (Lexeme.IsWord.literal word kind).2
    obtain ⟨body, split, spells, unquoted⟩ := Literal.spells_of_read? read
    exact ⟨body, _, split, spells, read, by rw [String.ofList_toList], unquoted⟩

end Samo
