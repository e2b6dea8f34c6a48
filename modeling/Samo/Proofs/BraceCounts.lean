import Samo.Proofs.LexingLines
import Samo.Proofs.Words
import Samo.Text.Braces

/-!
# Braces in bytes and in tokens

Whether an entry is finished is told from its bytes, and what it means from its tokens. The count of
the bytes knows four places, and what it sees of a character is its byte, if it has only one
(`Text.openBracesFrom_decode`). In a text without flaws each token starts and ends in code, so the
count goes from token to token (`openBracesIn_scan`), and braces in strings and comments are left
out by both.
-/

namespace Samo

namespace Text

/-! ## Signals -/

/-- What the count sees of a character: its byte, or a large one in place of several. -/
def outline (c : Char) : UInt8 := if c.toNat < 128 then c.toUInt8 else 0x80

theorem toNat_outline (c : Char) : (outline c).toNat = min c.toNat 128 := by
  unfold outline
  split
  · have byte : c.toUInt8.toNat = c.toNat % 256 := UInt32.toNat_toUInt8 c.val
    omega
  · have large : (0x80 : UInt8).toNat = 128 := rfl
    omega

/-- A small character is seen as it is. -/
theorem outline_eq_iff {c d : Char} (small : d.toNat < 128) : outline c = d.toUInt8 ↔ c = d := by
  have seen : d.toUInt8 = outline d := (if_pos small).symm
  rw [seen, ← UInt8.toNat_inj, toNat_outline, toNat_outline, ← Char.toNat_inj]
  omega

/-- The characters that move the count from one place to another, or change it. -/
def signs : List Char := ['"', '\\', '/', '\n', '\x7b', '\x7d']

/-- The bytes of these characters. -/
def signals : Bytes := signs.map Char.toUInt8

theorem forall_signs {P : Char → Prop} [DecidablePred P] (each : signs.all (P ·) = true) :
    ∀ c ∈ signs, P c :=
  fun c member => of_decide_eq_true (List.all_eq_true.mp each c member)

theorem outline_mem_signals_iff {c : Char} : outline c ∈ signals ↔ c ∈ signs := by
  have small : ∀ d ∈ signs, d.toNat < 128 := forall_signs (by decide)
  unfold signals
  rw [List.mem_map]
  constructor
  · rintro ⟨d, member, same⟩
    rwa [(outline_eq_iff (small d member)).mp same.symm]
  · intro member
    exact ⟨c, member, ((outline_eq_iff (small c member)).mpr rfl).symm⟩

/-- The place behind a byte that is no signal: it may have been escaped. -/
def Place.beyond (p : Place) : Place := if p = .escape then .string else p

namespace Place

theorem beyond_beyond (p : Place) : p.beyond.beyond = p.beyond := by
  cases p <;> rfl

theorem after_of_not_signal (p : Place) {b : UInt8} (quiet : b ∉ signals) (next : Option UInt8) :
    p.after b next = p.beyond := by
  simp only [signals, signs, List.map_cons, List.map_nil, List.mem_cons, List.not_mem_nil, or_false,
    not_or] at quiet
  obtain ⟨quote, backslash, slash, feed, -, -⟩ := quiet
  cases p with
  | code => simp [after, quote, slash, beyond]
  | string => simp [after, quote, backslash, beyond]
  | escape => rfl
  | comment => simp [after, feed, beyond]

theorem weight_of_not_signal (p : Place) {b : UInt8} (quiet : b ∉ signals) : p.weight b = 0 := by
  simp only [signals, signs, List.map_cons, List.map_nil, List.mem_cons, List.not_mem_nil, or_false,
    not_or] at quiet
  obtain ⟨-, -, -, -, left, right⟩ := quiet
  have left : b ≠ 0x7B := left
  have right : b ≠ 0x7D := right
  unfold weight
  rw [if_neg left, if_neg right, ite_self]

end Place

theorem openBracesFrom_cons (p : Place) (b : UInt8) (rest : Bytes) :
    openBracesFrom p (b :: rest) = p.weight b + openBracesFrom (p.after b rest.head?) rest := rfl

theorem openBracesFrom_of_not_signal (p : Place) {b : UInt8} (quiet : b ∉ signals) (rest : Bytes) :
    openBracesFrom p (b :: rest) = openBracesFrom p.beyond rest := by
  rw [openBracesFrom_cons, p.weight_of_not_signal quiet, p.after_of_not_signal quiet, Int.zero_add]

theorem not_signal_of_le {b : UInt8} (large : 0x80 ≤ b) : b ∉ signals := by
  have small : ∀ s ∈ signals, s < 0x80 := List.forall_mem_map.mpr (forall_signs (by decide))
  intro signal
  exact absurd (UInt8.lt_of_le_of_lt large (small b signal)) (UInt8.lt_irrefl _)

/-- Bytes that are no signals are passed over. -/
theorem openBracesFrom_append (p : Place) {bs : Bytes} (quiet : ∀ b ∈ bs, b ∉ signals)
    (rest : Bytes) : openBracesFrom p.beyond (bs ++ rest) = openBracesFrom p.beyond rest := by
  induction bs with
  | nil => rfl
  | cons b bs ih =>
      obtain ⟨first, others⟩ := List.forall_mem_cons.mp quiet
      rw [List.cons_append, openBracesFrom_of_not_signal _ first, p.beyond_beyond, ih others]

/-! ## Characters -/

theorem outline_replacement : outline replacement = 0x80 := by decide

theorem outline_ofNat_toNat {a : UInt8} (small : a < 0x80) : outline (Char.ofNat a.toNat) = a := by
  have small : a.toNat < 128 := UInt8.lt_iff_toNat_lt.mp small
  have valid : a.toNat.isValidChar := .inl (by omega)
  have same : (Char.ofNat a.toNat).toNat = a.toNat := by
    rw [Char.ofNat, dif_pos valid]
    rfl
  rw [← UInt8.toNat_inj, toNat_outline, same]
  omega

/-- A large number is no code of a signal, not even if it is no code at all. -/
theorem outline_ofNat_not_signal {code : Nat} (large : 128 ≤ code) :
    outline (Char.ofNat code) ∉ signals := by
  by_cases valid : code.isValidChar
  · have same : (Char.ofNat code).toNat = code := by
      rw [Char.ofNat, dif_pos valid]
      rfl
    rw [outline, if_neg (by omega)]
    decide
  · rw [Char.ofNat, dif_neg valid]
    decide

/-- A small byte is a group by itself. -/
theorem group?_of_lt {a : UInt8} (small : a < 0x80) (bs : Bytes) :
    group? a bs = some (Char.ofNat a.toNat, bs) := by
  unfold group? lead?
  rw [if_pos small]
  rfl

/-- Every byte of any other group is large, and no signal comes out of it. -/
theorem large_of_group? {a : UInt8} {c : Char} {bs rest : Bytes} (large : 0x80 ≤ a)
    (found : group? a bs = some (c, rest)) :
    outline c ∉ signals ∧ ∃ tail, bs = tail ++ rest ∧ ∀ b ∈ tail, b ∉ signals := by
  obtain ⟨code, tail, rfl, number, split, others⟩ := group?_cases found
  refine ⟨outline_ofNat_not_signal ?_, tail, split, fun b m => not_signal_of_le (others b m)⟩
  rcases number with rfl | above
  · exact UInt8.le_iff_toNat_le.mp large
  · exact above

/-- The character at the front shows the byte at the front, if it is a signal. -/
theorem head?_outline {s : UInt8} (signal : s ∈ signals) (bs : Bytes) :
    ((decode bs).map outline).head? = some s ↔ bs.head? = some s := by
  cases bs with
  | nil => rw [decode.eq_1, List.map_nil]
  | cons a bs =>
      rcases UInt8.lt_or_le a 0x80 with small | large
      · rw [decode_of_group? (group?_of_lt small bs), List.map_cons, List.head?_cons,
          List.head?_cons, outline_ofNat_toNat small]
      · have unlike : ∀ b : UInt8, b ∉ signals → b ≠ s := by
          rintro b quiet rfl
          exact quiet signal
        have other := unlike a (not_signal_of_le large)
        cases found : group? a bs with
        | none =>
            rw [decode_of_none found, List.map_cons, outline_replacement]
            simp [other, unlike 0x80 (by decide)]
        | some group =>
            have quiet := (large_of_group? large found).1
            rw [decode_of_group? found, List.map_cons]
            simp [other, unlike _ quiet]

theorem Place.after_congr (p : Place) (b : UInt8) {next next' : Option UInt8}
    (same : next = some '/'.toUInt8 ↔ next' = some '/'.toUInt8) :
    p.after b next = p.after b next' := by
  cases p <;> simp [after, same]

/-- The count of the bytes of a text is the count of its characters. -/
theorem openBracesFrom_decode (p : Place) (bs : Bytes) :
    openBracesFrom p ((decode bs).map outline) = openBracesFrom p bs := by
  fun_induction decode bs generalizing p with
  | case1 => rfl
  | case2 a bs c rest found ih =>
      rcases UInt8.lt_or_le a 0x80 with small | large
      · rw [group?_of_lt small] at found
        cases found
        rw [List.map_cons, outline_ofNat_toNat small, openBracesFrom_cons, openBracesFrom_cons, ih,
          p.after_congr a (head?_outline (by decide) bs)]
      · obtain ⟨quiet, tail, rfl, others⟩ := large_of_group? large found
        rw [List.map_cons, openBracesFrom_of_not_signal p quiet, ih,
          openBracesFrom_of_not_signal p (not_signal_of_le large), openBracesFrom_append p others]
  | case3 a bs found ih =>
      rcases UInt8.lt_or_le a 0x80 with small | large
      · rw [group?_of_lt small] at found
        cases found
      · rw [List.map_cons, openBracesFrom_of_not_signal p (not_signal_of_le large), ← ih,
          outline_replacement, openBracesFrom_of_not_signal p (by decide)]

/-! ## Places in a text -/

/-- The count of some characters, of which the first stands at the place. -/
def openBracesIn (p : Place) (cs : List Char) : Int := openBracesFrom p (cs.map outline)

theorem openBraces_eq (bs : Bytes) : openBraces bs = openBracesIn .code (decode bs) :=
  (openBracesFrom_decode .code bs).symm

theorem openBracesIn_cons (p : Place) (c : Char) (cs : List Char) :
    openBracesIn p (c :: cs) = p.weight (outline c) +
      openBracesIn (p.after (outline c) (cs.map outline).head?) cs := rfl

/-- In code other characters than the signs are passed over. -/
theorem openBracesIn_append {cs : List Char} (plain : ∀ c ∈ cs, c ∉ signs) (rest : List Char) :
    openBracesIn .code (cs ++ rest) = openBracesIn .code rest := by
  unfold openBracesIn
  rw [List.map_append]
  refine openBracesFrom_append .code (fun b member => ?_) _
  obtain ⟨c, inside, rfl⟩ := List.mem_map.mp member
  exact mt outline_mem_signals_iff.mp (plain c inside)

/-- In code a line feed means nothing. -/
theorem openBracesIn_code_newline (cs : List Char) :
    openBracesIn .code ('\n' :: cs) = openBracesIn .code cs := by
  rw [openBracesIn_cons]
  exact Int.zero_add _

theorem openBracesIn_dropWhile {p : Char → Bool} (plain : ∀ c ∈ signs, p c = false)
    (cs : List Char) : openBracesIn .code (cs.dropWhile p) = openBracesIn .code cs := by
  have taken : ∀ c ∈ cs.takeWhile p, c ∉ signs := by
    intro c member sign
    have holds := List.all_eq_true.mp List.all_takeWhile c member
    rw [plain c sign] at holds
    cases holds
  rw [← openBracesIn_append taken, List.takeWhile_append_dropWhile]

/-- A comment goes on to the end of the line, and the line feed is code again. -/
theorem openBracesIn_comment (cs : List Char) :
    openBracesIn .comment cs = openBracesIn .code (cs.dropWhile (· != '\n')) := by
  induction cs with
  | nil => rfl
  | cons c cs ih =>
      rw [openBracesIn_cons]
      by_cases feed : c = '\n'
      · subst feed
        rw [List.dropWhile_cons_of_neg (by decide), openBracesIn_code_newline]
        exact Int.zero_add _
      · have inside : ∀ next, Place.after .comment (outline c) next = .comment := by
          intro next
          exact if_neg (mt (outline_eq_iff (by decide)).mp feed)
        rw [List.dropWhile_cons_of_pos (by simpa using feed), inside, ih]
        exact Int.zero_add _

/-- A string literal goes on to its closing quote. -/
theorem openBracesIn_string {cs : List Char} (closed : (Scan.string cs).kind = .stringLiteral) :
    openBracesIn .string cs = openBracesIn .code (Scan.string cs).rest := by
  fun_induction Scan.string cs with
  | case1 => cases closed
  | case2 => rfl
  | case3 => cases closed
  | case4 => cases closed
  | case5 => cases closed
  | case6 d cs => exact Int.zero_add _
  | case7 d cs escaped quote ih =>
      -- whatever is escaped is passed over
      have one : openBracesIn .string ('\\' :: d :: cs) = openBracesIn .escape (d :: cs) :=
        Int.zero_add _
      have two : openBracesIn .escape (d :: cs) = openBracesIn .string cs := Int.zero_add _
      rw [one, two]
      exact ih closed
  | case8 => cases closed
  | case9 => cases closed
  | case10 c d cs quote slash feed ih =>
      have inside : ∀ next, Place.after .string (outline c) next = .string := by
        intro next
        have quote := mt (outline_eq_iff (by decide)).mp quote
        have slash := mt (outline_eq_iff (by decide)).mp slash
        exact (if_neg slash).trans (if_neg quote)
      rw [openBracesIn_cons, inside]
      exact (Int.zero_add _).trans (ih closed)

end Text

/-! ## Tokens -/

open Text

/-- What a token of this kind adds to the number of open braces. -/
def Kind.opens (k : Kind) : Int :=
  if k = .punct .leftBrace then 1 else if k = .punct .rightBrace then -1 else 0

/-- How many more braces some tokens open than they close. -/
def openedBy (ts : List Token) : Int :=
  (ts.countP (·.kind = .punct .leftBrace) : Int) - ts.countP (·.kind = .punct .rightBrace)

theorem openedBy_cons (t : Token) (ts : List Token) :
    openedBy (t :: ts) = t.kind.opens + openedBy ts := by
  unfold openedBy Kind.opens
  rw [List.countP_cons, List.countP_cons]
  by_cases left : t.kind = .punct .leftBrace
  · simp [left]
    omega
  by_cases right : t.kind = .punct .rightBrace
  · simp [right]
    omega
  · simp [left, right]

theorem Text.Place.after_slash {next : Option UInt8} (apart : next ≠ some '/'.toUInt8) :
    Place.after .code '/'.toUInt8 next = .code := by
  unfold Place.after
  rw [if_neg (by decide), if_neg (by simpa using apart)]

/-- In code a slash means nothing, unless another one follows. -/
theorem openBracesIn_slash {cs : List Char} (apart : cs.head? ≠ some '/') :
    openBracesIn .code ('/' :: cs) = openBracesIn .code cs := by
  have next : (cs.map outline).head? ≠ some '/'.toUInt8 := by
    rw [List.head?_map, Ne, Option.map_eq_some_iff]
    rintro ⟨d, first, same⟩
    rw [(outline_eq_iff (by decide)).mp same] at first
    exact apart first
  rw [openBracesIn_cons]
  exact (Int.zero_add _).trans (congrArg (openBracesIn · cs) (Place.after_slash next))

/-- A sign of the language is a brace or means nothing in code. -/
theorem openBracesIn_punct (p : Punct) {cs : List Char}
    (apart : p = .slash → cs.head? ≠ some '/') :
    openBracesIn .code (p.text.toList ++ cs) =
      (Kind.punct p).opens + openBracesIn .code cs := by
  by_cases left : p = .leftBrace
  · subst left
    exact openBracesIn_cons ..
  by_cases right : p = .rightBrace
  · subst right
    exact openBracesIn_cons ..
  have none : (Kind.punct p).opens = 0 := by simp [Kind.opens, left, right]
  rw [none, Int.zero_add]
  by_cases slash : p = .slash
  · subst slash
    exact openBracesIn_slash (apart rfl)
  · have plain : (p.text.toList.all fun d => d ∉ signs) = true := by
      revert left right slash
      cases p <;> decide
    exact openBracesIn_append (fun d member =>
      of_decide_eq_true (List.all_eq_true.mp plain d member)) cs

theorem openBracesIn_sign {c : Char} {cs : List Char}
    (flawless : ∀ flaw, (Scan.sign c cs).kind ≠ .invalid flaw)
    (apart : ¬ (c == '/' && cs.head? == some '/') = true) :
    openBracesIn .code (c :: cs) =
      (Scan.sign c cs).kind.opens + openBracesIn .code (Scan.sign c cs).rest := by
  rcases Scan.sign_cases c cs with ⟨p, kind, text⟩ | ⟨flaw, invalid⟩
  · have whole := Scan.sign_append c cs
    have same : c :: cs = p.text.toList ++ (Scan.sign c cs).rest := by
      rw [← text, List.cons_append, whole]
    rw [kind, same]
    refine openBracesIn_punct p ?_
    rintro rfl
    obtain ⟨rfl, alone⟩ : c = '/' ∧ (Scan.sign c cs).tail = [] := List.cons_eq_cons.mp text
    rw [alone, List.nil_append] at whole
    rw [whole]
    simpa using apart
  · exact absurd invalid (flawless flaw)

/-- From a token without a flaw the count goes on behind it, in code. -/
theorem openBracesIn_scan {c : Char} {cs : List Char}
    (flawless : ∀ flaw, (scan c cs).kind ≠ .invalid flaw) :
    openBracesIn .code (c :: cs) =
      (scan c cs).kind.opens + openBracesIn .code (scan c cs).rest := by
  -- words and numbers go on as long as their characters do
  have spans : ∀ (p : Char → Bool), (∀ d ∈ signs, p d = false) → p c = true →
      openBracesIn .code (c :: cs) = openBracesIn .code (cs.dropWhile p) := by
    intro p plain holds
    rw [← openBracesIn_dropWhile plain (c :: cs), List.dropWhile_cons_of_pos holds]
  unfold scan at flawless ⊢
  by_cases letter : isLetter c = true
  · have none : (Scan.word c cs).kind.opens = 0 := by
      unfold Scan.word
      dsimp only
      cases Keyword.ofText? (String.ofList (c :: cs.takeWhile isWordChar)) with
      | none => rfl
      | some w => rfl
    rw [if_pos letter, none, Int.zero_add]
    exact spans isWordChar (forall_signs (by decide)) (by simp [isWordChar, letter])
  by_cases digit : isDigit c = true
  · rw [if_neg letter, if_pos digit]
    exact (spans isDigit (forall_signs (by decide)) digit).trans (Int.zero_add _).symm
  by_cases quote : (c == '"') = true
  · rw [if_neg letter, if_neg digit, if_pos quote] at flawless ⊢
    obtain rfl : c = '"' := eq_of_beq quote
    rcases Scan.string_cases cs with ⟨kind, -⟩ | ⟨flaw, invalid⟩
    · rw [kind, ← openBracesIn_string kind]
      exact openBracesIn_cons ..
    · exact absurd invalid (flawless flaw)
  by_cases comment : (c == '/' && cs.head? == some '/') = true
  · rw [if_neg letter, if_neg digit, if_neg quote, if_pos comment]
    rw [Bool.and_eq_true] at comment
    obtain rfl : c = '/' := eq_of_beq comment.1
    obtain ⟨ds, rfl⟩ := List.head?_eq_some_iff.mp (eq_of_beq comment.2)
    exact congrArg (0 + ·) (openBracesIn_comment ('/' :: ds))
  · rw [if_neg letter, if_neg digit, if_neg quote, if_neg comment] at flawless ⊢
    exact openBracesIn_sign flawless comment

theorem openBracesIn_space {c : Char} (space : isSpace c = true) (cs : List Char) :
    openBracesIn .code (c :: cs) = openBracesIn .code cs := by
  by_cases feed : c = '\n'
  · rw [feed, openBracesIn_code_newline]
  · have plain : ∀ d ∈ [c], d ∉ signs := by
      refine List.forall_mem_singleton.mpr fun sign => ?_
      have others : ∀ d ∈ signs, d ≠ '\n' → isSpace d = false := forall_signs (by decide)
      rw [others c sign feed] at space
      cases space
    exact openBracesIn_append plain cs

/-- The tokens of a text are counted one after the other. -/
theorem openBracesIn_eq_openedBy {m : Mark} {cs : List Char}
    (flawless : ∀ t ∈ tokensFrom m cs, t.flaw? = none) :
    openBracesIn .code cs = openedBy (tokensFrom m cs) := by
  fun_induction tokensFrom m cs with
  | case1 m => rfl
  | case2 m c cs space ih => rw [openBracesIn_space space, ih flawless]
  | case3 m c cs space s ih =>
      obtain ⟨first, others⟩ := List.forall_mem_cons.mp flawless
      have valid : ∀ flaw, s.kind ≠ .invalid flaw := by
        intro flaw invalid
        rw [Token.flaw?, invalid] at first
        cases first
      rw [openedBy_cons, ← ih others]
      exact openBracesIn_scan valid

theorem flaw?_eq_none_of_lexErrors {cs : List Char} (clean : lexErrors cs = []) :
    ∀ t ∈ tokensFrom .start cs, t.flaw? = none := by
  rw [lexErrors_eq, dropLast_lex, List.filterMap_eq_nil_iff] at clean
  intro t member
  exact Option.map_eq_none_iff.mp (clean t member)

/--
The count of open braces agrees with the lexer. For every text that is lexed without errors,
whatever bytes it is made of, the number of open braces that is counted from its bytes is the number
of left braces less the number of right braces among its tokens.
-/
theorem brace_counts_agree {source : Bytes} (clean : lexErrors (Text.decode source) = []) :
    Text.openBraces source =
      ((lex (Text.decode source)).countP (·.kind = .punct .leftBrace) : Int) -
        (lex (Text.decode source)).countP (·.kind = .punct .rightBrace) := by
  have counted := openBracesIn_eq_openedBy (flaw?_eq_none_of_lexErrors clean)
  rw [openBraces_eq, counted, openedBy, lex, List.countP_append, List.countP_append]
  rfl

/-- A quote in a comment, and a string with escapes, slashes and bytes that are no text. -/
def hiddenBraces : Bytes :=
  "\x7b // \"\x7d\nsay(\"\x7d\\\\ \\\" ".toUTF8.toList ++ [0xC3, 0xA9, 0xFF, 0xE2, 0x82] ++
    " // \x7b\"); \x7b".toUTF8.toList

/-- Two of the five braces are code. -/
theorem hiddenBraces_counted :
    lexErrors (Text.decode hiddenBraces) = [] ∧ Text.openBraces hiddenBraces = 2 ∧
      ((lex (Text.decode hiddenBraces)).countP (·.kind = .punct .leftBrace) : Int) -
        (lex (Text.decode hiddenBraces)).countP (·.kind = .punct .rightBrace) = 2 := by
  have clean : lexErrors (Text.decode hiddenBraces) = [] := by decide +kernel
  have counted : Text.openBraces hiddenBraces = 2 := by decide +kernel
  exact ⟨clean, counted, (brace_counts_agree clean).symm.trans counted⟩

end Samo
