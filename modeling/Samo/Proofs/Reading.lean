import Samo.Proofs.Grammar
import Samo.Proofs.Stepwise

/-!
# What an expression was read from

As long as nothing was reported, an expression that is read takes exactly its own words from the
tokens, and it keeps to the levels of its operators (`Parser.Spells.expr`). A token with a flaw cannot
be taken on the way, since no form of expression asks for one.
-/

namespace Samo

/-! ## Taking words -/

/-- Whether a token of the kind takes part in the grammar. -/
def Kind.isWord : Kind → Bool
  | endOfFile | comment | invalid _ => false
  | intLiteral | stringLiteral | identifier | keyword _ | punct _ => true

/-- Whether all words of the kind have one text. -/
def Kind.isFixed : Kind → Bool
  | keyword _ | punct _ => true
  | _ => false

namespace Lexeme

@[simp] theorem IsWord.ofKeyword (w : Keyword) : (word w).IsWord := rfl

@[simp] theorem IsWord.ofSign (p : Punct) : (sign p).IsWord := rfl

/-- A reserved word or a sign is known by its kind. -/
theorem IsWord.eq_of_kind {l k : Lexeme} (left : l.IsWord) (right : k.IsWord)
    (same : l.kind = k.kind) (fixed : k.kind.isFixed = true) : l = k := by
  obtain ⟨kind, text⟩ := l
  obtain ⟨kind', text'⟩ := k
  obtain rfl : kind = kind' := same
  cases kind with
  | keyword w =>
      obtain rfl : text = w.text := left
      obtain rfl : text' = w.text := right
      rfl
  | punct p =>
      obtain rfl : text = p.text := left
      obtain rfl : text' = p.text := right
      rfl
  | endOfFile | invalid | intLiteral | stringLiteral | identifier | comment => cases fixed

theorem IsWord.name {l : Lexeme} (own : l.IsWord) (kind : l.kind = .identifier) :
    l = .name l.text ∧ isName l.text = true := by
  obtain ⟨kind', text⟩ := l
  obtain rfl : kind' = .identifier := kind
  exact ⟨rfl, own⟩

theorem IsWord.numeral {l : Lexeme} (own : l.IsWord) (kind : l.kind = .intLiteral) :
    l = ⟨.intLiteral, l.text⟩ ∧ isNumeral l.text = true := by
  obtain ⟨kind', text⟩ := l
  obtain rfl : kind' = .intLiteral := kind
  exact ⟨rfl, own⟩

/-- The value of a string literal is what is read from it. -/
theorem IsWord.literal {l : Lexeme} (own : l.IsWord) (kind : l.kind = .stringLiteral) :
    l = ⟨.stringLiteral, l.text⟩ ∧
      Literal.read? l.text.toList = some (Literal.value l.text).toList := by
  obtain ⟨kind', text⟩ := l
  obtain rfl : kind' = .stringLiteral := kind
  obtain ⟨cs, read⟩ := Option.isSome_iff_exists.mp own
  refine ⟨rfl, ?_⟩
  rw [Literal.value, read, String.toList_ofList]

end Lexeme

theorem BinaryOp.isWord_lexeme (op : BinaryOp) : op.lexeme.IsWord := by cases op <;> rfl

theorem BinaryOp.isFixed_lexeme (op : BinaryOp) : op.lexeme.kind.isFixed = true := by
  cases op <;> rfl

theorem UnaryOp.isWord_lexeme (op : UnaryOp) : op.lexeme.IsWord := by cases op <;> rfl

theorem UnaryOp.isFixed_lexeme (op : UnaryOp) : op.lexeme.kind.isFixed = true := by
  cases op <;> rfl

theorem Kind.isWord_of_isFixed {kind : Kind} (fixed : kind.isFixed = true) :
    kind.isWord = true := by
  cases kind with
  | keyword | punct => rfl
  | endOfFile | invalid | intLiteral | stringLiteral | identifier | comment => cases fixed

namespace Cursor

/-- The words that are left. -/
def lexemes (c : Cursor) : List Lexeme := c.rest.map Token.toLexeme

/-- Nothing was reported so far but for the flaw of the token in front. -/
structure Clean (c : Cursor) : Prop where
  eof : c.eof.kind = .endOfFile
  words : ∀ t ∈ c.rest, t.toLexeme.IsWord ∨ ∃ flaw, t.kind = .invalid flaw
  errors : c.errors = c.pending

/-- A cursor moves over some words, and nothing is reported. -/
structure Takes (c c' : Cursor) (ls : List Lexeme) : Prop where
  clean : c'.Clean
  split : c.lexemes = ls ++ c'.lexemes

namespace Takes

theorem refl {c : Cursor} (clean : c.Clean) : c.Takes c [] := ⟨clean, rfl⟩

theorem trans {c₁ c₂ c₃ : Cursor} {ls ks : List Lexeme} (first : c₁.Takes c₂ ls)
    (second : c₂.Takes c₃ ks) : c₁.Takes c₃ (ls ++ ks) :=
  ⟨second.clean, by rw [first.split, second.split, List.append_assoc]⟩

theorem length {c c' : Cursor} {ls : List Lexeme} (takes : c.Takes c' ls) :
    c.rest.length = ls.length + c'.rest.length := by
  have length := congrArg List.length takes.split
  simpa [lexemes] using length

end Takes

namespace Clean

variable {c : Cursor}

theorem looked (clean : c.Clean) : c.Looked :=
  Nat.le_of_eq (congrArg List.length clean.errors.symm)

/-- A word in front can be taken. -/
theorem next (clean : c.Clean) (word : c.front.kind.isWord = true) :
    c.Takes c.next [c.front.toLexeme] ∧ c.front.toLexeme.IsWord := by
  have plain : c.pending = [] := by
    unfold pending Token.flaw?
    cases kind : c.front.kind with
    | invalid flaw =>
        rw [kind] at word
        cases word
    | _ => rfl
  obtain ⟨rest, eof, errors⟩ := c
  cases rest with
  | nil =>
      have ends : eof.kind.isWord = true := word
      rw [clean.eof] at ends
      cases ends
  | cons t rest =>
      refine ⟨⟨⟨?_, ?_, ?_⟩, ?_⟩, ?_⟩
      · rw [eof_next]
        exact clean.eof
      · rw [rest_next]
        exact fun u member => clean.words u (List.mem_cons_of_mem t member)
      · have none : errors = [] := clean.errors.trans plain
        show (look ⟨rest, eof, errors⟩).errors = (look ⟨rest, eof, errors⟩).pending
        rw [errors_look, pending_look, none, List.nil_append]
      · rw [lexemes, lexemes, rest_next]
        rfl
      · rcases clean.words t List.mem_cons_self with own | ⟨flaw, kind⟩
        · exact own
        · rw [show Cursor.front ⟨t :: rest, eof, errors⟩ = t from rfl, kind] at word
          cases word

/-- A reserved word or a sign in front is taken. -/
theorem nextFixed {l : Lexeme} (clean : c.Clean) (own : l.IsWord)
    (front : c.front.kind = l.kind) (fixed : l.kind.isFixed = true) : c.Takes c.next [l] := by
  obtain ⟨takes, found⟩ := clean.next (front ▸ Kind.isWord_of_isFixed fixed)
  exact found.eq_of_kind own front fixed ▸ takes

/-- Nothing is left when the end is in front. -/
theorem rest_eq_nil (clean : c.Clean) (ends : c.front.kind = .endOfFile) : c.rest = [] := by
  cases left : c.rest with
  | nil => rfl
  | cons t rest =>
      rw [front, left, List.headD_cons] at ends
      rcases clean.words t (left ▸ List.mem_cons_self) with word | ⟨flaw, kind⟩
      · unfold Lexeme.IsWord at word
        rw [ends] at word
        cases word
      · rw [kind] at ends
        cases ends

theorem errors_eq_nil (clean : c.Clean) (ends : c.front.kind = .endOfFile) : c.errors = [] := by
  rw [clean.errors]
  unfold pending Token.flaw?
  rw [ends]

end Clean

end Cursor

namespace Parser

variable {α β : Type} {c c' : Cursor}

/-! ## Single tokens -/

/-- A token that is accepted is taken; otherwise nothing happens. -/
theorem accept_ok {kind : Kind} {found : Option Token} (clean : c.Clean) (word : kind.isWord = true)
    (run : accept kind c = .ok found c') :
    (found = none ∧ c' = c ∧ c.front.kind ≠ kind) ∨
      found = some c.front ∧ c.front.kind = kind ∧ c.Takes c' [c.front.toLexeme] ∧
        c.front.toLexeme.IsWord := by
  unfold accept at run
  rw [bind_ok (peekKind_run c)] at run
  by_cases front : c.front.kind = kind
  · rw [if_pos front, bind_ok (advance_run c)] at run
    obtain ⟨rfl, rfl⟩ := pure_eq_ok_iff.mp run
    obtain ⟨takes, own⟩ := clean.next (front ▸ word)
    exact .inr ⟨rfl, front, takes, own⟩
  · rw [if_neg front] at run
    obtain ⟨rfl, rfl⟩ := pure_eq_ok_iff.mp run
    exact .inl ⟨rfl, rfl, front⟩

theorem expect_ok {kind : Kind} {t : Token} (clean : c.Clean) (word : kind.isWord = true)
    (run : expect kind c = .ok t c') :
    t.kind = kind ∧ c.Takes c' [t.toLexeme] ∧ t.toLexeme.IsWord := by
  unfold expect at run
  rw [bind_ok (peek_run c)] at run
  by_cases front : c.front.kind = kind
  · rw [if_pos front] at run
    cases run
    exact ⟨front, clean.next (front ▸ word)⟩
  · rw [if_neg front] at run
    exact absurd run fail_ne_ok

theorem expect_name_ok {t : Token} (clean : c.Clean) (run : expect .identifier c = .ok t c') :
    c.Takes c' [.name t.text] ∧ isName t.text = true := by
  obtain ⟨kind, takes, word⟩ := expect_ok clean rfl run
  obtain ⟨same, named⟩ := word.name kind
  exact ⟨same ▸ takes, named⟩

theorem sign_ok {p : Punct} {t : Token} (clean : c.Clean) (run : sign p c = .ok t c') :
    c.Takes c' [.sign p] := by
  obtain ⟨kind, takes, word⟩ := expect_ok clean rfl run
  exact word.eq_of_kind (.ofSign p) kind rfl ▸ takes

/-! ## Operators -/

/-- The operators that a level of the grammar looks for. -/
def OperatorsAt (op? : Kind → Option BinaryOp) (level : Nat) : Prop :=
  ∀ kind op, op? kind = some op ↔ kind = op.lexeme.kind ∧ op.level = level

theorem eitherOp?_operatorsAt : OperatorsAt eitherOp? 0 := by
  intro kind op
  constructor
  · intro found
    unfold eitherOp? at found
    split at found <;> cases found <;> exact ⟨rfl, rfl⟩
  · rintro ⟨rfl, level⟩
    cases op <;> first | rfl | cases level

theorem andOp?_operatorsAt : OperatorsAt andOp? 1 := by
  intro kind op
  constructor
  · intro found
    unfold andOp? at found
    split at found <;> cases found
    exact ⟨rfl, rfl⟩
  · rintro ⟨rfl, level⟩
    cases op <;> first | rfl | cases level

theorem comparisonOp?_operatorsAt : OperatorsAt comparisonOp? 3 := by
  intro kind op
  constructor
  · intro found
    unfold comparisonOp? at found
    split at found <;> cases found <;> exact ⟨rfl, rfl⟩
  · rintro ⟨rfl, level⟩
    cases op <;> first | rfl | cases level

theorem sumOp?_operatorsAt : OperatorsAt sumOp? 4 := by
  intro kind op
  constructor
  · intro found
    unfold sumOp? at found
    split at found <;> cases found <;> exact ⟨rfl, rfl⟩
  · rintro ⟨rfl, level⟩
    cases op <;> first | rfl | cases level

theorem productOp?_operatorsAt : OperatorsAt productOp? 5 := by
  intro kind op
  constructor
  · intro found
    unfold productOp? at found
    split at found <;> cases found <;> exact ⟨rfl, rfl⟩
  · rintro ⟨rfl, level⟩
    cases op <;> first | rfl | cases level

/-! ## Expressions -/

/-- A parser takes the words of its result, and the result is good. -/
def Spells (p : Parser α) (lexemes : α → List Lexeme) (good : α → Prop) : Prop :=
  ∀ c a c', c.Clean → p c = .ok a c' → c.Takes c' (lexemes a) ∧ good a

/-- A parser takes the words of an expression that binds at least so tight. -/
def SpellsAt (level : Nat) (p : Parser Expr) : Prop :=
  Spells p Expr.lexemes fun e => e.Grammatical ∧ level ≤ e.level

namespace Spells

variable {item : Parser α} {lexemes : α → List Lexeme} {good : α → Prop}

theorem moreItems (spells : Spells item lexemes good) (n : Nat) :
    Spells (moreItems item n) (·.flatMap (.sign .comma :: lexemes ·)) (∀ a ∈ ·, good a) := by
  induction n with
  | zero =>
      intro c as c' clean run
      obtain ⟨rfl, rfl⟩ := pure_eq_ok_iff.mp run
      exact ⟨.refl clean, fun a member => nomatch member⟩
  | succ n ih =>
      intro c as c' clean run
      obtain ⟨found, c₁, accepted, rest⟩ := bind_eq_ok_iff.mp run
      rcases accept_ok clean rfl accepted with ⟨rfl, rfl, -⟩ | ⟨rfl, kind, comma, word⟩
      · obtain ⟨rfl, rfl⟩ := pure_eq_ok_iff.mp rest
        exact ⟨.refl clean, fun a member => nomatch member⟩
      · obtain ⟨a, c₂, first, rest⟩ := bind_eq_ok_iff.mp rest
        obtain ⟨as', c₃, others, rest⟩ := bind_eq_ok_iff.mp rest
        obtain ⟨rfl, rfl⟩ := pure_eq_ok_iff.mp rest
        obtain ⟨takes, right⟩ := spells c₁ a c₂ comma.clean first
        obtain ⟨takes', right'⟩ := ih c₂ as' c₃ takes.clean others
        have same := word.eq_of_kind (.ofSign .comma) kind rfl
        rw [same] at comma
        refine ⟨?_, List.forall_mem_cons.mpr ⟨right, right'⟩⟩
        simpa using comma.trans (takes.trans takes')

theorem itemList (spells : Spells item lexemes good) :
    Spells (itemList item) (fun as => Lexeme.inParens (Lexeme.commaSeparated (as.map lexemes)))
      (∀ a ∈ ·, good a) := by
  intro c as c' clean run
  unfold Parser.itemList at run
  obtain ⟨t, c₁, opening, run⟩ := bind_eq_ok_iff.mp run
  have opens := sign_ok clean opening
  rw [bind_ok (peekKind_run c₁)] at run
  split at run
  · obtain ⟨t', c₂, closing, run⟩ := bind_eq_ok_iff.mp run
    obtain ⟨rfl, rfl⟩ := pure_eq_ok_iff.mp run
    exact ⟨opens.trans (sign_ok opens.clean closing), fun a member => nomatch member⟩
  · obtain ⟨a, c₂, first, run⟩ := bind_eq_ok_iff.mp run
    rw [bind_ok (remaining_run c₂)] at run
    obtain ⟨as', c₃, others, run⟩ := bind_eq_ok_iff.mp run
    obtain ⟨t', c₄, closing, run⟩ := bind_eq_ok_iff.mp run
    obtain ⟨rfl, rfl⟩ := pure_eq_ok_iff.mp run
    obtain ⟨takes, right⟩ := spells c₁ a c₂ opens.clean first
    obtain ⟨takes', right'⟩ := spells.moreItems _ c₂ as' c₃ takes.clean others
    refine ⟨?_, List.forall_mem_cons.mpr ⟨right, right'⟩⟩
    have whole := opens.trans (takes.trans (takes'.trans (sign_ok takes'.clean closing)))
    simpa [Lexeme.inParens, Lexeme.commaSeparated, List.flatMap_map] using whole

end Spells

namespace SpellsAt

variable {operand nested : Parser Expr} {level : Nat}

theorem weaken {level' : Nat} {p : Parser Expr} (spells : SpellsAt level p) (le : level' ≤ level) :
    SpellsAt level' p := by
  intro c e c' clean run
  obtain ⟨takes, right, tight⟩ := spells c e c' clean run
  exact ⟨takes, right, Nat.le_trans le tight⟩

/-- Signs before an operand. -/
theorem signed {op : UnaryOp} (spells : SpellsAt (op.level + 1) operand) (n : Nat) :
    SpellsAt op.level (signed op.lexeme.kind op operand n) := by
  induction n with
  | zero => exact spells.weaken (Nat.le_succ _)
  | succ n ih =>
      intro c e c' clean run
      obtain ⟨found, c₁, accepted, rest⟩ := bind_eq_ok_iff.mp run
      rcases accept_ok clean (Kind.isWord_of_isFixed op.isFixed_lexeme) accepted with
        ⟨rfl, rfl, -⟩ | ⟨rfl, kind, mark, word⟩
      · exact spells.weaken (Nat.le_succ _) c₁ e c' clean rest
      · obtain ⟨x, c₂, first, rest⟩ := bind_eq_ok_iff.mp rest
        obtain ⟨rfl, rfl⟩ := pure_eq_ok_iff.mp rest
        obtain ⟨takes, right, tight⟩ := ih c₁ x c₂ mark.clean first
        rw [word.eq_of_kind op.isWord_lexeme kind op.isFixed_lexeme] at mark
        exact ⟨mark.trans takes, ⟨tight, right⟩, Nat.le_refl _⟩

/-- More operands behind one that was read already. -/
theorem moreOperands {op? : Kind → Option BinaryOp} (operators : OperatorsAt op? level)
    (groups : level ≠ 3) (spells : SpellsAt (level + 1) operand) (n : Nat) {x e : Expr}
    {c c' : Cursor} (clean : c.Clean) (right : x.Grammatical) (tight : level ≤ x.level)
    (run : moreOperands op? operand n x c = .ok e c') :
    ∃ ls, e.lexemes = x.lexemes ++ ls ∧ c.Takes c' ls ∧ e.Grammatical ∧ level ≤ e.level := by
  induction n generalizing x c with
  | zero =>
      obtain ⟨rfl, rfl⟩ := pure_eq_ok_iff.mp run
      exact ⟨[], (List.append_nil _).symm, .refl clean, right, tight⟩
  | succ n ih =>
      unfold Parser.moreOperands at run
      rw [bind_ok (peek_run c)] at run
      cases found : op? c.front.kind with
      | none =>
          rw [found] at run
          obtain ⟨rfl, rfl⟩ := pure_eq_ok_iff.mp run
          exact ⟨[], (List.append_nil _).symm, .refl clean, right, tight⟩
      | some op =>
          rw [found] at run
          obtain ⟨front, same⟩ := (operators _ _).mp found
          dsimp only at run
          rw [bind_ok (advance_run c)] at run
          have mark := clean.nextFixed op.isWord_lexeme front op.isFixed_lexeme
          obtain ⟨y, c₁, second, rest⟩ := bind_eq_ok_iff.mp run
          obtain ⟨takes, right', tight'⟩ := spells _ y c₁ mark.clean second
          have whole : (Expr.binary c.front.pos op x y).Grammatical := by
            rw [Expr.Grammatical, BinaryOp.leftLevel, same, if_neg groups]
            exact ⟨tight, tight', right, right'⟩
          obtain ⟨ls, written, more, result⟩ := ih takes.clean whole (Nat.le_of_eq same.symm) rest
          refine ⟨op.lexeme :: (y.lexemes ++ ls), ?_, ?_, result⟩
          · rw [written, Expr.lexemes]
            simp
          · simpa using mark.trans (takes.trans more)

theorem leftGrouped {op? : Kind → Option BinaryOp} (operators : OperatorsAt op? level)
    (groups : level ≠ 3) (spells : SpellsAt (level + 1) operand) :
    SpellsAt level (leftGrouped op? operand) := by
  intro c e c' clean run
  obtain ⟨x, c₁, first, rest⟩ := bind_eq_ok_iff.mp run
  rw [bind_ok (remaining_run c₁)] at rest
  obtain ⟨takes, right, tight⟩ := spells c x c₁ clean first
  obtain ⟨ls, written, more, result⟩ :=
    moreOperands operators groups spells _ takes.clean right (Nat.le_of_succ_le tight) rest
  rw [written]
  exact ⟨takes.trans more, result⟩

/-- The words of a call. -/
theorem callWith (spells : SpellsAt 0 nested) {c c' : Cursor} {pos : Pos} {name : String}
    {args : List Expr} (clean : c.Clean) (front : c.front.kind = .identifier)
    (run : callWith nested c = .ok (pos, name, args) c') :
    c.Takes c' (Expr.call pos name args).lexemes ∧ (Expr.call pos name args).Grammatical := by
  unfold Parser.callWith at run
  rw [bind_ok (advance_run c)] at run
  obtain ⟨args', c₁, listed, rest⟩ := bind_eq_ok_iff.mp run
  obtain ⟨same, rfl⟩ := pure_eq_ok_iff.mp rest
  cases same
  obtain ⟨takes, word⟩ := clean.next (front ▸ rfl)
  obtain ⟨written, named⟩ := word.name front
  rw [written] at takes
  obtain ⟨takes', right⟩ := Spells.itemList spells _ args c₁ takes.clean listed
  rw [Expr.lexemes, Expr.Grammatical, Expr.lexemesEach_eq_map, Expr.grammaticalAll_iff]
  exact ⟨takes.trans takes', named, fun a member => (right a member).1⟩

theorem primary (spells : SpellsAt 0 nested) : SpellsAt 7 (primary nested) := by
  intro c e c' clean run
  show c.Takes c' e.lexemes ∧ e.Grammatical ∧ 7 ≤ e.level
  unfold Parser.primary at run
  rw [bind_ok (peek_run c)] at run
  generalize front : c.front.kind = kind at run
  split at run
  · rw [bind_ok (advance_run c)] at run
    obtain ⟨takes, word⟩ := clean.next (front ▸ rfl)
    obtain ⟨written, numeral⟩ := word.numeral front
    cases number : Literal.int? c.front.text with
    | none =>
        rw [number] at run
        exact absurd run fail_ne_ok
    | some n =>
        rw [number] at run
        obtain ⟨rfl, rfl⟩ := pure_eq_ok_iff.mp run
        rw [written] at takes
        exact ⟨takes, ⟨numeral, number⟩, Nat.le_refl 7⟩
  · rw [bind_ok (advance_run c)] at run
    obtain ⟨rfl, rfl⟩ := pure_eq_ok_iff.mp run
    obtain ⟨takes, word⟩ := clean.next (front ▸ rfl)
    obtain ⟨written, read⟩ := word.literal front
    rw [written] at takes
    exact ⟨takes, read, Nat.le_refl 7⟩
  · rw [bind_ok (advance_run c)] at run
    obtain ⟨rfl, rfl⟩ := pure_eq_ok_iff.mp run
    exact ⟨clean.nextFixed (.ofKeyword .trueWord) front rfl, trivial, Nat.le_refl 7⟩
  · rw [bind_ok (advance_run c)] at run
    obtain ⟨rfl, rfl⟩ := pure_eq_ok_iff.mp run
    exact ⟨clean.nextFixed (.ofKeyword .falseWord) front rfl, trivial, Nat.le_refl 7⟩
  · rw [bind_ok (get_run c)] at run
    split at run
    · obtain ⟨⟨pos, name, args⟩, c₁, called, rest⟩ := bind_eq_ok_iff.mp run
      obtain ⟨rfl, rfl⟩ := pure_eq_ok_iff.mp rest
      obtain ⟨takes, right⟩ := spells.callWith clean front called
      exact ⟨takes, right, Nat.le_refl 7⟩
    · rw [bind_ok (advance_run c)] at run
      obtain ⟨rfl, rfl⟩ := pure_eq_ok_iff.mp run
      obtain ⟨takes, word⟩ := clean.next (front ▸ rfl)
      obtain ⟨written, named⟩ := word.name front
      rw [written] at takes
      exact ⟨takes, named, Nat.le_refl 7⟩
  · rw [bind_ok (advance_run c)] at run
    obtain ⟨x, c₁, inner, rest⟩ := bind_eq_ok_iff.mp run
    obtain ⟨t, c₂, closing, rest⟩ := bind_eq_ok_iff.mp rest
    obtain ⟨rfl, rfl⟩ := pure_eq_ok_iff.mp rest
    have opens := clean.nextFixed (.ofSign .leftParen) front rfl
    obtain ⟨takes, right, -⟩ := spells _ x c₁ opens.clean inner
    exact ⟨opens.trans (takes.trans (sign_ok takes.clean closing)), right, Nat.le_refl 7⟩
  · exact absurd run fail_ne_ok

theorem sum (spells : SpellsAt 0 nested) : SpellsAt 4 (sum nested) := by
  refine leftGrouped sumOp?_operatorsAt (by decide) ?_
  refine leftGrouped productOp?_operatorsAt (by decide) ?_
  have tight : SpellsAt (UnaryOp.negate.level + 1) (Parser.primary nested) := spells.primary
  intro c e c' clean run
  exact tight.signed _ c e c' clean run

theorem comparison (spells : SpellsAt 0 nested) : SpellsAt 3 (comparison nested) := by
  intro c e c' clean run
  obtain ⟨x, c₁, first, rest⟩ := bind_eq_ok_iff.mp run
  obtain ⟨takes, right, tight⟩ := spells.sum c x c₁ clean first
  rw [bind_ok (peek_run c₁)] at rest
  cases found : comparisonOp? c₁.front.kind with
  | none =>
      rw [found] at rest
      obtain ⟨rfl, rfl⟩ := pure_eq_ok_iff.mp rest
      exact ⟨takes, right, Nat.le_of_succ_le tight⟩
  | some op =>
      rw [found] at rest
      obtain ⟨front, same⟩ := (comparisonOp?_operatorsAt _ _).mp found
      dsimp only at rest
      rw [bind_ok (advance_run c₁)] at rest
      obtain ⟨y, c₂, second, rest⟩ := bind_eq_ok_iff.mp rest
      have mark := takes.clean.nextFixed op.isWord_lexeme front op.isFixed_lexeme
      obtain ⟨takes', right', tight'⟩ := spells.sum _ y c₂ mark.clean second
      rw [bind_ok (peek_run c₂)] at rest
      cases chained : comparisonOp? c₂.front.kind with
      | some op' =>
          rw [chained] at rest
          exact absurd rest fail_ne_ok
      | none =>
          rw [chained] at rest
          obtain ⟨rfl, rfl⟩ := pure_eq_ok_iff.mp rest
          rw [Expr.lexemes]
          refine ⟨takes.trans (mark.trans takes'), ?_, Nat.le_of_eq same.symm⟩
          rw [Expr.Grammatical, BinaryOp.leftLevel, same, if_pos rfl]
          exact ⟨tight, tight', right, right'⟩

theorem disjunction (spells : SpellsAt 0 nested) : SpellsAt 0 (disjunction nested) := by
  refine leftGrouped eitherOp?_operatorsAt (by decide) ?_
  refine leftGrouped andOp?_operatorsAt (by decide) ?_
  have tight : SpellsAt (UnaryOp.not.level + 1) (Parser.comparison nested) := spells.comparison
  intro c e c' clean run
  exact tight.signed _ c e c' clean run

theorem expression (n : Nat) : SpellsAt 0 (expression n) := by
  induction n with
  | zero =>
      intro c e c' clean run
      exact absurd run fail_ne_ok
  | succ n ih => exact disjunction ih

/-- An expression that is read takes its own words. -/
theorem expr : SpellsAt 0 expr := by
  intro c e c' clean run
  exact expression _ c e c' clean run

end SpellsAt

end Parser

end Samo
