import Samo.Proofs.BlockPositions
import Samo.Proofs.Demands
import Samo.Proofs.Returns

/-!
# Names are declared before they are used

The names in the expressions of an accepted program are declared before them, in a block around them
or outside of all. There is one exception: a returned value that shows by its form that it is a
truth value is looked at only when its function ends, and its names may be declared anywhere in the
blocks around it up to the function's.
-/

namespace Samo

open Check

/-! ## Names in expressions -/

/-- The name is known, or it is called and there are built-in functions of that name. -/
def Mention.Known (known : String → Prop) (builtins : Registry) : Mention → Prop
  | value name => known name
  | callee name => known name ∨ builtins.contains name = true

theorem Mention.Known.mono {known known' : String → Prop} {builtins : Registry} {m : Mention}
    (more : ∀ name, known name → known' name) (here : m.Known known builtins) :
    m.Known known' builtins := by
  cases m with
  | value name => exact more name here
  | callee name => exact here.imp_left (more name)

/-- Every name in an expression is known. -/
def Expr.NamesKnown (known : String → Prop) (builtins : Registry) (e : Expr) : Prop :=
  ∀ m ∈ e.mentions, m.Known known builtins

namespace Expr

theorem mem_mentionsAll {m : Mention} {es : List Expr} (member : m ∈ mentionsAll es) :
    ∃ e ∈ es, m ∈ e.mentions := by
  induction es with
  | nil => cases member
  | cons e es ih =>
      rcases List.mem_append.mp member with member | member
      · exact ⟨e, List.mem_cons_self, member⟩
      · obtain ⟨e', given, member⟩ := ih member
        exact ⟨e', List.mem_cons_of_mem e given, member⟩

section

variable {known : String → Prop} {builtins : Registry}

theorem namesKnown_unary {p : Pos} {op : UnaryOp} {x : Expr} :
    (unary p op x).NamesKnown known builtins ↔ x.NamesKnown known builtins :=
  Iff.rfl

theorem namesKnown_paren {p : Pos} {x : Expr} :
    (paren p x).NamesKnown known builtins ↔ x.NamesKnown known builtins :=
  Iff.rfl

theorem namesKnown_binary {p : Pos} {op : BinaryOp} {x y : Expr} :
    (binary p op x y).NamesKnown known builtins ↔
      x.NamesKnown known builtins ∧ y.NamesKnown known builtins :=
  List.forall_mem_append

theorem namesKnown_call {p : Pos} {name : String} {args : List Expr}
    (callee : (Mention.callee name).Known known builtins)
    (inside : ∀ a ∈ args, a.NamesKnown known builtins) :
    (call p name args).NamesKnown known builtins := by
  intro m member
  rcases List.mem_cons.mp member with rfl | member
  · exact callee
  · obtain ⟨a, given, member⟩ := mem_mentionsAll member
    exact inside a given m member

end

/-- The names in an expression that has a type all stand for something. -/
theorem HasType.namesKnown {Γ : Bindings} {e : Expr} {type : TypeName} (typed : e.HasType Γ type) :
    e.NamesKnown (fun name => (Γ.lookup name).isSome = true) Γ.builtins := by
  induction typed with
  | int | string | boolie =>
      intro m member
      rw [mentions] at member
      cases member
  | ident found =>
      intro m member
      rw [mentions] at member
      rw [List.mem_singleton.mp member]
      show (Γ.lookup _).isSome = true
      rw [found]
      rfl
  | negate _ ih | not _ ih => exact namesKnown_unary.mpr ih
  | arithmetic _ _ _ left right | logical _ _ _ left right | relational _ _ _ left right
  | equality _ _ _ left right | concat _ _ left right => exact namesKnown_binary.mpr ⟨left, right⟩
  | paren _ ih => exact namesKnown_paren.mpr ih
  | @user pos name args f found size _ ih =>
      have same : f.paramTypes.length = args.length := by rw [f.length_paramTypes, size]
      refine namesKnown_call (.inl ?_) fun a given => ?_
      · show (Γ.lookup name).isSome = true
        rw [found]
        rfl
      · obtain ⟨type, handed⟩ := Queues.exists_mem_assign same given
        exact ih (type, a) handed
  | @builtin pos name args f missing member size _ ih =>
      have same : f.paramTypes.length = args.length := by rw [f.length_paramTypes, size]
      refine namesKnown_call (.inr (Registry.contains_of_mem_overloads member)) fun a given => ?_
      rw [← List.map_snd_zip same.ge] at given
      obtain ⟨⟨type, a⟩, handed, rfl⟩ := List.mem_map.mp given
      exact ih (type, a) handed

/-- The names that are looked up for the leaves all stand for something if the leaves are found. -/
theorem lookups_known {s : State} (stop : s.engine.policy = .stop) (e : Expr) :
    ∀ {found : List Ty} {s' : State}, e.leaves s = .ok found s' → ∀ m ∈ e.lookups,
      m.Known (fun name => (s.symbols.lookup name).isSome = true) s.symbols.builtins := by
  induction e using Expr.induction with
  | int | string | boolie =>
      intro found s' run m member
      rw [lookups] at member
      cases member
  | ident pos name =>
      intro found s' run m member
      rw [lookups] at member
      rw [List.mem_singleton.mp member]
      rw [leaves] at run
      obtain ⟨symbol, s₁, asked, -⟩ := bind_eq_ok_iff.mp run
      obtain ⟨symbol, -, known⟩ := identifier_ok stop asked
      show (s.symbols.lookup name).isSome = true
      rw [known]
      rfl
  | unary pos op x ih =>
      intro found s' run m member
      cases op with
      | not =>
          rw [lookups] at member
          cases member
      | negate =>
          rw [lookups] at member
          rw [leaves] at run
          exact ih run m member
  | binary pos op x y left right =>
      intro found s' run m member
      rw [lookups] at member
      split at member
      · next arithmetic =>
        rw [leaves, if_pos arithmetic] at run
        obtain ⟨found, s₁, first, run⟩ := bind_eq_ok_iff.mp run
        obtain ⟨found', s₂, second, -⟩ := bind_eq_ok_iff.mp run
        -- the leaves of the right operand are the same before those of the left one
        obtain ⟨r, second⟩ := y.leaves_readsTable.transfer second (x.leaves_readsTable.alike first)
        rcases List.mem_append.mp member with member | member
        · exact left first m member
        · exact right second m member
      · cases member
  | paren pos x ih =>
      intro found s' run m member
      rw [lookups] at member
      rw [leaves] at run
      exact ih run m member
  | call pos name args ih =>
      intro found s' run
      rw [leaves] at run
      -- a call is resolved where it stands, boolean forms among its arguments included
      obtain ⟨result, s₁, resolved, -⟩ := bind_eq_ok_iff.mp run
      obtain ⟨type, -, sane⟩ := sane_of_resolve stop resolved
      exact sane.typed.namesKnown

/-- All names in a typed expression are looked up for its leaves, unless its form hides them. -/
theorem lookups_eq_mentions {Γ : Bindings} (e : Expr) : ∀ {type : TypeName}, e.HasType Γ type →
    e.isBooleanForm = false → e.lookups = e.mentions := by
  induction e using Expr.induction with
  | int | string | boolie | ident | call =>
      intro type typed form
      rfl
  | unary pos op x ih =>
      intro type typed form
      cases typed with
      | not inner => cases form
      | negate inner =>
          -- the operand is a number, so its form hides nothing either
          rw [lookups, mentions]
          exact ih inner (inner.isBooleanForm_eq_false (by simp))
  | binary pos op x y left right =>
      intro type typed form
      have arithmetic : op.isArithmetic = true := by simpa [isBooleanForm] using form
      have both : ∀ {type}, x.HasType Γ type → y.HasType Γ type → type ≠ .value .boolie →
          (binary pos op x y).lookups = (binary pos op x y).mentions := by
        intro type typed typed' other
        rw [lookups, if_pos arithmetic, mentions, left typed (typed.isBooleanForm_eq_false other),
          right typed' (typed'.isBooleanForm_eq_false other)]
      have family : op.family = .arithmetic := by simpa [BinaryOp.isArithmetic] using arithmetic
      cases typed with
      | arithmetic _ typed typed' => exact both typed typed' (by simp)
      | concat typed typed' => exact both typed typed' (by simp)
      | logical other | relational other | equality other =>
          rw [family] at other
          cases other
  | paren pos x ih =>
      intro type typed form
      cases typed with
      | paren inner =>
          rw [lookups, mentions]
          exact ih inner form

/-- The names in an expression whose leaves were found all stand for something already, unless the
form of the expression hides them. -/
theorem namesKnown_of_leaves {Γ : Bindings} {s s' : State} (stop : s.engine.policy = .stop)
    {e : Expr} {type : TypeName} {found : List Ty} (run : e.leaves s = .ok found s')
    (typed : e.HasType Γ type) (form : e.isBooleanForm = false) :
    e.NamesKnown (fun name => (s.symbols.lookup name).isSome = true) s.symbols.builtins := by
  unfold NamesKnown
  rw [← e.lookups_eq_mentions typed form]
  exact e.lookups_known stop run

end Expr

/-! ## Names in statements -/

/-- The names that an expression of a statement at a place may use. -/
def Place.usable (p : Place) (e : Expr) : Stmt → List String
  | .returnWith .. => if e.isBooleanForm then p.within else p.before
  | _ => p.before

/-- Every name in the expressions of a program is declared before. -/
def Program.DeclaresBeforeUse (program : Program) (builtins : Registry) : Prop :=
  ∀ p stmt, (p, stmt) ∈ program.located → ∀ e ∈ stmt.expressions,
    e.NamesKnown (· ∈ p.before) builtins

/-- An expression that has a type in a state that fits a place uses only names declared before. -/
theorem TypedAt.namesKnown {p : Place} {s' : State} {e : Expr} {type : TypeName}
    (typed : TypedAt p s' e type) : e.NamesKnown (· ∈ p.before) s'.symbols.builtins := by
  obtain ⟨s, standing, -, grows, sane⟩ := typed
  rw [grows.builtins]
  exact fun m member =>
    (sane.typed.namesKnown m member).mono fun name => (standing.visible name).mp

/-- The names in a settled return are declared within the function or before it. -/
theorem Settled.namesKnown {t t₀ : SymbolTable} {p : Place} {e : Expr} {h : Header}
    {c : Coordinates} (settled : Settled t p (some e) h t₀ c) :
    e.NamesKnown (· ∈ p.within) t.builtins := by
  rw [settled.grows.builtins]
  have typed := settled.typed e rfl
  exact fun m member => (typed.namesKnown m member).mono settled.visible

/-- The names in a settled return are declared before if its form does not hide them. -/
theorem Settled.namesKnown_of_detect {t t₀ : SymbolTable} {p : Place} {e : Expr} {h : Header}
    {c : Coordinates} (settled : Settled t p (some e) h t₀ c) {s r : State} {d : Detection}
    (standing : Standing p s) (detected : e.detect s = .ok d r) (form : e.isBooleanForm = false) :
    e.NamesKnown (· ∈ p.before) s.symbols.builtins := by
  obtain ⟨found, s₁, run, -⟩ := bind_eq_ok_iff.mp detected
  have known := Expr.namesKnown_of_leaves standing.stop run (settled.typed e rfl) form
  exact fun m member => (known m member).mono fun name => (standing.visible name).mp

/-- Every name in the expressions of an accepted program may be used where it is. -/
theorem Program.Accepted.namesKnown {program : Program} {o : Options} {file : String}
    {builtins : Registry} {log : Log}
    (accepted : program.Accepted (o.initialState file builtins log))
    (distinct : program.DistinctBlocks) {p : Place} {stmt : Stmt}
    (member : (p, stmt) ∈ program.located) :
    ∀ e ∈ stmt.expressions, e.NamesKnown (· ∈ p.usable e stmt) builtins := by
  obtain ⟨s, s', fs, visit⟩ := accepted.visits _ member
  have passes := stmt.check_passes visit.standing.stop visit.standing.wellFormed visit.run
  have last : s'.symbols.builtins = builtins := by
    rw [← accepted.table.2, visit.later.grows.builtins]
  have first : s.symbols.builtins = builtins := by rw [← last, passes.table.grows.builtins]
  by_cases returns : ∃ pos value, stmt = .returnWith pos value
  · obtain ⟨pos, value, rfl⟩ := returns
    intro e given
    obtain rfl : value = some e := Option.mem_toList.mp given
    obtain ⟨h, t₀, c, settled⟩ := accepted.returned distinct member
    show e.NamesKnown (· ∈ if e.isBooleanForm then p.within else p.before) builtins
    by_cases form : e.isBooleanForm = true
    · rw [if_pos form, ← accepted.table.2]
      exact settled.namesKnown
    · obtain ⟨d, r, detected⟩ := (Stmt.returnWith_ok visit.standing.stop visit.run).2 e rfl
      rw [if_neg form, ← first]
      exact settled.namesKnown_of_detect visit.standing detected (by simpa using form)
  · have other : ∀ pos value, stmt ≠ .returnWith pos value := fun pos value same =>
      returns ⟨pos, value, same⟩
    intro e given
    obtain ⟨type, typed⟩ :=
      (stmt.check_demands visit.standing visit.run other).exists_type e given
    have usable : p.usable e stmt = p.before := by
      cases stmt with
      | returnWith pos value => exact absurd rfl (other pos value)
      | _ => rfl
    rw [usable, ← last]
    exact typed.namesKnown

/--
Declaration before use. The names in the expressions of an accepted program, and the variables it
assigns to, are declared before, but for the names in a returned value of boolean form: these are
declared somewhere in the blocks around it up to the function's, or before the function. So all
names are declared before exactly if those are.
-/
theorem declared_before_use (program : Program) (o : Options) (file : String)
    (builtins : Registry) (log : Log) :
    (∀ text, Program.DistinctBlocks (parse text).1) ∧
    (program.DistinctBlocks → program.Accepted (o.initialState file builtins log) →
      (∀ p stmt, (p, stmt) ∈ program.located →
        (∀ e ∈ stmt.expressions, e.NamesKnown (· ∈ p.usable e stmt) builtins) ∧
        ∀ pos name value, stmt = .assign pos name value → name ∈ p.before) ∧
      (program.DeclaresBeforeUse builtins ↔
        ∀ p pos e, (p, Stmt.returnWith pos (some e)) ∈ program.located → e.isBooleanForm = true →
          e.NamesKnown (· ∈ p.before) builtins)) := by
  refine ⟨parse_distinctBlocks, ?_⟩
  intro distinct accepted
  refine ⟨fun p stmt member => ⟨accepted.namesKnown distinct member, ?_⟩, ?_, ?_⟩
  · rintro pos name value rfl
    obtain ⟨s, s', fs, visit⟩ := accepted.visits _ member
    have run : checkAssignment pos name value s = .ok () s' := by
      have run := visit.run
      rw [Stmt.check] at run
      exact run
    obtain ⟨v, known, -⟩ := checkAssignment_ok visit.standing.stop run
    rw [← visit.standing.visible, known]
    rfl
  · intro before p pos e member form
    exact before p _ member e (Option.mem_toList.mpr rfl)
  · intro before p stmt member e given
    have known := accepted.namesKnown distinct member e given
    cases stmt with
    | returnWith pos value =>
        obtain rfl : value = some e := Option.mem_toList.mp given
        by_cases form : e.isBooleanForm = true
        · exact before p pos e member form
        · rw [Place.usable, if_neg form] at known
          exact known
    | _ => exact known

/-- The value of a return that hides a name by its form. -/
def forwardValue : Expr := .unary ⟨1, 23⟩ .not (.ident ⟨1, 27⟩ "y")

def forwardHeader : Header := ⟨⟨1, 3⟩, "f", [], some (⟨1, 7⟩, .value .boolie)⟩

/-- The function: it returns the value before it declares the name. -/
def forward : Program :=
  [.define ⟨1, 0⟩ forwardHeader
    (.mk ⟨1, 14⟩ ⟨1, 47⟩
      [.returnWith ⟨1, 16⟩ (some forwardValue),
      .declare ⟨1, 30⟩ (.value .boolie) ⟨1, 37⟩ "y" (some (.boolie ⟨1, 41⟩ true))])]

/-- Where the function returns: the name is not declared yet, but it is declared within. -/
def forwardPlace : Place where
  frames := [⟨⟨1, 14⟩, ["y"]⟩]
  before := ["f"]
  within := ["f", "y"]
  function := some forwardHeader
  loops := 0

theorem forward_distinctBlocks : forward.DistinctBlocks := by
  unfold Program.DistinctBlocks
  decide

theorem forward_accepted :
    forward.Accepted (({} : Options).initialState "main" .empty ({} : Options).newLog) := by
  unfold Program.Accepted
  decide +kernel

theorem forward_located :
    (forwardPlace, Stmt.returnWith ⟨1, 16⟩ (some forwardValue)) ∈ forward.located :=
  .tail _ (.head _)

/-- The program that this text is read as is accepted, although it uses a name before it declares
it. -/
theorem forward_reference :
    (parse "fn f() boolie \x7b return not y; boolie y = true; \x7d".toList).1 = forward ∧
      forward.Accepted (({} : Options).initialState "main" .empty ({} : Options).newLog) ∧
      ¬ forward.DeclaresBeforeUse .empty := by
  refine ⟨by with_unfolding_all rfl, forward_accepted, fun before => ?_⟩
  have known := before forwardPlace _ forward_located forwardValue List.mem_cons_self
    (.value "y") (by decide)
  revert known
  show ¬ "y" ∈ forwardPlace.before
  decide

/-- The name may be used nevertheless, as it is declared within the function. -/
theorem forward_usable :
    forward.DistinctBlocks ∧
      forward.Accepted (({} : Options).initialState "main" .empty ({} : Options).newLog) ∧
      forwardValue.NamesKnown (· ∈ ["f", "y"]) .empty :=
  ⟨forward_distinctBlocks, forward_accepted,
    (((declared_before_use forward _ _ _ _).2 forward_distinctBlocks forward_accepted).1 _ _
      forward_located).1 forwardValue List.mem_cons_self⟩

end Samo
