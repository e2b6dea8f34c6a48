import Samo.Proofs.ArgumentOrder
import Samo.Proofs.Detection
import Samo.Proofs.TypeDecision

/-!
# Calls with every argument at its place

The arguments of a call may all have the types of the parameters at their places, and the call can
still be rejected: a `boolie` parameter takes an argument in boolean form from further behind, the
plain argument at its place is left over, and the next parameter of another type gets it. That
happens exactly if a plain argument at a `boolie` parameter, a parameter of another type and an
argument in boolean form follow each other in this order (`Crossed`). Everywhere else the arguments
that are left over go to `boolie` parameters only (`Queues.behind`), and the call is accepted.
-/

namespace Samo

namespace Queues

variable {α : Type} {isBool : α → Bool}

/-! ## Arguments that are left over -/

/-- A parameter of another type than `boolie` stands before an argument in boolean form. -/
def Late (isBool : α → Bool) (placed : List (ValueType × α)) : Prop :=
  ∃ y z, [y, z].Sublist placed ∧ y.1 ≠ .boolie ∧ isBool z.2 = true

/-- A plain argument of a `boolie` parameter, a parameter of another type and an argument in boolean
form follow each other in this order. -/
def Crossed (isBool : α → Bool) (placed : List (ValueType × α)) : Prop :=
  ∃ x y z, [x, y, z].Sublist placed ∧ x.1 = .boolie ∧ isBool x.2 = false ∧ y.1 ≠ .boolie ∧
    isBool z.2 = true

section

variable {type : ValueType} {a : α} {placed : List (ValueType × α)}

theorem late_cons : Late isBool ((type, a) :: placed) ↔
    Late isBool placed ∨ type ≠ .boolie ∧ ∃ z ∈ placed, isBool z.2 = true := by
  constructor
  · rintro ⟨y, z, sublist, other, form⟩
    rcases List.sublist_cons_iff.mp sublist with further | ⟨r, same, rest⟩
    · exact .inl ⟨y, z, further, other, form⟩
    · cases same
      exact .inr ⟨other, z, List.singleton_sublist.mp rest, form⟩
  · rintro (⟨y, z, sublist, other, form⟩ | ⟨other, z, member, form⟩)
    · exact ⟨y, z, sublist.cons _, other, form⟩
    · exact ⟨(type, a), z, (List.singleton_sublist.mpr member).cons_cons _, other, form⟩

theorem crossed_cons : Crossed isBool ((type, a) :: placed) ↔
    Crossed isBool placed ∨ (type = .boolie ∧ isBool a = false) ∧ Late isBool placed := by
  constructor
  · rintro ⟨x, y, z, sublist, boolie, plain, other, form⟩
    rcases List.sublist_cons_iff.mp sublist with further | ⟨r, same, rest⟩
    · exact .inl ⟨x, y, z, further, boolie, plain, other, form⟩
    · cases same
      exact .inr ⟨⟨boolie, plain⟩, y, z, rest, other, form⟩
  · rintro (⟨x, y, z, sublist, right⟩ | ⟨⟨boolie, plain⟩, y, z, sublist, other, form⟩)
    · exact ⟨x, y, z, sublist.cons _, right⟩
    · exact ⟨(type, a), y, z, sublist.cons_cons _, boolie, plain, other, form⟩

instance decidableLate : (placed : List (ValueType × α)) → Decidable (Late isBool placed)
  | [] => .isFalse (by simp [Late])
  | _ :: placed =>
    have := decidableLate placed
    decidable_of_iff' _ late_cons

instance decidableCrossed : (placed : List (ValueType × α)) → Decidable (Crossed isBool placed)
  | [] => .isFalse (by simp [Crossed])
  | _ :: placed =>
    have := decidableCrossed placed
    decidable_of_iff' _ crossed_cons

theorem Late.exists_form (late : Late isBool placed) : ∃ z ∈ placed, isBool z.2 = true := by
  obtain ⟨y, z, sublist, -, form⟩ := late
  exact ⟨z, sublist.subset (by simp), form⟩

end

/--
The arguments that wait when the parameters before some arguments have been served. Some plain
arguments from before are left over, and for each of them one in boolean form was taken too early.
-/
def behind (isBool : α → Bool) (left args : List α) : Queues α :=
  ⟨(args.filter isBool).drop left.length, left ++ args.filter (!isBool ·)⟩

/-- What stands at the head of a queue in boolean form, if it is long enough. -/
theorem exists_drop_eq_cons {l : List α} {k : Nat} (short : k < l.length) :
    ∃ b ∈ l, l.drop k = b :: l.drop (k + 1) :=
  ⟨l[k], List.getElem_mem short, List.drop_eq_getElem_cons short⟩

/--
What a `boolie` parameter is given, and what is left over then. As long as an argument in boolean form
follows, something is left over if it was before or if the argument at this place is plain.
-/
structure Serves (isBool : α → Bool) (fits : α → Prop) (left : List α) (a : α) (args : List α)
    (b : α) (left' : List α) : Prop where
  handed : (behind isBool left (a :: args)).next? .boolie = some (b, behind isBool left' args)
  fit : fits b
  spare : ∀ c ∈ left', fits c
  room : left'.length ≤ (args.filter isBool).length
  left : (∃ z ∈ args, isBool z = true) → (left' ≠ [] ↔ left ≠ [] ∨ isBool a = false)

section

variable {fits : α → Prop} {left args : List α} {a : α}

theorem filter_ne_nil (following : ∃ z ∈ args, isBool z = true) : args.filter isBool ≠ [] := by
  obtain ⟨z, member, form⟩ := following
  exact List.ne_nil_of_mem (List.mem_filter.mpr ⟨member, form⟩)

theorem exists_serves_of_form (form : isBool a = true)
    (room : left.length ≤ ((a :: args).filter isBool).length) (spare : ∀ b ∈ left, fits b)
    (here : fits a) (forms : ∀ b ∈ args.filter isBool, fits b) :
    ∃ b left', Serves isBool fits left a args b left' := by
  have bools : (a :: args).filter isBool = a :: args.filter isBool := List.filter_cons_of_pos form
  have plain : (a :: args).filter (!isBool ·) = args.filter (!isBool ·) :=
    List.filter_cons_of_neg (by simp [form])
  rcases Nat.lt_or_ge (args.filter isBool).length left.length with dry | enough
  · -- every argument in boolean form was taken, also this one: one that is left over fills in
    cases left with
    | nil => cases dry
    | cons b left =>
        have last : left.length = (args.filter isBool).length := by
          simp only [bools, List.length_cons] at room dry
          omega
        refine ⟨b, left, ?_, spare b List.mem_cons_self,
          fun c member => spare c (List.mem_cons_of_mem _ member), last.le, fun following => ?_⟩
        · rw [behind, behind, bools, plain, List.drop_eq_nil_of_le (by simp [last]),
            List.drop_eq_nil_of_le last.ge]
          exact next?_of_bools_nil _ _ _
        · have some := List.length_pos_of_ne_nil (filter_ne_nil following)
          rw [← last] at some
          simp [List.ne_nil_of_length_pos some]
  · obtain ⟨b, member, head⟩ := exists_drop_eq_cons
      (l := a :: args.filter isBool) (Nat.lt_succ_of_le enough)
    refine ⟨b, left, ?_, ?_, spare, enough, by simp [form]⟩
    · rw [behind, behind, bools, plain, head, List.drop_succ_cons]
      rfl
    · rcases List.mem_cons.mp member with rfl | member
      · exact here
      · exact forms b member

theorem exists_serves_of_plain (plain : isBool a = false)
    (room : left.length ≤ ((a :: args).filter isBool).length) (spare : ∀ b ∈ left, fits b)
    (here : fits a) (forms : ∀ b ∈ args.filter isBool, fits b) :
    ∃ b left', Serves isBool fits left a args b left' := by
  have bools : (a :: args).filter isBool = args.filter isBool :=
    List.filter_cons_of_neg (by simp [plain])
  have others : (a :: args).filter (!isBool ·) = a :: args.filter (!isBool ·) :=
    List.filter_cons_of_pos (by simp [plain])
  rw [bools] at room
  have spare' : ∀ c ∈ left ++ [a], fits c := by
    intro c member
    rcases List.mem_append.mp member with member | member
    · exact spare c member
    · rw [List.mem_singleton.mp member]
      exact here
  -- the parameter takes a boolean form first, if one still waits
  rcases Nat.lt_or_ge left.length (args.filter isBool).length with enough | dry
  · obtain ⟨b, member, head⟩ := exists_drop_eq_cons enough
    refine ⟨b, left ++ [a], ?_, forms b member, spare', ?_, by simp [plain]⟩
    · rw [behind, behind, bools, others, head, List.length_append, List.length_singleton,
        List.append_assoc]
      rfl
    · rw [List.length_append, List.length_singleton]
      exact enough
  · -- nothing in boolean form waits, so the first plain argument goes to its parameter
    cases left with
    | nil =>
        have none : args.filter isBool = [] := List.length_eq_zero_iff.mp (Nat.le_zero.mp dry)
        refine ⟨a, [], ?_, here, List.forall_mem_nil _, Nat.zero_le _, fun following => ?_⟩
        · rw [behind, behind, bools, others, none]
          exact next?_of_bools_nil _ _ _
        · exact absurd none (filter_ne_nil following)
    | cons b left =>
        have last : (left ++ [a]).length = (args.filter isBool).length := by
          simp only [List.length_cons] at room dry
          rw [List.length_append, List.length_singleton]
          omega
        refine ⟨b, left ++ [a], ?_, spare b List.mem_cons_self,
          fun c member => spare' c (List.mem_cons_of_mem _ member), last.le, by simp⟩
        rw [behind, behind, bools, others, List.drop_eq_nil_of_le dry,
          List.drop_eq_nil_of_le last.ge, List.append_assoc]
        exact next?_of_bools_nil _ _ _

theorem exists_serves (room : left.length ≤ ((a :: args).filter isBool).length)
    (spare : ∀ b ∈ left, fits b) (here : fits a)
    (forms : ∀ b ∈ args, isBool b = true → fits b) :
    ∃ b left', Serves isBool fits left a args b left' := by
  have waiting : ∀ b ∈ args.filter isBool, fits b := by
    intro b member
    obtain ⟨member, form⟩ := List.mem_filter.mp member
    exact forms b member form
  cases form : isBool a with
  | true => exact exists_serves_of_form form room spare here waiting
  | false => exact exists_serves_of_plain form room spare here waiting

end

/-! ## Handing out arguments that fit at their places -/

section

variable {fits : ValueType → α → Prop} {types : List ValueType} {args left : List α}

theorem exists_mem_zip_of_mem (placed : List.Forall₂ fits types args) {b : α} (member : b ∈ args) :
    ∃ type, (type, b) ∈ types.zip args ∧ fits type b := by
  rw [← List.map_snd_zip placed.length_eq.ge] at member
  obtain ⟨⟨type, b⟩, listed, rfl⟩ := List.mem_map.mp member
  exact ⟨type, listed, (List.forall₂_iff_zip.mp placed).2 listed⟩

theorem exists_form_zip (placed : List.Forall₂ fits types args) :
    (∃ z ∈ types.zip args, isBool z.2 = true) ↔ ∃ z ∈ args, isBool z = true := by
  constructor
  · rintro ⟨z, member, form⟩
    exact ⟨z.2, (List.of_mem_zip member).2, form⟩
  · rintro ⟨z, member, form⟩
    obtain ⟨type, listed, -⟩ := exists_mem_zip_of_mem placed member
    exact ⟨(type, z), listed, form⟩

/-- With some arguments left over, one of them meets a parameter of another type, or a later one
does. -/
def Tangled (isBool : α → Bool) (left : List α) (placed : List (ValueType × α)) : Prop :=
  Crossed isBool placed ∨ left ≠ [] ∧ Late isBool placed

theorem tangled_cons {a : α} {left' : List α} {placed : List (ValueType × α)}
    (still : Late isBool placed → (left' ≠ [] ↔ left ≠ [] ∨ isBool a = false)) :
    Tangled isBool left ((.boolie, a) :: placed) ↔ Tangled isBool left' placed := by
  unfold Tangled
  rw [crossed_cons, late_cons]
  by_cases late : Late isBool placed
  · rw [still late]
    simp [late, or_comm, or_left_comm, or_assoc]
  · simp [late]

/-- What comes of handing out arguments: if they are tangled, a `boolie` argument goes to a parameter
of another type, and otherwise all of them fit where they go. -/
structure HandedOut (isBool : α → Bool) (fits : ValueType → α → Prop) (left : List α)
    (types : List ValueType) (args : List α) : Prop where
  wrong : Tangled isBool left (types.zip args) →
    ∃ x ∈ (behind isBool left args).assign types, x.1 ≠ .boolie ∧ fits .boolie x.2
  right : ¬ Tangled isBool left (types.zip args) →
    ∀ x ∈ (behind isBool left args).assign types, fits x.1 x.2

/-- One parameter is given something that fits, and the others are no more and no less tangled. -/
theorem HandedOut.cons {type : ValueType} {a b : α} {left' : List α} (fit : fits type b)
    (handed : (behind isBool left (a :: args)).next? type = some (b, behind isBool left' args))
    (same : Tangled isBool left ((type, a) :: types.zip args) ↔
      Tangled isBool left' (types.zip args))
    (others : HandedOut isBool fits left' types args) :
    HandedOut isBool fits left (type :: types) (a :: args) := by
  have assigned : (behind isBool left (a :: args)).assign (type :: types) =
      (type, b) :: (behind isBool left' args).assign types := by
    simp only [assign, handed]
  constructor
  · intro tangled
    obtain ⟨x, member, wrong⟩ := others.wrong (same.mp tangled)
    exact ⟨x, assigned ▸ List.mem_cons_of_mem _ member, wrong⟩
  · intro straight x member
    rw [assigned] at member
    rcases List.mem_cons.mp member with rfl | member
    · exact fit
    · exact others.right (fun tangled => straight (same.mpr tangled)) x member

/-- A parameter of another type is given an argument that was left over. -/
theorem HandedOut.of_left {type : ValueType} {a b : α} (other : type ≠ .boolie)
    (spare : fits .boolie b) (following : ∃ z ∈ types.zip args, isBool z.2 = true) :
    HandedOut isBool fits (b :: left) (type :: types) (a :: args) := by
  have late : Late isBool ((type, a) :: types.zip args) := late_cons.mpr (.inr ⟨other, following⟩)
  have handed : (behind isBool (b :: left) (a :: args)).next? type = some (b, _) :=
    next?_of_ne other _ _ _
  constructor
  · intro _
    refine ⟨(type, b), ?_, other, spare⟩
    simp only [assign, handed]
    exact List.mem_cons_self
  · intro straight
    exact absurd (.inr ⟨List.cons_ne_nil _ _, late⟩) straight

/-- Arguments that fit at their places are handed out, with some others left over from before. -/
theorem handedOut_behind (forms : ∀ type a, isBool a = true → fits type a → type = .boolie)
    (placed : List.Forall₂ fits types args) (room : left.length ≤ (args.filter isBool).length)
    (spare : ∀ b ∈ left, fits .boolie b) : HandedOut isBool fits left types args := by
  induction placed generalizing left with
  | nil => constructor <;> simp [Tangled, Crossed, Late, assign]
  | @cons type a types args here placed ih =>
      by_cases boolie : type = .boolie
      · subst boolie
        have forms' : ∀ b ∈ args, isBool b = true → fits .boolie b := by
          intro b member form
          obtain ⟨type, -, own⟩ := exists_mem_zip_of_mem placed member
          rwa [forms type b form own] at own
        obtain ⟨b, left', serves⟩ := exists_serves room spare here forms'
        refine .cons serves.fit serves.handed (tangled_cons fun late => ?_)
          (ih serves.room serves.spare)
        exact serves.left ((exists_form_zip placed).mp late.exists_form)
      · have plain : isBool a = false := by
          rw [Bool.eq_false_iff]
          exact fun form => boolie (forms type a form here)
        cases left with
        | nil =>
            refine .cons here ?_ ?_ (ih (Nat.zero_le _) (List.forall_mem_nil _))
            · exact next?_ofList_cons (.inl (by simp [plain, boolie]))
            · simp [Tangled, crossed_cons, boolie]
        | cons b left =>
            rw [List.filter_cons_of_neg (by simp [plain])] at room
            obtain ⟨z, member⟩ := List.exists_mem_of_length_pos (Nat.zero_lt_of_lt room)
            obtain ⟨member, form⟩ := List.mem_filter.mp member
            exact .of_left boolie (spare b List.mem_cons_self)
              ((exists_form_zip placed).mpr ⟨z, member, form⟩)

end

end Queues

open Check Queues

/-! ## Arguments that are accepted on their own -/

namespace Expr

variable {s : State} {type : ValueType}

/-- An argument that is accepted at a type on its own, without a diagnostic, and in which no known
integer is divided by a known zero. -/
structure Fits (s : State) (type : ValueType) (a : Expr) : Prop where
  accepted : ∃ s', a.accepts type s = .ok true s' ∧ s'.engine.diagnostics = []
  zeroFree : a.ZeroFree

namespace Fits

variable {a : Expr}

/-- What fits is accepted without a report, whatever else was reported before. -/
theorem accepts (fits : a.Fits s type) {r : State} (same : r.symbols = s.symbols) :
    a.accepts type r = .ok true r := by
  obtain ⟨s', run, silent⟩ := fits.accepted
  exact (a.accepts_readsTable type).of_silent run silent same

theorem eq_boolie (fits : a.Fits s type) (form : a.isBooleanForm = true) : type = .boolie := by
  have asked := asked_of_accepts (policy_stopping s) (fits.accepts rfl)
  exact TypeName.value.inj (asked.typed.eq_boolie form)

end Fits

end Expr

/-! ## Calls -/

section

variable {s : State} {pos : Pos} {name : String} {args : List Expr} {f : Function}

theorem Expr.Fits.handedOut (placed : List.Forall₂ (Expr.Fits s) f.paramTypes args) :
    HandedOut Expr.isBooleanForm (Expr.Fits s) [] f.paramTypes args :=
  handedOut_behind (fun _ _ form fits => fits.eq_boolie form) placed (Nat.zero_le _)
    (List.forall_mem_nil _)

/-- A call is resolved without a report if its arguments do not cross. -/
theorem Check.resolve_of_not_crossed (found : s.symbols.lookup name = some (.fn f))
    (placed : List.Forall₂ (Expr.Fits s) f.paramTypes args)
    (straight : ¬ Crossed Expr.isBooleanForm (f.paramTypes.zip args)) :
    resolve pos name (Expr.operands args) s = .ok f.returns.ty s := by
  have count : (Expr.operands args).length = f.params.length := by
    rw [Expr.operands_eq_map, List.length_map, ← placed.length_eq, f.length_paramTypes]
  have fit := (Expr.Fits.handedOut placed).right (by simpa [Tangled] using straight)
  have passed : checkArguments name 1
      ((ofList (·.expr.isBooleanForm) (Expr.operands args)).assign f.paramTypes) s = .ok () s := by
    refine checkArguments_run (fun o given => ?_) 1
    rw [Expr.assign_operands] at given
    obtain ⟨a, handed, rfl⟩ := List.mem_map.mp given
    have fits := fit a handed
    exact ⟨fits.accepts rfl, (a.2.zeroFree_iff.mp fits.zeroFree).1⟩
  rw [resolve_user found count, bind_ok passed]
  rfl

/-- A call whose arguments cross does not get to its end under the policy `stop`. -/
theorem Check.resolve_ne_ok_of_crossed (found : s.symbols.lookup name = some (.fn f))
    (placed : List.Forall₂ (Expr.Fits s) f.paramTypes args)
    (crossed : Crossed Expr.isBooleanForm (f.paramTypes.zip args)) {r r' : State} {type : Ty}
    (same : r.symbols = s.symbols) (stop : r.engine.policy = .stop) :
    resolve pos name (Expr.operands args) r ≠ .ok type r' := by
  intro run
  have reads := Expr.operands_readsTable args
  rw [← same] at found
  rcases resolve_ok stop reads run with ⟨g, known, -, -, accepted⟩ | ⟨missing, -⟩
  · obtain rfl : f = g := Symbol.fn.inj (Option.some.inj (found.symm.trans known))
    obtain ⟨x, handed, other, fits⟩ := (Expr.Fits.handedOut placed).wrong (.inl crossed)
    have given : (x.1, x.2.operand) ∈
        (ofList (·.expr.isBooleanForm) (Expr.operands args)).assign f.paramTypes := by
      rw [Expr.assign_operands]
      exact List.mem_map_of_mem handed
    obtain ⟨⟨s₁, s₂, alike, asked⟩, -⟩ := accepted _ given
    have truth := fits.accepts (alike.table.symm.trans same)
    exact other (Expr.eq_of_accepts asked truth)
  · rw [found] at missing
    cases missing

/-- A state is the one of a run that collects, or the one that the same run would stop from. -/
theorem Check.State.eq_collecting_or_stopping (s : State) :
    ∃ r : State, r.engine.policy = .collect ∧ r.symbols = s.symbols ∧
      r.engine.diagnostics = s.engine.diagnostics ∧ (s = r ∨ s = r.stopping) := by
  refine ⟨{ s with engine := { s.engine with policy := .collect } }, rfl, rfl, rfl, ?_⟩
  cases policy : s.engine.policy with
  | collect =>
      refine .inl ?_
      rw [← policy]
  | stop =>
      refine .inr ?_
      unfold State.stopping
      rw [← policy]

/--
Which calls with every argument at its place are accepted. Whatever the symbol table and the policy,
let each argument of a call to a function of the program be accepted on its own at the type of the
parameter at its place, without a diagnostic and without a division by a known zero. Then the call is
resolved to the function's result with nothing reported, exactly if no plain argument of a `boolie`
parameter, parameter of another type and argument in boolean form follow each other in this order.
If they do, a fatal diagnostic is recorded.
-/
theorem positional_calls (empty : s.engine.diagnostics = [])
    (found : s.symbols.lookup name = some (.fn f))
    (placed : List.Forall₂ (Expr.Fits s) f.paramTypes args) :
    (resolve pos name (Expr.operands args) s = .ok f.returns.ty s ↔
        ¬ Crossed Expr.isBooleanForm (f.paramTypes.zip args)) ∧
      (Crossed Expr.isBooleanForm (f.paramTypes.zip args) →
        ∃ d ∈ (stateOf (resolve pos name (Expr.operands args) s)).engine.diagnostics,
          d.severity = .fatal) := by
  have rejected : Crossed Expr.isBooleanForm (f.paramTypes.zip args) →
      ∃ d ∈ (stateOf (resolve pos name (Expr.operands args) s)).engine.diagnostics,
        d.severity = .fatal := by
    intro crossed
    obtain ⟨r, collect, table, clean, either⟩ := s.eq_collecting_or_stopping
    have reads := Expr.resolve_readsTable pos name args
    obtain ⟨type, r', run, -, agrees⟩ := (Disciplined.of_readsTable reads).collects r collect
    have none : r.engine.NoFatal := by
      intro d member
      rw [clean, empty] at member
      cases member
    have agrees := agrees none
    cases stopped : resolve pos name (Expr.operands args) r.stopping with
    | ok type' s' =>
        exact absurd stopped (resolve_ne_ok_of_crossed found placed crossed table rfl)
    | error h s' =>
        rw [stopped] at agrees
        cases agrees with
        | halted _ fatal diagnostics _ =>
            rcases either with rfl | rfl
            · rw [run]
              exact fatal
            · rw [stopped]
              show ∃ d ∈ s'.engine.diagnostics, d.severity = .fatal
              rw [diagnostics]
              exact Diagnostic.exists_fatal_throughFirstFatal fatal
  refine ⟨⟨fun run crossed => ?_, resolve_of_not_crossed found placed⟩, rejected⟩
  obtain ⟨d, member, -⟩ := rejected crossed
  rw [run] at member
  rw [stateOf, empty] at member
  cases member

end

/-- A function with parameters of these types. -/
def mix (types : List ValueType) : Function :=
  { name := "mix", line := 1, params := types.map (⟨"x", ·⟩), returns := .value .int }

/-- A state before a check, in which the function and a truth value are declared. -/
def mixState (types : List ValueType) (policy : Policy) : State :=
  let s := ({ policy } : Options).initialState "main" .empty ({} : Options).newLog
  { s with symbols := (s.symbols.insert (.fn (mix types))).insert (.var (.fresh .boolie "ready" 1)) }

theorem lateComparison_fits (types : List ValueType) (policy : Policy) :
    List.Forall₂ (Expr.Fits (mixState types policy)) [.boolie, .int, .boolie] lateComparison := by
  have ready : Expr.Fits (mixState types policy) .boolie (.ident ⟨1, 2⟩ "ready") :=
    ⟨⟨_, rfl, rfl⟩, Expr.zeroFree_ident⟩
  have number : Expr.Fits (mixState types policy) .int (.int ⟨1, 9⟩ "1" 1) :=
    ⟨⟨_, rfl, rfl⟩, Expr.zeroFree_int⟩
  refine .cons ready (.cons number (.cons ⟨⟨_, rfl, rfl⟩, ?_⟩ .nil))
  exact Expr.zeroFree_binary.mpr
    ⟨by simp [Expr.DividesByZero], Expr.zeroFree_int, Expr.zeroFree_int⟩

/-- `ready, 1 < 2, 1`. -/
def earlyComparison : List Expr := [lateComparison[0], lateComparison[2], lateComparison[1]]

/-- The comparison and the name change places on the way to their parameters, and the call is
accepted. -/
theorem earlyComparison_accepted :
    (mix [.boolie, .boolie, .int]).paramTypes = [.boolie, .boolie, .int] ∧
      (ofList Expr.isBooleanForm earlyComparison).assign [.boolie, .boolie, .int] =
        [ValueType.boolie, .boolie, .int].zip
          [earlyComparison[1], earlyComparison[0], earlyComparison[2]] ∧
      ∀ policy, (mixState [.boolie, .boolie, .int] policy).engine.diagnostics = [] ∧
        (mixState [.boolie, .boolie, .int] policy).symbols.lookup "mix" =
          some (.fn (mix [.boolie, .boolie, .int])) ∧
        List.Forall₂ (Expr.Fits (mixState [.boolie, .boolie, .int] policy)) [.boolie, .boolie, .int]
          earlyComparison ∧
        resolve ⟨1, 0⟩ "mix" (Expr.operands earlyComparison)
            (mixState [.boolie, .boolie, .int] policy) =
          .ok (.value .int) (mixState [.boolie, .boolie, .int] policy) := by
  refine ⟨rfl, rfl, fun policy => ?_⟩
  have found : (mixState [.boolie, .boolie, .int] policy).symbols.lookup "mix" =
      some (.fn (mix [.boolie, .boolie, .int])) := rfl
  obtain _ | ⟨ready, _ | ⟨number, _ | ⟨comparison, _⟩⟩⟩ := lateComparison_fits _ policy
  have placed := List.Forall₂.cons ready (.cons comparison (.cons number .nil))
  have straight : ¬ Crossed Expr.isBooleanForm
      ((mix [.boolie, .boolie, .int]).paramTypes.zip earlyComparison) := by decide +kernel
  exact ⟨rfl, found, placed, (positional_calls rfl found placed).1.mpr straight⟩

/-- Not every call with each argument at its place is accepted: here the comparison goes to the first
parameter, and the name to the one of type `int`. -/
theorem lateComparison_rejected :
    (stateOf (resolve ⟨1, 0⟩ "mix" (Expr.operands lateComparison)
        (mixState [.boolie, .int, .boolie] .stop))).engine.diagnostics.map (·.message) =
      ["Type mismatch in argument 2 of call to mix: expected int."] ∧
    ¬ ∀ (s : State) (pos : Pos) (name : String) (args : List Expr) (f : Function),
      s.engine.diagnostics = [] → s.symbols.lookup name = some (.fn f) →
      List.Forall₂ (Expr.Fits s) f.paramTypes args →
      ∃ s', resolve pos name (Expr.operands args) s = .ok f.returns.ty s' ∧
        s'.engine.diagnostics = [] := by
  refine ⟨by decide +kernel, fun every => ?_⟩
  have found : (mixState [.boolie, .int, .boolie] .stop).symbols.lookup "mix" =
      some (.fn (mix [.boolie, .int, .boolie])) := rfl
  have placed := lateComparison_fits [.boolie, .int, .boolie] .stop
  obtain ⟨s', run, -⟩ := every _ ⟨1, 0⟩ "mix" lateComparison (mix _) rfl found placed
  exact resolve_ne_ok_of_crossed found placed (by decide +kernel) rfl rfl run

end Samo
