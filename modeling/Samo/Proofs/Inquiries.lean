import Samo.Proofs.Messages
import Samo.Proofs.Step

/-!
# What is asked about expressions

An expression is asked for the types of its leaves and whether it is of a type. Both questions are
answered from the built-in functions and from what the names in the expression stand for; whatever
else is declared, the same reports are made and the same answer is given. The reports are about
expressions, they stand in the part of the text that the expression lies in, and an error among them
shows in the answer (`Check.Inquiry`, `Expr.Within.inquiry`).
-/

namespace Samo

/-! ## Names in expressions -/

/-- A name in an expression: one that stands for a value, or one that is called. -/
inductive Mention where
  | value (name : String)
  | callee (name : String)
deriving DecidableEq, Repr

def Mention.name : Mention → String
  | value name => name
  | callee name => name

mutual

/-- The names in an expression, in order. -/
def Expr.mentions : Expr → List Mention
  | .ident _ name => [.value name]
  | .unary _ _ x => x.mentions
  | .binary _ _ x y => x.mentions ++ y.mentions
  | .paren _ x => x.mentions
  | .call _ name args => .callee name :: Expr.mentionsAll args
  | .int .. | .string .. | .boolie .. => []

def Expr.mentionsAll : List Expr → List Mention
  | [] => []
  | e :: es => e.mentions ++ Expr.mentionsAll es

end

namespace Expr

/-- The names that are looked up to find the leaves of an expression. A negation, a comparison and a
logical operation are leaves themselves; the arguments of a call are looked at through and through.
-/
def lookups : Expr → List Mention
  | .ident _ name => [.value name]
  | .unary _ .negate x => x.lookups
  | .binary _ op x y => if op.isArithmetic then x.lookups ++ y.lookups else []
  | .paren _ x => x.lookups
  | .call _ name args => .callee name :: Expr.mentionsAll args
  | .unary _ .not _ | .int .. | .string .. | .boolie .. => []

theorem mentions_subset_mentionsAll {e : Expr} {es : List Expr} (member : e ∈ es) :
    e.mentions ⊆ mentionsAll es := by
  induction es with
  | nil => cases member
  | cons x es ih =>
      rw [mentionsAll]
      rcases List.mem_cons.mp member with rfl | member
      · exact List.subset_append_left _ _
      · exact List.subset_append_of_subset_right _ (ih member)

theorem lookups_subset_mentions (e : Expr) : e.lookups ⊆ e.mentions := by
  induction e using Expr.induction with
  | int | string | boolie | ident | call => exact List.Subset.refl _
  | unary pos op x ih =>
      cases op with
      | not => exact List.nil_subset _
      | negate => exact ih
  | binary pos op x y left right =>
      rw [lookups, mentions]
      split
      · exact List.append_subset.mpr ⟨List.subset_append_of_subset_left _ left,
          List.subset_append_of_subset_right _ right⟩
      · exact List.nil_subset _
  | paren pos x ih => exact ih

end Expr

/-- What the names in an expression stand for. -/
structure Bindings where
  lookup : String → Option Symbol
  builtins : Registry

/-- What the names stand for at some coordinates of a table. -/
def SymbolTable.bindingsAt (t : SymbolTable) (c : Coordinates) : Bindings :=
  ⟨t.lookupFrom c, t.builtins⟩

/-- What the names stand for in the current scope. -/
def SymbolTable.bindings (t : SymbolTable) : Bindings := t.bindingsAt t.current

/-- Some names stand for the same here and there, with the same built-in functions. -/
structure Bindings.AgreesOn (ms : List Mention) (Γ Γ' : Bindings) : Prop where
  lookup : ∀ m ∈ ms, Γ'.lookup m.name = Γ.lookup m.name
  builtins : Γ'.builtins = Γ.builtins

theorem Bindings.AgreesOn.mono {Γ Γ' : Bindings} {ms ms' : List Mention} (more : ms ⊆ ms')
    (agrees : Γ.AgreesOn ms' Γ') : Γ.AgreesOn ms Γ' :=
  ⟨fun m member => agrees.lookup m (more member), agrees.builtins⟩

/-! ## Inquiries -/

namespace Check

/-- The problem that is reported. -/
def Report.problem : Report → Problem
  | .fatal _ problem | .error _ problem => problem

variable {α β : Type}

/-- A step that reads nothing of the table but the built-in functions and what some names stand
for. -/
def ReadsNames (ms : List Mention) (m : Check α) : Prop :=
  ∀ Γ : Bindings, ∃ reports a, ∀ s : State, Γ.AgreesOn ms s.symbols.bindings →
    m s = (makeAll reports >>= fun _ => pure a) s

/-- Such a step whose reports are about expressions and are accounted for. -/
def Inquiry (Q : Pos → Prop) (ms : List Mention) (owed : Prop) (admits : α → Prop)
    (m : Check α) : Prop :=
  ∀ Γ : Bindings, ∃ reports a, Accounted Q owed (admits a) reports ∧
    (∀ r ∈ reports, r.problem.inExpression = true) ∧
    ∀ s : State, Γ.AgreesOn ms s.symbols.bindings → m s = (makeAll reports >>= fun _ => pure a) s

namespace Inquiry

variable {Q : Pos → Prop} {ms ms' : List Mention} {owed owed' : Prop} {admits : α → Prop}
  {admits' : β → Prop} {m m' : Check α}

theorem readsNames (inquiry : Inquiry Q ms owed admits m) : ReadsNames ms m := by
  intro Γ
  obtain ⟨rs, a, -, -, same⟩ := inquiry Γ
  exact ⟨rs, a, same⟩

theorem question (inquiry : Inquiry Q ms owed admits m) : Question Q owed admits m := by
  intro t
  obtain ⟨rs, a, accounted, -, same⟩ := inquiry t.bindings
  refine ⟨rs, a, accounted, fun s here => same s ?_⟩
  rw [here]
  exact ⟨fun _ _ => rfl, rfl⟩

theorem pure {a : α} (settled : owed → admits a) : Inquiry Q ms owed admits (pure a) :=
  fun _ => ⟨[], a, .nil settled, List.forall_mem_nil _, fun _ _ => rfl⟩

/-- A step in two parts. What the first part admits is owed by the second one. -/
theorem bind {f : α → Check β} (first : Inquiry Q ms owed admits m)
    (second : ∀ a, Inquiry Q ms (admits a) admits' (f a)) :
    Inquiry Q ms owed admits' (m >>= f) := by
  intro Γ
  obtain ⟨rs, a, accounted, kind, first⟩ := first Γ
  obtain ⟨rs', b, accounted', kind', second⟩ := second a Γ
  refine ⟨rs ++ rs', b, accounted.append accounted', List.forall_mem_append.mpr ⟨kind, kind'⟩, ?_⟩
  intro s agrees
  exact bind_reports (first s agrees) fun e l => second { s with engine := e, log := l } agrees

theorem ite {c : Prop} [Decidable c] (left : Inquiry Q ms owed admits m)
    (right : Inquiry Q ms owed admits m') : Inquiry Q ms owed admits (if c then m else m') := by
  split
  · exact left
  · exact right

/-- Less may be owed, and more names may be read. -/
theorem weaken (inquiry : Inquiry Q ms owed admits m) (less : owed' → owed) (more : ms ⊆ ms') :
    Inquiry Q ms' owed' admits m := by
  intro Γ
  obtain ⟨rs, a, accounted, kind, same⟩ := inquiry Γ
  exact ⟨rs, a, ⟨accounted.placed, fun owes => accounted.owned (owes.imp_left less)⟩, kind,
    fun s agrees => same s (agrees.mono more)⟩

/-- What is owed may be passed on. -/
theorem carry (inquiry : Inquiry Q ms False admits m) (owed : Prop) :
    Inquiry Q ms owed (fun a => owed ∨ admits a) m := by
  intro Γ
  obtain ⟨rs, a, accounted, rest⟩ := inquiry Γ
  exact ⟨rs, a, accounted.carry owed, rest⟩

/-- A fatal report settles what is owed, whatever the answer. -/
theorem fatal_bind {pos : Pos} (here : Q pos) {p : Problem} (kind : p.inExpression = true)
    {f : Unit → Check α} (second : Inquiry Q ms False admits (f ())) :
    Inquiry Q ms owed admits (Check.fatal pos p >>= f) := by
  have first : Inquiry Q ms owed (fun _ => False) (Check.fatal pos p) := by
    refine fun _ => ⟨[.fatal pos p], (), ⟨?_, fun _ => .inl ?_⟩, ?_, fun _ _ => ?_⟩
    · exact List.forall_mem_singleton.mpr here
    · exact ⟨_, List.mem_singleton_self _, rfl⟩
    · exact List.forall_mem_singleton.mpr kind
    · simp [makeAll, Report.make]
  exact first.bind fun _ => second

/-- An error is admitted by the answer that follows it. -/
theorem error_bind {pos : Pos} (here : Q pos) {p : Problem} (kind : p.inExpression = true) {a : α}
    (admitted : admits a) :
    Inquiry Q ms owed admits (Check.error pos p >>= fun _ => Pure.pure a) := by
  have first : Inquiry Q ms owed (fun _ => True) (Check.error pos p) := by
    refine fun _ => ⟨[.error pos p], (), ⟨?_, fun _ => .inr trivial⟩, ?_, fun _ _ => ?_⟩
    · exact List.forall_mem_singleton.mpr here
    · exact List.forall_mem_singleton.mpr kind
    · simp [makeAll, Report.make]
  exact first.bind fun _ => pure fun _ => admitted

theorem lookup {m : Mention} (member : m ∈ ms) :
    Inquiry Q ms owed (fun _ => owed) (lookup m.name) := by
  refine fun Γ => ⟨[], Γ.lookup m.name, .nil id, List.forall_mem_nil _, fun s agrees => ?_⟩
  rw [lookup_run, ← agrees.lookup m member]
  rfl

/-- A step that looks at the table first, but only at the built-in functions. -/
theorem builtins {f : SymbolTable → Check α} (only : ∀ t t', t'.builtins = t.builtins → f t' = f t)
    (each : ∀ t, Inquiry Q ms owed admits (f t)) : Inquiry Q ms owed admits (symbols >>= f) := by
  intro Γ
  obtain ⟨rs, a, accounted, kind, same⟩ := each (.init Γ.builtins) Γ
  refine ⟨rs, a, accounted, kind, fun s agrees => ?_⟩
  rw [bind_ok (symbols_run s), only (.init Γ.builtins) s.symbols agrees.builtins]
  exact same s agrees

theorem checkConstant {e : Expr} (within : e.Within Q) :
    Inquiry Q ms False (fun _ => False) (checkConstant e) := by
  unfold Check.checkConstant
  split
  · exact pure id
  · exact fatal_bind within.start rfl (pure id)

end Inquiry

end Check

/-! ## Operands -/

open Check

/--
An operand in a part of a text, with names from a list. If an error is reported when it is asked
whether it is of a type, then the answer is no, or there is a fatal report.
-/
structure Operand.Inquiry (Q : Pos → Prop) (ms : List Mention) (o : Operand) : Prop where
  within : o.expr.Within Q
  leaves : Check.Inquiry Q ms False (fun _ => False) o.leaves
  accepts : ∀ type, Check.Inquiry Q ms False (· = false) (o.accepts type)

namespace Operand.Inquiry

variable {Q : Pos → Prop} {ms : List Mention} {x y : Operand}

theorem detect (inquiry : x.Inquiry Q ms) : Check.Inquiry Q ms False (fun _ => False) x.detect :=
  inquiry.leaves.bind fun _ => .pure id

theorem bothAccept (left : x.Inquiry Q ms) (right : y.Inquiry Q ms) (type : ValueType) :
    Check.Inquiry Q ms False (· = false) (x.bothAccept y type) := by
  refine (left.accepts type).bind fun l => ((right.accepts type).carry _).bind fun r => .pure ?_
  rintro (no | no)
  · rw [no, Bool.false_and]
  · rw [no, Bool.and_false]

end Operand.Inquiry

namespace Check.Inquiry

variable {Q : Pos → Prop} {ms : List Mention}

theorem checkArguments (callee : String) (index : Nat) {args : List (ValueType × Operand)}
    (asks : ∀ x ∈ args, x.2.Inquiry Q ms) :
    Inquiry Q ms False (fun _ => False) (checkArguments callee index args) := by
  induction args generalizing index with
  | nil => exact pure id
  | cons x rest ih =>
      obtain ⟨type, a⟩ := x
      obtain ⟨first, others⟩ := List.forall_mem_cons.mp asks
      have after := ih (index + 1) others
      unfold Check.checkArguments
      refine (first.accepts type).bind fun accepted => ?_
      cases accepted with
      | true =>
          exact ((checkConstant first.within).bind fun _ => after).weaken Bool.noConfusion
            (List.Subset.refl _)
      | false => exact fatal_bind first.within.start rfl after

theorem argumentTypes (callee : String) (index : Nat) {args : List Operand}
    (asks : ∀ a ∈ args, a.Inquiry Q ms) :
    Inquiry Q ms False (fun _ => False) (argumentTypes callee index args) := by
  induction args generalizing index with
  | nil => exact pure id
  | cons a rest ih =>
      obtain ⟨first, others⟩ := List.forall_mem_cons.mp asks
      unfold Check.argumentTypes
      refine first.detect.bind fun d => ?_
      split
      · exact fatal_bind first.within.start rfl (pure id)
      split
      · exact fatal_bind first.within.start rfl (pure id)
      · exact (ih (index + 1) others).bind fun _ => pure id

section

variable {pos : Pos} (here : Q pos) {args : List Operand} (asks : ∀ a ∈ args, a.Inquiry Q ms)

include here asks

theorem resolveUser (callee : String) (f : Function) :
    Inquiry Q ms False (fun _ => False) (resolveUser pos callee f args) := by
  unfold Check.resolveUser
  dsimp only
  split
  · exact fatal_bind here rfl (pure id)
  · refine (checkArguments callee 1 fun x member => ?_).bind fun _ => pure id
    exact asks x.2 (Queues.mem_of_mem_assign member)

theorem resolveBuiltin (callee : String) (o : Overloads) :
    Inquiry Q ms False (fun _ => False) (resolveBuiltin pos callee o args) := by
  unfold Check.resolveBuiltin
  refine (argumentTypes callee 1 asks).bind fun found => ?_
  split
  · exact pure id
  refine builtins (fun t t' same => by rw [same]) fun t => ?_
  split
  · exact fatal_bind here rfl (pure id)
  · exact fatal_bind here rfl (pure id)
  · refine (checkArguments callee 1 fun x member => ?_).bind fun _ => pure id
    exact asks x.2 (List.of_mem_zip member).2

theorem resolve {callee : String} (member : .callee callee ∈ ms) :
    Inquiry Q ms False (fun _ => False) (resolve pos callee args) := by
  unfold Check.resolve
  refine (lookup member).bind fun found => ?_
  split
  · exact resolveUser here asks callee _
  · exact fatal_bind here rfl (pure id)
  · refine builtins (fun t t' same => by rw [same]) fun t => ?_
    split
    · exact resolveBuiltin here asks callee _
    · exact fatal_bind here rfl (pure id)

end

theorem identifier {pos : Pos} (here : Q pos) {name : String} (member : .value name ∈ ms) :
    Inquiry Q ms False (fun _ => False) (identifier pos name) := by
  unfold Check.identifier
  refine (lookup member).bind fun found => ?_
  split
  · exact pure id
  · exact fatal_bind here rfl (pure id)

/-- Every error in a comparison makes the answer no. -/
theorem checkComparison {pos : Pos} (here : Q pos) (op : BinaryOp) {x y : Operand}
    (left : x.Inquiry Q ms) (right : y.Inquiry Q ms) :
    Inquiry Q ms False (· = false) (checkComparison pos op x y) := by
  unfold Check.checkComparison
  refine left.detect.bind fun d => ite (error_bind here rfl rfl) ?_
  refine right.detect.bind fun d' => ite (error_bind here rfl rfl) ?_
  refine ite (error_bind here rfl rfl) (ite (error_bind here rfl rfl) ?_)
  split
  · exact pure fun _ => rfl
  · exact left.bothAccept right _

end Check.Inquiry

/-! ## Expressions -/

namespace Expr

variable {Q : Pos → Prop} {ms : List Mention}

/-- Which question a binary expression asks of its operands. -/
theorem accepts_binary (p : Pos) (op : BinaryOp) (x y : Expr) (type : ValueType) :
    (binary p op x y).accepts type =
      match op.family, type with
      | .arithmetic, .int => x.operand.bothAccept y.operand .int
      | .arithmetic, .string =>
        if op = .add then x.operand.bothAccept y.operand .string else return false
      | .logical, .boolie => x.operand.bothAccept y.operand .boolie
      | .relational, .boolie => checkComparison p op x.operand y.operand
      | .equality, .boolie => checkComparison p op x.operand y.operand
      | _, _ => return false := by
  conv => lhs; unfold accepts
  rfl

/-- The leaves of an expression depend on the names looked up for them, and its types on the names
in it. -/
structure Inquired (Q : Pos → Prop) (e : Expr) : Prop where
  within : e.Within Q
  leaves : Inquiry Q e.lookups False (fun _ => False) e.leaves
  accepts : ∀ type, Inquiry Q e.mentions False (· = false) (e.accepts type)

theorem Inquired.operand {e : Expr} (inquired : e.Inquired Q) (more : e.mentions ⊆ ms) :
    e.operand.Inquiry Q ms := by
  refine ⟨inquired.within, ?_, fun type => (inquired.accepts type).weaken id more⟩
  exact inquired.leaves.weaken id (List.Subset.trans e.lookups_subset_mentions more)

theorem Inquired.operands {args : List Expr} (inquired : ∀ a ∈ args, a.Inquired Q)
    (more : mentionsAll args ⊆ ms) : ∀ o ∈ operands args, o.Inquiry Q ms := by
  intro o member
  rw [operands_eq_map] at member
  obtain ⟨a, given, rfl⟩ := List.mem_map.mp member
  exact (inquired a given).operand (List.Subset.trans (mentions_subset_mentionsAll given) more)

/-- Whatever is asked about an expression is asked about its names. -/
theorem Within.inquired {e : Expr} (within : e.Within Q) : e.Inquired Q := by
  induction within with
  | int here | string here | boolie here =>
      refine ⟨by constructor; exact here, ?_, fun type => ?_⟩
      · rw [leaves]
        exact .pure id
      · rw [accepts]
        exact .pure False.elim
  | @ident p name here =>
      have member : Mention.value name ∈ [Mention.value name] := List.mem_singleton_self _
      refine ⟨.ident here, ?_, fun type => ?_⟩
      · rw [leaves]
        exact (Inquiry.identifier here member).bind fun _ => .pure id
      · rw [accepts]
        exact (Inquiry.identifier here member).bind fun _ => .pure False.elim
  | @unary p op x here inner ih =>
      refine ⟨.unary here inner, ?_, fun type => ?_⟩
      · cases op with
        | not =>
            rw [leaves]
            exact .pure id
        | negate =>
            rw [leaves]
            exact ih.leaves
      · cases op with
        | not =>
            rw [accepts]
            exact .ite (ih.accepts .boolie) (.pure False.elim)
        | negate =>
            rw [accepts]
            exact .ite (ih.accepts .int) (.pure False.elim)
  | @binary p op x y here first second left right =>
      refine ⟨.binary here first second, ?_, fun type => ?_⟩
      · rw [leaves, lookups]
        split
        · refine (left.leaves.weaken id (List.subset_append_left _ _)).bind fun _ => ?_
          exact (right.leaves.weaken id (List.subset_append_right _ _)).bind fun _ => .pure id
        · exact .pure id
      · have left := left.operand (List.subset_append_left x.mentions y.mentions)
        have right := right.operand (List.subset_append_right x.mentions y.mentions)
        rw [accepts_binary, mentions]
        split
        · exact left.bothAccept right .int
        · exact .ite (left.bothAccept right .string) (.pure False.elim)
        · exact left.bothAccept right .boolie
        · exact .checkComparison here op left right
        · exact .checkComparison here op left right
        · exact .pure False.elim
  | @paren p x here inner ih =>
      refine ⟨.paren here inner, ?_, fun type => ?_⟩
      · rw [leaves]
        exact ih.leaves
      · rw [accepts]
        exact ih.accepts type
  | @call p f args here inner ih =>
      -- the name of the callee is asked about along with those in the arguments
      have asks := Inquiry.resolve here (Inquired.operands ih (List.subset_cons_self (.callee f) _))
        List.mem_cons_self
      refine ⟨.call here inner, ?_, fun type => ?_⟩
      · rw [leaves]
        refine asks.bind fun result => ?_
        split
        · exact .fatal_bind here rfl (.pure id)
        · exact .pure id
      · rw [accepts]
        exact asks.bind fun _ => .pure False.elim

namespace Within

theorem accepts {e : Expr} (within : e.Within Q) (type : ValueType) :
    Question Q False (· = false) (e.accepts type) := (within.inquired.accepts type).question

theorem detect {e : Expr} (within : e.Within Q) : Question Q False (fun _ => False) e.detect :=
  (within.inquired.operand (List.Subset.refl _)).detect.question

theorem resolve {pos : Pos} (here : Q pos) (f : String) {args : List Expr}
    (within : ∀ a ∈ args, a.Within Q) :
    Question Q False (fun _ => False) (resolve pos f (operands args)) := by
  have asks := Inquired.operands (fun a given => (within a given).inquired)
    (List.subset_cons_self (.callee f) _)
  exact (Inquiry.resolve here asks List.mem_cons_self).question

end Within

end Expr

end Samo
