import Samo.Proofs.Composition
import Samo.Proofs.Passes
import Samo.Proofs.TokenOrder
import Samo.Proofs.Scripts

/-!
# Whose events they are

A function that passes comes from a definition. `Check.Passing` attributes the events of a check to
definitions: what is told before a function is listed lies in its body, and everything else lies
outside of its definition. Parts of a text that stand one behind the other can be put together
(`Passing.append_ordered`), and `Passing.heard` says what can be heard of a definition that is
listed.
-/

namespace Samo

namespace Check

variable {α β : Type}

/-! ## Steps that list nothing -/

/-- From a state, a step lists no function and stays in its function. `P` relates what it gives to
what it reports. -/
def TracedAt (s : State) (P : α → List Report → Prop) (m : Check α) : Prop :=
  ∃ es a s', Tells m s es a s' ∧ Event.functions es = [] ∧
    s'.currentFunction = s.currentFunction ∧ P a (Event.reports es)

/-- A step lists no function and stays in its function. -/
def Traced (P : α → List Report → Prop) (m : Check α) : Prop := ∀ s, TracedAt s P m

/-- A look at the surroundings. -/
theorem TracedAt.read {P : α → List Report → Prop} {f : State → Check α} {s : State}
    (same : ∀ e l, f { s with engine := e, log := l } = f s) (each : TracedAt s P (f s)) :
    TracedAt s P (get >>= f) := by
  obtain ⟨es, a, s', tells, rest⟩ := each
  exact ⟨es, a, s', .read same tells, rest⟩

namespace Traced

variable {P : α → List Report → Prop} {P' : β → List Report → Prop}

theorem pure {a : α} (good : P a []) : Traced P (pure a : Check α) :=
  fun s => ⟨[], a, s, .pure a s, rfl, rfl, good⟩

theorem bind {m : Check α} {f : α → Check β} (first : Traced P m)
    (second : ∀ a rs, P a rs → Traced (fun b rs' => P' b (rs ++ rs')) (f a)) :
    Traced P' (m >>= f) := by
  intro s
  obtain ⟨es, a, s₁, tells, none, kept, good⟩ := first s
  obtain ⟨es', b, s₂, tells', none', kept', good'⟩ := second a _ good s₁
  refine ⟨es ++ es', b, s₂, tells.bind tells', ?_, kept'.trans kept, ?_⟩
  · rw [Event.functions_append, none, none', List.append_nil]
  · rw [Event.reports_append]
    exact good'

theorem ite {c : Prop} [Decidable c] {m m' : Check α} (left : Traced P m) (right : Traced P m') :
    Traced P (if c then m else m') := by
  split
  · exact left
  · exact right

theorem modifySymbols (f : SymbolTable → SymbolTable) :
    Traced (fun _ rs => rs = []) (modifySymbols f) :=
  fun s => ⟨[], (), _, .modifySymbols f s, rfl, rfl, rfl⟩

theorem debug (message : String) : Traced (fun _ rs => rs = []) (debug message) :=
  fun s => ⟨[], (), s, .debug message s, rfl, rfl, rfl⟩

theorem warn (pos : Pos) (p : Problem) : Traced (fun _ rs => rs = []) (warn pos p) :=
  fun s => ⟨[.warning pos p], (), s, .warn pos p s, rfl, rfl, rfl⟩

theorem error (pos : Pos) (p : Problem) : Traced (fun _ _ => True) (error pos p) :=
  fun s => ⟨[.report (.error pos p)], (), s, .error pos p s, rfl, rfl, trivial⟩

theorem of_question {Q : Pos → Prop} {owed : Prop} {admits : α → Prop} {m : Check α}
    (question : Question Q owed admits m) :
    Traced (fun a rs => Accounted Q owed (admits a) rs) m := by
  intro s
  obtain ⟨rs, a, accounted, tells⟩ := question.tells s
  refine ⟨_, a, s, tells, Event.functions_map_report rs, rfl, ?_⟩
  rw [Event.reports_map_report]
  exact accounted

theorem mono {P' : α → List Report → Prop} {m : Check α} (traced : Traced P m)
    (weaker : ∀ a rs, P a rs → P' a rs) : Traced P' m := by
  intro s
  obtain ⟨es, a, s', tells, none, kept, good⟩ := traced s
  exact ⟨es, a, s', tells, none, kept, weaker _ _ good⟩

/-- Nothing is asked of the reports. -/
theorem of_reads {m : Check α} (reads : ReadsTable m) : Traced (fun _ _ => True) m :=
  (of_question (reads.question False)).mono fun _ _ _ => trivial

theorem accounted {Q : Pos → Prop} {m : Check α} (traced : Traced (fun _ rs => rs = []) m) :
    Traced (fun _ rs => Accounted Q False False rs) m :=
  traced.mono fun _ _ none => none ▸ .nil id

theorem declaring {Q : Pos → Prop} :
    Declaring Q (Traced fun _ rs => Accounted Q False False rs) where
  ask := of_question
  bind first second := first.bind fun a _ good => (second a).mono fun _ _ => good.append
  look same each s := .read (same s) (each s s)
  insert _ := (modifySymbols _).accounted
  debug message := (debug message).accounted

theorem symbols : Traced (fun _ rs => rs = []) symbols := by
  refine fun s => ⟨[], s.symbols, s, .silent rfl ?_, rfl, rfl, rfl⟩
  rintro t ⟨e, l, rfl⟩
  exact ⟨l, rfl⟩

theorem lookup (name : String) : Traced (fun _ rs => rs = []) (lookup name) :=
  symbols.bind fun _ _ none => pure (by rw [none]; rfl)

/-- A name that can be declared is not reported. -/
theorem checkDeclarable (pos : Pos) (name : String) :
    Traced (fun free rs => free = true → rs = []) (checkDeclarable pos name) := by
  refine symbols.bind fun t rs none => ?_
  subst none
  refine ite ((of_reads (.fatal _ _)).bind fun _ _ _ => pure Bool.noConfusion) ?_
  refine (lookup name).bind fun found rs none => ?_
  subst none
  cases found with
  | some previous => exact (of_reads (.fatal _ _)).bind fun _ _ _ => pure Bool.noConfusion
  | none => exact pure fun _ => rfl

/-- A parameter that is declared is not reported. -/
theorem declareParam (function : String) (p : Param) :
    Traced (fun found rs => ∀ q ∈ found,
      rs = [] ∧ (q.name, TypeName.value q.type) = (p.name, p.type)) (declareParam function p) := by
  unfold Check.declareParam
  cases type : p.type with
  | void => exact (of_reads (.fatal _ _)).bind fun _ _ _ => pure fun q none => by cases none
  | value v =>
      refine (checkDeclarable p.namePos p.name).bind fun free rs silent => ?_
      cases free with
      | false => exact pure fun q none => by cases none
      | true =>
          refine (modifySymbols _).bind fun _ rs' none => pure fun q same => ?_
          cases same
          exact ⟨by rw [silent rfl, none]; rfl, rfl⟩

/-- Parameters that are declared are not reported. -/
theorem declareParams (function : String) (ps : List Param) :
    Traced (fun found rs => ∀ qs ∈ found, rs = [] ∧
      qs.map (fun q => (q.name, TypeName.value q.type)) = ps.map (fun p => (p.name, p.type)))
      (declareParams function ps) := by
  induction ps with
  | nil => exact pure fun qs same => by cases same; exact ⟨rfl, rfl⟩
  | cons p ps ih =>
      refine (declareParam function p).bind fun first rs one => ih.bind fun rest rs' others => ?_
      refine pure fun qs same => ?_
      obtain ⟨q, rfl, same⟩ := Option.bind_eq_some_iff.mp same
      obtain ⟨qs', rfl, rfl⟩ := Option.map_eq_some_iff.mp same
      obtain ⟨none, described⟩ := one q rfl
      obtain ⟨none', described'⟩ := others qs' rfl
      exact ⟨by rw [none, none']; rfl, by rw [List.map_cons, List.map_cons, described, described']⟩

/-- A function that is declared is not reported so far. It is declared outside of all functions. -/
theorem beginFunction (pos : Pos) (h : Header) (s : State) :
    TracedAt s (fun found rs => ∀ f ∈ found, s.currentFunction = none ∧ rs = [] ∧ h.Describes f ∧
      f.line = h.namePos.line) (beginFunction pos h) := by
  apply TracedAt.read
  · exact fun _ _ => rfl
  split
  · exact (of_reads (.fatal _ _)).bind (fun _ _ _ => pure fun f none => by cases none) s
  next inside =>
  have outside : s.currentFunction = none := by simpa using inside
  refine symbols.bind (fun t rs none => ?_) s
  subst none
  refine ite ((of_reads (.fatal _ _)).bind fun _ _ _ => pure fun f none => by cases none) ?_
  refine (lookup h.name).bind fun found rs none => ?_
  subst none
  cases found with
  | some previous =>
      exact (of_reads (.fatal _ _)).bind fun _ _ _ => pure fun f none => by cases none
  | none =>
      refine (debug _).bind fun _ rs none => (modifySymbols _).bind fun _ rs' none' => ?_
      subst none none'
      refine (declareParams h.name h.params).bind fun params rs described => ?_
      refine (modifySymbols _).bind fun _ rs' none => ?_
      subst none
      cases params with
      | none => exact pure fun f none => by cases none
      | some qs =>
          obtain ⟨silent, same⟩ := described qs rfl
          subst silent
          refine symbols.bind fun t rs none => (modifySymbols _).bind fun _ rs' none' => ?_
          subst none none'
          exact pure fun f given => by cases given; exact ⟨outside, rfl, ⟨rfl, same, rfl⟩, rfl⟩

end Traced

end Check

/-! ## Definitions -/

instance (h : Header) (f : Function) : Decidable (h.Describes f) :=
  decidable_of_iff (f.name = h.name ∧
    f.params.map (fun q => (q.name, TypeName.value q.type)) =
      h.params.map (fun p => (p.name, p.type)) ∧ f.returns = h.result)
    ⟨fun all => ⟨all.1, all.2.1, all.2.2⟩, fun all => ⟨all.name, all.params, all.returns⟩⟩

instance (d : Diagnostic) : Decidable d.Fails := inferInstanceAs (Decidable (_ ∨ _))

/-- The definition of a function. -/
structure Definition where
  pos : Pos
  header : Header
  body : Block

/-- The position is in the block, or one of its braces. -/
def Block.Covers (b : Block) (p : Pos) : Prop := ¬ p.Before b.start ∧ ¬ b.stop.Before p

instance (b : Block) (p : Pos) : Decidable (b.Covers p) := inferInstanceAs (Decidable (_ ∧ _))

namespace Definition

/-- The position is on the definition: from its first word to its closing brace. -/
def Covers (d : Definition) (p : Pos) : Prop := ¬ p.Before d.pos ∧ ¬ d.body.stop.Before p

instance (d : Definition) (p : Pos) : Decidable (d.Covers p) := inferInstanceAs (Decidable (_ ∧ _))

theorem covers_of_body {d : Definition} (first : d.pos.Before d.body.start) {p : Pos}
    (inside : d.body.Covers p) : d.Covers p :=
  ⟨fun early => inside.1 (early.trans first), inside.2⟩

/-- The function comes from the definition. -/
structure Describes (d : Definition) (f : Function) : Prop where
  header : d.header.Describes f
  line : f.line = d.header.namePos.line

instance (d : Definition) (f : Function) : Decidable (d.Describes f) :=
  decidable_of_iff (d.header.Describes f ∧ f.line = d.header.namePos.line)
    ⟨fun both => ⟨both.1, both.2⟩, fun both => ⟨both.header, both.line⟩⟩

end Definition

mutual

/-- The definitions in a statement, in the order in which they start. -/
def Stmt.definitions : Stmt → List Definition
  | .block body => body.definitions
  | .define pos header body => ⟨pos, header, body⟩ :: body.definitions
  | .branch _ _ body rest => body.definitions ++ rest.definitions
  | .loop _ _ body => body.definitions
  | .maybe _ _ body => body.definitions
  | .maybeOtherwise _ _ body _ alternative => body.definitions ++ alternative.definitions
  | .declare .. | .infer .. | .assign .. | .call .. | .breakOut _ | .continueOn _ | .returnWith ..
  | .needs .. | .bad .. => []

def Block.definitions : Block → List Definition
  | .mk _ _ stmts => Stmt.definitionsAll stmts

def Stmt.definitionsAll : List Stmt → List Definition
  | [] => []
  | s :: ss => s.definitions ++ Stmt.definitionsAll ss

def Branches.definitions : Branches → List Definition
  | .done => []
  | .otherwise _ body => body.definitions
  | .elseIf _ _ body rest => body.definitions ++ rest.definitions

end

/-- The definitions in a program, in the order in which they start. -/
def Program.definitions (program : Program) : List Definition := Stmt.definitionsAll program

namespace Check

/-! ## Events that are attributed to definitions -/

/-- Events that list no function, whose reports are accounted for in a part of a text. -/
structure Quiet (Q : Pos → Prop) (es : List Event) : Prop where
  functions : Event.functions es = []
  accounted : Accounted Q False False (Event.reports es)

namespace Quiet

variable {Q Q' : Pos → Prop} {es es' : List Event}

theorem append (first : Quiet Q es) (second : Quiet Q es') : Quiet Q (es ++ es') := by
  refine ⟨?_, ?_⟩
  · rw [Event.functions_append, first.functions, second.functions, List.append_nil]
  · rw [Event.reports_append]
    exact first.accounted.append second.accounted

theorem mono (quiet : Quiet Q es) (wider : ∀ p, Q p → Q' p) : Quiet Q' es :=
  ⟨quiet.functions, fun r member => wider _ (quiet.accounted.placed r member),
    quiet.accounted.owned⟩

end Quiet

/--
Events in a part of a text. The functions that are listed come from definitions there. What is
reported before a function is listed lies in its body, and what else is reported lies outside of its
definition.
-/
inductive Passing : (Pos → Prop) → List Event → List (Definition × Function) → Prop
  | quiet {Q es} : Quiet Q es → Passing Q es []
  | listed {Q : Pos → Prop} {d : Definition} {f es} : d.Describes f → Q d.pos → Q d.body.stop →
      d.pos.Before d.body.start → Quiet (fun p => Q p ∧ d.body.Covers p) es →
      Passing Q (es ++ [.listed f]) [(d, f)]
  | append {Q Q₁ Q₂ : Pos → Prop} {es es' ds ds'} :
      Passing Q₁ es ds → Passing Q₂ es' ds' → (∀ p, Q₁ p → Q p) → (∀ p, Q₂ p → Q p) →
      (∀ x ∈ ds, ∀ p, Q₂ p → ¬ x.1.Covers p) → (∀ x ∈ ds', ∀ p, Q₁ p → ¬ x.1.Covers p) →
      (∀ x ∈ ds, ∀ y ∈ ds', x.1.body.stop.Before y.1.pos) → Passing Q (es ++ es') (ds ++ ds')

namespace Passing

variable {Q : Pos → Prop} {es : List Event} {ds : List (Definition × Function)}

theorem placed (passing : Passing Q es ds) : ∀ r ∈ Event.reports es, Q r.pos := by
  induction passing with
  | quiet quiet => exact quiet.accounted.placed
  | listed _ _ _ _ quiet =>
      rw [Event.reports_listed]
      exact fun r member => (quiet.accounted.placed r member).1
  | append _ _ left right _ _ _ ih ih' =>
      rw [Event.reports_append]
      intro r member
      rcases List.mem_append.mp member with member | member
      · exact left _ (ih r member)
      · exact right _ (ih' r member)

/-- The definitions start and end in the part of the text. -/
theorem ends (passing : Passing Q es ds) : ∀ x ∈ ds, Q x.1.pos ∧ Q x.1.body.stop := by
  induction passing with
  | quiet => exact List.forall_mem_nil _
  | listed _ start stop _ _ => exact List.forall_mem_singleton.mpr ⟨start, stop⟩
  | append _ _ left right _ _ _ ih ih' =>
      intro x member
      rcases List.mem_append.mp member with member | member
      · exact ⟨left _ (ih x member).1, left _ (ih x member).2⟩
      · exact ⟨right _ (ih' x member).1, right _ (ih' x member).2⟩

theorem mono {Q' : Pos → Prop} (passing : Passing Q es ds) (wider : ∀ p, Q p → Q' p) :
    Passing Q' es ds := by
  cases passing with
  | quiet inner => exact quiet (inner.mono wider)
  | listed describes start stop first inner =>
      exact listed describes (wider _ start) (wider _ stop) first
        (inner.mono fun p here => ⟨wider p here.1, here.2⟩)
  | append first second left right apart apart' order =>
      exact append first second (fun p here => wider p (left p here))
        (fun p here => wider p (right p here)) apart apart' order

/-- Two parts of a text, one behind the other. -/
theorem append_ordered {region region' : List Pos} {es' : List Event}
    {ds' : List (Definition × Function)} (first : Passing (· ∈ region) es ds)
    (second : Passing (· ∈ region') es' ds') (order : ∀ p ∈ region, ∀ q ∈ region', p.Before q) :
    Passing (· ∈ region ++ region') (es ++ es') (ds ++ ds') := by
  refine append first second (fun p => List.mem_append_left _) (fun p => List.mem_append_right _)
    ?_ ?_ ?_
  · exact fun x member p here covers => covers.2 (order _ (first.ends x member).2 p here)
  · exact fun x member p here covers => covers.1 (order p here _ (second.ends x member).1)
  · exact fun x member y member' => order _ (first.ends x member).2 _ (second.ends y member').1

theorem quiet_of_nil (passing : Passing Q es ds) (none : ds = []) : Quiet Q es := by
  induction passing with
  | quiet inner => exact inner
  | listed => cases none
  | append _ _ left right _ _ _ ih ih' =>
      obtain ⟨rfl, rfl⟩ := List.append_eq_nil_iff.mp none
      exact ((ih rfl).mono left).append ((ih' rfl).mono right)

theorem functions_eq (passing : Passing Q es ds) : Event.functions es = ds.map Prod.snd := by
  induction passing with
  | quiet inner => exact inner.functions
  | listed _ _ _ _ inner =>
      rw [Event.functions_append, inner.functions]
      rfl
  | append _ _ _ _ _ _ _ ih ih' => rw [Event.functions_append, ih, ih', List.map_append]

theorem describes (passing : Passing Q es ds) : ∀ x ∈ ds, x.1.Describes x.2 := by
  induction passing with
  | quiet => exact List.forall_mem_nil _
  | listed describes => exact List.forall_mem_singleton.mpr describes
  | append _ _ _ _ _ _ _ ih ih' => exact List.forall_mem_append.mpr ⟨ih, ih'⟩

/-- The definitions stand one behind the other. -/
theorem ordered (passing : Passing Q es ds) :
    ds.Pairwise fun x y => x.1.body.stop.Before y.1.pos := by
  induction passing with
  | quiet => exact .nil
  | listed => exact List.pairwise_singleton _ _
  | append _ _ _ _ _ _ order ih ih' => exact List.pairwise_append.mpr ⟨ih, ih', order⟩

theorem starts (passing : Passing Q es ds) : ∀ x ∈ ds, x.1.pos.Before x.1.body.start := by
  induction passing with
  | quiet => exact List.forall_mem_nil _
  | listed _ _ _ first => exact List.forall_mem_singleton.mpr first
  | append _ _ _ _ _ _ _ ih ih' => exact List.forall_mem_append.mpr ⟨ih, ih'⟩

/-- If there is a report on a listed definition, then there is a fatal one in its body. -/
theorem reported (passing : Passing Q es ds) :
    ∀ x ∈ ds, (∃ r ∈ Event.reports es, x.1.Covers r.pos) →
      ∃ r ∈ Event.reports es, r.isFatal = true ∧ x.1.body.Covers r.pos := by
  induction passing with
  | quiet => exact List.forall_mem_nil _
  | listed _ _ _ _ inner =>
      refine List.forall_mem_singleton.mpr ?_
      rw [Event.reports_listed]
      rintro ⟨r, member, -⟩
      cases mild : r.isFatal with
      | true => exact ⟨r, member, mild, (inner.accounted.placed r member).2⟩
      | false =>
          rcases inner.accounted.owned (.inr ⟨r, member, mild⟩) with ⟨r', member', fatal⟩ | none
          · exact ⟨r', member', fatal, (inner.accounted.placed r' member').2⟩
          · exact none.elim
  | append first second _ _ apart apart' _ ih ih' =>
      rw [Event.reports_append]
      rintro x member ⟨r, reported, covers⟩
      rcases List.mem_append.mp member with left | right
      · rcases List.mem_append.mp reported with own | other
        · obtain ⟨r', own', fatal⟩ := ih x left ⟨r, own, covers⟩
          exact ⟨r', List.mem_append_left _ own', fatal⟩
        · exact absurd covers (apart x left _ (second.placed r other))
      · rcases List.mem_append.mp reported with other | own
        · exact absurd covers (apart' x right _ (first.placed r other))
        · obtain ⟨r', own', fatal⟩ := ih' x right ⟨r, own, covers⟩
          exact ⟨r', List.mem_append_right _ own', fatal⟩

/-- Of what is heard under the policy `stop`, nothing is a report on a listed definition. -/
theorem throughFatal (passing : Passing Q es ds) :
    ∃ heard : List (Definition × Function), heard.Sublist ds ∧
      Event.functions (Event.throughFatal es) = heard.map Prod.snd ∧
      ∀ x ∈ heard, ∀ r ∈ Event.reports (Event.throughFatal es), ¬ x.1.Covers r.pos := by
  induction passing with
  | quiet inner =>
      exact ⟨[], .refl _, Event.functions_throughFatal inner.functions, List.forall_mem_nil _⟩
  | @listed Q d f es _ _ _ _ inner =>
      -- a fatal report cuts off the listing, which comes last
      by_cases fatal : ∃ e ∈ es, e.isFatal = true
      · rw [Event.throughFatal_append fatal]
        exact ⟨[], List.nil_sublist _, Event.functions_throughFatal inner.functions,
          List.forall_mem_nil _⟩
      · -- an error would come with a fatal report
        have none : Event.reports es = [] := by
          refine List.eq_nil_iff_forall_not_mem.mpr fun r member => ?_
          rw [Event.exists_fatal_iff] at fatal
          cases mild : r.isFatal with
          | true => exact fatal ⟨r, member, mild⟩
          | false => exact (inner.accounted.owned (.inr ⟨r, member, mild⟩)).elim fatal id
        have mild : ∀ e ∈ es ++ [.listed f], e.isFatal = false := by
          intro e member
          rcases List.mem_append.mp member with own | last
          · rw [Bool.eq_false_iff]
            exact fun bad => fatal ⟨e, own, bad⟩
          · rw [List.mem_singleton.mp last]
            rfl
        rw [Event.throughFatal_of_none mild, Event.reports_listed, none]
        refine ⟨[(d, f)], .refl _, ?_, fun x _ r member => by cases member⟩
        rw [Event.functions_append, inner.functions]
        rfl
  | @append Q Q₁ Q₂ es es' ds ds' first second _ _ apart apart' _ ih ih' =>
      obtain ⟨heard, sub, functions, apart₁⟩ := ih
      by_cases fatal : ∃ e ∈ es, e.isFatal = true
      · rw [Event.throughFatal_append fatal]
        exact ⟨heard, sub.trans (List.sublist_append_left _ _), functions, apart₁⟩
      · have mild : ∀ e ∈ es, e.isFatal = false := by
          intro e member
          rw [Bool.eq_false_iff]
          exact fun bad => fatal ⟨e, member, bad⟩
        obtain ⟨heard', sub', functions', apart₂⟩ := ih'
        rw [Event.throughFatal_of_none mild] at functions apart₁
        rw [Event.throughFatal_append_of_none mild, Event.functions_append, Event.reports_append,
          functions, functions']
        refine ⟨heard ++ heard', sub.append sub', List.map_append.symm, ?_⟩
        intro x member r reported
        rcases List.mem_append.mp member with left | right
        · rcases List.mem_append.mp reported with own | other
          · exact apart₁ x left r own
          · exact apart x (sub.subset left) _
              (second.placed r (Event.reports_throughFatal_subset es' other))
        · rcases List.mem_append.mp reported with other | own
          · exact apart' x (sub'.subset right) _ (first.placed r other)
          · exact apart₂ x right r own

/-- A report on a listed definition is collected, and a fatal one lies in its body. -/
theorem heard (passing : Passing Q es ds) (policy : Policy) :
    ∃ heard : List (Definition × Function), heard.Sublist ds ∧
      Event.functions (Event.heard policy es) = heard.map Prod.snd ∧
      ∀ x ∈ heard, ((∃ r ∈ Event.reports (Event.heard policy es), x.1.Covers r.pos) ↔
        policy = .collect ∧ ∃ r ∈ Event.reports (Event.heard policy es),
          r.isFatal = true ∧ x.1.body.Covers r.pos) := by
  cases policy with
  | collect =>
      refine ⟨ds, .refl _, passing.functions_eq, fun x member => ⟨?_, ?_⟩⟩
      · exact fun reported => ⟨rfl, passing.reported x member reported⟩
      · rintro ⟨-, r, reported, -, inside⟩
        exact ⟨r, reported, Definition.covers_of_body (passing.starts x member) inside⟩
  | stop =>
      obtain ⟨heard, sub, functions, apart⟩ := passing.throughFatal
      refine ⟨heard, sub, functions, fun x member => ⟨?_, ?_⟩⟩
      · rintro ⟨r, reported, covers⟩
        exact absurd covers (apart x member r reported)
      · rintro ⟨other, -⟩
        cases other

end Passing

/-! ## Telling of definitions -/

/-- A step in a region of a text lists functions that come from some definitions. -/
def Told (region : List Pos) (defs : List Definition) (m : Check Unit) : Prop :=
  ∀ s : State, ∃ es ds s', Tells m s es () s' ∧ s'.currentFunction = s.currentFunction ∧
    Passing (· ∈ region) es ds ∧ (ds.map Prod.fst).Sublist defs ∧
    (s.currentFunction.isSome = true → ds = [])

namespace Told

variable {region region' : List Pos} {defs defs' : List Definition}

/-- Nothing is listed, and the reports point to the region. -/
theorem of_traced {m : Check Unit}
    (traced : Traced (fun _ rs => Accounted (· ∈ region) False False rs) m) :
    Told region defs m := by
  intro s
  obtain ⟨es, a, s', tells, none, kept, good⟩ := traced s
  exact ⟨es, [], s', tells, kept, .quiet ⟨none, good⟩, List.nil_sublist _, fun _ => rfl⟩

theorem mono {m : Check Unit} (told : Told region defs m) (wider : region ⊆ region') :
    Told region' defs m := by
  intro s
  obtain ⟨es, ds, s', tells, kept, passing, rest⟩ := told s
  exact ⟨es, ds, s', tells, kept, passing.mono fun p here => wider here, rest⟩

theorem bind {m : Check Unit} {m' : Unit → Check Unit} (first : Told region defs m)
    (second : Told region' defs' (m' ())) (order : ∀ p ∈ region, ∀ q ∈ region', p.Before q) :
    Told (region ++ region') (defs ++ defs') (m >>= m') := by
  intro s
  obtain ⟨es, ds, s₁, tells, kept, passing, sub, inside⟩ := first s
  obtain ⟨es', ds', s₂, tells', kept', passing', sub', inside'⟩ := second s₁
  refine ⟨es ++ es', ds ++ ds', s₂, tells.bind tells', kept'.trans kept,
    passing.append_ordered passing' order, ?_, fun within => ?_⟩
  · rw [List.map_append]
    exact sub.append sub'
  · rw [inside within, inside' (by rw [kept]; exact within)]
    rfl

/-- Something silent follows. -/
theorem silently {m : Check Unit} {m' : Unit → Check Unit} (told : Told region defs m)
    (silent : Traced (fun _ rs => rs = []) (m' ())) : Told region defs (m >>= m') := by
  intro s
  obtain ⟨es, ds, s₁, tells, kept, passing, sub, inside⟩ := told s
  obtain ⟨es', u, s₂, tells', none', kept', quiet⟩ := silent s₁
  have whole : Passing (· ∈ region) (es ++ es') (ds ++ []) := by
    refine .append passing (.quiet (Q := fun _ => False) ⟨none', ?_⟩) (fun _ => id)
      (fun _ => False.elim) (fun _ _ _ => False.elim) (List.forall_mem_nil _) ?_
    · rw [quiet]
      exact .nil id
    · exact fun _ _ => List.forall_mem_nil _
  rw [List.append_nil] at whole
  exact ⟨es ++ es', ds, s₂, tells.bind tells', kept'.trans kept, whole, sub, inside⟩

theorem inScope (mode : EntryMode) {m : Check Unit} (told : Told region defs m) :
    Told region defs (inScope mode m) := by
  intro s
  obtain ⟨es, ds, s', tells, rest⟩ := told { s with symbols := s.symbols.enter mode }
  exact ⟨es, ds, _, tells.inScope, rest⟩

theorem inLoop {m : Check Unit} (told : Told region defs m) : Told region defs (inLoop m) := by
  intro s
  obtain ⟨es, ds, s', tells, rest⟩ := told { s with loopDepth := s.loopDepth + 1 }
  exact ⟨es, ds, _, tells.inLoop, rest⟩

theorem inUncertainty {m : Check Unit} (told : Told region defs m) :
    Told region defs (inUncertainty m) := by
  intro s
  obtain ⟨es, ds, s', tells, rest⟩ := told { s with uncertainDepth := s.uncertainDepth + 1 }
  exact ⟨es, ds, _, tells.inUncertainty, rest⟩

end Told

/-- If the returns of a body are right, then no report on them is outside of the body. -/
theorem checkReturns_traced {Q : Pos → Prop} (namePos : Pos) (ret : Ty) {body : Block}
    (within : body.Within Q) :
    Traced (fun valid rs => valid = true → Accounted Q False False rs)
      (checkReturns namePos ret body) := by
  have visits : Question Q False (fun verdicts => false ∈ verdicts)
      (body.visitScoped (checkIfReturn ret)) :=
    body.visitScoped_question (fun _ _ => List.mem_append.mpr)
      (fun _ here => .checkIfReturn ret here) within
  refine (Traced.of_question visits).bind fun verdicts rs accounted =>
    .ite ?_ (.pure fun right => ?_)
  · exact (Traced.error _ _).bind fun _ _ _ => .pure Bool.noConfusion
  · rw [List.append_nil]
    refine ⟨accounted.placed, fun owes => (accounted.owned owes).imp_right fun wrong => ?_⟩
    exact absurd (List.all_eq_true.mp right false wrong) Bool.noConfusion

/-- What is reported at the end of a function that passes is reported in its body. -/
theorem endFunction_tells {Q : Pos → Prop} (h : Header) {body : Block} (within : body.Within Q)
    (f : Function) (s : State) :
    ∃ es s', Tells (endFunction h body f) s es () s' ∧ s'.currentFunction = s.currentFunction ∧
      (Event.functions es = [] ∨ ∃ es', es = es' ++ [.listed f] ∧ Quiet Q es') := by
  -- what happens once the returns are judged, whatever came of it
  have last : ∀ (valid : Bool) (s : State), ∃ es s', Tells (do
      let complete ← body.returnsOnAllPaths h.result.ty
      if !complete then fatal h.namePos (.pathsIncomplete h.result)
      if valid && complete then modify fun s => { s with functions := s.functions ++ [f] })
      s es () s' ∧ s'.currentFunction = s.currentFunction ∧
      (Event.functions es = [] ∨
        valid = true ∧ ∃ es', es = es' ++ [.listed f] ∧ Quiet Q es') := by
    intro valid s
    obtain ⟨rs, complete, accounted, tells⟩ :=
      (body.returnsOnAllPaths_question h.result.ty within).tells s
    cases complete with
    | false =>
        have nothing : Tells (if valid && false then modify fun s : State =>
            { s with functions := s.functions ++ [f] } else Pure.pure ()) s [] () s := by
          rw [Bool.and_false]
          exact .pure () s
        refine ⟨_, s, tells.bind ((Tells.fatal _ _ s).bind nothing), rfl, .inl ?_⟩
        rw [Event.functions_append, Event.functions_map_report]
        rfl
    | true =>
        cases valid with
        | false =>
            refine ⟨_, s, tells.bind (.pure () s), rfl, .inl ?_⟩
            rw [List.append_nil, Event.functions_map_report]
        | true =>
            refine ⟨_, _, tells.bind (.list f s), rfl, .inr ⟨rfl, _, rfl, ?_⟩⟩
            refine ⟨Event.functions_map_report rs, ?_⟩
            rw [Event.reports_map_report]
            exact accounted
  obtain ⟨es, valid, s₁, tells, none, kept, good⟩ :=
    checkReturns_traced h.namePos h.result.ty within s
  unfold endFunction
  cases valid with
  | true =>
      obtain ⟨es', s₂, tells', kept', listed⟩ := last true s₁
      refine ⟨es ++ es', s₂, tells.bind tells', kept'.trans kept, ?_⟩
      rcases listed with none' | ⟨-, es'', rfl, quiet⟩
      · exact .inl (by rw [Event.functions_append, none, none']; rfl)
      · exact .inr ⟨es ++ es'', (List.append_assoc ..).symm,
          Quiet.append ⟨none, good rfl⟩ quiet⟩
  | false =>
      obtain ⟨es', s₂, tells', kept', listed⟩ := last false s₁
      refine ⟨_, s₂, tells.bind ((Tells.fatal _ _ s₁).bind tells'), kept'.trans kept, ?_⟩
      rcases listed with none' | ⟨wrong, -⟩
      · refine .inl ?_
        rw [Event.functions_append, none, Event.functions_append, none']
        rfl
      · cases wrong

end Check

end Samo
