import Mathlib.Data.List.Nodup
import Mathlib.Data.List.Pairwise
import Mathlib.Logic.Relation
import Samo.Proofs.Nodes
import Samo.Proofs.Spots

/-!
# Walks follow the source

A walk calls a function on a node and, unless the function refuses the node, goes on with the nodes
right below it (`Node.children`). The function may remember what it was called on before
(`Callback`). Whatever it answers, it is called on the nodes that `Node.visited` lists for these
answers (`Node.Walked`). The words of different children of a node are apart
(`Node.children_spots`), so in a program that was read from a text a node comes before the nodes
that start later and before those in it (`Node.Precedes`).
-/

namespace Samo

/-! ## Children -/

/-- The nodes right below the arms after the first one. -/
def Branches.parts : Branches → List Node
  | .done => []
  | .otherwise _ body => [.stmt (.block body)]
  | .elseIf _ cond body rest => .expr cond :: .stmt (.block body) :: rest.parts

namespace Node

/-- The nodes right below a node, in the order of the source. -/
def children : Node → List Node
  | expr e => e.parts.map .expr
  | stmt (.block body) => body.stmts.map .stmt
  | stmt (.declare _ _ _ _ init) => init.toList.map .expr
  | stmt (.infer _ _ _ e) | stmt (.assign _ _ e) => [.expr e]
  | stmt (.call p f args) => [.expr (.call p f args)]
  | stmt (.define _ _ body) => [.stmt (.block body)]
  | stmt (.branch _ cond body rest) => .expr cond :: .stmt (.block body) :: rest.parts
  | stmt (.loop _ cond body) => [.expr cond, .stmt (.block body)]
  | stmt (.returnWith _ value) => value.toList.map .expr
  | stmt (.maybe _ e body) => [.expr e, .stmt body]
  | stmt (.maybeOtherwise _ e body _ alternative) => [.expr e, .stmt body, .stmt alternative]
  | stmt (.breakOut _) | stmt (.continueOn _) | stmt (.needs ..) | stmt (.bad ..) => []

/-- The nodes of a tree, without those below a node that is refused. -/
def visited (enter : Node → Bool) : Node → List Node
  | expr e => e.visited enter
  | stmt s => s.visited enter

end Node

variable {enter : Node → Bool}

theorem Expr.visitedAll_eq (es : List Expr) :
    Expr.visitedAll enter es = (es.map .expr).flatMap (Node.visited enter) := by
  induction es with
  | nil => rw [Expr.visitedAll]; rfl
  | cons e es ih => rw [Expr.visitedAll, ih]; rfl

theorem Stmt.visitedAll_eq (ss : List Stmt) :
    Stmt.visitedAll enter ss = (ss.map .stmt).flatMap (Node.visited enter) := by
  induction ss with
  | nil => rw [Stmt.visitedAll]; rfl
  | cons s ss ih => rw [Stmt.visitedAll, ih]; rfl

theorem Branches.visited_eq (rest : Branches) :
    rest.visited enter = rest.parts.flatMap (Node.visited enter) := by
  cases rest with
  | done => rw [Branches.visited]; rfl
  | otherwise p body =>
      rw [Branches.visited, parts, List.flatMap_singleton, Node.visited, Stmt.visited]
  | elseIf p cond body rest =>
      rw [Branches.visited, rest.visited_eq, List.append_assoc, parts, List.flatMap_cons,
        List.flatMap_cons, Node.visited, Node.visited, Stmt.visited]

namespace Node

/-- A walk goes from a node to its children. -/
theorem visited_eq (enter : Node → Bool) (n : Node) :
    n.visited enter = n :: if enter n then n.children.flatMap (visited enter) else [] := by
  rcases n with e | s
  · cases e <;> simp [visited, Expr.visited, children, Expr.parts, Expr.visitedAll_eq]
  · cases s with
    | block body =>
        cases body
        simp [visited, Stmt.visited, Block.visited, children, Stmt.visitedAll_eq, Block.stmts]
    | declare p type np x init => cases init <;> simp [visited, Stmt.visited, children]
    | returnWith p value => cases value <;> simp [visited, Stmt.visited, children]
    | _ => simp [visited, Stmt.visited, children, Branches.visited_eq]

/-- Every node of a tree. -/
def nodes (n : Node) : List Node := n.visited fun _ => true

theorem nodes_eq (n : Node) : n.nodes = n :: n.children.flatMap nodes := n.visited_eq fun _ => true

/-- The number of nodes of a tree. -/
def size (n : Node) : Nat := n.nodes.length

/-- One node is right below another. -/
def Parent (n m : Node) : Prop := m ∈ n.children

theorem Parent.size_lt {n m : Node} (parent : n.Parent m) : m.size < n.size := by
  have inside : m.nodes.Sublist (n.children.flatMap nodes) :=
    List.sublist_flatten_of_mem (List.mem_map_of_mem parent)
  rw [size, size, n.nodes_eq, List.length_cons]
  exact Nat.lt_succ_of_le inside.length_le

/-- Induction over a tree, where every child of a node may be used. -/
theorem induction {motive : Node → Prop} (step : ∀ n, (∀ m ∈ n.children, motive m) → motive n)
    (n : Node) : motive n :=
  step n fun m _ => induction step m
termination_by n.size
decreasing_by exact Parent.size_lt ‹_›

/-- A node is somewhere below another. -/
abbrev Ancestor : Node → Node → Prop := Relation.TransGen Parent

theorem Ancestor.size_lt {n m : Node} (above : n.Ancestor m) : m.size < n.size := by
  induction above with
  | single parent => exact parent.size_lt
  | tail _ parent ih => exact parent.size_lt.trans ih

/-- The nodes of a tree are its root and those below it. -/
theorem mem_nodes_iff {n m : Node} : m ∈ n.nodes ↔ Relation.ReflTransGen Parent n m := by
  constructor
  · intro member
    induction n using induction with
    | step n ih =>
      rw [n.nodes_eq] at member
      rcases List.mem_cons.mp member with rfl | member
      · exact .refl
      · obtain ⟨k, parent, member⟩ := List.mem_flatMap.mp member
        exact .head parent (ih k parent member)
  · intro below
    induction below using Relation.ReflTransGen.head_induction_on with
    | refl => rw [m.nodes_eq]; exact List.mem_cons_self
    | head parent _ ih =>
      rw [nodes_eq]
      exact List.mem_cons_of_mem _ (List.mem_flatMap_of_mem parent ih)

theorem size_le_of_mem_nodes {n m : Node} (member : m ∈ n.nodes) : m.size ≤ n.size := by
  rcases Relation.reflTransGen_iff_eq_or_transGen.mp (mem_nodes_iff.mp member) with rfl | below
  · exact Nat.le_refl _
  · exact Nat.le_of_lt (Ancestor.size_lt below)

theorem mem_nodes_of_mem_visited {n m : Node} (member : m ∈ n.visited enter) : m ∈ n.nodes := by
  induction n using induction with
  | step n ih =>
    rw [n.visited_eq] at member
    rw [n.nodes_eq]
    rcases List.mem_cons.mp member with rfl | member
    · exact List.mem_cons_self
    · split at member
      · obtain ⟨k, parent, member⟩ := List.mem_flatMap.mp member
        exact List.mem_cons_of_mem _ (List.mem_flatMap_of_mem parent (ih k parent member))
      · cases member

end Node

/-! ## Words -/

/-- The first word of an expression is where it starts. -/
theorem Expr.start_spots (e : Expr) : ∃ others, e.spots = e.start :: others := by
  induction e using Expr.induction with
  | binary p op x y left right =>
      obtain ⟨others, same⟩ := left
      exact ⟨_, by rw [Expr.spots, same]; rfl⟩
  | _ => exact ⟨_, by rw [Expr.spots]; rfl⟩

/-- A statement that is missing stands at the word that ends the block. -/
theorem Stmt.spots_sublist (stop : Pos) (ss : List Stmt) :
    (ss.flatMap Stmt.spots).Sublist (Stmt.spotsAll stop ss ++ [stop]) := by
  induction ss with
  | nil => exact List.nil_sublist _
  | cons s ss ih =>
      rw [List.flatMap_cons, Stmt.spotsAll, List.append_assoc]
      split
      · next last =>
        obtain ⟨none, missing⟩ := Bool.and_eq_true_iff.mp last
        obtain rfl := List.isEmpty_iff.mp none
        simp [Stmt.spots_of_isBadAt missing, Stmt.spotsAll]
      · exact ih.append_left _

namespace Node

/-- The positions in a node. -/
def spots : Node → List Pos
  | expr e => e.spots
  | stmt s => s.spots

theorem start_spots (n : Node) : ∃ others, n.spots = n.start :: others := by
  rcases n with e | s
  · exact e.start_spots
  · cases s with
    | block body => cases body; exact ⟨_, by rw [spots, Stmt.spots, Block.spots]; rfl⟩
    | _ => exact ⟨_, by rw [spots, Stmt.spots]; rfl⟩

end Node

theorem Branches.parts_spots (rest : Branches) :
    (rest.parts.flatMap Node.spots).Sublist rest.spots := by
  cases rest with
  | done => exact List.nil_sublist _
  | otherwise p body =>
      simp [parts, Node.spots, Stmt.spots, Branches.spots]
  | elseIf p cond body rest =>
      have others := rest.parts_spots
      simp [parts, Node.spots, Stmt.spots, Branches.spots, others]

namespace Node

/-- The words of the children of a node are among its words, and each child has its own. -/
theorem children_spots (n : Node) : (n.children.flatMap spots).Sublist n.spots := by
  rcases n with e | s
  · cases e with
    | call p f args =>
      simp [children, Expr.parts, spots, Expr.spots, Expr.spotsAll_eq_flatMap, List.flatMap_map]
    | _ => simp [children, Expr.parts, spots, Expr.spots]
  · cases s with
    | block body =>
      obtain ⟨start, stop, ss⟩ := body
      have inside := Stmt.spots_sublist stop ss
      simpa [children, spots, Stmt.spots, Block.spots, Block.stmts, List.flatMap_map]
        using inside.cons start
    | declare p type np x init => cases init <;> simp [children, spots, Stmt.spots]
    | returnWith p value => cases value <;> simp [children, spots, Stmt.spots]
    | _ => simp [children, spots, Stmt.spots, Expr.spots, Branches.parts_spots]

/-- A node starts at one of the words of a tree that it is in. -/
theorem start_mem_spots {n m : Node} (member : m ∈ n.nodes) : m.start ∈ n.spots := by
  have below := mem_nodes_iff.mp member
  induction below using Relation.ReflTransGen.head_induction_on with
  | refl =>
    obtain ⟨others, same⟩ := m.start_spots
    rw [same]
    exact List.mem_cons_self
  | @head n k parent below ih =>
    exact n.children_spots.subset (List.mem_flatMap_of_mem parent (ih (mem_nodes_iff.mpr below)))

/-! ## Order -/

/-- One node starts before another, or at the same word and is the larger one. -/
def Precedes (m n : Node) : Prop := m.start.Before n.start ∨ m.start = n.start ∧ n.size < m.size

theorem Precedes.not_before {m n : Node} (first : m.Precedes n) : ¬ n.start.Before m.start := by
  rcases first with before | ⟨here, -⟩
  · exact before.asymm
  · exact fun back => back.ne here.symm

theorem Precedes.ne {m n : Node} (first : m.Precedes n) : m ≠ n := by
  rintro rfl
  rcases first with before | ⟨-, smaller⟩
  · exact before.ne rfl
  · exact Nat.lt_irrefl _ smaller

section

variable {ns : List Node} (ordered : (ns.flatMap spots).Pairwise Pos.Before)
include ordered

/-- The words of different trees are apart, so a node is in one of them only. -/
theorem eq_of_mem_nodes {n n' m : Node} (left : n ∈ ns) (right : n' ∈ ns) (here : m ∈ n.nodes)
    (there : m ∈ n'.nodes) : n = n' := by
  by_contra different
  have apart : ns.Pairwise fun a b => a.spots.Disjoint b.spots :=
    (List.pairwise_flatMap.mp ordered).2.imp fun before p first second =>
      (before p first p second).ne rfl
  have : Std.Symm fun a b : Node => a.spots.Disjoint b.spots :=
    ⟨fun _ _ apart _ first second => apart second first⟩
  exact apart.forall left right different (start_mem_spots here) (start_mem_spots there)

/-- Trees behind one another are walked in order if each of them is. -/
theorem pairwise_flatMap_visited
    (each : ∀ n ∈ ns, n.spots.Pairwise Pos.Before → (n.visited enter).Pairwise Precedes) :
    (ns.flatMap (visited enter)).Pairwise Precedes := by
  obtain ⟨inner, apart⟩ := List.pairwise_flatMap.mp ordered
  refine List.pairwise_flatMap.mpr ⟨fun n member => each n member (inner n member), ?_⟩
  refine apart.imp fun before m first m' second => .inl ?_
  exact before _ (start_mem_spots (mem_nodes_of_mem_visited first)) _
    (start_mem_spots (mem_nodes_of_mem_visited second))

/-- In trees behind one another only nodes that are not refused are above one that is visited. -/
theorem enter_of_ancestor_all
    (each : ∀ n ∈ ns, n.spots.Pairwise Pos.Before → ∀ m ∈ n.nodes, ∀ k ∈ n.visited enter,
      m.Ancestor k → enter m = true)
    {m k : Node} (member : m ∈ ns.flatMap nodes) (visit : k ∈ ns.flatMap (visited enter))
    (above : m.Ancestor k) : enter m = true := by
  obtain ⟨n, left, here⟩ := List.mem_flatMap.mp member
  obtain ⟨n', right, there⟩ := List.mem_flatMap.mp visit
  have inside : k ∈ n.nodes :=
    mem_nodes_iff.mpr ((mem_nodes_iff.mp here).trans above.to_reflTransGen)
  obtain rfl := eq_of_mem_nodes ordered left right inside (mem_nodes_of_mem_visited there)
  exact each n left ((List.pairwise_flatMap.mp ordered).1 n left) m here k there above

end

/-- A tree is walked in order. -/
theorem pairwise_visited (n : Node) (ordered : n.spots.Pairwise Pos.Before) :
    (n.visited enter).Pairwise Precedes := by
  induction n using induction with
  | step n ih =>
    rw [n.visited_eq]
    split
    · refine List.pairwise_cons.mpr
        ⟨fun m member => ?_, pairwise_flatMap_visited (ordered.sublist n.children_spots) ih⟩
      obtain ⟨k, parent, member⟩ := List.mem_flatMap.mp member
      have inside := mem_nodes_of_mem_visited member
      have smaller := Nat.lt_of_le_of_lt (size_le_of_mem_nodes inside) (Parent.size_lt parent)
      have place :=
        n.children_spots.subset (List.mem_flatMap_of_mem parent (start_mem_spots inside))
      obtain ⟨others, same⟩ := n.start_spots
      rw [same] at ordered place
      rcases List.mem_cons.mp place with here | later
      · exact .inr ⟨here.symm, smaller⟩
      · exact .inl ((List.pairwise_cons.mp ordered).1 _ later)
    · exact List.pairwise_singleton _ _

/-- Only nodes that are not refused are above one that is visited. -/
theorem enter_of_ancestor (n : Node) (ordered : n.spots.Pairwise Pos.Before) :
    ∀ m ∈ n.nodes, ∀ k ∈ n.visited enter, m.Ancestor k → enter m = true := by
  induction n using induction with
  | step n ih =>
    intro m member k visit above
    rw [n.visited_eq] at visit
    rcases List.mem_cons.mp visit with rfl | visit
    · exact absurd above.size_lt (Nat.not_lt.mpr (size_le_of_mem_nodes member))
    · split at visit
      · next entered =>
        rw [n.nodes_eq] at member
        rcases List.mem_cons.mp member with rfl | member
        · exact entered
        · exact enter_of_ancestor_all (ordered.sublist n.children_spots) ih member visit above
      · cases visit

/-- A node is visited if no visited node above it is refused. -/
theorem mem_visited {n k : Node} (member : k ∈ n.nodes)
    (entered : ∀ m ∈ n.visited enter, m.Ancestor k → enter m = true) : k ∈ n.visited enter := by
  induction n using induction with
  | step n ih =>
    rw [n.visited_eq] at entered ⊢
    rw [n.nodes_eq] at member
    rcases List.mem_cons.mp member with rfl | member
    · exact List.mem_cons_self
    · obtain ⟨c, parent, member⟩ := List.mem_flatMap.mp member
      have root : enter n = true :=
        entered n List.mem_cons_self (.head' parent (mem_nodes_iff.mp member))
      rw [if_pos root] at entered ⊢
      refine List.mem_cons_of_mem _ (List.mem_flatMap_of_mem parent (ih c parent member ?_))
      exact fun m visit =>
        entered m (List.mem_cons_of_mem _ (List.mem_flatMap_of_mem parent visit))

/-- Of trees behind one another exactly those nodes are visited that no refused one is above. -/
theorem mem_flatMap_visited_iff {ns : List Node} (ordered : (ns.flatMap spots).Pairwise Pos.Before)
    {k : Node} : k ∈ ns.flatMap (visited enter) ↔
      (∃ n ∈ ns, Relation.ReflTransGen Parent n k) ∧
        ∀ m ∈ ns.flatMap (visited enter), m.Ancestor k → enter m = true := by
  constructor
  · intro visit
    obtain ⟨n, root, member⟩ := List.mem_flatMap.mp visit
    refine ⟨⟨n, root, mem_nodes_iff.mp (mem_nodes_of_mem_visited member)⟩, fun m other above => ?_⟩
    obtain ⟨n', root', member'⟩ := List.mem_flatMap.mp other
    exact enter_of_ancestor_all ordered (fun n _ => n.enter_of_ancestor)
      (List.mem_flatMap_of_mem root' (mem_nodes_of_mem_visited member')) visit above
  · rintro ⟨⟨n, root, below⟩, entered⟩
    refine List.mem_flatMap_of_mem root (mem_visited (mem_nodes_iff.mpr below) fun m visit => ?_)
    exact entered m (List.mem_flatMap_of_mem root visit)

/-- The same of a record of the visits and of what was answered. -/
theorem mem_called_iff {ns : List Node} (ordered : (ns.flatMap spots).Pairwise Pos.Before)
    {calls : List (Node × Bool)}
    (same : calls = (ns.flatMap (visited enter)).map fun m => (m, enter m)) {k : Node} :
    k ∈ calls.map Prod.fst ↔
      (∃ n ∈ ns, Relation.ReflTransGen Parent n k) ∧ ∀ m, m.Ancestor k → (m, false) ∉ calls := by
  have called : calls.map Prod.fst = ns.flatMap (visited enter) := by
    rw [same, List.map_map]
    exact List.map_id _
  rw [called, mem_flatMap_visited_iff ordered]
  refine and_congr_right fun _ => ⟨fun entered m above refused => ?_, fun none m visit above => ?_⟩
  · rw [same] at refused
    obtain ⟨m', visit, pair⟩ := List.mem_map.mp refused
    obtain ⟨rfl, answer⟩ := Prod.mk.inj pair
    exact absurd (entered m' visit above) (Bool.eq_false_iff.mp answer)
  · refine Bool.of_not_eq_false fun answer => none m above ?_
    rw [same, ← answer]
    exact List.mem_map_of_mem visit

end Node

/-! ## Callbacks -/

/-- What a walk asks: whether to go on below a node, after the answers that were given before. -/
abbrev Callback := List (Node × Bool) → Node → Bool

namespace Node

/-- Calls a function on a node and, unless it refuses the node, on those below it. -/
def inspect (f : Callback) (calls : List (Node × Bool)) (n : Node) : List (Node × Bool) :=
  (if f calls n then n.children.attach else []).foldl
    (fun calls m => inspect f calls m.1) (calls ++ [(n, f calls n)])
termination_by n.size
decreasing_by exact Parent.size_lt m.2

/-- The same for one tree behind the other. -/
def inspectAll (f : Callback) (calls : List (Node × Bool)) (ns : List Node) : List (Node × Bool) :=
  ns.foldl (inspect f) calls

theorem inspect_eq (f : Callback) (calls : List (Node × Bool)) (n : Node) :
    inspect f calls n =
      inspectAll f (calls ++ [(n, f calls n)]) (if f calls n then n.children else []) := by
  rw [inspect, inspectAll]
  split
  · exact List.foldl_attach
  · rfl

/-- What is known of the new calls that a walk over some trees makes after others. -/
structure Walked (f : Callback) (calls new : List (Node × Bool)) (ns : List Node) : Prop where
  answers : ∀ before call after, new = before ++ call :: after → call.2 = f (calls ++ before) call.1
  inside : (new.map Prod.fst).Sublist (ns.flatMap nodes)
  same : ∀ enter : Node → Bool, (∀ call ∈ new, call.2 = enter call.1) →
    new = (ns.flatMap (visited enter)).map fun m => (m, enter m)

namespace Walked

variable {f : Callback} {calls new new' : List (Node × Bool)} {ns ns' : List Node}

theorem nil : Walked f calls [] [] where
  answers before call after split := by simp at split
  inside := .refl _
  same _ _ := rfl

theorem append (first : Walked f calls new ns) (second : Walked f (calls ++ new) new' ns') :
    Walked f calls (new ++ new') (ns ++ ns') where
  answers before call after split := by
    rcases List.append_eq_append_iff.mp split with ⟨mid, rfl, later⟩ | ⟨mid, early, later⟩
    · rw [← List.append_assoc]
      exact second.answers mid call after later
    · cases mid with
      | nil =>
        rw [List.append_nil] at early
        have answer := second.answers [] call after later.symm
        rwa [List.append_nil, early] at answer
      | cons call' mid =>
        obtain ⟨rfl, -⟩ := List.cons.inj later
        exact first.answers before call mid early
  inside := by
    rw [List.map_append, List.flatMap_append]
    exact first.inside.append second.inside
  same enter agrees := by
    obtain ⟨left, right⟩ := List.forall_mem_append.mp agrees
    rw [List.flatMap_append, List.map_append, ← first.same enter left, ← second.same enter right]

/-- A call on a node, and those below it if it is not refused. -/
theorem node {n : Node}
    (below : Walked f (calls ++ [(n, f calls n)]) new (if f calls n then n.children else [])) :
    Walked f calls ((n, f calls n) :: new) [n] where
  answers before call after split := by
    cases before with
    | nil =>
      obtain ⟨rfl, -⟩ := List.cons.inj split
      rw [List.append_nil]
    | cons first before =>
      obtain ⟨rfl, later⟩ := List.cons.inj split
      rw [List.append_cons]
      exact below.answers before call after later
  inside := by
    rw [List.flatMap_singleton, n.nodes_eq]
    refine List.Sublist.cons_cons n (below.inside.trans ?_)
    split
    · exact .refl _
    · exact List.nil_sublist _
  same enter agrees := by
    obtain ⟨root, others⟩ := List.forall_mem_cons.mp agrees
    have root : f calls n = enter n := root
    rw [List.flatMap_singleton, n.visited_eq, List.map_cons, root, below.same enter others, root]
    split <;> rfl

end Walked

/-- A walk over some trees records its calls, if one over each of them does. -/
theorem exists_walked_all {f : Callback} {ns : List Node}
    (each : ∀ n ∈ ns, ∀ calls, ∃ new, inspect f calls n = calls ++ new ∧ Walked f calls new [n])
    (calls : List (Node × Bool)) :
    ∃ new, inspectAll f calls ns = calls ++ new ∧ Walked f calls new ns := by
  induction ns generalizing calls with
  | nil => exact ⟨[], (List.append_nil _).symm, .nil⟩
  | cons n ns ih =>
    obtain ⟨first, others⟩ := List.forall_mem_cons.mp each
    obtain ⟨new, run, walked⟩ := first calls
    obtain ⟨new', run', walked'⟩ := ih others (calls ++ new)
    refine ⟨new ++ new', ?_, walked.append walked'⟩
    rw [← List.append_assoc, ← run', ← run]
    rfl

theorem exists_walked (f : Callback) (n : Node) (calls : List (Node × Bool)) :
    ∃ new, inspect f calls n = calls ++ new ∧ Walked f calls new [n] := by
  induction n using induction generalizing calls with
  | step n ih =>
    have each : ∀ m ∈ if f calls n then n.children else [],
        ∀ calls, ∃ new, inspect f calls m = calls ++ new ∧ Walked f calls new [m] := by
      split
      · exact ih
      · exact List.forall_mem_nil _
    obtain ⟨new, run, walked⟩ := exists_walked_all each (calls ++ [(n, f calls n)])
    exact ⟨_, by rw [inspect_eq, run, ← List.append_cons], walked.node⟩

end Node

namespace Program

/-- Calls a function on the nodes of a program, one statement after the other. -/
def inspect (f : Callback) (program : Program) : List (Node × Bool) :=
  Node.inspectAll f [] (program.map .stmt)

theorem visited_eq (program : Program) :
    program.visited enter = (program.map .stmt).flatMap (Node.visited enter) :=
  Stmt.visitedAll_eq program

theorem walked_inspect (f : Callback) (program : Program) :
    Node.Walked f [] (program.inspect f) (program.map .stmt) := by
  obtain ⟨new, run, walked⟩ :=
    Node.exists_walked_all (fun n _ calls => Node.exists_walked f n calls) []
  rw [inspect, run]
  exact walked

end Program

/-- The statements of a program that was read from a text have words of their own. -/
theorem parse_spots_ordered (cs : List Char) :
    (((parse cs).1.map .stmt).flatMap Node.spots).Pairwise Pos.Before := by
  obtain ⟨stop, -, ordered⟩ := parse_orderedSpots cs
  rw [List.flatMap_map]
  exact ordered.sublist (Stmt.spots_sublist stop _)

/-- Answers to different questions are those of a function without a memory. -/
theorem exists_answers {α : Type} {calls : List (α × Bool)} (once : (calls.map Prod.fst).Nodup) :
    ∃ enter : α → Bool, ∀ call ∈ calls, call.2 = enter call.1 := by
  classical
  refine ⟨fun a => (a, true) ∈ calls, fun call member => ?_⟩
  obtain ⟨a, answer⟩ := call
  cases answer with
  | true => exact (decide_eq_true member).symm
  | false =>
    refine (decide_eq_false fun other => ?_).symm
    cases List.inj_on_of_nodup_map once member other rfl

/-- The nodes of a program that was read from a text come in order, whatever is refused. -/
theorem parse_visited_ordered (cs : List Char) :
    (((parse cs).1.map .stmt).flatMap (Node.visited enter)).Pairwise Node.Precedes :=
  Node.pairwise_flatMap_visited (parse_spots_ordered cs) fun n _ => n.pairwise_visited

/--
A walk over a program that was read from a text, be there bad statements in it or not, and whatever
the function answers. No two nodes of the program are the same, so a node says where it stands. Each
call is answered by the function, which knows of the calls before. It is called once on each node of
the program that no refused node is above, and on nothing else, and no node starts before one that
it was called on earlier. A function without a memory is called on what `Program.visited` lists.
-/
theorem inspections_follow_source (cs : List Char) (f : Callback) :
    (parse cs).1.nodes.Nodup ∧
    (∀ before call after, (parse cs).1.inspect f = before ++ call :: after →
      call.2 = f before call.1) ∧
    (((parse cs).1.inspect f).map Prod.fst).Nodup ∧
    (∀ n, n ∈ ((parse cs).1.inspect f).map Prod.fst ↔
      (∃ s ∈ (parse cs).1, Relation.ReflTransGen Node.Parent (.stmt s) n) ∧
        ∀ m, m.Ancestor n → (m, false) ∉ (parse cs).1.inspect f) ∧
    ((parse cs).1.inspect f).Pairwise (fun a b => ¬ b.1.start.Before a.1.start) ∧
    ∀ enter, (parse cs).1.inspect (fun _ => enter) =
      ((parse cs).1.visited enter).map fun n => (n, enter n) := by
  have nodes : (parse cs).1.nodes.Nodup := by
    rw [Program.nodes, Program.visited_eq]
    exact (parse_visited_ordered cs).imp Node.Precedes.ne
  have walked := (parse cs).1.walked_inspect f
  have once : (((parse cs).1.inspect f).map Prod.fst).Nodup := by
    rw [Program.nodes, Program.visited_eq] at nodes
    exact nodes.sublist walked.inside
  obtain ⟨enter, agrees⟩ := exists_answers once
  have same := walked.same enter agrees
  refine ⟨nodes, walked.answers, once, fun n => ?_, ?_, fun enter => ?_⟩
  · rw [Node.mem_called_iff (parse_spots_ordered cs) same]
    exact and_congr_left' (by simp)
  · rw [same, List.pairwise_map]
    exact (parse_visited_ordered cs).imp Node.Precedes.not_before
  · rw [Program.visited_eq]
    have walked := (parse cs).1.walked_inspect fun _ => enter
    refine walked.same enter fun call member => ?_
    obtain ⟨before, after, split⟩ := List.append_of_mem member
    exact walked.answers before call after split

end Samo
