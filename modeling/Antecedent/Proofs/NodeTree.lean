import Antecedent.Proofs.NodeLinks
import Mathlib.Data.List.Nodup
import Mathlib.Data.List.Perm.Basic

/-!
# The tree of nodes

The links of a left-hand side make its nodes a tree: they lead forward, and every node but the first one
is where exactly one link leads. Chains of links therefore end, and what goes down from a node by its
links comes to no node twice.

* `Node.Spans` counts where the links among consecutive nodes lead: out of them, or once to each of them
  but the first. `Node.Covers` adds the link that leads to the first one.
* `Lhs.covers_nodes` says this of all nodes of a left-hand side. It is put together by
  `Node.Spans.append` and `Node.Spans.covers`, along the syntax tree.
* `NodeTable.IsTree` is the same as a property of a table, and `NodeTable.isTree_ofLhs` shows it.
* `NodeTable.IsTree.walks_chain` says that a chain of links, followed wherever they lead, ends and passes
  the nodes of `NodeTable.chain`.
-/

namespace Antecedent

/-- The kinds of links. -/
inductive Link where
  | next
  | child
  | subexpr
  deriving DecidableEq, Repr

/-- Where a link of a node leads. -/
def Link.target? : Link → Node → Option Nat
  | next => Node.next
  | child => Node.child
  | subexpr => Node.subexpr

/-! ## Where links lead -/

namespace Node

/-- The nodes that the links of a node lead to. -/
def targets (n : Node) : List Nat := n.next.toList ++ n.child.toList ++ n.subexpr.toList

theorem mem_targets {n : Node} {j : Nat} : j ∈ n.targets ↔ ∃ k : Link, k.target? n = some j := by
  simp only [targets, List.mem_append, Option.mem_toList]
  constructor
  · rintro ((h | h) | h)
    · exact ⟨.next, h⟩
    · exact ⟨.child, h⟩
    · exact ⟨.subexpr, h⟩
  · rintro ⟨k, h⟩
    cases k with
    | next => exact .inl (.inl h)
    | child => exact .inl (.inr h)
    | subexpr => exact .inr h

/-- Two links of one node that lead to different nodes are told apart by where they lead. -/
theorem link_eq_of_nodup {n : Node} (hn : n.targets.Nodup) {j : Nat} {k k' : Link}
    (h : k.target? n = some j) (h' : k'.target? n = some j) : k = k' := by
  rw [targets, List.append_assoc, List.nodup_append, List.nodup_append] at hn
  obtain ⟨-, ⟨-, -, hchild⟩, hnext⟩ := hn
  simp only [List.mem_append, Option.mem_toList] at hchild hnext
  cases k with
  | next =>
    cases k' with
    | next => rfl
    | child => exact absurd rfl (hnext j h j (.inl h'))
    | subexpr => exact absurd rfl (hnext j h j (.inr h'))
  | child =>
    cases k' with
    | next => exact absurd rfl (hnext j h' j (.inl h))
    | child => rfl
    | subexpr => exact absurd rfl (hchild j h j h')
  | subexpr =>
    cases k' with
    | next => exact absurd rfl (hnext j h' j (.inr h))
    | child => exact absurd rfl (hchild j h' j h)
    | subexpr => rfl

/-- Among `size` nodes from number `id` on, links lead to the numbers `out`, and once to each of these
nodes but the first. -/
def Spans (id size : Nat) (out : List Nat) (ns : List Node) : Prop :=
  (ns.flatMap targets).Perm (out ++ List.range' (id + 1) (size - 1))

/-- With the link `first`, links lead once to each of `size` nodes from number `id` on. -/
def Covers (id size : Nat) (first : Option Nat) (ns : List Node) : Prop :=
  (first.toList ++ ns.flatMap targets).Perm (List.range' id size)

theorem covers_nil (id : Nat) : Covers id 0 none [] := .refl []

theorem spans_singleton {id : Nat} {out : List Nat} {n : Node} (h : n.targets.Perm out) :
    Spans id 1 out [n] := by
  simpa [Spans] using h

/-- Nodes, one of whose links leads to the first of the nodes after them. -/
theorem Spans.append {id size total : Nat} {out : List Nat} {first : Option Nat} {ns ms : List Node}
    (hpos : 0 < size) (hns : Spans id size (out ++ first.toList) ns)
    (hms : Covers (id + size) total first ms) : Spans id (size + total) out (ns ++ ms) := by
  have hrange : List.range' (id + 1) (size - 1) ++ List.range' (id + size) total =
      List.range' (id + 1) (size + total - 1) := by
    rw [show id + size = id + 1 + (size - 1) by omega, List.range'_append_1]
    congr 1
    omega
  have hleft := hns.append_right (ms.flatMap targets)
  rw [Spans, List.flatMap_append, ← hrange]
  calc ns.flatMap targets ++ ms.flatMap targets
    _ |>.Perm (out ++ first.toList ++ List.range' (id + 1) (size - 1) ++ ms.flatMap targets) := hleft
    _ |>.Perm (out ++ (List.range' (id + 1) (size - 1) ++ (first.toList ++ ms.flatMap targets))) := by
      simp only [List.append_assoc]
      exact List.perm_append_left_iff out |>.2 (by
        rw [← List.append_assoc, ← List.append_assoc]
        exact List.perm_append_comm.append_right _)
    _ |>.Perm (out ++ (List.range' (id + 1) (size - 1) ++ List.range' (id + size) total)) :=
      (hms.append_left _).append_left _

/-- A node, one of whose links leads to the first of the nodes after it. -/
theorem spans_cons {id total : Nat} {out : List Nat} {first : Option Nat} {n : Node} {ms : List Node}
    (hn : n.targets.Perm (out ++ first.toList)) (hms : Covers (id + 1) total first ms) :
    Spans id (1 + total) out (n :: ms) :=
  (spans_singleton hn).append Nat.one_pos hms

/-- Nodes whose links do not lead out of them, and a link to the first of them. -/
theorem Spans.covers {id size : Nat} {ns : List Node} (hpos : 0 < size) (h : Spans id size [] ns) :
    Covers id size (some id) ns := by
  cases size with
  | zero => cases hpos
  | succ size => exact List.Perm.cons id h

end Node

/-! ## Syntax trees -/

section Spans

variable {p : Position}

namespace Term

mutual

theorem spans_nodes (t : Term Symbol Note) {id : Nat} {next : Option Nat} :
    Node.Spans id t.size next.toList (t.nodes p id next) := by
  cases t with
  | call f args =>
    rw [nodes, size]
    exact Node.spans_cons (.of_eq (List.append_nil _)) (covers_nodesAll args)
  | var x arity n => exact Node.spans_singleton (.of_eq (by simp [Node.targets]))
  | lit v => exact Node.spans_singleton (.of_eq (by simp [Node.targets]))
  | global x => exact Node.spans_singleton (.of_eq (by simp [Node.targets]))

theorem covers_nodesAll (ts : List (Term Symbol Note)) {id : Nat} :
    Node.Covers id (sizeAll ts) (linkTo id ts) (nodesAll p id ts) := by
  cases ts with
  | nil => exact Node.covers_nil id
  | cons t ts =>
    have hpos := t.size_pos
    have hspans : Node.Spans id (sizeAll (t :: ts)) [] (nodesAll p id (t :: ts)) :=
      (spans_nodes t).append hpos (covers_nodesAll ts)
    exact hspans.covers (sizeAll_pos (List.cons_ne_nil t ts))

end

/-- The nodes of an expression that stands by itself, with a link to the first one. -/
theorem covers_nodes (t : Term Symbol Note) {id : Nat} :
    Node.Covers id t.size (some id) (t.nodes p id none) :=
  t.spans_nodes.covers t.size_pos

end Term

namespace Constraint

theorem spans_nodes (c : Constraint Symbol Note) {id : Nat} {next child : Option Nat} :
    Node.Spans id c.size (child.toList ++ next.toList) (c.nodes p id next child) := by
  obtain ⟨shape, negated⟩ := c
  cases shape with
  | literal v =>
    exact Node.spans_singleton (by simpa [Node.targets] using List.perm_append_comm)
  | var x arity n =>
    exact Node.spans_singleton (by simpa [Node.targets] using List.perm_append_comm)
  | predicate t =>
    exact Node.spans_cons (List.perm_append_comm.append_right _) t.covers_nodes
  | returnValue t =>
    exact Node.spans_cons (List.perm_append_comm.append_right _) t.covers_nodes

theorem covers_nodesAll (cs : List (Constraint Symbol Note)) {id : Nat} :
    Node.Covers id (totalSize size cs) (linkTo id cs) (nodesAll p id cs) := by
  induction cs generalizing id with
  | nil => exact Node.covers_nil id
  | cons c cs ih =>
    have hspans : Node.Spans id (totalSize size (c :: cs)) [] (nodesAll p id (c :: cs)) :=
      (spans_nodes c).append c.size_pos ih
    exact hspans.covers (totalSize_pos size_pos (List.cons_ne_nil c cs))

end Constraint

namespace Alternative

theorem spans_nodes (a : Alternative Symbol Note) {id : Nat} {child : Option Nat} :
    Node.Spans id a.size child.toList (a.nodes p id child) :=
  a.first.spans_nodes.append a.first.size_pos (Constraint.covers_nodesAll a.rest)

theorem covers_nodesAll (as : List (Alternative Symbol Note)) {id : Nat} :
    Node.Covers id (totalSize size as) (linkTo id as) (nodesAll p id as) := by
  induction as generalizing id with
  | nil => exact Node.covers_nil id
  | cons a as ih =>
    have hspans : Node.Spans id (totalSize size (a :: as)) [] (nodesAll p id (a :: as)) :=
      (spans_nodes a).append a.size_pos ih
    exact hspans.covers (totalSize_pos size_pos (List.cons_ne_nil a as))

end Alternative

end Spans

namespace Field

mutual

theorem spans_nodes {p : Position} (f : Field Symbol Note) {id : Nat} {next : Option Nat} :
    Node.Spans id f.size next.toList (f.nodes p id next) := by
  cases f with
  | plain b as declared n =>
    rw [nodes, size]
    exact Node.spans_cons (.of_eq (List.append_nil _)) (Alternative.covers_nodesAll as)
  | multi ps as declared n =>
    rw [nodes, size]
    exact Node.spans_cons (.of_eq (List.append_nil _)) (covers_nodesAll ps)

theorem covers_nodesAll {p : Position} (fs : List (Field Symbol Note)) {id k : Nat} :
    Node.Covers id (sizeAll fs) (linkTo id fs) (nodesAll p id k fs) := by
  cases fs with
  | nil => exact Node.covers_nil id
  | cons f fs =>
    have hspans : Node.Spans id (sizeAll (f :: fs)) [] (nodesAll p id k (f :: fs)) :=
      (spans_nodes f).append f.size_pos (covers_nodesAll fs)
    exact hspans.covers (sizeAll_pos (List.cons_ne_nil f fs))

end

end Field

theorem Slot.covers_nodesAll {p : Position} (ss : List (Slot Symbol Note)) {id j : Nat} :
    Node.Covers id (totalSize (fun s => s.field.size) ss) (linkTo id ss) (nodesAll p id j ss) := by
  induction ss generalizing id j with
  | nil => exact Node.covers_nil id
  | cons s ss ih =>
    have hspans : Node.Spans id (totalSize (fun s => s.field.size) (s :: ss)) []
        (nodesAll p id j (s :: ss)) :=
      s.field.spans_nodes.append s.field.size_pos ih
    exact hspans.covers (totalSize_pos (fun s => s.field.size_pos) (List.cons_ne_nil s ss))

theorem Condition.spans_nodes (k : Condition Symbol Note) {pattern joinDepth id : Nat}
    {child : Option Nat} :
    Node.Spans id k.size child.toList (k.nodes pattern joinDepth id child) := by
  obtain ⟨element, beginDepth, endDepth, n⟩ := k
  cases element with
  | pattern mode q =>
    refine Node.spans_cons ?_ (Slot.covers_nodesAll q.slots)
    rw [Node.targets, Option.toList_none, List.append_nil]
    exact List.perm_append_comm
  | test t => exact Node.spans_cons (.refl _) t.covers_nodes

namespace Lhs

theorem covers_nodesFrom (l : Lhs Symbol Note) {pattern joins id : Nat} :
    Node.Covers id (totalSize Condition.size l) (linkTo id l) (nodesFrom pattern joins id l) := by
  induction l generalizing pattern joins id with
  | nil => exact Node.covers_nil id
  | cons k ks ih =>
    have hspans : Node.Spans id (totalSize Condition.size (k :: ks)) []
        (nodesFrom pattern joins id (k :: ks)) :=
      k.spans_nodes.append k.size_pos ih
    exact hspans.covers (totalSize_pos Condition.size_pos (List.cons_ne_nil k ks))

/-- **The links of a left-hand side** lead to each of its nodes once, if one leads to its first node. -/
theorem covers_nodes (l : Lhs Symbol Note) :
    Node.Covers 0 l.nodes.length (linkTo 0 l) l.nodes := by
  have hlength : l.nodes.length = totalSize Condition.size l := by simp [nodes]
  rw [hlength]
  exact covers_nodesFrom l

end Lhs

/-! ## Tables -/

namespace NodeTable

/-- Where a link of the node with a number leads. -/
def follow (t : NodeTable) (id : Nat) (k : Link) : Option Nat := (t.node? id).bind k.target?

theorem follow_eq_some {t : NodeTable} {id j : Nat} {k : Link} :
    t.follow id k = some j ↔ ∃ n, t.node? id = some n ∧ k.target? n = some j :=
  Option.bind_eq_some_iff

/-- The links of a table lead forward to nodes that it has, and no two of them lead to one node. -/
structure IsTree (t : NodeTable) : Prop where
  forward {i j : Nat} {k : Link} (h : t.follow i k = some j) : i < j ∧ j < t.size
  unique {i i' j : Nat} {k k' : Link} (h : t.follow i k = some j) (h' : t.follow i' k' = some j) :
    i = i' ∧ k = k'

theorem size_ofLhs (l : Lhs Symbol Note) : (ofLhs l).size = l.nodes.length := by
  rw [ofLhs_eq]
  rfl

theorem node?_ofLhs {l : Lhs Symbol Note} {i : Nat} : (ofLhs l).node? i = l.nodes[i]? := by
  simp [ofLhs_eq, node?]

theorem forward_ofLhs {l : Lhs Symbol Note} {i j : Nat} {k : Link}
    (h : (ofLhs l).follow i k = some j) : i < j ∧ j < (ofLhs l).size := by
  obtain ⟨n, hn, hj⟩ := follow_eq_some.1 h
  have hforward := l.forward_nodes i n (node?_ofLhs ▸ hn)
  rw [Nat.zero_add] at hforward
  rw [size_ofLhs]
  cases k with
  | next => exact hforward.next j hj
  | child => exact hforward.child j hj
  | subexpr => exact hforward.subexpr j hj

theorem nodup_targets (l : Lhs Symbol Note) : (l.nodes.flatMap Node.targets).Nodup :=
  (List.nodup_append.1 (l.covers_nodes.nodup_iff.2 List.nodup_range')).2.1

/-- **The nodes of a left-hand side are a tree.** -/
theorem isTree_ofLhs (l : Lhs Symbol Note) : (ofLhs l).IsTree where
  forward := forward_ofLhs
  unique {i i' j k k'} h h' := by
    obtain ⟨n, hn, hj⟩ := follow_eq_some.1 h
    obtain ⟨n', hn', hj'⟩ := follow_eq_some.1 h'
    rw [node?_ofLhs] at hn hn'
    obtain ⟨hnodup, hdisjoint⟩ := List.nodup_flatMap.1 (nodup_targets l)
    -- two nodes in different places link to different nodes
    have hplace {a b : Nat} {m m' : Node} {r r' : Link} (ha : l.nodes[a]? = some m)
        (hb : l.nodes[b]? = some m') (hr : r.target? m = some j) (hr' : r'.target? m' = some j) :
        ¬ a < b := by
      intro hlt
      obtain ⟨halt, rfl⟩ := List.getElem?_eq_some_iff.1 ha
      obtain ⟨hblt, rfl⟩ := List.getElem?_eq_some_iff.1 hb
      exact List.pairwise_iff_getElem.1 hdisjoint a b halt hblt hlt (Node.mem_targets.2 ⟨r, hr⟩)
        (Node.mem_targets.2 ⟨r', hr'⟩)
    obtain rfl : i = i' := by
      have := hplace hn hn' hj hj'
      have := hplace hn' hn hj' hj
      omega
    obtain rfl := Option.some.inj (hn.symm.trans hn')
    exact ⟨rfl, Node.link_eq_of_nodup (hnodup n (List.mem_of_getElem? hn)) hj hj'⟩

/-- A link leads to every node but the first one. -/
theorem exists_follow_ofLhs {l : Lhs Symbol Note} {j : Nat} (hpos : 0 < j)
    (hj : j < (ofLhs l).size) : ∃ i k, (ofLhs l).follow i k = some j := by
  have hmem : j ∈ (linkTo 0 l).toList ++ l.nodes.flatMap Node.targets :=
    l.covers_nodes.mem_iff.2
      (List.mem_range'_1.2 ⟨Nat.zero_le j, by rw [Nat.zero_add, ← size_ofLhs]; exact hj⟩)
  rcases List.mem_append.1 hmem with h | h
  · have hfirst : Leads 0 1 (linkTo 0 l) := leads_linkTo (Nat.le_refl 0) fun _ => Nat.one_pos
    have := (hfirst j (Option.mem_toList.1 h)).2
    omega
  · obtain ⟨n, hn, hjn⟩ := List.mem_flatMap.1 h
    obtain ⟨i, hi⟩ := List.mem_iff_getElem?.1 hn
    obtain ⟨k, hk⟩ := Node.mem_targets.1 hjn
    exact ⟨i, k, follow_eq_some.2 ⟨n, node?_ofLhs.trans hi, hk⟩⟩

/-- The first condition is where its nodes were put when the table was built. -/
theorem first_ofLhs (l : Lhs Symbol Note) : (ofLhs l).first = linkTo 0 l := by
  rw [ofLhs_eq]

/-- A table that holds the nodes of a left-hand side and no others is its table. -/
theorem eq_ofLhs {t : NodeTable} {l : Lhs Symbol Note} (h : t.Holds 0 l.nodes)
    (hsize : t.size = l.nodes.length) (hfirst : t.first = linkTo 0 l) : t = ofLhs l := by
  obtain ⟨nodes, first⟩ := t
  rw [ofLhs_eq, mk.injEq]
  refine ⟨Array.ext (by simpa [size] using hsize) fun i hi hi' => ?_, hfirst⟩
  have hnode := h i _ (List.getElem?_eq_getElem (by simpa using hi'))
  rw [Nat.zero_add, node?, Array.getElem?_eq_getElem hi] at hnode
  simpa using Option.some.inj hnode

/-! ## Chains -/

/-- Following links of one kind, wherever they lead, ends and passes the given nodes. -/
inductive Walks (t : NodeTable) (k : Link) : Option Nat → List Nat → Prop where
  | nil : Walks t k none []
  | cons {id : Nat} {n : Node} {ids : List Nat} (node : t.node? id = some n)
      (rest : Walks t k (k.target? n) ids) : Walks t k (some id) (id :: ids)

/-- **A chain ends.** In a tree, `chain` does not stop before the links do. -/
theorem IsTree.walks_chain {t : NodeTable} (h : t.IsTree) (k : Link) {start : Option Nat}
    (hstart : ∀ i, start = some i → i < t.size) : t.Walks k start (t.chain k.target? start) := by
  cases start with
  | none => exact .nil
  | some id =>
    -- by induction on the number of nodes behind the first one
    induction hm : t.size - id using Nat.strongRecOn generalizing id with
    | ind m ih =>
      have hid : id < t.size := hstart id rfl
      have hn : t.node? id = some t.nodes[id] := Array.getElem?_eq_getElem hid
      have hlink (j : Nat) (hj : k.target? t.nodes[id] = some j) : id < j ∧ j < t.size :=
        h.forward (follow_eq_some.2 ⟨_, hn, hj⟩)
      rw [chain_some hn fun j hj => (hlink j hj).1]
      refine .cons hn ?_
      cases hj : k.target? t.nodes[id] with
      | none => exact .nil
      | some j =>
        obtain ⟨hlt, hsize⟩ := hlink j hj
        refine ih (t.size - j) (by omega) j (fun i hi => ?_) rfl
        rwa [← Option.some.inj hi]

end NodeTable

end Antecedent
