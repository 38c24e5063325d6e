import Antecedent.Lhs.Table
import Antecedent.Proofs.Binders
import Antecedent.Proofs.NodeNotes

/-!
# Links between nodes

The nodes of a left-hand side are numbered so that links lead forward. A node table can therefore be
read by following them, and no link leads out of it.

* `Leads` bounds the node that a link leads to, and `Node.Forward` says that the links of a node lead
  to greater numbers below a bound.
* `Lhs.forward_nodes` says this of all nodes of a left-hand side, with one lemma for every kind of
  syntax tree before it.
* `NodeTable.Holds` says that a table holds some nodes from a number on.
* `NodeTable.chain_some` takes a chain of links apart at a node that the table holds.
-/

namespace Antecedent

variable {ν α : Type}

/-! ## Bounds on links -/

/-- A link, if there is one, leads to a node with a number from `lo` on and below `hi`. -/
def Leads (lo hi : Nat) (link : Option Nat) : Prop := ∀ j, link = some j → lo ≤ j ∧ j < hi

theorem leads_none (lo hi : Nat) : Leads lo hi none := by
  intro j h
  cases h

theorem Leads.mono {lo lo' hi : Nat} {link : Option Nat} (h : Leads lo hi link) (hlo : lo' ≤ lo) :
    Leads lo' hi link := by
  intro j hj
  obtain ⟨hle, hlt⟩ := h j hj
  exact ⟨by omega, hlt⟩

theorem leads_linkTo {β : Type} {lo hi id : Nat} {xs : List β} (hlo : lo ≤ id)
    (hhi : xs ≠ [] → id < hi) : Leads lo hi (linkTo id xs) := by
  intro j hj
  cases xs with
  | nil => cases hj
  | cons x xs =>
    obtain rfl := Option.some.inj hj
    exact ⟨hlo, hhi (List.cons_ne_nil x xs)⟩

/-- The links of a node lead to greater numbers, below `hi`. -/
structure Node.Forward (hi i : Nat) (n : Node) : Prop where
  next : Leads (i + 1) hi n.next
  child : Leads (i + 1) hi n.child
  subexpr : Leads (i + 1) hi n.subexpr

/-! ## Sizes -/

theorem totalSize_pos {τ : Type} {size : τ → Nat} (hsize : ∀ x, 0 < size x) {xs : List τ}
    (h : xs ≠ []) : 0 < totalSize size xs := by
  cases xs with
  | nil => exact absurd rfl h
  | cons x xs =>
    have := hsize x
    rw [totalSize_cons]
    omega

theorem Term.size_pos (t : Term ν α) : 0 < t.size := by
  cases t <;> unfold size <;> omega

theorem Term.sizeAll_pos {ts : List (Term ν α)} (h : ts ≠ []) : 0 < sizeAll ts := by
  cases ts with
  | nil => exact absurd rfl h
  | cons t ts =>
    have := t.size_pos
    rw [sizeAll]
    omega

theorem Constraint.size_pos (c : Constraint ν α) : 0 < c.size := by
  unfold size
  split <;> omega

theorem Alternative.size_pos (a : Alternative ν α) : 0 < a.size :=
  totalSize_pos Constraint.size_pos (List.cons_ne_nil a.first a.rest)

theorem Field.sizeAll_pos {fs : List (Field Symbol α)} (h : fs ≠ []) : 0 < sizeAll fs := by
  cases fs with
  | nil => exact absurd rfl h
  | cons f fs =>
    have := f.size_pos
    rw [sizeAll]
    omega

theorem Condition.size_pos (k : Condition Symbol α) : 0 < k.size := by
  unfold size
  split <;> omega

/-! ## Links lead forward -/

section Forward

variable {hi : Nat} {p : Position}

namespace Term

mutual

theorem forward_nodes (t : Term Symbol Note) {id : Nat} {next : Option Nat} (hhi : id + t.size ≤ hi)
    (hnext : Leads (id + t.size) hi next) :
    Node.Numbered (Node.Forward hi) id (t.nodes p id next) := by
  have hpos := t.size_pos
  cases t with
  | call f args =>
    rw [size] at hhi
    refine Node.numbered_cons.2 ⟨⟨hnext.mono (by omega), ?_, leads_none _ _⟩, ?_⟩
    · refine leads_linkTo (Nat.le_refl _) fun hargs => ?_
      have := sizeAll_pos hargs
      omega
    · exact forward_nodesAll args (by omega)
  | var x arity n =>
    exact Node.numbered_cons.2
      ⟨⟨hnext.mono (by omega), leads_none _ _, leads_none _ _⟩, Node.numbered_nil _⟩
  | lit v =>
    exact Node.numbered_cons.2
      ⟨⟨hnext.mono (by omega), leads_none _ _, leads_none _ _⟩, Node.numbered_nil _⟩
  | global x =>
    exact Node.numbered_cons.2
      ⟨⟨hnext.mono (by omega), leads_none _ _, leads_none _ _⟩, Node.numbered_nil _⟩

theorem forward_nodesAll (ts : List (Term Symbol Note)) {id : Nat} (hhi : id + sizeAll ts ≤ hi) :
    Node.Numbered (Node.Forward hi) id (nodesAll p id ts) := by
  cases ts with
  | nil => exact Node.numbered_nil _
  | cons t ts =>
    rw [sizeAll] at hhi
    rw [nodesAll, Node.numbered_append, length_nodes]
    refine ⟨forward_nodes t (by omega) ?_, forward_nodesAll ts (by omega)⟩
    refine leads_linkTo (Nat.le_refl _) fun hts => ?_
    have := sizeAll_pos hts
    omega

end

end Term

theorem Constraint.forward_nodes (c : Constraint Symbol Note) {id : Nat} {next child : Option Nat}
    (hhi : id + c.size ≤ hi) (hnext : Leads (id + c.size) hi next)
    (hchild : Leads (id + c.size) hi child) :
    Node.Numbered (Node.Forward hi) id (c.nodes p id next child) := by
  have hpos := c.size_pos
  replace hnext : Leads (id + 1) hi next := hnext.mono (by omega)
  replace hchild : Leads (id + 1) hi child := hchild.mono (by omega)
  obtain ⟨shape, negated⟩ := c
  -- A predicate or return value links to the expression that follows it.
  have hroot : ∀ {t : Term Symbol Note}, id + (1 + t.size) ≤ hi →
      Leads (id + 1) hi (some (id + 1)) := by
    intro t ht j hj
    obtain rfl := Option.some.inj hj
    have := t.size_pos
    omega
  cases shape with
  | literal v =>
    exact Node.numbered_cons.2 ⟨⟨hnext, hchild, leads_none _ _⟩, Node.numbered_nil _⟩
  | var x arity n =>
    exact Node.numbered_cons.2 ⟨⟨hnext, hchild, leads_none _ _⟩, Node.numbered_nil _⟩
  | predicate t =>
    have hhi : id + (1 + t.size) ≤ hi := hhi
    exact Node.numbered_cons.2
      ⟨⟨hnext, hchild, hroot hhi⟩, t.forward_nodes (by omega) (leads_none _ _)⟩
  | returnValue t =>
    have hhi : id + (1 + t.size) ≤ hi := hhi
    exact Node.numbered_cons.2
      ⟨⟨hnext, hchild, hroot hhi⟩, t.forward_nodes (by omega) (leads_none _ _)⟩

theorem Constraint.forward_nodesAll (cs : List (Constraint Symbol Note)) {id : Nat}
    (hhi : id + totalSize size cs ≤ hi) :
    Node.Numbered (Node.Forward hi) id (nodesAll p id cs) := by
  induction cs generalizing id with
  | nil => exact Node.numbered_nil _
  | cons c cs ih =>
    rw [totalSize_cons] at hhi
    rw [nodesAll, Node.numbered_append, length_nodes]
    refine ⟨c.forward_nodes (by omega) ?_ (leads_none _ _), ih (by omega)⟩
    refine leads_linkTo (Nat.le_refl _) fun hcs => ?_
    have := totalSize_pos Constraint.size_pos hcs
    omega

namespace Alternative

theorem forward_nodes (a : Alternative Symbol Note) {id : Nat} {child : Option Nat}
    (hhi : id + a.size ≤ hi) (hchild : Leads (id + a.size) hi child) :
    Node.Numbered (Node.Forward hi) id (a.nodes p id child) := by
  have hsize : a.size = a.first.size + totalSize Constraint.size a.rest := rfl
  rw [nodes, Node.numbered_append, Constraint.length_nodes]
  refine ⟨a.first.forward_nodes (by omega) ?_ (hchild.mono (by omega)),
    Constraint.forward_nodesAll a.rest (by omega)⟩
  refine leads_linkTo (Nat.le_refl _) fun hrest => ?_
  have := totalSize_pos Constraint.size_pos hrest
  omega

theorem forward_nodesAll (as : List (Alternative Symbol Note)) {id : Nat}
    (hhi : id + totalSize size as ≤ hi) :
    Node.Numbered (Node.Forward hi) id (nodesAll p id as) := by
  induction as generalizing id with
  | nil => exact Node.numbered_nil _
  | cons a as ih =>
    rw [totalSize_cons] at hhi
    rw [nodesAll, Node.numbered_append, length_nodes]
    refine ⟨a.forward_nodes (by omega) ?_, ih (by omega)⟩
    refine leads_linkTo (Nat.le_refl _) fun has => ?_
    have := totalSize_pos size_pos has
    omega

end Alternative

end Forward

namespace Field

mutual

theorem forward_nodes {hi : Nat} {p : Position} (f : Field Symbol Note) {id : Nat}
    {next : Option Nat} (hhi : id + f.size ≤ hi) (hnext : Leads (id + f.size) hi next) :
    Node.Numbered (Node.Forward hi) id (f.nodes p id next) := by
  have hpos := f.size_pos
  replace hnext : Leads (id + 1) hi next := hnext.mono (by omega)
  cases f with
  | plain b as declared n =>
    rw [size] at hhi
    refine Node.numbered_cons.2 ⟨⟨hnext, ?_, leads_none _ _⟩,
      Alternative.forward_nodesAll as (by omega)⟩
    refine leads_linkTo (Nat.le_refl _) fun has => ?_
    have := totalSize_pos Alternative.size_pos has
    omega
  | multi ps as declared n =>
    rw [size] at hhi
    refine Node.numbered_cons.2 ⟨⟨hnext, ?_, leads_none _ _⟩, forward_nodesAll ps (by omega)⟩
    refine leads_linkTo (Nat.le_refl _) fun hps => ?_
    have := sizeAll_pos hps
    omega

theorem forward_nodesAll {hi : Nat} {p : Position} (fs : List (Field Symbol Note)) {id k : Nat}
    (hhi : id + sizeAll fs ≤ hi) : Node.Numbered (Node.Forward hi) id (nodesAll p id k fs) := by
  cases fs with
  | nil => exact Node.numbered_nil _
  | cons f fs =>
    rw [sizeAll] at hhi
    rw [nodesAll, Node.numbered_append, length_nodes]
    refine ⟨forward_nodes f (by omega) ?_, forward_nodesAll fs (by omega)⟩
    refine leads_linkTo (Nat.le_refl _) fun hfs => ?_
    have := sizeAll_pos hfs
    omega

end

end Field

section Forward

variable {hi : Nat}

theorem Slot.forward_nodesAll {p : Position} (ss : List (Slot Symbol Note)) {id j : Nat}
    (hhi : id + totalSize (fun s => s.field.size) ss ≤ hi) :
    Node.Numbered (Node.Forward hi) id (nodesAll p id j ss) := by
  induction ss generalizing id j with
  | nil => exact Node.numbered_nil _
  | cons s ss ih =>
    rw [totalSize_cons] at hhi
    rw [nodesAll, Node.numbered_append, Field.length_nodes]
    refine ⟨s.field.forward_nodes (by omega) ?_, ih (by omega)⟩
    refine leads_linkTo (Nat.le_refl _) fun hss => ?_
    have := totalSize_pos (fun s : Slot Symbol Note => s.field.size_pos) hss
    omega

theorem Condition.forward_nodes (k : Condition Symbol Note) {pattern joinDepth id : Nat}
    {child : Option Nat} (hhi : id + k.size ≤ hi) (hchild : Leads (id + k.size) hi child) :
    Node.Numbered (Node.Forward hi) id (k.nodes pattern joinDepth id child) := by
  have hpos := k.size_pos
  replace hchild : Leads (id + 1) hi child := hchild.mono (by omega)
  obtain ⟨element, beginDepth, endDepth, n⟩ := k
  cases element with
  | pattern mode q =>
    have hhi : id + (1 + totalSize (fun s => s.field.size) q.slots) ≤ hi := hhi
    refine Node.numbered_cons.2 ⟨⟨?_, hchild, leads_none _ _⟩,
      Slot.forward_nodesAll q.slots (by omega)⟩
    refine leads_linkTo (Nat.le_refl _) fun hss => ?_
    have := totalSize_pos (fun s : Slot Symbol Note => s.field.size_pos) hss
    omega
  | test t =>
    have hhi : id + (1 + t.size) ≤ hi := hhi
    refine Node.numbered_cons.2 ⟨⟨leads_none _ _, hchild, ?_⟩,
      t.forward_nodes (by omega) (leads_none _ _)⟩
    intro j hj
    obtain rfl := Option.some.inj hj
    have := t.size_pos
    omega

namespace Lhs

theorem forward_nodesFrom {pattern joins id : Nat} (l : Lhs Symbol Note)
    (hhi : id + totalSize Condition.size l ≤ hi) :
    Node.Numbered (Node.Forward hi) id (nodesFrom pattern joins id l) := by
  induction l generalizing pattern joins id with
  | nil => exact Node.numbered_nil _
  | cons k ks ih =>
    rw [totalSize_cons] at hhi
    rw [nodesFrom, Node.numbered_append, Condition.length_nodes]
    refine ⟨k.forward_nodes (by omega) ?_, ih (by omega)⟩
    refine leads_linkTo (Nat.le_refl _) fun hks => ?_
    have := totalSize_pos Condition.size_pos hks
    omega

/-- **The links of a left-hand side lead forward**, to nodes that it has. -/
theorem forward_nodes (l : Lhs Symbol Note) :
    Node.Numbered (Node.Forward l.nodes.length) 0 l.nodes :=
  forward_nodesFrom l (by simp [nodes])

end Lhs

end Forward

/-! ## Tables that hold nodes -/

namespace NodeTable

/-- The table holds some nodes, the first one at number `id`. -/
def Holds (t : NodeTable) (id : Nat) (ns : List Node) : Prop :=
  Node.Numbered (fun i n => t.node? i = some n) id ns

/-- A table holds two parts one after the other. -/
theorem Holds.split {t : NodeTable} {id m : Nat} {ns ms : List Node} (h : t.Holds id (ns ++ ms))
    (hm : ns.length = m) : t.Holds id ns ∧ t.Holds (id + m) ms := by
  subst hm
  exact Node.numbered_append.1 h

theorem holds_ofLhs (l : Lhs Symbol Note) : (ofLhs l).Holds 0 l.nodes := by
  intro i n hn
  simpa [ofLhs_eq, node?] using hn

theorem lt_size_of_node? {t : NodeTable} {id : Nat} {n : Node} (h : t.node? id = some n) :
    id < t.nodes.size :=
  (Array.getElem?_eq_some_iff.1 h).1

/-- A chain goes on where a node's link leads. -/
theorem chain_some {t : NodeTable} {link : Node → Option Nat} {id : Nat} {n : Node}
    (hn : t.node? id = some n) (hlink : ∀ j, link n = some j → id < j) :
    t.chain link (some id) = id :: t.chain link (link n) := by
  obtain ⟨hid, rfl⟩ := Array.getElem?_eq_some_iff.1 hn
  rw [chain, chainFrom, dif_pos hid]
  cases hj : link t.nodes[id] with
  | none => rfl
  | some j => simp only [if_pos (hlink j hj), chain]

end NodeTable

end Antecedent
