import Antecedent.Lhs.Node

/-!
# Node tables

A node table holds numbered nodes and answers questions by following links. Links lead from a node
to nodes with greater numbers, and a chain of links is followed only as far as they do, so it ends.
The chains do not look at the kinds of the nodes they pass.

A table is built condition by condition. The nodes of a condition are put behind those that are there,
and where the first condition was put is recorded.
-/

namespace Antecedent

/-- Numbered nodes. -/
structure NodeTable where
  nodes : Array Node := #[]
  /-- The first condition. -/
  first : Option Nat := none

namespace NodeTable

/-- Puts the nodes of some conditions into the table; the first of these is numbered `pattern`, and
`joins` patterns come before it. -/
def add (pattern joins : Nat) (t : NodeTable) : Lhs Symbol Note → NodeTable
  | [] => t
  | c :: cs =>
    let id := t.nodes.size
    let nodes := c.nodes pattern (c.joinsAfter joins) id (linkTo (id + c.size) cs)
    add (pattern + 1) (c.joinsAfter joins) ⟨t.nodes ++ nodes.toArray, t.first.or (some id)⟩ cs

/-- The table of the nodes of a left-hand side. -/
def ofLhs (l : Lhs Symbol Note) : NodeTable := add 1 0 {} l

theorem add_eq (pattern joins : Nat) (t : NodeTable) (l : Lhs Symbol Note) :
    t.add pattern joins l = ⟨t.nodes ++ (l.nodesFrom pattern joins t.nodes.size).toArray,
      t.first.or (linkTo t.nodes.size l)⟩ := by
  induction l generalizing pattern joins t with
  | nil => simp [add, Lhs.nodesFrom, linkTo]
  | cons c cs ih =>
    have hfirst : linkTo t.nodes.size (c :: cs) = some t.nodes.size := rfl
    rw [add, ih, Lhs.nodesFrom, hfirst]
    simp [← List.append_toArray]

theorem ofLhs_eq (l : Lhs Symbol Note) : ofLhs l = ⟨l.nodes.toArray, linkTo 0 l⟩ := by
  rw [ofLhs, add_eq]
  simp [Lhs.nodes]

def size (t : NodeTable) : Nat := t.nodes.size

def isEmpty (t : NodeTable) : Bool := t.nodes.isEmpty

def node? (t : NodeTable) (id : Nat) : Option Node := t.nodes[id]?

/-- The nodes met by following one kind of link from a node on, the node included. -/
def chainFrom (t : NodeTable) (link : Node → Option Nat) (id : Nat) : List Nat :=
  if h : id < t.nodes.size then
    id :: match link t.nodes[id] with
      | some j => if id < j then t.chainFrom link j else []
      | none => []
  else []
termination_by t.nodes.size - id

/-- The nodes met by following one kind of link. -/
def chain (t : NodeTable) (link : Node → Option Nat) : Option Nat → List Nat
  | some id => t.chainFrom link id
  | none => []

/-- The conditions in order. -/
def conditions (t : NodeTable) : List Nat := t.chain Node.child t.first

/-- The condition with a number counted from one. -/
def condition? (t : NodeTable) (pattern : Nat) : Option Nat :=
  t.conditions.find? fun id => (t.node? id).any fun n => n.position.pattern = pattern

/-- The fields of a pattern; a multifield slot is one of them. -/
def fields (t : NodeTable) (id : Nat) : List Nat :=
  t.chain Node.next ((t.node? id).bind Node.next)

/-- The field of a pattern with a number counted from one. -/
def field? (t : NodeTable) (id field : Nat) : Option Nat :=
  (t.fields id).find? fun f => (t.node? f).any fun n => n.position.field = field

/-- The parts of a multifield slot. -/
def parts (t : NodeTable) (id : Nat) : List Nat :=
  t.chain Node.next ((t.node? id).bind Node.child)

/-- The first conjuncts of the alternatives of a field. -/
def alternatives (t : NodeTable) (id : Nat) : List Nat :=
  t.chain Node.child ((t.node? id).bind Node.child)

/-- The conjuncts of an alternative, from its first one on. -/
def conjuncts (t : NodeTable) (id : Nat) : List Nat := t.chain Node.next (some id)

/-- The arguments of a call. -/
def args (t : NodeTable) (id : Nat) : List Nat :=
  t.chain Node.next ((t.node? id).bind Node.child)

end NodeTable

end Antecedent
