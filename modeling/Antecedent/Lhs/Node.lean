import Antecedent.Lhs.Note
import Antecedent.Lhs.Syntax

/-!
# Nodes of a left-hand side

An interned left-hand side can be listed as numbered nodes with links, each node before the nodes
below it. Of the links of a node

* `next` leads from a condition to its first field, from a field to the following field or part,
  from a constraint to the following conjunct, and from an argument to the following argument;
* `child` leads from a condition to the following condition, from a field to its first alternative
  or part, from the first conjunct of an alternative to the following alternative, and from a call
  to its first argument;
* `subexpr` leads to the expression of a test, predicate or return value.

`Lhs.nodes` is the list. A node's number is its position, and the numbers of the nodes it links to
are computed from the sizes of what lies between.
-/

namespace Antecedent

/-- What a node stands for. -/
inductive NodeKind where
  | pattern (handle : Option Symbol)
  | test
  | var (name : Symbol) (arity : Arity)
  | wildcard (arity : Arity)
  | multislot
  | literal (value : Literal Symbol)
  | predicate
  | returnValue
  | call (function : Symbol)
  | global (name : Symbol)
  deriving DecidableEq, BEq, Repr

/-- The attributes that all nodes at one position of the left-hand side share. -/
structure Position where
  /-- The condition, counted from one. -/
  pattern : Nat
  /-- The number of patterns up to and including the condition. -/
  joinDepth : Nat
  /-- The field, counted from one; zero at the condition itself. -/
  field : Nat
  slot : Option Symbol
  segment : Option Segment
  beginDepth : Nat
  endDepth : Nat
  kind : Option EntityKind
  deriving DecidableEq, Repr

/-- One node. -/
structure Node where
  kind : NodeKind
  position : Position
  next : Option Nat := none
  child : Option Nat := none
  subexpr : Option Nat := none
  negated : Bool := false
  existential : Bool := false
  declared : Option Restriction := none
  note : Note := {}
  deriving BEq, Repr

namespace Node

def isCondition (n : Node) : Bool :=
  match n.kind with
  | .pattern _ | .test => true
  | _ => false

/-- The name and arity of a variable. -/
def asVariable (n : Node) : Option (Symbol × Arity) :=
  match n.kind with
  | .var name arity => some (name, arity)
  | _ => none

def asHandle (n : Node) : Option Symbol :=
  match n.kind with
  | .pattern handle => handle
  | _ => none

end Node

/-- The number of the first of some nodes that start at `id`, if there are any. -/
def linkTo {β : Type} (id : Nat) (xs : List β) : Option Nat := if xs.isEmpty then none else some id

namespace Term

mutual

/-- The nodes of an expression that starts at number `id` and is followed by `next`. -/
def nodes (p : Position) (id : Nat) (next : Option Nat) : Term Symbol Note → List Node
  | call f args =>
    { kind := .call f, position := p, next, child := linkTo (id + 1) args } ::
      nodesAll p (id + 1) args
  | var x arity note => [{ kind := .var x arity, position := p, next, note }]
  | lit v => [{ kind := .literal v, position := p, next }]
  | global x => [{ kind := .global x, position := p, next }]

/-- The nodes of the arguments of a call. -/
def nodesAll (p : Position) (id : Nat) : List (Term Symbol Note) → List Node
  | [] => []
  | t :: ts => nodes p id (linkTo (id + t.size) ts) t ++ nodesAll p (id + t.size) ts

end

end Term

namespace Term

mutual

@[simp] theorem length_nodes (p : Position) (id : Nat) (next : Option Nat)
    (t : Term Symbol Note) : (t.nodes p id next).length = t.size := by
  cases t with
  | call f args => simp [nodes, size, length_nodesAll p (id + 1) args, Nat.add_comm]
  | var x arity note => rfl
  | lit v => rfl
  | global x => rfl

@[simp] theorem length_nodesAll (p : Position) (id : Nat) (ts : List (Term Symbol Note)) :
    (nodesAll p id ts).length = sizeAll ts := by
  cases ts with
  | nil => rfl
  | cons t ts => simp [nodesAll, sizeAll, length_nodes p id _ t, length_nodesAll p _ ts]

end

end Term

/-- The nodes of one conjunct. -/
def Constraint.nodes (p : Position) (id : Nat) (next child : Option Nat)
    (c : Constraint Symbol Note) : List Node :=
  match c.shape with
  | .literal v => [{ kind := .literal v, position := p, next, child, negated := c.negated }]
  | .var x arity note =>
    [{ kind := .var x arity, position := p, next, child, negated := c.negated, note }]
  | .predicate t =>
    { kind := .predicate, position := p, next, child, subexpr := some (id + 1),
      negated := c.negated } :: t.nodes p (id + 1) none
  | .returnValue t =>
    { kind := .returnValue, position := p, next, child, subexpr := some (id + 1),
      negated := c.negated } :: t.nodes p (id + 1) none

@[simp] theorem Constraint.length_nodes (p : Position) (id : Nat) (next child : Option Nat)
    (c : Constraint Symbol Note) : (c.nodes p id next child).length = c.size := by
  obtain ⟨shape, negated⟩ := c
  cases shape <;> simp [nodes, size, Nat.add_comm]

/-- The nodes of the conjuncts after the first one. -/
def Constraint.nodesAll (p : Position) (id : Nat) : List (Constraint Symbol Note) → List Node
  | [] => []
  | c :: cs => c.nodes p id (linkTo (id + c.size) cs) none ++ nodesAll p (id + c.size) cs

@[simp] theorem Constraint.length_nodesAll (p : Position) (id : Nat)
    (cs : List (Constraint Symbol Note)) :
    (nodesAll p id cs).length = totalSize Constraint.size cs := by
  induction cs generalizing id with
  | nil => rfl
  | cons c cs ih => simp [nodesAll, ih]

/-- The nodes of an alternative; its first conjunct links to the following alternative. -/
def Alternative.nodes (p : Position) (id : Nat) (child : Option Nat)
    (a : Alternative Symbol Note) : List Node :=
  let second := id + a.first.size
  a.first.nodes p id (linkTo second a.rest) child ++ Constraint.nodesAll p second a.rest

def Alternative.nodesAll (p : Position) (id : Nat) : List (Alternative Symbol Note) → List Node
  | [] => []
  | a :: as => a.nodes p id (linkTo (id + a.size) as) ++ nodesAll p (id + a.size) as

@[simp] theorem Alternative.length_nodes (p : Position) (id : Nat) (child : Option Nat)
    (a : Alternative Symbol Note) : (a.nodes p id child).length = a.size := by
  simp [nodes, size, constraints]

@[simp] theorem Alternative.length_nodesAll (p : Position) (id : Nat)
    (as : List (Alternative Symbol Note)) :
    (nodesAll p id as).length = totalSize Alternative.size as := by
  induction as generalizing id with
  | nil => rfl
  | cons a as ih => simp [nodesAll, ih]

def Binder.nodeKind : Binder Symbol → NodeKind
  | var x arity => .var x arity
  | wildcard arity => .wildcard arity

namespace Field

mutual

/-- The nodes of a field that starts at number `id` and is followed by `next`. -/
def nodes (p : Position) (id : Nat) (next : Option Nat) : Field Symbol Note → List Node
  | plain b as declared note =>
    { kind := b.nodeKind, position := p, next, child := linkTo (id + 1) as, declared, note } ::
      Alternative.nodesAll p (id + 1) as
  | multi ps _ declared note =>
    { kind := .multislot, position := p, next, child := linkTo (id + 1) ps, declared, note } ::
      nodesAll p (id + 1) 0 ps

/-- The nodes of the parts of a slot, from the part with index `k` on. -/
def nodesAll (p : Position) (id : Nat) (k : Nat) : List (Field Symbol Note) → List Node
  | [] => []
  | f :: fs =>
    nodes { p with segment := some (f.segment k) } id (linkTo (id + f.size) fs) f ++
      nodesAll p (id + f.size) (k + 1) fs

end

end Field

namespace Field

mutual

@[simp] theorem length_nodes (p : Position) (id : Nat) (next : Option Nat)
    (f : Field Symbol Note) : (f.nodes p id next).length = f.size := by
  cases f with
  | plain b as declared note => simp [nodes, size, Nat.add_comm]
  | multi ps as declared note => simp [nodes, size, length_nodesAll p (id + 1) 0 ps, Nat.add_comm]

@[simp] theorem length_nodesAll (p : Position) (id k : Nat) (fs : List (Field Symbol Note)) :
    (nodesAll p id k fs).length = sizeAll fs := by
  cases fs with
  | nil => rfl
  | cons f fs => simp [nodesAll, sizeAll, length_nodes _ id _ f, length_nodesAll p _ (k + 1) fs]

end

end Field

/-- The nodes of the slots of a pattern, from the field with number `j` on. -/
def Slot.nodesAll (p : Position) (id : Nat) (j : Nat) : List (Slot Symbol Note) → List Node
  | [] => []
  | s :: ss =>
    s.field.nodes { p with field := j, slot := s.name } id (linkTo (id + s.field.size) ss) ++
      nodesAll p (id + s.field.size) (j + 1) ss

@[simp] theorem Slot.length_nodesAll (p : Position) (id j : Nat)
    (ss : List (Slot Symbol Note)) :
    (nodesAll p id j ss).length = totalSize (fun s => s.field.size) ss := by
  induction ss generalizing id j with
  | nil => rfl
  | cons s ss ih => simp [nodesAll, ih]

/-- The nodes of a condition; `child` is the following condition. -/
def Condition.nodes (pattern joinDepth id : Nat) (child : Option Nat)
    (c : Condition Symbol Note) : List Node :=
  let p : Position :=
    { pattern, joinDepth, field := 0, slot := none, segment := none, beginDepth := c.beginDepth,
      endDepth := c.endDepth, kind := c.pattern?.map Pattern.kind }
  match c.element with
  | .pattern mode q =>
    { kind := .pattern q.handle, position := p, next := linkTo (id + 1) q.slots, child,
      negated := mode = .negated, existential := mode = .existential, note := c.note } ::
      Slot.nodesAll p (id + 1) 1 q.slots
  | .test t =>
    { kind := .test, position := p, child, subexpr := some (id + 1), note := c.note } ::
      t.nodes p (id + 1) none

@[simp] theorem Condition.length_nodes (pattern joinDepth id : Nat) (child : Option Nat)
    (c : Condition Symbol Note) : (c.nodes pattern joinDepth id child).length = c.size := by
  obtain ⟨element, _, _, _⟩ := c
  cases element <;> simp [nodes, size, Nat.add_comm]

namespace Lhs

/-- The nodes from the condition numbered `pattern` on, when `joins` patterns come before it. -/
def nodesFrom (pattern joins id : Nat) : Lhs Symbol Note → List Node
  | [] => []
  | c :: cs =>
    c.nodes pattern (c.joinsAfter joins) id (linkTo (id + c.size) cs) ++
      nodesFrom (pattern + 1) (c.joinsAfter joins) (id + c.size) cs

@[simp] theorem length_nodesFrom (pattern joins id : Nat) (l : Lhs Symbol Note) :
    (nodesFrom pattern joins id l).length = totalSize Condition.size l := by
  induction l generalizing pattern joins id with
  | nil => rfl
  | cons c cs ih => simp [nodesFrom, ih]

/-- All nodes of a left-hand side, in the order of their numbers. -/
def nodes (l : Lhs Symbol Note) : List Node := nodesFrom 1 0 0 l

end Lhs

end Antecedent
