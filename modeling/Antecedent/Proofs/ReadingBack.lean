import Antecedent.Proofs.NodeTree
import Antecedent.Proofs.Spelling
import Antecedent.Proofs.TableReading

/-!
# Reading a left-hand side back

A node table is read back by following its chains: the conditions, the fields of a condition, the parts of
a slot, the alternatives of a field, the conjuncts of an alternative, the expression of a node and the
arguments of a call. Where a node stands in these chains says what its position must be, and reading fails
at a node with another position.

* `NodeTable.nodeAt` is a node that stands at a given position.
* `NodeTable.readTerm`, `NodeTable.readConstraint`, `NodeTable.readField`, ..., `NodeTable.read` read a
  table back. Everything below a field is read at the position of the field.
* `NodeTable.readTerm_eq`, ..., `NodeTable.read_ofLhs` say that the nodes of a syntax tree are read as this
  syntax tree.
* `Lhs.read_intern` is the main result: a table read back and spelled gives the left-hand side from which
  it was built.
-/

namespace Antecedent

/-- Whether a node stands for a field that takes a sequence of values. -/
def NodeKind.isSequence : NodeKind → Bool
  | var _ arity | wildcard arity => arity.isSequence
  | multislot => true
  | _ => false

/-- The mode of a pattern, from the two marks of its node. -/
def Node.mode? (n : Node) : Option Mode :=
  match n.negated, n.existential with
  | false, false => some .plain
  | true, false => some .negated
  | false, true => some .existential
  | true, true => none

/-- The number of patterns after the node of a condition, given the number before it. -/
def Node.joinsAfter (joins : Nat) (n : Node) : Nat :=
  match n.kind with
  | .pattern _ => joins + 1
  | _ => joins

namespace NodeTable

/-! ## Reading -/

/-- The node with a number, if it stands at the given position. -/
def nodeAt (t : NodeTable) (p : Position) (id : Nat) : Option Node :=
  (t.node? id).filter fun n => n.position = p

/-- Reads the expression at a node. -/
def readTerm (t : NodeTable) (p : Position) (id : Nat) : Option (Term Symbol Unit) := do
  let n ← t.nodeAt p id
  match n.kind with
  | .call f =>
    return .call f (← (t.args id).mapM fun j =>
      if id < j ∧ j < t.size then t.readTerm p j else none)
  | .var x arity => return .var x arity ()
  | .literal v => return .lit v
  | .global x => return .global x
  | _ => none
termination_by t.size - id

/-- Reads the conjunct at a node. -/
def readConstraint (t : NodeTable) (p : Position) (id : Nat) : Option (Constraint Symbol Unit) := do
  let n ← t.nodeAt p id
  match n.kind, n.subexpr with
  | .literal v, none => return ⟨.literal v, n.negated⟩
  | .var x arity, none => return ⟨.var x arity (), n.negated⟩
  | .predicate, some root => return ⟨.predicate (← t.readTerm p root), n.negated⟩
  | .returnValue, some root => return ⟨.returnValue (← t.readTerm p root), n.negated⟩
  | _, _ => none

/-- Reads the alternative whose first conjunct is at a node. -/
def readAlternative (t : NodeTable) (p : Position) (id : Nat) : Option (Alternative Symbol Unit) := do
  match ← (t.conjuncts id).mapM (t.readConstraint p) with
  | first :: rest => return ⟨first, rest⟩
  | [] => none

/-- Reads the field at a node. The parts of a slot are counted from zero. -/
def readField (t : NodeTable) (p : Position) (id : Nat) : Option (Field Symbol Unit) := do
  let n ← t.nodeAt p id
  match n.kind with
  | .var x arity =>
    return .plain (.var x arity) (← (t.alternatives id).mapM (t.readAlternative p)) n.declared ()
  | .wildcard arity =>
    return .plain (.wildcard arity) (← (t.alternatives id).mapM (t.readAlternative p)) n.declared ()
  | .multislot =>
    let parts ← (t.parts id).zipIdx.mapM fun v =>
      if id < v.1 ∧ v.1 < t.size then do
        let part ← t.node? v.1
        t.readField { p with segment := some ⟨v.2, part.kind.isSequence⟩ } v.1
      else none
    return .multi parts [] n.declared ()
  | _ => none
termination_by t.size - id

/-- Reads the slot with field number `j` at a node. -/
def readSlot (t : NodeTable) (p : Position) (j id : Nat) : Option (Slot Symbol Unit) := do
  let n ← t.node? id
  return ⟨n.position.slot, ← t.readField { p with field := j, slot := n.position.slot } id⟩

/-- Reads the pattern or test at a node. The fields of a pattern are counted from one. -/
def readElement (t : NodeTable) (p : Position) (id : Nat) (n : Node) : Option (Element Symbol Unit) :=
  match n.kind, p.kind, n.subexpr with
  | .pattern handle, some kind, none => do
    let slots ← ((t.fields id).zipIdx 1).mapM fun v => t.readSlot p v.2 v.1
    return .pattern (← n.mode?) ⟨kind, handle, slots⟩
  | .test, none, some root => return .test (← t.readTerm p root)
  | _, _, _ => none

/-- Reads the condition with number `pattern` at a node, when `joins` patterns come before it. -/
def readCondition (t : NodeTable) (pattern joins id : Nat) : Option (Condition Symbol Unit) := do
  let n ← t.node? id
  let p := { n.position with
    pattern, joinDepth := n.joinsAfter joins, field := 0, slot := none, segment := none }
  let n ← t.nodeAt p id
  return ⟨← t.readElement p id n, p.beginDepth, p.endDepth, ()⟩

/-- Reads the conditions at some nodes, counted from `pattern` on. -/
def readFrom (t : NodeTable) (pattern joins : Nat) : List Nat → Option (Lhs Symbol Unit)
  | [] => some []
  | id :: ids => do
    let k ← t.readCondition pattern joins id
    return k :: (← readFrom t (pattern + 1) (k.joinsAfter joins) ids)

/-- Reads all conditions. -/
def read (t : NodeTable) : Option (Lhs Symbol Unit) := t.readFrom 1 0 t.conditions

/-! ## What is read -/

variable {t : NodeTable} {p : Position} {id : Nat}

theorem nodeAt_eq_some {n : Node} (hn : t.node? id = some n) (hp : n.position = p) :
    t.nodeAt p id = some n := by
  rw [nodeAt, hn, Option.filter_some, if_pos (decide_eq_true hp)]

section Chains

variable {τ β : Type} {link : Node → Option Nat} {size : Nat} {n : Node} {x : τ} {xs : List τ} {y : β}
  {ys : List β}

/-- The parts that a chain passes are read one after the other. -/
theorem mapM_chain_cons {f : Nat → Option β} (hn : t.node? id = some n) (hpos : 0 < size)
    (hlink : link n = linkTo (id + size) xs) (hy : f id = some y)
    (hys : (t.chain link (linkTo (id + size) xs)).mapM f = some ys) :
    (t.chain link (linkTo id (x :: xs))).mapM f = some (y :: ys) := by
  rw [chain_linkTo_cons hn hpos hlink, List.mapM_cons, hy, hys]
  rfl

/-- The same for parts that are counted. -/
theorem mapM_zipIdx_chain_cons {f : Nat × Nat → Option β} {k : Nat} (hn : t.node? id = some n)
    (hpos : 0 < size) (hlink : link n = linkTo (id + size) xs) (hy : f (id, k) = some y)
    (hys : ((t.chain link (linkTo (id + size) xs)).zipIdx (k + 1)).mapM f = some ys) :
    ((t.chain link (linkTo id (x :: xs))).zipIdx k).mapM f = some (y :: ys) := by
  rw [chain_linkTo_cons hn hpos hlink, List.zipIdx_cons, List.mapM_cons, hy, hys]
  rfl

end Chains

mutual

theorem readTerm_eq (u : Term Symbol Note) {id : Nat} {next : Option Nat}
    (h : t.Holds id (u.nodes p id next)) : t.readTerm p id = some (u.mapNotes fun _ => ()) := by
  cases u with
  | call f args =>
    obtain ⟨hn, hargs⟩ := Node.numbered_cons.1 h
    have hlist : t.args id = t.chain Node.next (linkTo (id + 1) args) := by rw [NodeTable.args, hn]; rfl
    rw [readTerm, nodeAt_eq_some hn rfl]
    simp [hlist, readArgs_eq args (Nat.lt_succ_self id) hargs, Term.mapNotes]
  | var x arity n =>
    rw [readTerm, nodeAt_eq_some (Node.numbered_cons.1 h).1 rfl]
    rfl
  | lit v =>
    rw [readTerm, nodeAt_eq_some (Node.numbered_cons.1 h).1 rfl]
    rfl
  | global x =>
    rw [readTerm, nodeAt_eq_some (Node.numbered_cons.1 h).1 rfl]
    rfl

theorem readArgs_eq (us : List (Term Symbol Note)) {i id : Nat} (hi : i < id)
    (h : t.Holds id (Term.nodesAll p id us)) :
    ((t.chain Node.next (linkTo id us)).mapM fun j =>
      if i < j ∧ j < t.size then t.readTerm p j else none) =
      some (Term.mapNotesAll (fun _ => ()) us) := by
  cases us with
  | nil => rfl
  | cons u us =>
    rw [Term.nodesAll] at h
    obtain ⟨hu, hus⟩ := h.split (Term.length_nodes ..)
    obtain ⟨n, hn, hnext⟩ := Holds.term_head hu
    refine mapM_chain_cons hn u.size_pos hnext ?_ (readArgs_eq us (by omega) hus)
    rw [if_pos ⟨hi, lt_size_of_node? hn⟩]
    exact readTerm_eq u hu

end

theorem readConstraint_eq {c : Constraint Symbol Note} {next child : Option Nat}
    (h : t.Holds id (c.nodes p id next child)) :
    t.readConstraint p id = some (c.mapNotes fun _ => ()) := by
  obtain ⟨shape, negated⟩ := c
  cases shape with
  | literal v =>
    rw [readConstraint, nodeAt_eq_some (Node.numbered_cons.1 h).1 rfl]
    rfl
  | var x arity n =>
    rw [readConstraint, nodeAt_eq_some (Node.numbered_cons.1 h).1 rfl]
    rfl
  | predicate u =>
    obtain ⟨hn, hu⟩ := Node.numbered_cons.1 h
    rw [readConstraint, nodeAt_eq_some hn rfl]
    simp [readTerm_eq u hu, Constraint.mapNotes]
  | returnValue u =>
    obtain ⟨hn, hu⟩ := Node.numbered_cons.1 h
    rw [readConstraint, nodeAt_eq_some hn rfl]
    simp [readTerm_eq u hu, Constraint.mapNotes]

theorem readConstraints_eq {cs : List (Constraint Symbol Note)} {id : Nat}
    (h : t.Holds id (Constraint.nodesAll p id cs)) :
    (t.chain Node.next (linkTo id cs)).mapM (t.readConstraint p) =
      some (cs.map (Constraint.mapNotes fun _ => ())) := by
  induction cs generalizing id with
  | nil => rfl
  | cons c cs ih =>
    rw [Constraint.nodesAll] at h
    obtain ⟨hc, hcs⟩ := h.split (Constraint.length_nodes ..)
    obtain ⟨n, hn, hnext, -⟩ := Holds.constraint_head hc
    exact mapM_chain_cons hn c.size_pos hnext (readConstraint_eq hc) (ih hcs)

theorem readAlternative_eq {a : Alternative Symbol Note} {child : Option Nat}
    (h : t.Holds id (a.nodes p id child)) :
    t.readAlternative p id = some (a.mapNotes fun _ => ()) := by
  obtain ⟨hfirst, hrest⟩ := h.split (Constraint.length_nodes ..)
  obtain ⟨n, hn, hnext, -⟩ := Holds.constraint_head hfirst
  have hconjuncts : (t.conjuncts id).mapM (t.readConstraint p) = _ :=
    mapM_chain_cons (x := a.first) hn a.first.size_pos hnext (readConstraint_eq hfirst)
      (readConstraints_eq hrest)
  rw [readAlternative, hconjuncts]
  rfl

theorem readAlternatives_eq {as : List (Alternative Symbol Note)} {id : Nat}
    (h : t.Holds id (Alternative.nodesAll p id as)) :
    (t.chain Node.child (linkTo id as)).mapM (t.readAlternative p) =
      some (as.map (Alternative.mapNotes fun _ => ())) := by
  induction as generalizing id with
  | nil => rfl
  | cons a as ih =>
    rw [Alternative.nodesAll] at h
    obtain ⟨ha, has⟩ := h.split (Alternative.length_nodes ..)
    obtain ⟨n, hn, -, hchild⟩ := Holds.constraint_head (Node.numbered_append.1 ha).1
    exact mapM_chain_cons hn a.size_pos hchild (readAlternative_eq ha) (ih has)

theorem isSequence_of_holds {f : Field Symbol Note} {next : Option Nat} {n : Node}
    (h : t.Holds id (f.nodes p id next)) (hn : t.node? id = some n) :
    n.kind.isSequence = f.arity.isSequence := by
  cases f with
  | plain b as declared note =>
    obtain rfl := Option.some.inj (hn.symm.trans (Node.numbered_cons.1 h).1)
    cases b <;> rfl
  | multi ps as declared note =>
    obtain rfl := Option.some.inj (hn.symm.trans (Node.numbered_cons.1 h).1)
    rfl

mutual

theorem readField_eq {p : Position} (f : Field Symbol Note) {id : Nat} {next : Option Nat}
    (h : t.Holds id (f.nodes p id next)) : t.readField p id = some f.bare := by
  cases f with
  | plain b as declared note =>
    obtain ⟨hn, has⟩ := Node.numbered_cons.1 h
    have hlist : t.alternatives id = t.chain Node.child (linkTo (id + 1) as) := by
      rw [NodeTable.alternatives, hn]
      rfl
    rw [readField, nodeAt_eq_some hn rfl]
    cases b <;> simp [Binder.nodeKind, hlist, readAlternatives_eq has, Field.bare, Field.mapNotes]
  | multi ps as declared note =>
    obtain ⟨hn, hps⟩ := Node.numbered_cons.1 h
    have hlist : t.parts id = t.chain Node.next (linkTo (id + 1) ps) := by
      rw [NodeTable.parts, hn]
      rfl
    rw [readField, nodeAt_eq_some hn rfl, hlist]
    exact congrArg (· >>= fun parts => some (Field.multi parts [] declared ()))
      (readParts_eq ps (Nat.lt_succ_self id) hps)

theorem readParts_eq {p : Position} (fs : List (Field Symbol Note)) {i id k : Nat} (hi : i < id)
    (h : t.Holds id (Field.nodesAll p id k fs)) :
    (((t.chain Node.next (linkTo id fs)).zipIdx k).mapM fun v =>
      if i < v.1 ∧ v.1 < t.size then do
        let part ← t.node? v.1
        t.readField { p with segment := some ⟨v.2, part.kind.isSequence⟩ } v.1
      else none) = some (Field.mapNotesAll (fun _ => ()) fs) := by
  cases fs with
  | nil => rfl
  | cons f fs =>
    rw [Field.nodesAll] at h
    obtain ⟨hf, hfs⟩ := h.split (Field.length_nodes ..)
    obtain ⟨n, hn, hhead⟩ := Holds.field_head hf
    refine mapM_zipIdx_chain_cons hn f.size_pos hhead.next_eq ?_ (readParts_eq fs (by omega) hfs)
    rw [if_pos ⟨hi, lt_size_of_node? hn⟩, hn]
    show t.readField { p with segment := some ⟨k, n.kind.isSequence⟩ } id = some f.bare
    rw [isSequence_of_holds hf hn]
    exact readField_eq f hf

end

theorem readSlots_eq {ss : List (Slot Symbol Note)} {id j : Nat}
    (h : t.Holds id (Slot.nodesAll p id j ss)) :
    (((t.chain Node.next (linkTo id ss)).zipIdx j).mapM fun v => t.readSlot p v.2 v.1) =
      some (ss.map (Slot.mapNotes fun _ => ())) := by
  induction ss generalizing id j with
  | nil => rfl
  | cons s ss ih =>
    rw [Slot.nodesAll] at h
    obtain ⟨hs, hss⟩ := h.split (Field.length_nodes ..)
    obtain ⟨n, hn, hhead⟩ := Holds.field_head hs
    refine mapM_zipIdx_chain_cons hn s.field.size_pos hhead.next_eq ?_ (ih hss)
    have hslot : n.position.slot = s.name := by rw [hhead.position_eq]
    rw [readSlot, hn]
    simp [hslot, readField_eq s.field hs, Slot.mapNotes, Field.bare]

/-- A condition is read if its node stands at the start of a condition. -/
theorem readCondition_of_element {pattern joins : Nat} {n : Node} {element : Element Symbol Unit}
    (hn : t.node? id = some n)
    (hp : { n.position with
      pattern, joinDepth := n.joinsAfter joins, field := 0, slot := none, segment := none } = n.position)
    (helement : t.readElement n.position id n = some element) :
    t.readCondition pattern joins id =
      some ⟨element, n.position.beginDepth, n.position.endDepth, ()⟩ := by
  rw [readCondition, hn]
  simp only [Option.bind_eq_bind, Option.bind_some, hp, nodeAt_eq_some hn rfl, helement]
  rfl

theorem readCondition_eq {k : Condition Symbol Note} {pattern joins : Nat} {child : Option Nat}
    (h : t.Holds id (k.nodes pattern (k.joinsAfter joins) id child)) :
    t.readCondition pattern joins id = some k.bare := by
  obtain ⟨element, beginDepth, endDepth, note⟩ := k
  cases element with
  | pattern mode q =>
    obtain ⟨hn, hslots⟩ := Node.numbered_cons.1 h
    have hfields : t.fields id = t.chain Node.next (linkTo (id + 1) q.slots) := by
      rw [NodeTable.fields, hn]
      rfl
    refine readCondition_of_element hn rfl ?_
    rw [readElement, hfields]
    cases mode <;>
      exact congrArg (· >>= fun slots => some (Element.pattern _ ⟨q.kind, q.handle, slots⟩))
        (readSlots_eq hslots)
  | test u =>
    obtain ⟨hn, hu⟩ := Node.numbered_cons.1 h
    refine readCondition_of_element hn rfl ?_
    exact congrArg (· >>= fun u => some (Element.test u)) (readTerm_eq u hu)

theorem readFrom_eq {l : Lhs Symbol Note} {pattern joins id : Nat}
    (h : t.Holds id (l.nodesFrom pattern joins id)) :
    t.readFrom pattern joins (t.chain Node.child (linkTo id l)) = some l.bare := by
  induction l generalizing pattern joins id with
  | nil => rfl
  | cons k ks ih =>
    rw [Lhs.nodesFrom] at h
    obtain ⟨hk, hks⟩ := h.split (Condition.length_nodes ..)
    have hjoins : k.bare.joinsAfter joins = k.joinsAfter joins := by
      obtain ⟨element, _, _, _⟩ := k
      cases element <;> rfl
    obtain ⟨n, hn, hhead⟩ := Holds.condition_head hk
    rw [chain_linkTo_cons hn k.size_pos hhead.child_eq, readFrom, readCondition_eq hk]
    simp only [Option.bind_eq_bind, Option.bind_some, hjoins, ih hks]
    rfl

/-- **A table reads back** as the left-hand side that it lists. -/
theorem read_ofLhs (l : Lhs Symbol Note) : (ofLhs l).read = some l.bare := by
  rw [read, conditions, first_ofLhs]
  exact readFrom_eq (holds_ofLhs l)

end NodeTable

namespace Lhs

/-- **Building a table is faithful.** The table of a written left-hand side, read back along its chains with
every node at the position where it is found, and spelled with the names that interning ends with, is the
left-hand side without the constraints that are attached to multifield slots themselves. Every symbol that
had a name before has the same name afterwards. -/
theorem read_intern (l : Lhs String Unit) (names : SymbolTable) :
    let t := NodeTable.ofLhs (l.intern names).1
    let names' := (l.intern names).2
    t.read.bind (spell names') = some l.stripped ∧
      ∀ x name, names.name? x = some name → names'.name? x = some name := by
  obtain ⟨hextends, hspell⟩ := l.yields_intern names
  refine ⟨?_, hextends⟩
  rw [NodeTable.read_ofLhs, Option.bind_some, hspell _ (.refl _), bare_eq_stripped]

end Lhs

end Antecedent
