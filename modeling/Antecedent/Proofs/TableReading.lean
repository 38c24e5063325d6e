import Antecedent.Proofs.NodeLinks
import Mathlib.Data.List.ReduceOption

/-!
# Reading a node table

The tests of a field are made from a node table by number: a node is looked up, its alternatives,
conjuncts and arguments are the nodes that its links lead to, and a variable names its binding
occurrence by the number of that node. Every look-up can miss, which is a `TableFault`. A compilation in a
table stops with a `Halt`: a fault of the left-hand side or a missing entry of the table.

* `NodeTable.termAt`, `NodeTable.conjunctsAt` and `NodeTable.alternativesAt` read an expression, an
  alternative and all alternatives of a field, with a computation `read` for the note of each
  variable. They go by the kinds and links of the nodes alone.
* `NodeTable.Lists` says for which alternatives and conjuncts the nodes below a field stand, and
  `NodeTable.lists_field` that these are the alternatives in the syntax tree, whatever the shape of the
  field.
* `NodeTable.termAt_eq` and `NodeTable.alternativesAt_eq` say that what is read is what the syntax tree
  says.
* `NodeTable.fieldOutputs` and `NodeTable.testOutputs` make the tests of a field and of a test;
  `NodeTable.fieldOutputs_eq` and `NodeTable.testOutputs_eq` say that nothing is missing once all
  references are bound.
-/

namespace Antecedent

variable {β : Type}

theorem ok_bind {ε γ : Type} (b : β) (f : β → Except ε γ) : Except.ok b >>= f = f b := rfl

/-! ## Reading notes as they are -/

theorem Conjunct.traverseAll_pure {ε γ : Type} (as : List (List (Conjunct γ))) :
    traverseAll (pure : γ → Except ε γ) as = .ok as := by
  refine traverseAll_of_forall₂ (h := some) ?_ fun _ _ _ _ n _ b hb => ?_
  · exact List.forall₂_same.2 fun ks _ => List.forall₂_same.2 fun k _ => rfl
  · rw [Option.some.inj hb]

theorem Term.traverse_pure {ε γ : Type} (u : Term Symbol γ) :
    u.traverse (pure : γ → Except ε γ) = .ok u :=
  u.traverse_of_mapNotes (h := some) rfl fun _ _ _ hb => congrArg pure (Option.some.inj hb)

/-! ## Looking up nodes -/

/-- What can be missing where a table is read by number. -/
inductive TableFault where
  /-- The table has no node with this number. -/
  | missingNode (id : Nat)
  /-- A variable from which a test is made has no binding occurrence. -/
  | missingOrigin
  /-- A node whose value is fetched does not belong to a pattern. -/
  | missingKind (pattern : Nat)
  /-- A node of another kind stands in an expression. -/
  | notExpression (id : Nat) (kind : NodeKind)
  deriving DecidableEq, Repr

/-- Why a compilation in a table stops. -/
inductive Halt where
  /-- The left-hand side has a fault. -/
  | fault (d : Diagnostic)
  /-- An entry of the table is missing. -/
  | table (f : TableFault)

/-- A check of the left-hand side. -/
def Halt.check {γ : Type} (x : Except Diagnostic γ) : Except Halt γ := x.mapError fault

/-- A look into the table. -/
def Halt.look {γ : Type} (x : Except TableFault γ) : Except Halt γ := x.mapError table

namespace Halt

variable {γ δ : Type}

theorem look_ok (a : γ) : look (.ok a) = .ok a := rfl

theorem check_bind (x : Except Diagnostic γ) (f : γ → Except Diagnostic δ) :
    check (x >>= f) = check x >>= fun a => check (f a) := by
  cases x <;> rfl

end Halt

/-- The place at a position; only positions in a pattern are places. -/
def Position.place (p : Position) : Except TableFault Place :=
  match p.kind with
  | some kind => .ok ⟨p.pattern, p.beginDepth, ⟨kind, p.field, p.slot, p.segment, p.joinDepth⟩⟩
  | none => .error (.missingKind p.pattern)

@[simp] theorem Place.place_position (p : Place) (endDepth : Nat) :
    (p.position endDepth).place = .ok p := rfl

namespace NodeTable

/-- The node with a number. -/
def get (t : NodeTable) (id : Nat) : Except TableFault Node :=
  match t.node? id with
  | some n => .ok n
  | none => .error (.missingNode id)

/-- The place of the node with a number. -/
def placeAt (t : NodeTable) (id : Nat) : Except TableFault Place := do
  let n ← t.get id
  n.position.place

/-- The binding occurrence that a note names by its number. -/
def originAt (t : NodeTable) (n : Note) : Except TableFault Origin :=
  match n.origin with
  | some o => do return ⟨o.id, ← t.placeAt o.id⟩
  | none => .error .missingOrigin

theorem get_eq_ok {t : NodeTable} {id : Nat} {n : Node} (h : t.node? id = some n) :
    t.get id = .ok n := by
  rw [get, h]

theorem placeAt_eq {t : NodeTable} {id : Nat} {n : Node} (h : t.node? id = some n) :
    t.placeAt id = n.position.place := by
  rw [placeAt, get_eq_ok h]
  rfl

theorem originAt_eq_ok {t : NodeTable} {n : Note} {o : Origin} (hn : n.origin = some o)
    (ho : t.placeAt o.id = .ok o.place) : t.originAt n = .ok o := by
  rw [originAt, hn]
  simp only [ho]
  rfl

/-- A chain of links to parts that follow each other goes from head to head. -/
theorem chain_linkTo_cons {τ : Type} {t : NodeTable} {link : Node → Option Nat} {id size : Nat}
    {n : Node} (hn : t.node? id = some n) (hpos : 0 < size) {x : τ} {xs : List τ}
    (hlink : link n = linkTo (id + size) xs) :
    t.chain link (linkTo id (x :: xs)) = id :: t.chain link (linkTo (id + size) xs) := by
  have hforward : Leads (id + 1) (id + size + 1) (link n) := by
    rw [hlink]
    exact leads_linkTo (by omega) fun _ => by omega
  rw [← hlink]
  exact chain_some hn fun j hj => (hforward j hj).1

/-- The numbers of the first nodes of parts that follow each other. -/
def numbers {τ : Type} (size : τ → Nat) (id : Nat) : List τ → List Nat
  | [] => []
  | x :: xs => id :: numbers size (id + size x) xs

theorem numbers_eq_of_map {τ : Type} {size : τ → Nat} {xs ys : List τ}
    (h : xs.map size = ys.map size) (id : Nat) : numbers size id xs = numbers size id ys := by
  induction xs generalizing ys id with
  | nil => rw [List.map_eq_nil_iff.1 h.symm]
  | cons x xs ih =>
    obtain ⟨y, ys, rfl, hsize, hsizes⟩ := List.map_eq_cons_iff.1 h.symm
    rw [numbers, numbers, hsize, ih hsizes.symm]

end NodeTable

/-! ## First nodes -/

/-- What the first node of a field says about it. -/
structure Field.Head (f : Field Symbol Note) (p : Position) (id : Nat) (next : Option Nat)
    (n : Node) : Prop where
  next_eq : n.next = next
  child : Leads (id + 1) (id + 2) n.child
  position_eq : n.position = p
  asVariable_eq : n.asVariable = f.binds?
  note_eq : n.note = f.note

/-- Only the first node of a field has its note. -/
theorem Field.exists_nodes_eq (f : Field Symbol Note) (p : Position) (id : Nat) (next : Option Nat) :
    ∃ n ms, f.nodes p id next = n :: ms ∧ f.Head p id next n ∧
      ∀ note, (f.withNote note).nodes p id next = { n with note } :: ms := by
  have hchild {τ : Type} (xs : List τ) : Leads (id + 1) (id + 2) (linkTo (id + 1) xs) :=
    leads_linkTo (Nat.le_refl _) fun _ => Nat.lt_succ_self _
  cases f with
  | plain b as declared n =>
    refine ⟨_, _, rfl, ⟨rfl, hchild as, rfl, ?_, rfl⟩, fun _ => rfl⟩
    cases b <;> rfl
  | multi ps as declared n => exact ⟨_, _, rfl, ⟨rfl, hchild ps, rfl, rfl, rfl⟩, fun _ => rfl⟩

/-- What the first node of a condition says about it. -/
structure Condition.Head (k : Condition Symbol Note) (child : Option Nat) (n : Node) : Prop where
  child_eq : n.child = child
  beginDepth_eq : n.position.beginDepth = k.beginDepth
  endDepth_eq : n.position.endDepth = k.endDepth
  note_eq : n.note = k.note

/-- Only the first node of a condition has its note. -/
theorem Condition.exists_nodes_eq (k : Condition Symbol Note) (pattern joinDepth id : Nat)
    (child : Option Nat) :
    ∃ n ms, k.nodes pattern joinDepth id child = n :: ms ∧ k.Head child n ∧
      ∀ note, nodes pattern joinDepth id child { k with note } = { n with note } :: ms := by
  obtain ⟨element, beginDepth, endDepth, note⟩ := k
  cases element with
  | pattern mode q => exact ⟨_, _, rfl, ⟨rfl, rfl, rfl, rfl⟩, fun _ => rfl⟩
  | test u => exact ⟨_, _, rfl, ⟨rfl, rfl, rfl, rfl⟩, fun _ => rfl⟩

namespace NodeTable.Holds

variable {t : NodeTable} {p : Position} {id : Nat} {next child : Option Nat}

theorem term_head {u : Term Symbol Note} (h : t.Holds id (u.nodes p id next)) :
    ∃ n, t.node? id = some n ∧ n.next = next := by
  cases u <;> exact ⟨_, (Node.numbered_cons.1 h).1, rfl⟩

theorem constraint_head {c : Constraint Symbol Note} (h : t.Holds id (c.nodes p id next child)) :
    ∃ n, t.node? id = some n ∧ n.next = next ∧ n.child = child := by
  obtain ⟨shape, negated⟩ := c
  cases shape <;> exact ⟨_, (Node.numbered_cons.1 h).1, rfl, rfl⟩

theorem field_head {f : Field Symbol Note} (h : t.Holds id (f.nodes p id next)) :
    ∃ n, t.node? id = some n ∧ f.Head p id next n := by
  obtain ⟨n, ms, hnodes, hhead, -⟩ := f.exists_nodes_eq p id next
  rw [hnodes] at h
  exact ⟨n, (Node.numbered_cons.1 h).1, hhead⟩

theorem condition_head {k : Condition Symbol Note} {pattern joinDepth : Nat}
    (h : t.Holds id (k.nodes pattern joinDepth id child)) :
    ∃ n, t.node? id = some n ∧ k.Head child n := by
  obtain ⟨n, ms, hnodes, hhead, -⟩ := k.exists_nodes_eq pattern joinDepth id child
  rw [hnodes] at h
  exact ⟨n, (Node.numbered_cons.1 h).1, hhead⟩

end NodeTable.Holds

namespace NodeTable

variable {t : NodeTable}

/-- The parts of a slot follow each other. -/
theorem chain_parts {p : Position} {id k : Nat} {fs : List (Field Symbol Note)}
    (h : t.Holds id (Field.nodesAll p id k fs)) :
    t.chain Node.next (linkTo id fs) = numbers Field.size id fs := by
  induction fs generalizing id k with
  | nil => rfl
  | cons f fs ih =>
    rw [Field.nodesAll] at h
    obtain ⟨hf, hfs⟩ := h.split (Field.length_nodes ..)
    obtain ⟨n, hn, hhead⟩ := Holds.field_head hf
    rw [chain_linkTo_cons hn f.size_pos hhead.next_eq, ih hfs, numbers]

theorem chain_slots {p : Position} {id j : Nat} {ss : List (Slot Symbol Note)}
    (h : t.Holds id (Slot.nodesAll p id j ss)) :
    t.chain Node.next (linkTo id ss) = numbers (fun s => s.field.size) id ss := by
  induction ss generalizing id j with
  | nil => rfl
  | cons s ss ih =>
    rw [Slot.nodesAll] at h
    obtain ⟨hs, hss⟩ := h.split (Field.length_nodes ..)
    obtain ⟨n, hn, hhead⟩ := Holds.field_head hs
    rw [chain_linkTo_cons hn s.field.size_pos hhead.next_eq, ih hss, numbers]

theorem chain_conditions {pattern joins id : Nat} {l : Lhs Symbol Note}
    (h : t.Holds id (l.nodesFrom pattern joins id)) :
    t.chain Node.child (linkTo id l) = numbers Condition.size id l := by
  induction l generalizing pattern joins id with
  | nil => rfl
  | cons k ks ih =>
    rw [Lhs.nodesFrom] at h
    obtain ⟨hk, hks⟩ := h.split (Condition.length_nodes ..)
    obtain ⟨n, hn, hhead⟩ := Holds.condition_head hk
    rw [chain_linkTo_cons hn k.size_pos hhead.child_eq, ih hks, numbers]

end NodeTable

/-! ## Expressions -/

namespace NodeTable

/-- The expression at a node. An argument is read if its number is greater. -/
def termAt (t : NodeTable) (read : Note → Except TableFault β) (id : Nat) :
    Except TableFault (Term Symbol β) := do
  let n ← t.get id
  match n.kind with
  | .call f =>
    return .call f (← (t.args id).mapM fun j =>
      if id < j ∧ j < t.size then t.termAt read j else .error (.missingNode j))
  | .var x arity => return .var x arity (← read n.note)
  | .literal v => return .lit v
  | .global x => return .global x
  | kind => .error (.notExpression id kind)
termination_by t.size - id

section Terms

variable {t : NodeTable} {read : Note → Except TableFault β} {p : Position}

mutual

/-- **Reading an expression** by number reads what the syntax tree says. -/
theorem termAt_eq (u : Term Symbol Note) {id : Nat} {next : Option Nat}
    (h : t.Holds id (u.nodes p id next)) : t.termAt read id = u.traverse read := by
  cases u with
  | call f args =>
    obtain ⟨hn, hargs⟩ := Node.numbered_cons.1 h
    have hlist := argsAt_eq args (Nat.lt_succ_self id) hargs
    rw [termAt, get_eq_ok hn, Term.traverse, ← hlist, NodeTable.args, hn]
    rfl
  | var x arity n =>
    obtain ⟨hn, -⟩ := Node.numbered_cons.1 h
    rw [termAt, get_eq_ok hn]
    rfl
  | lit v =>
    obtain ⟨hn, -⟩ := Node.numbered_cons.1 h
    rw [termAt, get_eq_ok hn]
    rfl
  | global x =>
    obtain ⟨hn, -⟩ := Node.numbered_cons.1 h
    rw [termAt, get_eq_ok hn]
    rfl

theorem argsAt_eq (us : List (Term Symbol Note)) {i id : Nat} (hi : i < id)
    (h : t.Holds id (Term.nodesAll p id us)) :
    ((t.chain Node.next (linkTo id us)).mapM fun j =>
      if i < j ∧ j < t.size then t.termAt read j else .error (.missingNode j)) =
      Term.traverseAll read us := by
  cases us with
  | nil => rfl
  | cons u us =>
    rw [Term.nodesAll] at h
    obtain ⟨hu, hus⟩ := h.split (Term.length_nodes ..)
    obtain ⟨n, hn, hnext⟩ := Holds.term_head hu
    rw [chain_linkTo_cons hn u.size_pos hnext, List.mapM_cons, if_pos ⟨hi, lt_size_of_node? hn⟩,
      termAt_eq u hu, argsAt_eq us (by omega) hus, Term.traverseAll]

end

end Terms

/-! ## Conjuncts and alternatives -/

/-- The node read as a conjunct of a field; nodes of other kinds are passed over. -/
def conjunctAt (t : NodeTable) (read : Note → Except TableFault β) (id : Nat) :
    Except TableFault (Option (Conjunct β)) := do
  let n ← t.get id
  let p ← n.position.place
  let conjunct (shape : Except TableFault (Constraint.Shape Symbol β)) :
      Except TableFault (Option (Conjunct β)) := do
    return some ⟨p.site, ← shape, n.negated⟩
  match n.kind, n.subexpr with
  | .literal v, _ => conjunct (return .literal v)
  | .var x arity, _ => conjunct (do return .var x arity (← read n.note))
  | .predicate, some root => conjunct (do return .predicate (← t.termAt read root))
  | .returnValue, some root => conjunct (do return .returnValue (← t.termAt read root))
  | _, _ => return none

/-- The conjuncts that a chain of nodes makes up. -/
def conjunctsAt (t : NodeTable) (read : Note → Except TableFault β) (start : Option Nat) :
    Except TableFault (List (Conjunct β)) := do
  let ks ← (t.chain Node.next start).mapM (t.conjunctAt read)
  return ks.reduceOption

/-- The alternatives that a chain of nodes makes up. -/
def alternativesFrom (t : NodeTable) (read : Note → Except TableFault β) (start : Option Nat) :
    Except TableFault (List (List (Conjunct β))) :=
  (t.chain Node.child start).mapM fun id => t.conjunctsAt read (some id)

/-- The alternatives of the field at a node. -/
def alternativesAt (t : NodeTable) (read : Note → Except TableFault β) (id : Nat) :
    Except TableFault (List (List (Conjunct β))) := do
  let n ← t.get id
  t.alternativesFrom read n.child

/-- What a node stands for among the conjuncts of a field. A part of a slot stands for a conjunct if it
binds a variable, and for nothing else. -/
inductive StandsFor (t : NodeTable) (id : Nat) : Option (Conjunct Note) → Prop where
  | literal {n : Node} {p : Place} {v : Literal Symbol} (node : t.node? id = some n)
      (place : n.position.place = .ok p) (kind : n.kind = .literal v) :
      StandsFor t id (some ⟨p.site, .literal v, n.negated⟩)
  | var {n : Node} {p : Place} {x : Symbol} {arity : Arity} (node : t.node? id = some n)
      (place : n.position.place = .ok p) (kind : n.kind = .var x arity) :
      StandsFor t id (some ⟨p.site, .var x arity n.note, n.negated⟩)
  | predicate {n : Node} {p : Place} {root : Nat} {q : Position} {u : Term Symbol Note}
      (node : t.node? id = some n) (place : n.position.place = .ok p) (kind : n.kind = .predicate)
      (subexpr : n.subexpr = some root) (term : t.Holds root (u.nodes q root none)) :
      StandsFor t id (some ⟨p.site, .predicate u, n.negated⟩)
  | returnValue {n : Node} {p : Place} {root : Nat} {q : Position} {u : Term Symbol Note}
      (node : t.node? id = some n) (place : n.position.place = .ok p) (kind : n.kind = .returnValue)
      (subexpr : n.subexpr = some root) (term : t.Holds root (u.nodes q root none)) :
      StandsFor t id (some ⟨p.site, .returnValue u, n.negated⟩)
  | wildcard {n : Node} {p : Place} {arity : Arity} (node : t.node? id = some n)
      (place : n.position.place = .ok p) (kind : n.kind = .wildcard arity) : StandsFor t id none
  | multislot {n : Node} {p : Place} (node : t.node? id = some n) (place : n.position.place = .ok p)
      (kind : n.kind = .multislot) : StandsFor t id none

/-- Some nodes stand for the conjuncts of an alternative. -/
inductive StandFor (t : NodeTable) : List Nat → List (Conjunct Note) → Prop where
  | nil : StandFor t [] []
  | cons {id : Nat} {ids : List Nat} {k : Option (Conjunct Note)} {ks : List (Conjunct Note)}
      (head : t.StandsFor id k) (tail : StandFor t ids ks) : StandFor t (id :: ids) (k.toList ++ ks)

/-- A chain of nodes starts these alternatives. -/
def Lists (t : NodeTable) (start : Option Nat) (as : List (List (Conjunct Note))) : Prop :=
  List.Forall₂ (fun id ks => t.StandFor (t.chain Node.next (some id)) ks) (t.chain Node.child start) as

section Conjuncts

variable {t : NodeTable} {read : Note → Except TableFault β}

theorem StandsFor.conjunctAt_eq {id : Nat} {k : Option (Conjunct Note)} (h : t.StandsFor id k) :
    t.conjunctAt read id = k.mapM (Conjunct.traverse read) := by
  cases h with
  | literal node place kind =>
    simp only [conjunctAt, get_eq_ok node, place, kind, ok_bind]
    rfl
  | var node place kind =>
    simp [conjunctAt, get_eq_ok node, place, kind, ok_bind, Conjunct.traverse]
  | predicate node place kind subexpr term =>
    simp [conjunctAt, get_eq_ok node, place, kind, subexpr, ok_bind, Conjunct.traverse,
      termAt_eq _ term]
  | returnValue node place kind subexpr term =>
    simp [conjunctAt, get_eq_ok node, place, kind, subexpr, ok_bind, Conjunct.traverse,
      termAt_eq _ term]
  | wildcard node place kind =>
    simp only [conjunctAt, get_eq_ok node, place, kind, ok_bind]
    rfl
  | multislot node place kind =>
    simp only [conjunctAt, get_eq_ok node, place, kind, ok_bind]
    rfl

theorem StandFor.conjunctsAt_eq {start : Option Nat} {ks : List (Conjunct Note)}
    (h : t.StandFor (t.chain Node.next start) ks) :
    t.conjunctsAt read start = ks.mapM (Conjunct.traverse read) := by
  rw [conjunctsAt]
  generalize t.chain Node.next start = ids at h ⊢
  induction h with
  | nil => rfl
  | @cons id ids k ks head tail ih =>
    rw [List.mapM_append, ← ih, List.mapM_cons, head.conjunctAt_eq]
    cases k <;> simp

theorem Lists.alternativesFrom_eq {start : Option Nat} {as : List (List (Conjunct Note))}
    (h : t.Lists start as) : t.alternativesFrom read start = Conjunct.traverseAll read as := by
  rw [Lists] at h
  rw [alternativesFrom, Conjunct.traverseAll]
  generalize t.chain Node.child start = ids at h ⊢
  induction h with
  | nil => rfl
  | cons head tail ih => rw [List.mapM_cons, List.mapM_cons, head.conjunctsAt_eq, ih]

/-- What consecutive parts stand for, given what the first one does. -/
theorem standFor_linkTo {τ : Type} {id size : Nat} {n : Node} (hn : t.node? id = some n)
    (hpos : 0 < size) {x : τ} {xs : List τ} (hnext : n.next = linkTo (id + size) xs)
    {k : Option (Conjunct Note)} (hk : t.StandsFor id k) {ks : List (Conjunct Note)}
    (hks : t.StandFor (t.chain Node.next (linkTo (id + size) xs)) ks) :
    t.StandFor (t.chain Node.next (linkTo id (x :: xs))) (k.toList ++ ks) := by
  rw [chain_linkTo_cons hn hpos hnext]
  exact .cons hk hks

/-- A constraint stands for a conjunct about the site of its field. -/
theorem standsFor_constraint {p : Place} {endDepth id : Nat} {next child : Option Nat}
    {c : Constraint Symbol Note} (h : t.Holds id (c.nodes (p.position endDepth) id next child)) :
    t.StandsFor id (some ⟨p.site, c⟩) := by
  obtain ⟨shape, negated⟩ := c
  cases shape with
  | literal v => exact .literal (Node.numbered_cons.1 h).1 rfl rfl
  | var x arity n => exact .var (Node.numbered_cons.1 h).1 rfl rfl
  | predicate u =>
    obtain ⟨hn, hu⟩ := Node.numbered_cons.1 h
    exact .predicate hn rfl rfl rfl hu
  | returnValue u =>
    obtain ⟨hn, hu⟩ := Node.numbered_cons.1 h
    exact .returnValue hn rfl rfl rfl hu

theorem standFor_constraints {p : Place} {endDepth id : Nat} {cs : List (Constraint Symbol Note)}
    (h : t.Holds id (Constraint.nodesAll (p.position endDepth) id cs)) :
    t.StandFor (t.chain Node.next (linkTo id cs)) (cs.map (Conjunct.mk p.site)) := by
  induction cs generalizing id with
  | nil => exact .nil
  | cons c cs ih =>
    rw [Constraint.nodesAll] at h
    obtain ⟨hc, hcs⟩ := h.split (Constraint.length_nodes ..)
    obtain ⟨n, hn, hnext, -⟩ := Holds.constraint_head hc
    exact standFor_linkTo hn c.size_pos hnext (standsFor_constraint hc) (ih hcs)

/-- The conjuncts of an alternative follow each other from its first node on. -/
theorem standFor_alternative {p : Place} {endDepth id : Nat} {child : Option Nat}
    {a : Alternative Symbol Note} (h : t.Holds id (a.nodes (p.position endDepth) id child)) :
    t.StandFor (t.chain Node.next (some id)) (a.constraints.map (Conjunct.mk p.site)) := by
  obtain ⟨hfirst, hrest⟩ := h.split (Constraint.length_nodes ..)
  obtain ⟨n, hn, hnext, -⟩ := Holds.constraint_head hfirst
  exact standFor_linkTo (x := a.first) hn a.first.size_pos hnext (standsFor_constraint hfirst)
    (standFor_constraints hrest)

theorem lists_alternatives {p : Place} {endDepth id : Nat} {as : List (Alternative Symbol Note)}
    (h : t.Holds id (Alternative.nodesAll (p.position endDepth) id as)) :
    t.Lists (linkTo id as) (as.map fun a => a.constraints.map (Conjunct.mk p.site)) := by
  induction as generalizing id with
  | nil => exact .nil
  | cons a as ih =>
    rw [Alternative.nodesAll] at h
    obtain ⟨ha, has⟩ := h.split (Alternative.length_nodes ..)
    obtain ⟨n, hn, -, hchild⟩ := Holds.constraint_head (Node.numbered_append.1 ha).1
    rw [Lists, chain_linkTo_cons hn a.size_pos hchild]
    exact .cons (standFor_alternative ha) (ih has)

/-- A part of a slot stands for a conjunct if it binds a variable. -/
theorem standsFor_part {p : Place} {endDepth position id : Nat} {next : Option Nat}
    {f : Field Symbol Note}
    (h : t.Holds id
      (f.nodes (Place.position { p with site := p.site.part f position } endDepth) id next)) :
    t.StandsFor id (f.asConjunct? p.site position) := by
  cases f with
  | plain b as declared n =>
    cases b with
    | var x arity => exact .var (Node.numbered_cons.1 h).1 rfl rfl
    | wildcard arity => exact .wildcard (Node.numbered_cons.1 h).1 rfl rfl
  | multi ps as declared n => exact .multislot (Node.numbered_cons.1 h).1 rfl rfl

theorem standFor_parts {p : Place} {endDepth id position : Nat} {fs : List (Field Symbol Note)}
    (h : t.Holds id (Field.nodesAll (p.position endDepth) id position fs)) :
    t.StandFor (t.chain Node.next (linkTo id fs)) (Field.asConjuncts p.site position fs) := by
  induction fs generalizing id position with
  | nil => exact .nil
  | cons f fs ih =>
    rw [Field.nodesAll] at h
    obtain ⟨hf, hfs⟩ := h.split (Field.length_nodes ..)
    obtain ⟨n, hn, hhead⟩ := Holds.field_head hf
    exact standFor_linkTo hn f.size_pos hhead.next_eq (standsFor_part hf) (ih hfs)

mutual

theorem lists_field (f : Field Symbol Note) {p : Place} {endDepth id : Nat} {next : Option Nat}
    (h : t.Holds id (f.nodes (p.position endDepth) id next)) {n : Node}
    (hn : t.node? id = some n) : t.Lists n.child (f.conjuncts p.site) := by
  cases f with
  | plain b as declared note =>
    obtain ⟨hn', has⟩ := Node.numbered_cons.1 h
    obtain rfl := Option.some.inj (hn.symm.trans hn')
    exact lists_alternatives has
  | multi ps as declared note =>
    obtain ⟨hn', hps⟩ := Node.numbered_cons.1 h
    obtain rfl := Option.some.inj (hn.symm.trans hn')
    exact lists_parts ps hps

/-- The nodes of a slot inside a slot are followed as those of a field are: its parts are the
conjuncts of the first alternative, and the links of its first part lead to the others. -/
theorem lists_parts (fs : List (Field Symbol Note)) {p : Place} {endDepth id : Nat}
    (h : t.Holds id (Field.nodesAll (p.position endDepth) id 0 fs)) :
    t.Lists (linkTo id fs) (Field.conjunctsOfParts p.site fs) := by
  cases fs with
  | nil => exact .nil
  | cons f fs =>
    let q : Place := { p with site := p.site.part f 0 }
    have hf : t.Holds id (f.nodes (q.position endDepth) id (linkTo (id + f.size) fs)) := by
      rw [Field.nodesAll] at h
      exact (Node.numbered_append.1 h).1
    obtain ⟨n, hn, hhead⟩ := hf.field_head
    have hchain : t.chain Node.child (linkTo id (f :: fs)) = id :: t.chain Node.child n.child :=
      chain_some hn fun j hj => (hhead.child j hj).1
    rw [Lists, hchain]
    exact .cons (standFor_parts h) (lists_field f hf hn)

end

/-- **Reading the alternatives of a field** by number reads what the syntax tree says. -/
theorem alternativesAt_eq {f : Field Symbol Note} {p : Place} {endDepth id : Nat}
    {next : Option Nat} (h : t.Holds id (f.nodes (p.position endDepth) id next)) :
    t.alternativesAt read id = Conjunct.traverseAll read (f.conjuncts p.site) := by
  obtain ⟨n, hn, -⟩ := h.field_head
  rw [alternativesAt, get_eq_ok hn, ok_bind, (lists_field f h hn).alternativesFrom_eq]

end Conjuncts

/-! ## Tests -/

/-- The binding occurrence that the variable of the field at a node refers to, if there is one. -/
def ownAt (t : NodeTable) (id : Nat) : Except TableFault (Option Origin) := do
  let n ← t.get id
  match n.asVariable, n.note.origin with
  | some _, some _ => return some (← t.originAt n.note)
  | _, _ => return none

/-- The tests of the field at a node. -/
def fieldOutputs (t : NodeTable) (id : Nat) : Except TableFault Outputs := do
  let p ← t.placeAt id
  let own ← t.ownAt id
  let as ← t.alternativesAt t.originAt id
  return Outputs.ofField p own as

/-- The expression of the test at a node. -/
def testAt (t : NodeTable) (read : Note → Except TableFault β) (id : Nat) :
    Except TableFault (Option (Term Symbol β)) := do
  let n ← t.get id
  n.subexpr.mapM (t.termAt read)

/-- The tests of the test at a node. -/
def testOutputs (t : NodeTable) (id : Nat) : Except TableFault Outputs := do
  let n ← t.get id
  match ← t.testAt t.originAt id with
  | some u => return Outputs.ofTest n.position.beginDepth n.position.joinDepth u
  | none => return {}

/-- The table has the binding occurrence in its place. -/
def Places (t : NodeTable) (o : Origin) : Prop := t.placeAt o.id = .ok o.place

section Outputs

variable {t : NodeTable}

theorem ownAt_eq {f : Field Symbol Note} {p : Position} {id : Nat} {next : Option Nat}
    (h : t.Holds id (f.nodes p id next)) (hnone : f.binds? = none → f.note.origin = none)
    (hplaces : ∀ o, f.note.origin = some o → t.Places o) : t.ownAt id = .ok f.note.origin := by
  obtain ⟨n, hn, hhead⟩ := h.field_head
  rw [ownAt, get_eq_ok hn, ok_bind, hhead.asVariable_eq, hhead.note_eq]
  cases ho : f.note.origin with
  | none => cases f.binds? <;> rfl
  | some o =>
    cases hb : f.binds? with
    | none => simp [hnone hb] at ho
    | some b =>
      simp only [originAt_eq_ok ho (hplaces o ho)]
      rfl

/-- Nothing is missing for the tests of a field whose references are bound to nodes in place. -/
theorem fieldOutputs_eq {f : Field Symbol Note} {p : Place} {endDepth id : Nat} {next : Option Nat}
    {bound : List (List (Conjunct Origin))} (h : t.Holds id (f.nodes (p.position endDepth) id next))
    (hnone : f.binds? = none → f.note.origin = none)
    (hown : ∀ o, f.note.origin = some o → t.Places o)
    (hbound : List.Forall₂ (List.Forall₂ fun k k' => k'.mapNotes some = k.mapNotes Note.origin)
      (f.conjuncts p.site) bound)
    (hplaces : ∀ ks ∈ f.conjuncts p.site, ∀ k ∈ ks, ∀ n ∈ k.notes, ∀ o, n.origin = some o →
      t.Places o) :
    t.fieldOutputs id = .ok (Outputs.ofField p f.note.origin bound) := by
  obtain ⟨n, hn, hhead⟩ := h.field_head
  have hplace : t.placeAt id = .ok p := by
    rw [placeAt_eq hn, hhead.position_eq, Place.place_position]
  have has : Conjunct.traverseAll t.originAt (f.conjuncts p.site) = .ok bound :=
    Conjunct.traverseAll_of_forall₂ hbound fun ks hks k hk n hn o ho =>
      originAt_eq_ok ho (hplaces ks hks k hk n hn o ho)
  rw [fieldOutputs, hplace, ok_bind, ownAt_eq h hnone hown, ok_bind, alternativesAt_eq h, has]
  rfl

theorem testAt_eq {read : Note → Except TableFault β} {u : Term Symbol Note} {id : Nat} {n : Node}
    {p : Position} (hn : t.node? id = some n) (hroot : n.subexpr = some (id + 1))
    (h : t.Holds (id + 1) (u.nodes p (id + 1) none)) :
    t.testAt read id = some <$> u.traverse read := by
  rw [testAt, get_eq_ok hn, ok_bind, hroot, Option.mapM_some, termAt_eq u h]

/-- Nothing is missing for the tests of a test whose references are bound to nodes in place. -/
theorem testOutputs_eq {u : Term Symbol Note} {e : Term Symbol Origin} {id : Nat} {n : Node}
    {p : Position} (hn : t.node? id = some n) (hroot : n.subexpr = some (id + 1))
    (h : t.Holds (id + 1) (u.nodes p (id + 1) none))
    (he : e.mapNotes some = u.mapNotes Note.origin)
    (hplaces : ∀ m ∈ u.notes, ∀ o, m.origin = some o → t.Places o) :
    t.testOutputs id = .ok (Outputs.ofTest n.position.beginDepth n.position.joinDepth e) := by
  have hu : u.traverse t.originAt = .ok e :=
    u.traverse_of_mapNotes he fun m hm o ho => originAt_eq_ok ho (hplaces m hm o ho)
  rw [testOutputs, get_eq_ok hn, ok_bind, testAt_eq hn hroot h, hu]
  rfl

-- Before its references are bound, an expression can have a variable without a binding occurrence.
example (x : Symbol) :
    (ofLhs [⟨.test (.var x .single {}), 0, 0, {}⟩]).testOutputs 0 = .error .missingOrigin := by
  cbv

end Outputs

end NodeTable

end Antecedent
