import Antecedent.Lhs.Node
import Antecedent.Proofs.NegatedRuns
import Antecedent.Proofs.Origins

/-!
# The notes of the nodes

The list of nodes of a left-hand side is read back into its conditions and fields.

* `Node.Numbered` says something of every node in a list and its number, with one equation for every
  way in which lists of nodes are put together. `Node.Described` leaves out the links of the nodes, and
  `Node.AllFrom` looks at kind, position and note only.
* `Lhs.described_nodes_iff` and `Lhs.allFrom_nodes_iff` say that something holds of all nodes of a
  compiled left-hand side exactly if it holds of the nodes of every condition and of every field.
* `Node.FoundIn` says that a node comes from a list of variables with their notes, or is none and has
  an empty note; `Term.foundIn_of_mem_nodes` and `Alternative.foundIn_of_mem_nodesAll` say this of the
  nodes of an expression and of a field's alternatives.
* `FieldVisit.exists_plain_result` says what compiling a plain field writes into the notes of its
  variables.
* `Lhs.allFrom_outputs_iff` says that only conditions and fields hold tests.
-/

namespace Antecedent

variable {α : Type}

/-! ## Lists of nodes -/

namespace Node

/-- Every node has the property `P` together with its number, when the first one has number `id`. -/
def Numbered (P : Nat → Node → Prop) (id : Nat) (ns : List Node) : Prop :=
  ∀ i n, ns[i]? = some n → P (id + i) n

section Numbered

variable {P : Nat → Node → Prop}

theorem numbered_nil (id : Nat) : Numbered P id [] := by
  intro i n h
  cases h

theorem numbered_cons {id : Nat} {n : Node} {ns : List Node} :
    Numbered P id (n :: ns) ↔ P id n ∧ Numbered P (id + 1) ns := by
  constructor
  · intro h
    refine ⟨h 0 n rfl, fun i m hm => ?_⟩
    rw [Nat.add_assoc, Nat.add_comm 1 i]
    exact h (i + 1) m hm
  · rintro ⟨hn, hns⟩ i m hm
    cases i with
    | zero =>
      obtain rfl := Option.some.inj hm
      exact hn
    | succ i =>
      rw [Nat.add_comm i 1, ← Nat.add_assoc]
      exact hns i m hm

theorem numbered_append {id : Nat} {ms ns : List Node} :
    Numbered P id (ms ++ ns) ↔ Numbered P id ms ∧ Numbered P (id + ms.length) ns := by
  induction ms generalizing id with
  | nil => simp [numbered_nil]
  | cons m ms ih =>
    rw [List.cons_append, numbered_cons, numbered_cons, ih, and_assoc, List.length_cons,
      Nat.add_assoc, Nat.add_comm 1]

end Numbered

/-- A node without its links. -/
def unlinked (n : Node) : Node := { n with next := none, child := none, subexpr := none }

/-- Every node has the property `P` apart from its links, when the first one has number `id`. -/
def Described (P : Nat → Node → Prop) (id : Nat) (ns : List Node) : Prop :=
  Numbered (fun i n => P i n.unlinked) id ns

/-- Every node has the property `Q`, when the first one has number `id`. -/
def AllFrom (Q : Nat → NodeKind → Position → Note → Prop) (id : Nat) (ns : List Node) : Prop :=
  ∀ i n, ns[i]? = some n → Q (id + i) n.kind n.position n.note

variable {Q : Nat → NodeKind → Position → Note → Prop}

theorem allFrom_cons {id : Nat} {n : Node} {ns : List Node} :
    AllFrom Q id (n :: ns) ↔ Q id n.kind n.position n.note ∧ AllFrom Q (id + 1) ns :=
  numbered_cons (P := fun i n => Q i n.kind n.position n.note)

/-- The number of a node in a list lies between that of the first one and the end. -/
theorem allFrom_of_forall_mem {id : Nat} {ns : List Node} {P : Node → Prop} (h : ∀ n ∈ ns, P n)
    (hQ : ∀ i n, id ≤ i → i < id + ns.length → P n → Q i n.kind n.position n.note) :
    AllFrom Q id ns := by
  intro i n hn
  obtain ⟨hi, rfl⟩ := List.getElem?_eq_some_iff.1 hn
  exact hQ (id + i) _ (by omega) (by omega) (h _ (List.getElem_mem hi))

end Node

/-! ## Fields, slots and conditions -/

/-- The position of the nodes of a field. -/
def Place.position (p : Place) (endDepth : Nat) : Position where
  pattern := p.pattern
  joinDepth := p.site.joinDepth
  field := p.site.index
  slot := p.site.name
  segment := p.site.segment
  beginDepth := p.beginDepth
  endDepth := endDepth
  kind := some p.site.kind

/-- The nodes of a field in place, with no node after it. -/
def FieldAt.nodes (endDepth : Nat) (x : FieldAt Note) : List Node :=
  x.field.nodes (x.place.position endDepth) x.id none

/-- The note at a multifield slot itself holds no tests. -/
def Slot.Quiet (s : Slot Symbol Note) : Prop :=
  ∀ ps as declared n, s.field = .multi ps as declared n → n.out = {}

/-- The notes at the multifield slots of a condition hold no tests. -/
def Condition.Quiet (k : Condition Symbol Note) : Prop :=
  ∀ mode q, k.element = .pattern mode q → ∀ s ∈ q.slots, s.Quiet

namespace ConditionAt

/-- What the node of a condition stands for. -/
def nodeKind (y : ConditionAt Note) : NodeKind :=
  match y.condition.element with
  | .pattern _ q => .pattern q.handle
  | .test _ => .test

/-- The position of the node of a condition. -/
def position (y : ConditionAt Note) : Position where
  pattern := y.pattern
  joinDepth := y.joinDepth
  field := 0
  slot := none
  segment := none
  beginDepth := y.condition.beginDepth
  endDepth := y.condition.endDepth
  kind := y.condition.pattern?.map Pattern.kind

/-- The node of a condition, without its links. -/
def node (y : ConditionAt Note) : Node where
  kind := y.nodeKind
  position := y.position
  negated := y.condition.mode = .negated
  existential := y.condition.mode = .existential
  note := y.condition.note

/-- The property `P` holds of the node of a condition, of the nodes of its fields, and of the nodes of
its expression, apart from their links. -/
structure Described (P : Nat → Node → Prop) (y : ConditionAt Note) : Prop where
  condition : P y.id y.node
  fields : ∀ x ∈ y.fields, Node.Described P x.id (x.nodes y.condition.endDepth)
  expression : ∀ t, y.condition.element = .test t →
    Node.Described P (y.id + 1) (t.nodes y.position (y.id + 1) none)

/-- The property `Q` holds of the node of a condition, of the nodes of its fields, and of the nodes of
its expression. -/
structure AllNodes (Q : Nat → NodeKind → Position → Note → Prop) (y : ConditionAt Note) : Prop where
  condition : Q y.id y.nodeKind y.position y.condition.note
  fields : ∀ x ∈ y.fields, Node.AllFrom Q x.id (x.nodes y.condition.endDepth)
  expression : ∀ t, y.condition.element = .test t →
    Node.AllFrom Q (y.id + 1) (t.nodes y.position (y.id + 1) none)

end ConditionAt

section Walk

variable {P : Nat → Node → Prop}

theorem Field.described_nodes_next {p : Position} {id : Nat} {next : Option Nat}
    {f : Field Symbol Note} :
    Node.Described P id (f.nodes p id next) ↔ Node.Described P id (f.nodes p id none) := by
  cases f <;> simp only [nodes, Node.Described, Node.numbered_cons] <;> rfl

theorem Field.described_nodesAll_iff {p : Place} {endDepth k id : Nat}
    {fs : List (Field Symbol Note)} :
    Node.Described P id (nodesAll (p.position endDepth) id k fs) ↔
      ∀ x ∈ partsAt p k id fs, Node.Described P x.id (x.nodes endDepth) := by
  induction fs generalizing k id with
  | nil => simp [nodesAll, partsAt, Node.Described, Node.numbered_nil]
  | cons f fs ih =>
    rw [nodesAll, partsAt, Node.Described, Node.numbered_append, length_nodes, List.forall_mem_cons]
    exact and_congr described_nodes_next ih

variable (hP : ∀ i n, n.kind = .multislot → n.note.out = {} → P i n)

include hP

theorem Slot.described_nodes_iff {p : Place} {endDepth id : Nat} {next : Option Nat}
    {s : Slot Symbol Note} (hs : s.Quiet) :
    Node.Described P id (s.field.nodes (p.position endDepth) id next) ↔
      ∀ x ∈ s.fieldsAt p id, Node.Described P x.id (x.nodes endDepth) := by
  obtain ⟨name, f⟩ := s
  cases f with
  | plain b as declared n =>
    rw [Field.described_nodes_next, fieldsAt, List.forall_mem_singleton]
    rfl
  | multi ps as declared n =>
    have hn : n.out = {} := hs ps as declared n rfl
    rw [Field.nodes, Node.Described, Node.numbered_cons]
    exact (and_iff_right (hP _ _ rfl hn)).trans Field.described_nodesAll_iff

theorem Slot.described_nodesAll_iff {p : Place} {endDepth j id : Nat} {ss : List (Slot Symbol Note)}
    (hss : ∀ s ∈ ss, s.Quiet) :
    Node.Described P id (nodesAll (p.position endDepth) id j ss) ↔
      ∀ x ∈ fieldsAtAll p j id ss, Node.Described P x.id (x.nodes endDepth) := by
  induction ss generalizing j id with
  | nil => simp [nodesAll, fieldsAtAll, Node.Described, Node.numbered_nil]
  | cons s ss ih =>
    obtain ⟨hs, hss⟩ := List.forall_mem_cons.1 hss
    rw [nodesAll, fieldsAtAll, Node.Described, Node.numbered_append, Field.length_nodes,
      List.forall_mem_append]
    exact and_congr (described_nodes_iff hP (p := s.placeIn p j) hs) (ih hss)

theorem ConditionAt.described_nodes_iff {y : ConditionAt Note} (hy : y.condition.Quiet)
    (child : Option Nat) :
    Node.Described P y.id (y.condition.nodes y.pattern y.joinDepth y.id child) ↔ y.Described P := by
  obtain ⟨pattern, joins, id, element, beginDepth, endDepth, note⟩ := y
  cases element with
  | pattern mode q =>
    let p := q.place pattern (joins + 1) beginDepth
    have hslots :
        Node.Described P (id + 1) (Slot.nodesAll (p.position endDepth) (id + 1) 1 q.slots) ↔
          ∀ x ∈ Slot.fieldsAtAll p 1 (id + 1) q.slots, Node.Described P x.id (x.nodes endDepth) :=
      Slot.described_nodesAll_iff hP (hy mode q rfl)
    rw [Condition.nodes, Node.Described, Node.numbered_cons]
    constructor
    · rintro ⟨hnode, hnodes⟩
      exact ⟨hnode, hslots.1 hnodes, fun t ht => by cases ht⟩
    · rintro ⟨hnode, hfields, -⟩
      exact ⟨hnode, hslots.2 hfields⟩
  | test t =>
    rw [Condition.nodes, Node.Described, Node.numbered_cons]
    constructor
    · rintro ⟨hnode, hnodes⟩
      refine ⟨hnode, (fun x hx => by cases hx), fun t' ht => ?_⟩
      obtain rfl := Element.test.inj ht
      exact hnodes
    · rintro ⟨hnode, -, hexpression⟩
      exact ⟨hnode, hexpression t rfl⟩

theorem Lhs.described_nodesFrom_iff {pattern joins id : Nat} {l : Lhs Symbol Note}
    (hl : ∀ k ∈ l, k.Quiet) :
    Node.Described P id (nodesFrom pattern joins id l) ↔
      ∀ y ∈ conditionsFrom pattern joins id l, y.Described P := by
  induction l generalizing pattern joins id with
  | nil => simp [nodesFrom, conditionsFrom, Node.Described, Node.numbered_nil]
  | cons k ks ih =>
    obtain ⟨hk, hks⟩ := List.forall_mem_cons.1 hl
    rw [nodesFrom, conditionsFrom, Node.Described, Node.numbered_append, Condition.length_nodes,
      List.forall_mem_cons]
    exact and_congr (ConditionAt.described_nodes_iff hP (y := ⟨pattern, joins, id, k⟩) hk _) (ih hks)

end Walk

/-! ## Compiled left-hand sides -/

theorem Slot.quiet_of_visit {c : Context} {p : Place} {id : Nat} {σ : Scope}
    {slotsAhead beyond : List Occurrence} {s : Slot Symbol α} {w : Visited (Slot Symbol Note)}
    (h : s.visit c p id σ slotsAhead beyond = .ok w) : w.result.Quiet := by
  obtain ⟨name, f⟩ := s
  cases f with
  | plain b as declared n =>
    obtain ⟨v, hv, h⟩ := bind_eq_ok.1 h
    obtain rfl := pure_eq_ok.1 h
    obtain ⟨bound, -, rfl⟩ := FieldAt.compiles_of_visit (x := ⟨p, id, .plain b as declared n⟩) hv
    intro ps as' declared' n' hf
    cases hf
  | multi ps as declared n =>
    obtain ⟨vs, -, h⟩ := bind_eq_ok.1 h
    obtain rfl := pure_eq_ok.1 h
    intro ps' as' declared' n' hf
    cases hf
    rfl

theorem Slot.quiet_of_visitAll {c : Context} {p : Place} {beyond : List Occurrence} {j id : Nat}
    {σ : Scope} {ss : List (Slot Symbol α)} {ws : List (Visited (Slot Symbol Note))}
    (h : visitAll c p beyond j id σ ss = .ok ws) : ∀ w ∈ ws, w.result.Quiet := by
  induction ss generalizing j id σ ws with
  | nil =>
    rw [visitAll] at h
    obtain rfl := pure_eq_ok.1 h
    simp
  | cons s ss ih =>
    rw [visitAll] at h
    obtain ⟨w, hw, h⟩ := bind_eq_ok.1 h
    obtain ⟨ws, hws, h⟩ := bind_eq_ok.1 h
    obtain rfl := pure_eq_ok.1 h
    exact List.forall_mem_cons.2 ⟨quiet_of_visit hw, ih hws⟩

theorem Condition.quiet_of_visit {c : Context} {pattern joins id : Nat} {σ : Scope}
    {rest : Lhs Symbol α} {k : Condition Symbol α} {v : VisitedCondition}
    (h : k.visit c pattern joins id σ rest = .ok v) : v.condition.Quiet := by
  obtain ⟨element, beginDepth, endDepth, n⟩ := k
  cases element with
  | pattern mode q =>
    obtain ⟨-, -, h⟩ := bind_eq_ok.1 h
    obtain ⟨-, -, h⟩ := bind_eq_ok.1 h
    obtain ⟨ws, hws, h⟩ := bind_eq_ok.1 h
    obtain rfl := pure_eq_ok.1 h
    intro mode' q' hq
    cases hq
    exact List.forall_mem_map.2 (Slot.quiet_of_visitAll hws)
  | test t =>
    obtain ⟨u, -, h⟩ := bind_eq_ok.1 h
    obtain rfl := pure_eq_ok.1 h
    intro mode q hq
    cases hq

namespace Lhs

theorem quiet_of_compileFrom {c : Context} {pattern joins id : Nat} {σ : Scope} {l : Lhs Symbol α}
    {u : Lhs Symbol Note} (h : compileFrom c pattern joins id σ l = .ok u) :
    ∀ k ∈ u, k.Quiet := by
  induction l generalizing pattern joins id σ u with
  | nil =>
    rw [compileFrom] at h
    obtain rfl := pure_eq_ok.1 h
    simp
  | cons k ks ih =>
    obtain ⟨v, us, hv, hus, rfl⟩ := compileFrom_cons_eq_ok.1 h
    exact List.forall_mem_cons.2 ⟨Condition.quiet_of_visit hv, ih hus⟩

/-- **A property of all nodes** of a compiled left-hand side is one of the nodes of its conditions and
fields, if multifield slots have it anyway. -/
theorem described_nodes_iff {c : Context} {l : Lhs Symbol α} {r : Lhs Symbol Note}
    (h : l.compile c = .ok r) {P : Nat → Node → Prop}
    (hP : ∀ i n, n.kind = .multislot → n.note.out = {} → P i n) :
    Node.Described P 0 r.nodes ↔ ∀ y ∈ r.conditionsAt, y.Described P := by
  obtain ⟨u, hu, rfl⟩ := exists_compileFrom_of_compile h
  refine described_nodesFrom_iff hP ((forall_mem_iff_of_forall₂ (forall₂_collapse u) ?_).1
    (quiet_of_compileFrom hu))
  rintro k k' ⟨d, rfl⟩
  rfl

/-- The same for properties by number, kind, position and note. -/
theorem allFrom_nodes_iff {c : Context} {l : Lhs Symbol α} {r : Lhs Symbol Note}
    (h : l.compile c = .ok r) {Q : Nat → NodeKind → Position → Note → Prop}
    (hQ : ∀ i p n, n.out = {} → Q i .multislot p n) :
    Node.AllFrom Q 0 r.nodes ↔ ∀ y ∈ r.conditionsAt, y.AllNodes Q := by
  let P (i : Nat) (n : Node) : Prop := Q i n.kind n.position n.note
  have hP : ∀ i (n : Node), n.kind = .multislot → n.note.out = {} → P i n := by
    intro i n hkind hout
    simp only [P, hkind]
    exact hQ i n.position n.note hout
  refine (described_nodes_iff h hP).trans (forall₂_congr fun y _ => ?_)
  constructor
  · rintro ⟨hcondition, hfields, hexpression⟩
    exact ⟨hcondition, hfields, hexpression⟩
  · rintro ⟨hcondition, hfields, hexpression⟩
    exact ⟨hcondition, hfields, hexpression⟩

end Lhs

/-! ## Nodes inside of fields and expressions -/

namespace Term

mutual

/-- The variables of an expression with their notes. -/
def vars : Term Symbol α → List (Symbol × α)
  | call _ args => varsAll args
  | var x _ n => [(x, n)]
  | lit _ => []
  | global _ => []

def varsAll : List (Term Symbol α) → List (Symbol × α)
  | [] => []
  | t :: ts => vars t ++ varsAll ts

end

mutual

theorem mem_notes_of_mem_vars {x : Symbol} {n : α} {t : Term Symbol α}
    (h : (x, n) ∈ t.vars) : n ∈ t.notes := by
  cases t with
  | call f args => exact mem_notesAll_of_mem_varsAll h
  | var y arity m => exact List.mem_singleton.2 (Prod.mk.inj (List.mem_singleton.1 h)).2
  | lit v => cases h
  | global y => cases h

theorem mem_notesAll_of_mem_varsAll {x : Symbol} {n : α} {ts : List (Term Symbol α)}
    (h : (x, n) ∈ varsAll ts) : n ∈ notesAll ts := by
  cases ts with
  | nil => cases h
  | cons t ts =>
    rcases List.mem_append.1 h with h | h
    · exact List.mem_append_left _ (mem_notes_of_mem_vars h)
    · exact List.mem_append_right _ (mem_notesAll_of_mem_varsAll h)

end

mutual

theorem eq_note_of_mem_vars {σ : Scope} {v : Viewpoint} {x : Symbol} {n : Note}
    {t : Term Symbol α} (h : (x, n) ∈ (t.resolve σ v).vars) : n = σ.note v x false none := by
  cases t with
  | call f args => exact eq_note_of_mem_varsAll h
  | var y arity m =>
    obtain ⟨rfl, rfl⟩ := Prod.mk.inj (List.mem_singleton.1 h)
    rfl
  | lit value => cases h
  | global y => cases h

theorem eq_note_of_mem_varsAll {σ : Scope} {v : Viewpoint} {x : Symbol} {n : Note}
    {ts : List (Term Symbol α)} (h : (x, n) ∈ varsAll (resolveAll σ v ts)) :
    n = σ.note v x false none := by
  cases ts with
  | nil => cases h
  | cons t ts =>
    rcases List.mem_append.1 h with h | h
    · exact eq_note_of_mem_vars h
    · exact eq_note_of_mem_varsAll h

end

end Term

/-- The variables of a constraint with their notes. -/
def Constraint.vars (k : Constraint Symbol α) : List (Symbol × α) :=
  match k.shape with
  | .literal _ => []
  | .var x _ n => [(x, n)]
  | .predicate t | .returnValue t => t.vars

/-- The variables of an alternative with their notes. -/
def Alternative.vars (a : Alternative Symbol α) : List (Symbol × α) :=
  a.constraints.flatMap Constraint.vars

theorem Constraint.eq_note_of_mem_vars {σ : Scope} {v : Viewpoint} {x : Symbol} {n : Note}
    {k : Constraint Symbol α} (h : (x, n) ∈ (k.resolve σ v).vars) :
    ∃ negated, n = σ.note v x negated none := by
  obtain ⟨shape, negated⟩ := k
  cases shape with
  | literal value => cases h
  | var y arity m =>
    obtain ⟨rfl, rfl⟩ := Prod.mk.inj (List.mem_singleton.1 h)
    exact ⟨negated, rfl⟩
  | predicate t => exact ⟨false, Term.eq_note_of_mem_vars h⟩
  | returnValue t => exact ⟨false, Term.eq_note_of_mem_vars h⟩

theorem Alternative.eq_note_of_mem_vars {σ : Scope} {v : Viewpoint} {x : Symbol} {n : Note}
    {a : Alternative Symbol α} (h : (x, n) ∈ (a.resolve σ v).vars) :
    ∃ negated, n = σ.note v x negated none := by
  obtain ⟨k, hk, h⟩ := List.mem_flatMap.1 h
  have hmem : ∃ j : Constraint Symbol α, k = j.resolve σ v := by
    rcases List.mem_cons.1 hk with rfl | hk
    · exact ⟨a.first, rfl⟩
    · obtain ⟨j, -, rfl⟩ := List.mem_map.1 hk
      exact ⟨j, rfl⟩
  obtain ⟨j, rfl⟩ := hmem
  exact Constraint.eq_note_of_mem_vars h

/-- A node at a position is one of the given variables, or has an empty note. -/
inductive Node.FoundIn (p : Position) (vs : List (Symbol × Note)) (n : Node) : Prop where
  | var (position : n.position = p) (x : Symbol) (arity : Arity) (kind : n.kind = .var x arity)
      (mem : (x, n.note) ∈ vs)
  | other (position : n.position = p) (kind : n.asVariable = none) (note : n.note = {})

theorem Node.FoundIn.position_eq {p : Position} {vs : List (Symbol × Note)} {n : Node}
    (h : n.FoundIn p vs) : n.position = p := by
  cases h with
  | var position => exact position
  | other position => exact position

theorem Node.FoundIn.mono {p : Position} {vs ws : List (Symbol × Note)} {n : Node}
    (h : n.FoundIn p vs) (hvs : ∀ w ∈ vs, w ∈ ws) : n.FoundIn p ws := by
  cases h with
  | var position x arity kind mem => exact .var position x arity kind (hvs _ mem)
  | other position kind note => exact .other position kind note

mutual

theorem Term.foundIn_of_mem_nodes {p : Position} {id : Nat} {next : Option Nat}
    {t : Term Symbol Note} {n : Node} (h : n ∈ t.nodes p id next) : n.FoundIn p t.vars := by
  cases t with
  | call f args =>
    rcases List.mem_cons.1 h with rfl | h
    · exact .other rfl rfl rfl
    · exact Term.foundIn_of_mem_nodesAll h
  | var x arity m =>
    obtain rfl := List.mem_singleton.1 h
    exact .var rfl x arity rfl List.mem_cons_self
  | lit v =>
    obtain rfl := List.mem_singleton.1 h
    exact .other rfl rfl rfl
  | global x =>
    obtain rfl := List.mem_singleton.1 h
    exact .other rfl rfl rfl

theorem Term.foundIn_of_mem_nodesAll {p : Position} {id : Nat} {ts : List (Term Symbol Note)}
    {n : Node} (h : n ∈ Term.nodesAll p id ts) : n.FoundIn p (Term.varsAll ts) := by
  cases ts with
  | nil => cases h
  | cons t ts =>
    rcases List.mem_append.1 h with h | h
    · exact (Term.foundIn_of_mem_nodes h).mono fun w => List.mem_append_left _
    · exact (Term.foundIn_of_mem_nodesAll h).mono fun w => List.mem_append_right _

end

theorem Constraint.foundIn_of_mem_nodes {p : Position} {id : Nat} {next child : Option Nat}
    {k : Constraint Symbol Note} {n : Node} (h : n ∈ k.nodes p id next child) :
    n.FoundIn p k.vars := by
  obtain ⟨shape, negated⟩ := k
  cases shape with
  | literal v =>
    obtain rfl := List.mem_singleton.1 h
    exact .other rfl rfl rfl
  | var x arity m =>
    obtain rfl := List.mem_singleton.1 h
    exact .var rfl x arity rfl List.mem_cons_self
  | predicate t =>
    rcases List.mem_cons.1 h with rfl | h
    · exact .other rfl rfl rfl
    · exact Term.foundIn_of_mem_nodes h
  | returnValue t =>
    rcases List.mem_cons.1 h with rfl | h
    · exact .other rfl rfl rfl
    · exact Term.foundIn_of_mem_nodes h

theorem Constraint.foundIn_of_mem_nodesAll {p : Position} {id : Nat}
    {ks : List (Constraint Symbol Note)} {n : Node} (h : n ∈ nodesAll p id ks) :
    n.FoundIn p (ks.flatMap Constraint.vars) := by
  induction ks generalizing id with
  | nil => cases h
  | cons k ks ih =>
    rw [List.flatMap_cons]
    rcases List.mem_append.1 h with h | h
    · exact (foundIn_of_mem_nodes h).mono fun w => List.mem_append_left _
    · exact (ih h).mono fun w => List.mem_append_right _

/-- The nodes below a field are the variables of its alternatives and nodes with empty notes. -/
theorem Alternative.foundIn_of_mem_nodesAll {p : Position} {id : Nat}
    {as : List (Alternative Symbol Note)} {n : Node} (h : n ∈ nodesAll p id as) :
    n.FoundIn p (as.flatMap Alternative.vars) := by
  induction as generalizing id with
  | nil => cases h
  | cons a as ih =>
    rw [List.flatMap_cons]
    rcases List.mem_append.1 h with h | h
    · refine Node.FoundIn.mono ?_ fun w => List.mem_append_left _
      rw [vars, constraints, List.flatMap_cons]
      rcases List.mem_append.1 h with h | h
      · exact (Constraint.foundIn_of_mem_nodes h).mono fun w => List.mem_append_left _
      · exact (Constraint.foundIn_of_mem_nodesAll h).mono fun w => List.mem_append_right _
    · exact (ih h).mono fun w => List.mem_append_right _

theorem Constraint.mem_notes_of_mem_vars {x : Symbol} {n : α} {site : Site}
    {k : Constraint Symbol α} (h : (x, n) ∈ k.vars) : n ∈ (Conjunct.mk site k).notes := by
  obtain ⟨shape, negated⟩ := k
  cases shape with
  | literal value => cases h
  | var y arity m => exact List.mem_singleton.2 (Prod.mk.inj (List.mem_singleton.1 h)).2
  | predicate t => exact Term.mem_notes_of_mem_vars h
  | returnValue t => exact Term.mem_notes_of_mem_vars h

/-- A compiled plain field is plain, its variable finds what is in its scope, and the variables in its
alternatives find something in its scope or its own binding. -/
theorem FieldVisit.exists_plain_result {c : Context} {t : FieldVisit α}
    (h : t.source.Compiles c t.scope t.visited) (hplain : t.source.field.isPlain = true) :
    ∃ b as declared n, t.result.field = .plain b as declared n ∧
      (∀ x arity, b = .var x arity → t.source.field.binds? = some (x, arity) ∧
        n.origin = t.scope.origin? t.source.place.viewpoint x) ∧
      ∀ x m, (x, m) ∈ as.flatMap Alternative.vars → m.origin ≠ none ∧ ∃ negated,
        m = (t.scope ++ (t.source.own t.scope).toList).note t.source.place.viewpoint x negated none := by
  obtain ⟨σ, ⟨p, id, f⟩, visited⟩ := t
  obtain ⟨bound, hbound, hv⟩ := h
  dsimp only at hv
  subst hv
  cases f with
  | multi ps as declared n => cases hplain
  | plain b as declared n =>
    refine ⟨_, _, _, _, rfl, fun x arity hb => ?_, fun x m hm => ?_⟩
    · subst hb
      exact ⟨rfl, rfl⟩
    · obtain ⟨a, ha, hm⟩ := List.mem_flatMap.1 hm
      constructor
      · obtain ⟨k, hk, hm⟩ := List.mem_flatMap.1 hm
        exact Conjunct.origin_ne_none_of_bindAll hbound _ (List.mem_map_of_mem ha) ⟨p.site, k⟩
          (List.mem_map_of_mem hk) m (Constraint.mem_notes_of_mem_vars hm)
      · obtain ⟨a, -, rfl⟩ := List.mem_map.1 ha
        exact Alternative.eq_note_of_mem_vars hm

/-! ## Nodes that hold tests -/

/-- The tests of a node have the property `H`, together with the depth of the join where it stands. -/
def Node.OutputsHave (H : Nat → Outputs → Prop) (_ : Nat) (_ : NodeKind) (p : Position) (n : Note) :
    Prop :=
  H p.joinDepth n.out

/-- The tests of a condition and of its fields have the property `H`, together with the depth of its
join. -/
structure ConditionAt.OutputsHave (H : Nat → Outputs → Prop) (y : ConditionAt Note) : Prop where
  condition : H y.joinDepth y.condition.note.out
  fields : ∀ x ∈ y.fields, H y.joinDepth x.field.note.out

section OutputsHave

variable {H : Nat → Outputs → Prop} (hH : ∀ d, H d {})

include hH

theorem Node.allFrom_outputs_of_foundIn {p : Position} {id : Nat} {vs : List (Symbol × Note)}
    {ns : List Node} (h : ∀ n ∈ ns, n.FoundIn p vs) (hvs : ∀ x m, (x, m) ∈ vs → m.out = {}) :
    AllFrom (OutputsHave H) id ns := by
  refine allFrom_of_forall_mem h fun i n _ _ hn => ?_
  have hout : n.note.out = {} := by
    cases hn with
    | var _ x _ _ mem => exact hvs x n.note mem
    | other _ _ note => rw [note]
  rw [OutputsHave, hout]
  exact hH _

/-- Below a compiled field there are no tests. -/
theorem FieldVisit.allFrom_outputs_iff {c : Context} {t : FieldVisit α}
    (h : t.source.Compiles c t.scope t.visited) (hplain : t.source.field.isPlain = true)
    (endDepth : Nat) :
    Node.AllFrom (Node.OutputsHave H) t.result.id (t.result.nodes endDepth) ↔
      H t.source.place.site.joinDepth t.result.field.note.out := by
  obtain ⟨b, as, declared, n, hfield, -, hvars⟩ := exists_plain_result h hplain
  rw [FieldAt.nodes, hfield, Field.nodes, Node.allFrom_cons]
  refine and_iff_left ?_
  refine Node.allFrom_outputs_of_foundIn hH (fun m hm => Alternative.foundIn_of_mem_nodesAll hm) ?_
  intro x m hm
  obtain ⟨-, negated, rfl⟩ := hvars x m hm
  rfl

/-- Only the node of a compiled condition and those of its fields hold tests, whatever becomes of the
deferred ones. -/
theorem Condition.allNodes_outputs_iff {c : Context} {pattern joins id : Nat} {σ : Scope}
    {rest : Lhs Symbol α} {k : Condition Symbol α} {v : VisitedCondition}
    (h : k.visit c pattern joins id σ rest = .ok v) (hflat : k.isFlat = true) (d : JoinOutput) :
    (⟨pattern, joins, id, v.condition.withDeferred d⟩ : ConditionAt Note).AllNodes
        (Node.OutputsHave H) ↔
      (⟨pattern, joins, id, v.condition.withDeferred d⟩ : ConditionAt Note).OutputsHave H := by
  have hbare := bare_of_visit h
  cases hk : k.element with
  | pattern mode q =>
    obtain ⟨ts, hrun, hsource, hresult, -, -, -⟩ := exists_run_of_visit hk h
    have htest := element_ne_test_of_bare hbare hk
    have hdepth : v.condition.joinsAfter joins = joins + 1 := by
      rw [joinsAfter_of_bare hbare, joinsAfter, hk]
    have hnodes : ∀ x ∈ v.condition.fieldsAt pattern joins id,
        (Node.AllFrom (Node.OutputsHave H) x.id (x.nodes v.condition.endDepth) ↔
          H (v.condition.joinsAfter joins) x.field.note.out) := by
      rw [← hresult, List.forall_mem_map]
      intro t ht
      have hmem : t.source ∈ k.fieldsAt pattern joins id := hsource ▸ List.mem_map_of_mem ht
      rw [FieldVisit.allFrom_outputs_iff hH (hrun.compiles t ht) (isPlain_of_mem_fieldsAt hflat hmem),
        (samePattern_of_mem_fieldsAt hk hmem).joinDepth_eq, hdepth]
      rfl
    constructor
    · rintro ⟨hcondition, hfields, -⟩
      exact ⟨hcondition, fun x hx => (hnodes x hx).1 (hfields x hx)⟩
    · rintro ⟨hcondition, hfields⟩
      exact ⟨hcondition, fun x hx => (hnodes x hx).2 (hfields x hx),
        fun t ht => absurd ht (htest t)⟩
  | test t =>
    obtain ⟨u, hu, hv, -⟩ := exists_bind_of_visit hk h
    have hfields : ∀ x, x ∉ v.condition.fieldsAt pattern joins id := by
      intro x hx
      rw [hv] at hx
      cases hx
    constructor
    · rintro ⟨hcondition, -, -⟩
      exact ⟨hcondition, fun x hx => absurd hx (hfields x)⟩
    · rintro ⟨hcondition, -⟩
      refine ⟨hcondition, fun x hx => absurd hx (hfields x), fun t' ht => ?_⟩
      have ht : v.condition.element = .test t' := ht
      rw [hv] at ht
      obtain rfl := Element.test.inj ht
      refine Node.allFrom_outputs_of_foundIn hH (fun m hm => Term.foundIn_of_mem_nodes hm) ?_
      intro x m hm
      rw [Term.eq_note_of_mem_vars hm]
      rfl

/-- **Only conditions and fields hold tests**: a property of the tests of all nodes is one of the tests
of the conditions and of their fields. -/
theorem Lhs.allFrom_outputs_iff {c : Context} {l : Lhs Symbol α} {r : Lhs Symbol Note}
    (hflat : l.isFlat = true) (h : l.compile c = .ok r) :
    Node.AllFrom (Node.OutputsHave H) 0 r.nodes ↔ ∀ y ∈ r.conditionsAt, y.OutputsHave H := by
  have hmultislot : ∀ i p n, n.out = {} → Node.OutputsHave H i .multislot p n := by
    intro i p n hn
    rw [Node.OutputsHave, hn]
    exact hH _
  rw [allFrom_nodes_iff h hmultislot]
  obtain ⟨u, hu, rfl⟩ := exists_compileFrom_of_compile h
  refine forall₂_congr ?_
  have hconditions : ∀ z ∈ u.conditionsAt, ∀ d,
      ((⟨z.pattern, z.joins, z.id, z.condition.withDeferred d⟩ : ConditionAt Note).AllNodes
          (Node.OutputsHave H) ↔
        (⟨z.pattern, z.joins, z.id, z.condition.withDeferred d⟩ : ConditionAt Note).OutputsHave H) := by
    intro z hz d
    obtain ⟨k, σ, rest, v, hk, hv, hcondition, -⟩ := exists_visit_of_mem hu Scope.before_nil hz
    rw [← hcondition]
    exact Condition.allNodes_outputs_iff hH hv (List.all_eq_true.1 hflat k hk) d
  intro y hy
  have hy := (forall_conditionsAt_collapse (fun z d => Iff.rfl) u).2 hconditions y hy
  exact hy y.condition.deferred

end OutputsHave

end Antecedent
