import Antecedent.Proofs.NodeTree
import Antecedent.Proofs.TableReading

/-!
# Notes in a node table

What the nodes of a left-hand side find in scope can be noted node by node, or in the syntax tree before
its nodes are listed. Both give the same nodes.

* `Node.resolved` is a node with a note of what it finds in a scope. `Term.nodes_resolve`,
  `Alternative.nodesAll_resolve` and `Field.nodes_resolve` say that the nodes of a resolved syntax tree
  are these.
* `NodeTable.Alike` says that two tables differ in notes only. Then their nodes have the same places and
  links, and the one is a tree if the other is.
-/

namespace Antecedent

/-! ## Nodes with notes -/

/-- The spot of a position. -/
def Position.spot (p : Position) : Spot := ⟨p.pattern, p.field, p.slot⟩

/-- The viewpoint of a position. -/
def Position.viewpoint (p : Position) : Viewpoint := ⟨p.pattern, p.kind⟩

/-- The node with a note of what it finds in a scope. A match handle notes the latest binding of its
name. -/
def Node.resolved (σ : Scope) (n : Node) : Node :=
  { n with
    note :=
      match n.kind with
      | .var x _ => σ.note n.position.viewpoint x n.negated n.declared
      | .pattern (some h) => { restriction := n.declared, origin := (σ.origins h).getLast? }
      | _ => { restriction := n.declared } }

theorem linkTo_eq_of_length {γ δ : Type} {id : Nat} {xs : List γ} {ys : List δ}
    (h : xs.length = ys.length) : linkTo id xs = linkTo id ys := by
  cases xs with
  | nil =>
    cases ys with
    | nil => rfl
    | cons y ys => cases h
  | cons x xs =>
    cases ys with
    | nil => cases h
    | cons y ys => rfl

section Resolve

variable (σ : Scope) (v : Viewpoint)

theorem Term.length_resolveAll (ts : List (Term Symbol Note)) :
    (resolveAll σ v ts).length = ts.length := by
  induction ts with
  | nil => rfl
  | cons t ts ih => rw [resolveAll, List.length_cons, List.length_cons, ih]

@[simp] theorem Term.size_resolve (t : Term Symbol Note) : (t.resolve σ v).size = t.size := by
  have h := congrArg size (mapNotes_resolve (fun _ => ()) σ v t)
  rwa [size_mapNotes, size_mapNotes] at h

@[simp] theorem Constraint.size_resolve (c : Constraint Symbol Note) :
    (c.resolve σ v).size = c.size := by
  have h := congrArg size (mapNotes_resolve (fun _ => ()) σ v c)
  rwa [size_mapNotes, size_mapNotes] at h

@[simp] theorem Alternative.size_resolve (a : Alternative Symbol Note) :
    (a.resolve σ v).size = a.size := by
  have h := congrArg size (mapNotes_resolve (fun _ => ()) σ v a)
  rwa [size_mapNotes, size_mapNotes] at h

namespace Field

@[simp] theorem size_resolve (inner : Scope) (f : Field Symbol Note) :
    (f.resolve σ inner v).size = f.size :=
  size_eq_of_bare (bare_resolve σ inner v f)

theorem length_resolveAll (fs : List (Field Symbol Note)) :
    (resolveAll σ v fs).length = fs.length := by
  induction fs with
  | nil => rfl
  | cons f fs ih => rw [resolveAll, List.length_cons, List.length_cons, ih]

theorem segment_resolve (inner : Scope) (f : Field Symbol Note) (k : Nat) :
    (f.resolve σ inner v).segment k = f.segment k := by
  rw [segment, segment, arity_eq_of_bare (bare_resolve σ inner v f)]

end Field

end Resolve

section Resolve

variable {σ : Scope} {v : Viewpoint} {p : Position}

namespace Term

mutual

theorem nodes_resolve (t : Term Symbol Note) (hv : p.viewpoint = v) (id : Nat) (next : Option Nat) :
    (t.resolve σ v).nodes p id next = (t.nodes p id next).map (Node.resolved σ) := by
  cases t with
  | call f args =>
    rw [resolve, nodes, nodes, nodesAll_resolveAll args hv, List.map_cons,
      linkTo_eq_of_length (length_resolveAll σ v args)]
    rfl
  | var x arity n =>
    subst hv
    rfl
  | lit value => rfl
  | global x => rfl

theorem nodesAll_resolveAll (ts : List (Term Symbol Note)) (hv : p.viewpoint = v) (id : Nat) :
    nodesAll p id (resolveAll σ v ts) = (nodesAll p id ts).map (Node.resolved σ) := by
  cases ts with
  | nil => rfl
  | cons t ts =>
    rw [resolveAll, nodesAll, nodesAll, size_resolve, nodes_resolve t hv, nodesAll_resolveAll ts hv,
      List.map_append, linkTo_eq_of_length (length_resolveAll σ v ts)]

end

end Term

namespace Constraint

theorem nodes_resolve (c : Constraint Symbol Note) (hv : p.viewpoint = v) (id : Nat)
    (next child : Option Nat) :
    (c.resolve σ v).nodes p id next child = (c.nodes p id next child).map (Node.resolved σ) := by
  subst hv
  obtain ⟨shape, negated⟩ := c
  cases shape with
  | literal value => rfl
  | var x arity n => rfl
  | predicate t => exact congrArg (List.cons _) (t.nodes_resolve rfl (id + 1) none)
  | returnValue t => exact congrArg (List.cons _) (t.nodes_resolve rfl (id + 1) none)

theorem nodesAll_resolve (cs : List (Constraint Symbol Note)) (hv : p.viewpoint = v) (id : Nat) :
    nodesAll p id (cs.map (resolve σ v)) = (nodesAll p id cs).map (Node.resolved σ) := by
  induction cs generalizing id with
  | nil => rfl
  | cons c cs ih =>
    rw [List.map_cons, nodesAll, nodesAll, size_resolve, nodes_resolve c hv, ih, List.map_append,
      linkTo_eq_of_length (List.length_map ..)]

end Constraint

namespace Alternative

theorem nodes_resolve (a : Alternative Symbol Note) (hv : p.viewpoint = v) (id : Nat)
    (child : Option Nat) :
    (a.resolve σ v).nodes p id child = (a.nodes p id child).map (Node.resolved σ) := by
  simp only [resolve, nodes, Constraint.size_resolve, Constraint.nodes_resolve _ hv,
    Constraint.nodesAll_resolve _ hv, List.map_append]
  rw [linkTo_eq_of_length (List.length_map ..)]

theorem nodesAll_resolve (as : List (Alternative Symbol Note)) (hv : p.viewpoint = v) (id : Nat) :
    nodesAll p id (as.map (resolve σ v)) = (nodesAll p id as).map (Node.resolved σ) := by
  induction as generalizing id with
  | nil => rfl
  | cons a as ih =>
    rw [List.map_cons, nodesAll, nodesAll, size_resolve, nodes_resolve a hv, ih, List.map_append,
      linkTo_eq_of_length (List.length_map ..)]

end Alternative

end Resolve

namespace Field

/-- The field itself is resolved in `σ`, and what is inside it in `inner`. -/
theorem nodes_resolve_plain {v : Viewpoint} {p : Position} (σ inner : Scope) (b : Binder Symbol)
    (as : List (Alternative Symbol Note)) (declared : Option Restriction) (n : Note)
    (hv : p.viewpoint = v) (id : Nat) (next : Option Nat) :
    ∃ m ms, (plain b as declared n).nodes p id next = m :: ms ∧
      ((plain b as declared n).resolve σ inner v).nodes p id next =
        m.resolved σ :: ms.map (Node.resolved inner) := by
  refine ⟨_, _, rfl, ?_⟩
  rw [resolve, nodes, Alternative.nodesAll_resolve as hv, linkTo_eq_of_length (List.length_map ..)]
  subst hv
  cases b <;> rfl

mutual

theorem nodes_resolve {σ : Scope} {v : Viewpoint} {p : Position} (f : Field Symbol Note)
    (hv : p.viewpoint = v) (id : Nat) (next : Option Nat) :
    (f.resolve σ σ v).nodes p id next = (f.nodes p id next).map (Node.resolved σ) := by
  cases f with
  | plain b as declared n =>
    obtain ⟨m, ms, heq, hresolve⟩ := nodes_resolve_plain σ σ b as declared n hv id next
    rw [hresolve, heq, List.map_cons]
  | multi ps as declared n =>
    rw [resolve, nodes, nodes, nodesAll_resolveAll ps hv, List.map_cons,
      linkTo_eq_of_length (length_resolveAll σ v ps)]
    rfl

theorem nodesAll_resolveAll {σ : Scope} {v : Viewpoint} {p : Position} (fs : List (Field Symbol Note))
    (hv : p.viewpoint = v) (id k : Nat) :
    nodesAll p id k (resolveAll σ v fs) = (nodesAll p id k fs).map (Node.resolved σ) := by
  cases fs with
  | nil => rfl
  | cons f fs =>
    -- a part has its own segment, but not its own viewpoint
    have hf := nodes_resolve (p := { p with segment := some (f.segment k) }) (σ := σ) f hv
    rw [resolveAll, nodesAll, nodesAll, size_resolve, segment_resolve, hf,
      nodesAll_resolveAll fs hv, List.map_append, linkTo_eq_of_length (length_resolveAll σ v fs)]

end

end Field

/-! ## Tables that differ in notes only -/

/-- The node without its note. -/
def Node.bare (n : Node) : Node := { n with note := {} }

namespace Node

theorem target?_bare (n : Node) (k : Link) : k.target? n.bare = k.target? n := by
  cases k <;> rfl

end Node

namespace NodeTable

/-- The tables differ in the notes of their nodes only. -/
structure Alike (t t' : NodeTable) : Prop where
  first_eq : t.first = t'.first
  node?_eq (j : Nat) : (t.node? j).map Node.bare = (t'.node? j).map Node.bare

theorem isSome_node? {t : NodeTable} {j : Nat} : (t.node? j).isSome = decide (j < t.size) := by
  rw [Bool.eq_iff_iff, decide_eq_true_iff, node?, getElem?_def]
  split <;> simp_all [size]

namespace Alike

variable {t t' t'' : NodeTable}

theorem refl (t : NodeTable) : t.Alike t := ⟨rfl, fun _ => rfl⟩

theorem symm (h : t.Alike t') : t'.Alike t := ⟨h.first_eq.symm, fun j => (h.node?_eq j).symm⟩

theorem trans (h : t.Alike t') (h' : t'.Alike t'') : t.Alike t'' :=
  ⟨h.first_eq.trans h'.first_eq, fun j => (h.node?_eq j).trans (h'.node?_eq j)⟩

theorem exists_node (h : t.Alike t') {j : Nat} {n : Node} (hn : t'.node? j = some n) :
    ∃ m, t.node? j = some m ∧ m.bare = n.bare := by
  have hj := h.node?_eq j
  rw [hn] at hj
  exact Option.map_eq_some_iff.1 hj

theorem size_eq (h : t.Alike t') : t.size = t'.size := by
  have hlt (j : Nat) : j < t.size ↔ j < t'.size := by
    have hj := congrArg Option.isSome (h.node?_eq j)
    rw [Option.isSome_map, Option.isSome_map, isSome_node?, isSome_node?] at hj
    exact decide_eq_decide.1 hj
  have hle := (hlt t'.size).1
  have hle' := (hlt t.size).2
  omega

theorem follow_eq (h : t.Alike t') (j : Nat) (k : Link) : t.follow j k = t'.follow j k := by
  have hbare (t : NodeTable) : t.follow j k = ((t.node? j).map Node.bare).bind k.target? := by
    rw [follow, Option.bind_map]
    exact congrArg _ (funext fun n => (n.target?_bare k).symm)
  rw [hbare, hbare, h.node?_eq]

theorem isTree (h : t.Alike t') (ht : t'.IsTree) : t.IsTree where
  forward hi := by
    rw [h.follow_eq] at hi
    rw [h.size_eq]
    exact ht.forward hi
  unique hi hi' := by
    rw [h.follow_eq] at hi hi'
    exact ht.unique hi hi'

theorem placeAt_eq (h : t.Alike t') (j : Nat) : t.placeAt j = t'.placeAt j := by
  have hbare (t : NodeTable) : t.placeAt j =
      ((t.node? j).map Node.bare).elim (.error (.missingNode j)) fun n => n.position.place := by
    rw [placeAt, get]
    cases t.node? j <;> rfl
  rw [hbare, hbare, h.node?_eq]

theorem chainFrom_eq (h : t.Alike t') {link : Node → Option Nat} (hlink : ∀ n, link n.bare = link n)
    (id : Nat) : t.chainFrom link id = t'.chainFrom link id := by
  -- by induction on the number of nodes from `id` on
  induction hm : t.nodes.size - id using Nat.strongRecOn generalizing id with
  | ind m ih =>
    have hsize : t.nodes.size = t'.nodes.size := h.size_eq
    rw [chainFrom, chainFrom]
    by_cases hid : id < t.nodes.size
    · have hid' : id < t'.nodes.size := hsize ▸ hid
      have hnode := h.node?_eq id
      rw [node?, node?, Array.getElem?_eq_getElem hid, Array.getElem?_eq_getElem hid'] at hnode
      have hnext : link t.nodes[id] = link t'.nodes[id] := by
        rw [← hlink t.nodes[id], Option.some.inj hnode, hlink]
      rw [dif_pos hid, dif_pos hid', hnext]
      cases link t'.nodes[id] with
      | none => rfl
      | some j =>
        dsimp only
        split
        · rw [ih (t.nodes.size - j) (by omega) j rfl]
        · rfl
    · rw [dif_neg hid, dif_neg (hsize ▸ hid)]

/-- Chains do not depend on notes. -/
theorem chain_eq (h : t.Alike t') {link : Node → Option Nat} (hlink : ∀ n, link n.bare = link n)
    (start : Option Nat) : t.chain link start = t'.chain link start := by
  cases start with
  | none => rfl
  | some id => exact h.chainFrom_eq hlink id

theorem places (h : t.Alike t') {o : Origin} (ho : t'.Places o) : t.Places o :=
  (h.placeAt_eq o.id).trans ho

end Alike

/-! ## Changing a node -/

/-- Changes one node. -/
def modify (t : NodeTable) (id : Nat) (f : Node → Node) : NodeTable :=
  { t with nodes := t.nodes.modify id f }

section Modify

variable {t t' : NodeTable} {id : Nat}

theorem node?_modify (t : NodeTable) (id : Nat) (f : Node → Node) (j : Nat) :
    (t.modify id f).node? j = if id = j then (t.node? j).map f else t.node? j :=
  Array.getElem?_modify

theorem node?_modify_of_ne {j : Nat} (h : id ≠ j) (f : Node → Node) :
    (t.modify id f).node? j = t.node? j := by
  rw [node?_modify, if_neg h]

@[simp] theorem size_modify (t : NodeTable) (id : Nat) (f : Node → Node) :
    (t.modify id f).size = t.size :=
  Array.size_modify

/-- Nodes are held where none of them changes. -/
theorem Holds.congr {ns : List Node} (h : t.Holds id ns)
    (heq : ∀ j, id ≤ j → j < id + ns.length → t'.node? j = t.node? j) : t'.Holds id ns := by
  intro i n hn
  have hi := (List.getElem?_eq_some_iff.1 hn).1
  exact (heq (id + i) (by omega) (by omega)).trans (h i n hn)

theorem Holds.modify_head {n : Node} {ms : List Node} (h : t.Holds id (n :: ms)) (f : Node → Node) :
    (t.modify id f).Holds id (f n :: ms) := by
  obtain ⟨hn, hms⟩ := Node.numbered_cons.1 h
  refine Node.numbered_cons.2 ⟨?_, Holds.congr hms fun j hj _ => node?_modify_of_ne (by omega) f⟩
  rw [node?_modify, if_pos rfl, hn, Option.map_some]

end Modify

end NodeTable

end Antecedent
