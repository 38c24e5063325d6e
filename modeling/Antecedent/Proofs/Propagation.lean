import Antecedent.Proofs.NegatedGroups
import Antecedent.Proofs.TableNotes
import Mathlib.Data.Set.Insert

/-!
# Propagation of a binding in a node table

A binding can be spread to the nodes that see it by following links from a node on, with a stack of nodes
that are still to be passed. A variable of its name is narrowed and refers to it from then on. The
propagation stops at the first occurrence of the name with another arity, as `Context.permit` does.

* `Node.receive` is what a binding leaves at a node. `Scope.note_append_singleton` says that this is what
  a variable finds in a scope with one more binding.
* `Propagation.step` passes one node, and `Propagation.run` a number of them. Nothing in them looks at
  what was passed before.
* `Propagation.Sound` is the invariant: the nodes that were passed and those that are pending are all
  different. `Propagation.Sound.next` keeps it, because a table is a tree.
* `NodeTable.Meets` says which occurrences are met and which nodes are passed, and
  `Propagation.Sound.run_eq` that a run ends, passes these nodes and is else nothing but `Context.permit`
  with these occurrences.
* `Lhs.nodes_form_tree` is the main result: the table of a left-hand side is a tree, and following its
  links ends.
-/

namespace Antecedent

open Halt (check look)

/-! ## Nodes that a binding reaches -/

/-- What a binding leaves in the note of an occurrence of its name. -/
def Binding.narrow (b : Binding) (v : Viewpoint) (negated : Bool) (n : Note) : Note :=
  { n with
    restriction := if negated then n.restriction else Restriction.inter? b.restriction n.restriction
    origin := b.origin.elim n.origin (v.choose n.origin) }

theorem Scope.origins_singleton (b : Binding) : origins [b] b.name = b.origin.toList := by
  cases hb : b.origin <;> simp [origins, named, hb]

theorem Scope.note_append_singleton (σ : Scope) (b : Binding) (v : Viewpoint) (negated : Bool)
    (declared : Option Restriction) :
    note (σ ++ [b]) v b.name negated declared =
      b.narrow v negated (σ.note v b.name negated declared) := by
  have hnamed : named [b] b.name = [b] := by simp [named]
  have horigin : origin? (σ ++ [b]) v b.name =
      b.origin.elim (σ.origin? v b.name) (v.choose (σ.origin? v b.name)) := by
    rw [origin?, origins_append, origins_singleton, List.foldl_append]
    cases b.origin <;> rfl
  have hrestriction : restriction? (σ ++ [b]) b.name declared =
      Restriction.inter? b.restriction (σ.restriction? b.name declared) := by
    rw [restriction?_append, restriction?, hnamed]
    rfl
  rw [note, horigin, hrestriction]
  cases negated <;> rfl

/-- The node that a link leads to, as one to pass. -/
def pendingAt (link : Option Nat) (free : Bool) : List (Nat × Bool) := link.toList.map (·, free)

namespace Node

/-- The occurrences of names at a node. In an expression, where `free` holds, a variable may have any
arity. -/
def occurrences (free : Bool) (n : Node) : List Occurrence :=
  if n.subexpr.isSome then []
  else
    match n.kind with
    | .var x arity => if free then [] else [⟨x, .var arity, n.position.spot⟩]
    | .pattern (some h) => [⟨h, .handle, n.position.spot⟩]
    | _ => []

/-- The node with what a binding leaves there. -/
def receive (b : Binding) (n : Node) : Node :=
  if n.subexpr.isSome then n
  else
    match n.kind with
    | .var x _ =>
      if x = b.name then { n with note := b.narrow n.position.viewpoint n.negated n.note } else n
    | .pattern (some h) =>
      if h = b.name then { n with note := { n.note with origin := b.origin.or n.note.origin } } else n
    | _ => n

/-- Whether a binding with the given floor is seen by the nodes below a node. -/
def descends (floor : Nat) (n : Node) : Bool := !n.isCondition || floor ≤ n.position.endDepth

/-- The nodes that are passed after a node, the next ones before those below it. -/
def ahead (floor : Nat) (free : Bool) (n : Node) : List (Nat × Bool) :=
  pendingAt n.subexpr true ++ pendingAt n.next free ++
    if n.descends floor then pendingAt n.child free else []

theorem map_fst_ahead (floor : Nat) (free : Bool) (n : Node) :
    (n.ahead floor free).map Prod.fst =
      n.subexpr.toList ++ n.next.toList ++ if n.descends floor then n.child.toList else [] := by
  rw [ahead, List.map_append, List.map_append, apply_ite (List.map Prod.fst)]
  simp [pendingAt, Function.comp_def]

theorem exists_link_of_mem_ahead {floor : Nat} {free : Bool} {n : Node} {j : Nat}
    (h : j ∈ (n.ahead floor free).map Prod.fst) : ∃ k : Link, k.target? n = some j := by
  rw [map_fst_ahead, List.mem_append, List.mem_append, Option.mem_toList, Option.mem_toList] at h
  rcases h with (h | h) | h
  · exact ⟨.subexpr, h⟩
  · exact ⟨.next, h⟩
  · split at h
    · exact ⟨.child, Option.mem_toList.1 h⟩
    · cases h

end Node

/-! ## Steps -/

/-- Where a propagation stands. -/
structure Propagation where
  table : NodeTable
  /-- The nodes to pass, with whether they are in an expression. -/
  pending : List (Nat × Bool)
  /-- The nodes that were passed, the latest one first. -/
  passed : List Nat

namespace Propagation

/-- The start of a propagation at a node. -/
def start (t : NodeTable) (id : Nat) (free : Bool) : Propagation := ⟨t, [(id, free)], []⟩

/-- The state after a node. -/
def next (b : Binding) (s : Propagation) (id : Nat) (free : Bool) (n : Node)
    (rest : List (Nat × Bool)) : Propagation :=
  ⟨s.table.modify id (Node.receive b), n.ahead b.floor free ++ rest, id :: s.passed⟩

/-- Passes the next pending node. -/
def step (c : Context) (b : Binding) (s : Propagation) : Except Halt Propagation :=
  match s.pending with
  | [] => .ok s
  | (id, free) :: rest => do
    let n ← look (s.table.get id)
    check (c.permit (n.occurrences free) b)
    return s.next b id free n rest

/-- Passes a number of nodes. -/
def run (c : Context) (b : Binding) : Nat → Propagation → Except Halt Propagation
  | 0, s => .ok s
  | m + 1, s => do run c b m (← s.step c b)

theorem run_of_pending {s : Propagation} (hs : s.pending = []) (c : Context) (b : Binding) (m : Nat) :
    s.run c b m = .ok s := by
  induction m with
  | zero => rfl
  | succ m ih =>
    have hstep : s.step c b = .ok s := by rw [step, hs]
    rw [run, hstep, ok_bind, ih]

theorem step_eq_bind {c : Context} {b : Binding} {s : Propagation} {id : Nat} {free : Bool}
    {rest : List (Nat × Bool)} (hs : s.pending = (id, free) :: rest) {n : Node}
    (hn : s.table.node? id = some n) :
    s.step c b = check (c.permit (n.occurrences free) b) >>= fun _ => .ok (s.next b id free n rest) := by
  rw [step, hs]
  simp only [NodeTable.get_eq_ok hn, Halt.look_ok, ok_bind]
  rfl

end Propagation

/-! ## The invariant -/

/-- The links of one node lead to different nodes. -/
theorem NodeTable.IsTree.nodup_ahead {t : NodeTable} (ht : t.IsTree) {id : Nat} {n : Node}
    (hn : t.node? id = some n) (floor : Nat) (free : Bool) :
    ((n.ahead floor free).map Prod.fst).Nodup := by
  have hne (k k' : Link) (hk : k ≠ k') {j j' : Nat} (h : j ∈ (k.target? n).toList)
      (h' : j' ∈ (k'.target? n).toList) : j ≠ j' := by
    rintro rfl
    rw [Option.mem_toList] at h h'
    exact hk (ht.unique (follow_eq_some.2 ⟨n, hn, h⟩) (follow_eq_some.2 ⟨n, hn, h'⟩)).2
  have hnodup (o : Option Nat) : o.toList.Nodup := by cases o <;> simp
  rw [Node.map_fst_ahead, List.nodup_append, List.nodup_append]
  refine ⟨⟨hnodup _, hnodup _, fun j hj j' hj' => ?_⟩, ?_, fun j hj j' hj' => ?_⟩
  · exact hne .subexpr .next (by decide) hj hj'
  · split
    · exact hnodup _
    · exact List.nodup_nil
  · split at hj'
    · rcases List.mem_append.1 hj with hj | hj
      · exact hne .subexpr .child (by decide) hj hj'
      · exact hne .next .child (by decide) hj hj'
    · cases hj'

namespace Propagation

/-- The nodes that are passed or pending are all different, and each but the first is where a link of
one that was passed leads. Those that were passed have received the binding, once. -/
structure Sound (t : NodeTable) (b : Binding) (first : Nat) (s : Propagation) : Prop where
  node?_table (j : Nat) :
    s.table.node? j = (t.node? j).map fun n => if j ∈ s.passed then n.receive b else n
  first_table : s.table.first = t.first
  nodup : (s.passed ++ s.pending.map Prod.fst).Nodup
  reached {j : Nat} (hj : j ∈ s.passed ++ s.pending.map Prod.fst) :
    j < t.size ∧ first ≤ j ∧ (j = first ∨ ∃ i ∈ s.passed, ∃ k, t.follow i k = some j)

theorem sound_start {t : NodeTable} {id : Nat} (hid : id < t.size) (b : Binding) (free : Bool) :
    Sound t b id (start t id free) where
  node?_table j := by simp [start]
  first_table := rfl
  nodup := List.nodup_singleton id
  reached hj := by
    obtain rfl := List.mem_singleton.1 hj
    exact ⟨hid, Nat.le_refl _, .inl rfl⟩

namespace Sound

variable {t : NodeTable} {b : Binding} {first : Nat} {s : Propagation}

theorem length_le (h : Sound t b first s) : s.passed.length + s.pending.length ≤ t.size := by
  have hsubset : s.passed ++ s.pending.map Prod.fst ⊆ List.range t.size :=
    fun j hj => List.mem_range.2 (h.reached hj).1
  simpa using (List.subperm_of_subset h.nodup hsubset).length_le

section Pending

variable {id : Nat} {free : Bool} {rest : List (Nat × Bool)}

theorem mem_of_pending (hs : s.pending = (id, free) :: rest) :
    id ∈ s.passed ++ s.pending.map Prod.fst := by
  simp [hs]

theorem notMem_passed (h : Sound t b first s) (hs : s.pending = (id, free) :: rest) :
    id ∉ s.passed := by
  intro hid
  exact (List.nodup_append.1 h.nodup).2.2 id hid id (by simp [hs]) rfl

/-- A pending node is in the table, as it was at the start. -/
theorem exists_node (h : Sound t b first s) (hs : s.pending = (id, free) :: rest) :
    ∃ n, t.node? id = some n ∧ s.table.node? id = some n := by
  have hid : id < t.nodes.size := (h.reached (mem_of_pending hs)).1
  refine ⟨t.nodes[id], Array.getElem?_eq_getElem hid, ?_⟩
  rw [h.node?_table, NodeTable.node?, Array.getElem?_eq_getElem hid, Option.map_some,
    if_neg (h.notMem_passed hs)]

/-- No link of the node that is passed leads to one that was passed or is pending already. -/
theorem disjoint_ahead (ht : t.IsTree) (h : Sound t b first s)
    (hs : s.pending = (id, free) :: rest) {n : Node} (hn : t.node? id = some n) {j : Nat}
    (hj : j ∈ (n.ahead b.floor free).map Prod.fst) : j ∉ s.passed ++ s.pending.map Prod.fst := by
  intro hmem
  obtain ⟨k, hk⟩ := Node.exists_link_of_mem_ahead hj
  have hfollow : t.follow id k = some j := NodeTable.follow_eq_some.2 ⟨n, hn, hk⟩
  have hlt := (ht.forward hfollow).1
  have hle := (h.reached (mem_of_pending hs)).2.1
  rcases (h.reached hmem).2.2 with rfl | ⟨i, hi, k', hfollow'⟩
  · omega
  · obtain ⟨rfl, -⟩ := ht.unique hfollow hfollow'
    exact h.notMem_passed hs hi

theorem node?_next (h : Sound t b first s) (hs : s.pending = (id, free) :: rest) (n : Node) (j : Nat) :
    (s.next b id free n rest).table.node? j =
      (t.node? j).map fun m => if j ∈ id :: s.passed then m.receive b else m := by
  show (s.table.modify id (Node.receive b)).node? j = _
  rw [NodeTable.node?_modify, h.node?_table]
  split
  · next hj =>
    subst hj
    simp [h.notMem_passed hs]
  · next hj =>
    have hmem : j ∈ id :: s.passed ↔ j ∈ s.passed := by
      rw [List.mem_cons, or_iff_right (Ne.symm hj)]
    simp only [hmem]

/-- **Passing a node** keeps the invariant. -/
theorem next (ht : t.IsTree) (h : Sound t b first s) (hs : s.pending = (id, free) :: rest) {n : Node}
    (hn : t.node? id = some n) : Sound t b first (s.next b id free n rest) := by
  -- the nodes passed or pending afterwards are those before, and those where the node's links lead
  have hperm : ((s.next b id free n rest).passed ++
      (s.next b id free n rest).pending.map Prod.fst).Perm
      ((n.ahead b.floor free).map Prod.fst ++ (s.passed ++ s.pending.map Prod.fst)) := by
    rw [Propagation.next, hs, List.map_append, List.map_cons]
    exact ((List.perm_append_comm_assoc ..).cons id).trans
      (List.perm_middle.symm.trans (.append_left _ List.perm_middle.symm))
  refine ⟨h.node?_next hs n, h.first_table, ?_, fun {j} hj => ?_⟩
  · rw [hperm.nodup_iff, List.nodup_append]
    refine ⟨ht.nodup_ahead hn b.floor free, h.nodup, ?_⟩
    rintro j hj _ hj' rfl
    exact h.disjoint_ahead ht hs hn hj hj'
  · rcases List.mem_append.1 (hperm.mem_iff.1 hj) with hj | hj
    · obtain ⟨k, hk⟩ := Node.exists_link_of_mem_ahead hj
      have hfollow : t.follow id k = some j := NodeTable.follow_eq_some.2 ⟨n, hn, hk⟩
      obtain ⟨hlt, hsize⟩ := ht.forward hfollow
      have hle := (h.reached (mem_of_pending hs)).2.1
      exact ⟨hsize, by omega, .inr ⟨id, List.mem_cons_self, k, hfollow⟩⟩
    · obtain ⟨hsize, hle, hlinked⟩ := h.reached hj
      refine ⟨hsize, hle, hlinked.imp_right ?_⟩
      rintro ⟨i, hi, k, hfollow⟩
      exact ⟨i, List.mem_cons_of_mem id hi, k, hfollow⟩

end Pending

end Sound

end Propagation

/-! ## Runs -/

/-- Going on with the pending nodes meets these occurrences, in this order, and passes these nodes. -/
inductive NodeTable.Meets (t : NodeTable) (floor : Nat) :
    List (Nat × Bool) → List Occurrence → Set Nat → Prop where
  | nil : Meets t floor [] [] ∅
  | cons {id : Nat} {free : Bool} {n : Node} {rest : List (Nat × Bool)} {os : List Occurrence}
      {S : Set Nat} (node : t.node? id = some n)
      (tail : Meets t floor (n.ahead floor free ++ rest) os S) :
      Meets t floor ((id, free) :: rest) (n.occurrences free ++ os) (insert id S)

theorem Context.permit_append (c : Context) (os os' : List Occurrence) (b : Binding) :
    c.permit (os ++ os') b = c.permit os b >>= fun _ => c.permit os' b := by
  rw [permit, permit, List.find?_append]
  cases os.find? b.clashes with
  | none => rfl
  | some o => rfl

namespace Propagation.Sound

variable {t : NodeTable} {b : Binding} {first : Nat} {s : Propagation}

/-- In a tree, going on ends. -/
theorem exists_meets (ht : t.IsTree) (h : Sound t b first s) :
    ∃ os S, t.Meets b.floor s.pending os S := by
  -- by induction on the number of nodes that are not passed yet
  induction hm : t.size - s.passed.length using Nat.strongRecOn generalizing s with
  | ind m ih =>
    cases hs : s.pending with
    | nil => exact ⟨[], ∅, .nil⟩
    | cons v rest =>
      obtain ⟨id, free⟩ := v
      obtain ⟨n, hn, -⟩ := h.exists_node hs
      have hlength := h.length_le
      rw [hs, List.length_cons] at hlength
      obtain ⟨os, S, hos⟩ := ih (t.size - (id :: s.passed).length)
        (by rw [List.length_cons]; omega) (h.next ht hs hn) rfl
      exact ⟨_, _, .cons hn hos⟩

/-- **A run ends**, and it stops with a fault exactly if the binding may not pass the occurrences that it
meets. -/
theorem run_eq (ht : t.IsTree) (h : Sound t b first s) {os : List Occurrence} {S : Set Nat}
    (hmeets : t.Meets b.floor s.pending os S) (c : Context) :
    ∃ s', s'.pending = [] ∧ Sound t b first s' ∧ (∀ j, j ∈ s'.passed ↔ j ∈ s.passed ∨ j ∈ S) ∧
      ∀ m, t.size ≤ m + s.passed.length →
        s.run c b m = check (c.permit os b) >>= fun _ => .ok s' := by
  generalize hpending : s.pending = pending at hmeets
  induction hmeets generalizing s with
  | nil => exact ⟨s, hpending, h, by simp, fun m _ => run_of_pending hpending c b m⟩
  | @cons id free n rest os S node tail ih =>
    obtain ⟨s', hs', hsound, hpassed, hrun⟩ := ih (h.next ht hpending node) rfl
    refine ⟨s', hs', hsound, fun j => ?_, fun m hm => ?_⟩
    · rw [hpassed, Propagation.next, List.mem_cons, Set.mem_insert_iff, or_assoc, or_left_comm]
    · have hlength := h.length_le
      rw [hpending, List.length_cons] at hlength
      obtain ⟨m, rfl⟩ : ∃ m', m = m' + 1 := ⟨m - 1, by omega⟩
      obtain ⟨n', hn', hn⟩ := h.exists_node hpending
      obtain rfl := Option.some.inj (node.symm.trans hn')
      rw [run, step_eq_bind hpending hn, bind_assoc, c.permit_append, Halt.check_bind, bind_assoc]
      exact bind_congr fun _ => hrun m (by rw [Propagation.next, List.length_cons]; omega)

theorem step (ht : t.IsTree) (h : Sound t b first s) {c : Context} {s' : Propagation}
    (hs : s.step c b = .ok s') : Sound t b first s' := by
  cases hpending : s.pending with
  | nil =>
    rw [Propagation.step, hpending] at hs
    exact Except.ok.inj hs ▸ h
  | cons v rest =>
    obtain ⟨id, free⟩ := v
    obtain ⟨n, hn, hn'⟩ := h.exists_node hpending
    rw [step_eq_bind hpending hn'] at hs
    obtain ⟨-, -, hs⟩ := bind_eq_ok.1 hs
    exact Except.ok.inj hs ▸ h.next ht hpending hn

/-- Every state of a run is sound. -/
theorem run (ht : t.IsTree) (h : Sound t b first s) {c : Context} {m : Nat} {s' : Propagation}
    (hs : s.run c b m = .ok s') : Sound t b first s' := by
  induction m generalizing s with
  | zero => exact Except.ok.inj hs ▸ h
  | succ m ih =>
    obtain ⟨s₁, hs₁, hs⟩ := bind_eq_ok.1 hs
    exact ih (h.step ht hs₁) hs

end Propagation.Sound

/-- In a tree, a propagation ends with a fault or with nothing pending. -/
theorem Propagation.ends_of_isTree {t : NodeTable} (ht : t.IsTree) {id : Nat} (hid : id < t.size)
    (c : Context) (b : Binding) (free : Bool) :
    (∃ d, ∀ m, t.size ≤ m → (start t id free).run c b m = .error (.fault d)) ∨
      ∃ s, s.pending = [] ∧ ∀ m, t.size ≤ m → (start t id free).run c b m = .ok s := by
  have hsound := sound_start hid b free
  obtain ⟨os, S, hos⟩ := hsound.exists_meets ht
  obtain ⟨s, hs, -, -, hrun⟩ := hsound.run_eq ht hos c
  cases hpermit : c.permit os b with
  | error d => exact .inl ⟨d, fun m hm => by rw [hrun m hm, hpermit]; rfl⟩
  | ok u => exact .inr ⟨s, hs, fun m hm => by rw [hrun m hm, hpermit]; rfl⟩

/-! ## Tables of left-hand sides -/

namespace NodeTable

/-- The table with other notes. -/
def withNotes (t : NodeTable) (notes : Nat → Note) : NodeTable :=
  { t with nodes := t.nodes.mapIdx fun i n => { n with note := notes i } }

theorem alike_withNotes (t : NodeTable) (notes : Nat → Note) : (t.withNotes notes).Alike t where
  first_eq := rfl
  node?_eq j := by
    rw [withNotes, node?, Array.getElem?_mapIdx, Option.map_map]
    rfl

end NodeTable

namespace Lhs

/-- **The table of a left-hand side is a tree with forward links.** The links of a node lead to nodes with
greater numbers. The conditions start at the first node, and to every other node leads exactly one link.
So every chain of links ends, and a binding that is propagated from a node, whatever notes the nodes have,
passes no node twice and leaves its mark at a node once; nor is the node at which it stops with a fault one
that was passed. The propagation ends with a fault or with nothing pending, after no more steps than there
are nodes. -/
theorem nodes_form_tree (l : Lhs String Unit) (names : SymbolTable) :
    let t := NodeTable.ofLhs (l.intern names).1
    (∀ i k j, t.follow i k = some j → i < j ∧ j < t.size) ∧
    (t.first = if l.isEmpty then none else some 0) ∧
    (∀ j, 0 < j → j < t.size → ∃! e : Nat × Link, t.follow e.1 e.2 = some j) ∧
    (∀ k start, (∀ i, start = some i → i < t.size) → t.Walks k start (t.chain k.target? start)) ∧
    ∀ (notes : Nat → Note) (c : Context) (b : Binding) (id : Nat) (free : Bool), id < t.size →
      let t := t.withNotes notes
      let s := Propagation.start t id free
      (∀ m s', s.run c b m = .ok s' → (s'.passed ++ s'.pending.map Prod.fst).Nodup ∧
        ∀ j, s'.table.node? j =
          (t.node? j).map fun n => if j ∈ s'.passed then n.receive b else n) ∧
      ((∃ d, ∀ m, t.size ≤ m → s.run c b m = .error (.fault d)) ∨
        ∃ s', s'.pending = [] ∧ ∀ m, t.size ≤ m → s.run c b m = .ok s') := by
  have htree := NodeTable.isTree_ofLhs (l.intern names).1
  refine ⟨fun i k j => htree.forward, ?_, fun j hpos hj => ?_, fun k start => htree.walks_chain k,
    fun notes c b id free hid => ?_⟩
  · have hlength := congrArg List.length (map_depths_intern l names)
    rw [List.length_map, List.length_map] at hlength
    rw [NodeTable.first_ofLhs, linkTo_eq_of_length hlength]
    rfl
  · obtain ⟨i, k, h⟩ := NodeTable.exists_follow_ofLhs hpos hj
    refine ⟨(i, k), h, fun e he => ?_⟩
    obtain ⟨hi, hk⟩ := htree.unique he h
    exact Prod.ext hi hk
  · have halike := (NodeTable.ofLhs (l.intern names).1).alike_withNotes notes
    have hid : id < ((NodeTable.ofLhs (l.intern names).1).withNotes notes).size := by
      rwa [halike.size_eq]
    refine ⟨fun m s' hs' => ?_, Propagation.ends_of_isTree (halike.isTree htree) hid c b free⟩
    have hsound := (Propagation.sound_start hid b free).run (halike.isTree htree) hs'
    exact ⟨hsound.nodup, hsound.node?_table⟩

/-- A pattern whose slot has a sequence variable and a field with a predicate that calls functions, and a
test of the variable. -/
def callsInSlot : Lhs String Unit :=
  [⟨.pattern .plain
      { kind := .fact
        handle := some "f"
        slots :=
          [⟨some "s", .multi
            [.plain (.var "x" .sequence) [] none (),
              .plain (.wildcard .single)
                [⟨.var "y" .single (), [⟨.predicate (.call "p" [.var "y" .single (), .call "q" []]), true⟩]⟩,
                  ⟨.literal (.symbol "red"), []⟩] none ()] [] none ()⟩] }, 0, 0, ()⟩,
    ⟨.test (.call "p" [.var "x" .sequence ()]), 0, 0, ()⟩]

/-- A restriction of `y` to addresses that is made in the field with the predicate, which is node number 3,
passes the seven nodes of the field. It leaves its mark once at node 4 and once, in the call, at node 7. -/
theorem callsInSlot_forms_tree :
    let t := NodeTable.ofLhs (callsInSlot.intern .empty).1
    let y : Binding := ⟨⟨3⟩, .single, none, some .address, 0⟩
    t.size = 13 ∧ (∃! e : Nat × Link, t.follow e.1 e.2 = some 9) ∧
      t.Walks .child (some 4) (t.chain Node.child (some 4)) ∧
      ∃ s, (Propagation.start (t.withNotes fun _ => {}) 3 false).run ⟨.empty, .standard⟩ y 13 = .ok s ∧
        s.passed = [9, 8, 7, 6, 5, 4, 3] ∧ (s.passed ++ s.pending.map Prod.fst).Nodup ∧
        ∀ j ∈ [4, 7], s.table.node? j = ((t.withNotes fun _ => {}).node? j).map (Node.receive y) := by
  intro t y
  have hsize : t.size = 13 := by decide +kernel
  obtain ⟨-, -, hunique, hchain, hpropagation⟩ := nodes_form_tree callsInSlot .empty
  refine ⟨hsize, hunique 9 (by decide) (hsize ▸ by decide), hchain .child (some 4) fun i hi => ?_, ?_⟩
  · rw [← Option.some.inj hi]
    exact hsize ▸ by decide
  obtain ⟨s, hs, hpassed⟩ := exists_ok_of_check
    (e := (Propagation.start (t.withNotes fun _ => {}) 3 false).run ⟨.empty, .standard⟩ y 13)
    (p := fun s => decide (s.passed = [9, 8, 7, 6, 5, 4, 3])) (by decide +kernel)
  have hpassed := of_decide_eq_true hpassed
  obtain ⟨hnodup, hmarks⟩ :=
    (hpropagation (fun _ => {}) ⟨.empty, .standard⟩ y 3 false (hsize ▸ by decide)).1 13 s hs
  refine ⟨s, hs, hpassed, hnodup, fun j hj => ?_⟩
  have hmem : j ∈ s.passed := by
    rw [hpassed]
    exact (by decide : [4, 7] ⊆ [9, 8, 7, 6, 5, 4, 3]) hj
  simpa only [if_pos hmem] using hmarks j

end Lhs

end Antecedent
