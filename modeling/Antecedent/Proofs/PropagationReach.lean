import Antecedent.Proofs.Propagation
import Mathlib.Order.Interval.Set.Basic

/-!
# What a propagation meets

A binding that is propagated in a node table looks at the same occurrences, in the same order, as one that
looks ahead in the syntax tree, and it passes the nodes of the same parts of the syntax tree.

* `NodeTable.Passes` says which occurrences are met at pending nodes and behind them, and which nodes are
  passed. What is met does not depend on the notes of the nodes (`NodeTable.Meets.of_alike`).
* `Field.passes_nodesAll`, `Slot.passes_nodesAll` and `Lhs.passes_nodesFrom` say that the occurrences are
  `Field.occurrencesAll`, `Slot.occurrencesAll` and `Lhs.reach`, and that the nodes are those of the fields,
  of the slots and of the conditions in `Lhs.reached`, with one lemma for every kind of syntax tree before
  them.
* `Node.receive_resolved` says that a node which has received a binding notes what it finds in a scope with
  one more binding. This needs that nodes are regular (`NodeTable.regular_ofLhs`).
-/

namespace Antecedent

open Set (Ico)

namespace NodeTable

/-! ## Passing nodes -/

/-- Passing some pending nodes, and what comes after them, meets these occurrences and passes these
nodes. -/
def Passes (t : NodeTable) (floor : Nat) (front : List (Nat × Bool)) (os : List Occurrence)
    (S : Set Nat) : Prop :=
  ∀ rest os' S', t.Meets floor rest os' S' → t.Meets floor (front ++ rest) (os ++ os') (S ∪ S')

section Passes

variable {t t' : NodeTable} {floor : Nat} {front front' : List (Nat × Bool)} {os os' : List Occurrence}
  {S S' : Set Nat}

theorem passes_nil : t.Passes floor [] [] ∅ := by
  intro rest os' S' h
  rwa [Set.empty_union]

theorem Passes.append (h : t.Passes floor front os S) (h' : t.Passes floor front' os' S') :
    t.Passes floor (front ++ front') (os ++ os') (S ∪ S') := by
  intro rest us U hrest
  rw [List.append_assoc, List.append_assoc, Set.union_assoc]
  exact h _ _ _ (h' _ _ _ hrest)

theorem Passes.congr (h : t.Passes floor front os S) (hS : S = S') : t.Passes floor front os S' :=
  hS ▸ h

theorem Passes.meets (h : t.Passes floor front os S) : t.Meets floor front os S := by
  have hmeets := h _ _ _ .nil
  rwa [List.append_nil, List.append_nil, Set.union_empty] at hmeets

/-- A node is passed first, then its expression, then what comes next, then what lies below it. -/
theorem passes_node {id : Nat} {free : Bool} {n : Node} {os₁ os₂ os₃ : List Occurrence}
    {S₁ S₂ S₃ : Set Nat} (hn : t.node? id = some n)
    (hsubexpr : t.Passes floor (pendingAt n.subexpr true) os₁ S₁)
    (hnext : t.Passes floor (pendingAt n.next free) os₂ S₂)
    (hchild : t.Passes floor (pendingAt n.child free) os₃ S₃) :
    t.Passes floor [(id, free)]
      (n.occurrences free ++ (os₁ ++ os₂ ++ if n.descends floor then os₃ else []))
      (insert id (S₁ ∪ S₂ ∪ if n.descends floor then S₃ else ∅)) := by
  have hbelow : t.Passes floor (if n.descends floor then pendingAt n.child free else [])
      (if n.descends floor then os₃ else []) (if n.descends floor then S₃ else ∅) := by
    split
    · exact hchild
    · exact passes_nil
  intro rest us U hrest
  rw [List.append_assoc, Set.insert_union]
  exact .cons hn (((hsubexpr.append hnext).append hbelow) _ _ _ hrest)

theorem passes_inner {id : Nat} {free : Bool} {n : Node} {os₁ os₂ os₃ : List Occurrence}
    {S₁ S₂ S₃ : Set Nat} (hn : t.node? id = some n)
    (hsubexpr : t.Passes floor (pendingAt n.subexpr true) os₁ S₁)
    (hnext : t.Passes floor (pendingAt n.next free) os₂ S₂)
    (hchild : t.Passes floor (pendingAt n.child free) os₃ S₃) (hinner : n.isCondition = false) :
    t.Passes floor [(id, free)] (n.occurrences free ++ (os₁ ++ os₂ ++ os₃))
      (insert id (S₁ ∪ S₂ ∪ S₃)) := by
  have hpasses := passes_node hn hsubexpr hnext hchild
  have hdescends : n.descends floor = true := by simp [Node.descends, hinner]
  rwa [if_pos hdescends, if_pos hdescends] at hpasses

/-- What is met does not depend on notes. -/
theorem Meets.of_alike {pending : List (Nat × Bool)} (h : t.Meets floor pending os S)
    (halike : t'.Alike t) : t'.Meets floor pending os S := by
  induction h with
  | nil => exact .nil
  | @cons id free n rest os S node tail ih =>
    obtain ⟨m, hm, hbare⟩ := halike.exists_node node
    have hahead : m.ahead floor free = n.ahead floor free := by
      show m.bare.ahead floor free = n.bare.ahead floor free
      rw [hbare]
    have hoccurrences : m.occurrences free = n.occurrences free := by
      show m.bare.occurrences free = n.bare.occurrences free
      rw [hbare]
    rw [← hahead] at ih
    rw [← hoccurrences]
    exact .cons hm ih

/-- Where arities do not count, the same nodes are passed, and only match handles are met. -/
theorem Meets.exists_free {pending : List (Nat × Bool)} (h : t.Meets floor pending os S) :
    ∃ os', t.Meets floor (pending.map fun v => (v.1, true)) os' S ∧
      ∀ o ∈ os', o.role = .handle := by
  induction h with
  | nil => exact ⟨[], .nil, nofun⟩
  | @cons id free n rest os S node tail ih =>
    obtain ⟨os', hmeets, hhandles⟩ := ih
    have hahead : (n.ahead floor free).map (fun v => (v.1, true)) = n.ahead floor true := by
      simp only [Node.ahead, pendingAt, List.map_append, List.map_map, Function.comp_def]
      split <;> simp
    rw [List.map_append, hahead] at hmeets
    refine ⟨_, .cons node hmeets, List.forall_mem_append.2 ⟨fun o ho => ?_, hhandles⟩⟩
    unfold Node.occurrences at ho
    split at ho
    · cases ho
    · split at ho
      · cases ho
      · rw [List.mem_singleton.1 ho]
      · cases ho

end Passes

end NodeTable

open NodeTable (passes_nil passes_node passes_inner)

section Syntax

variable {t : NodeTable} {floor : Nat} {p : Position}

/-! ## Expressions -/

namespace Term

mutual

/-- Arities do not count in an expression, so nothing is met there. -/
theorem passes_nodes (u : Term Symbol Note) {id : Nat} {next : Option Nat} {S : Set Nat}
    (h : t.Holds id (u.nodes p id next)) (hnext : t.Passes floor (pendingAt next true) [] S) :
    t.Passes floor [(id, true)] [] (Ico id (id + u.size) ∪ S) := by
  cases u with
  | call f args =>
    obtain ⟨hn, hargs⟩ := Node.numbered_cons.1 h
    rw [size]
    exact (passes_inner hn passes_nil hnext (passes_nodesAll args hargs) rfl).congr (by grind)
  | var x arity n =>
    exact (passes_inner (Node.numbered_cons.1 h).1 passes_nil hnext passes_nil rfl).congr
      (by grind [size])
  | lit v =>
    exact (passes_inner (Node.numbered_cons.1 h).1 passes_nil hnext passes_nil rfl).congr
      (by grind [size])
  | global x =>
    exact (passes_inner (Node.numbered_cons.1 h).1 passes_nil hnext passes_nil rfl).congr
      (by grind [size])

theorem passes_nodesAll (us : List (Term Symbol Note)) {id : Nat}
    (h : t.Holds id (nodesAll p id us)) :
    t.Passes floor (pendingAt (linkTo id us) true) [] (Ico id (id + sizeAll us)) := by
  cases us with
  | nil => exact passes_nil.congr (by grind [sizeAll])
  | cons u us =>
    rw [nodesAll] at h
    obtain ⟨hu, hus⟩ := h.split (length_nodes ..)
    exact (passes_nodes u hu (passes_nodesAll us hus)).congr (by grind [sizeAll])

end

end Term

/-! ## Alternatives -/

namespace Constraint

theorem passes_nodes {c : Constraint Symbol Note} {id : Nat} {next child : Option Nat}
    {os os' : List Occurrence} {S S' : Set Nat} (h : t.Holds id (c.nodes p id next child))
    (hnext : t.Passes floor (pendingAt next false) os S)
    (hchild : t.Passes floor (pendingAt child false) os' S') :
    t.Passes floor [(id, false)] (c.occurrences p.spot ++ (os ++ os'))
      (Ico id (id + c.size) ∪ (S ∪ S')) := by
  obtain ⟨shape, negated⟩ := c
  have hinside (u : Term Symbol Note) (hu : t.Holds (id + 1) (u.nodes p (id + 1) none)) :
      t.Passes floor [(id + 1, true)] [] (Ico (id + 1) (id + 1 + u.size)) :=
    (u.passes_nodes hu passes_nil).congr (Set.union_empty _)
  cases shape with
  | literal v =>
    exact (passes_inner (Node.numbered_cons.1 h).1 passes_nil hnext hchild rfl).congr
      (by grind [size])
  | var x arity n =>
    exact (passes_inner (Node.numbered_cons.1 h).1 passes_nil hnext hchild rfl).congr
      (by grind [size])
  | predicate u =>
    obtain ⟨hn, hu⟩ := Node.numbered_cons.1 h
    exact (passes_inner hn (hinside u hu) hnext hchild rfl).congr (by grind [size])
  | returnValue u =>
    obtain ⟨hn, hu⟩ := Node.numbered_cons.1 h
    exact (passes_inner hn (hinside u hu) hnext hchild rfl).congr (by grind [size])

theorem passes_nodesAll {cs : List (Constraint Symbol Note)} {id : Nat}
    (h : t.Holds id (nodesAll p id cs)) :
    t.Passes floor (pendingAt (linkTo id cs) false) (cs.flatMap (occurrences p.spot))
      (Ico id (id + totalSize size cs)) := by
  induction cs generalizing id with
  | nil => exact passes_nil.congr (by simp)
  | cons c cs ih =>
    rw [nodesAll] at h
    obtain ⟨hc, hcs⟩ := h.split (length_nodes ..)
    have hpasses := passes_nodes hc (ih hcs) passes_nil
    rw [List.append_nil] at hpasses
    exact hpasses.congr (by grind [totalSize_cons])

end Constraint

theorem Alternative.passes_nodesAll {as : List (Alternative Symbol Note)} {id : Nat}
    (h : t.Holds id (nodesAll p id as)) :
    t.Passes floor (pendingAt (linkTo id as) false) (as.flatMap (occurrences p.spot))
      (Ico id (id + totalSize size as)) := by
  induction as generalizing id with
  | nil => exact passes_nil.congr (by simp)
  | cons a as ih =>
    have hsize : a.size = a.first.size + totalSize Constraint.size a.rest := rfl
    rw [nodesAll] at h
    obtain ⟨ha, has⟩ := h.split (length_nodes ..)
    obtain ⟨hfirst, hrest⟩ := ha.split (Constraint.length_nodes ..)
    have hpasses := Constraint.passes_nodes hfirst (Constraint.passes_nodesAll hrest) (ih has)
    rw [← List.append_assoc] at hpasses
    exact hpasses.congr (by grind [totalSize_cons])

end Syntax

/-! ## Fields -/

namespace Field

/-- A field is passed before what follows it, and that before what is inside. -/
theorem passes_of_inside {t : NodeTable} {floor : Nat} {p : Position} {f : Field Symbol Note}
    {id : Nat} {next : Option Nat} {n : Node} {os : List Occurrence} {S : Set Nat}
    (h : t.Holds id (f.nodes p id next)) (hn : t.node? id = some n)
    (hinside : t.Passes floor (pendingAt n.child false) (f.inside p.spot) (Ico (id + 1) (id + f.size)))
    (hnext : t.Passes floor (pendingAt next false) os S) :
    t.Passes floor [(id, false)] (f.ownOccurrence p.spot ++ (os ++ f.inside p.spot))
      (Ico id (id + f.size) ∪ S) := by
  have hpos := f.size_pos
  have hset : insert id (∅ ∪ S ∪ Ico (id + 1) (id + f.size)) = Ico id (id + f.size) ∪ S := by
    grind
  cases f with
  | plain b as declared note =>
    obtain rfl := Option.some.inj (hn.symm.trans (Node.numbered_cons.1 h).1)
    cases b with
    | var x arity => exact (passes_inner hn passes_nil hnext hinside rfl).congr hset
    | wildcard arity => exact (passes_inner hn passes_nil hnext hinside rfl).congr hset
  | multi ps as declared note =>
    obtain rfl := Option.some.inj (hn.symm.trans (Node.numbered_cons.1 h).1)
    exact (passes_inner hn passes_nil hnext hinside rfl).congr hset

mutual

theorem passes_inside {t : NodeTable} {floor : Nat} {p : Position} (f : Field Symbol Note) {id : Nat}
    {next : Option Nat} {n : Node} (h : t.Holds id (f.nodes p id next)) (hn : t.node? id = some n) :
    t.Passes floor (pendingAt n.child false) (f.inside p.spot) (Ico (id + 1) (id + f.size)) := by
  cases f with
  | plain b as declared note =>
    obtain ⟨hn', has⟩ := Node.numbered_cons.1 h
    obtain rfl := Option.some.inj (hn.symm.trans hn')
    exact (Alternative.passes_nodesAll has).congr (by grind [size])
  | multi ps as declared note =>
    obtain ⟨hn', hps⟩ := Node.numbered_cons.1 h
    obtain rfl := Option.some.inj (hn.symm.trans hn')
    have hpasses : t.Passes floor _ _ _ := passes_nodesAll ps hps
    exact hpasses.congr (by grind [size])

theorem passes_nodesAll {t : NodeTable} {floor : Nat} {p : Position} (fs : List (Field Symbol Note))
    {id k : Nat} (h : t.Holds id (nodesAll p id k fs)) :
    t.Passes floor (pendingAt (linkTo id fs) false) (occurrencesAll p.spot fs)
      (Ico id (id + sizeAll fs)) := by
  cases fs with
  | nil => exact passes_nil.congr (by grind [sizeAll])
  | cons f fs =>
    rw [nodesAll] at h
    obtain ⟨hf, hfs⟩ := h.split (length_nodes ..)
    obtain ⟨n, hn, -⟩ := NodeTable.Holds.field_head hf
    have hpasses : t.Passes floor _ _ _ :=
      passes_of_inside hf hn (passes_inside f hf hn) (passes_nodesAll fs hfs)
    rw [← List.append_assoc] at hpasses
    exact hpasses.congr (by grind [sizeAll])

end

end Field

section Conditions

variable {t : NodeTable} {floor : Nat}

theorem Slot.passes_nodesAll {p : Position} {ss : List (Slot Symbol Note)} {id j : Nat}
    (h : t.Holds id (nodesAll p id j ss)) :
    t.Passes floor (pendingAt (linkTo id ss) false) (occurrencesAll p.pattern j ss)
      (Ico id (id + totalSize (fun s => s.field.size) ss)) := by
  induction ss generalizing id j with
  | nil => exact passes_nil.congr (by simp)
  | cons s ss ih =>
    rw [nodesAll] at h
    obtain ⟨hs, hss⟩ := h.split (Field.length_nodes ..)
    obtain ⟨n, hn, -⟩ := NodeTable.Holds.field_head hs
    have hpasses := Field.passes_of_inside hs hn (s.field.passes_inside hs hn) (ih hss)
    rw [← List.append_assoc] at hpasses
    exact hpasses.congr (by grind [totalSize_cons])

/-! ## Conditions -/

theorem Condition.passes_nodes {k : Condition Symbol Note} {pattern joinDepth id : Nat}
    {child : Option Nat} {os : List Occurrence} {S : Set Nat}
    (h : t.Holds id (k.nodes pattern joinDepth id child))
    (hchild : t.Passes floor (pendingAt child false) os S) :
    t.Passes floor [(id, false)]
      (k.occurrences pattern ++ if floor ≤ k.endDepth then os else [])
      (Ico id (id + k.size) ∪ if floor ≤ k.endDepth then S else ∅) := by
  have hsize := k.size_pos
  have hset (T : Set Nat) :
      insert id (Ico (id + 1) (id + k.size) ∪ T) = Ico id (id + k.size) ∪ T := by
    grind
  obtain ⟨element, beginDepth, endDepth, n⟩ := k
  cases element with
  | pattern mode q =>
    obtain ⟨hn, hslots⟩ := Node.numbered_cons.1 h
    have hpasses := passes_node hn passes_nil (Slot.passes_nodesAll hslots) hchild
    rw [Set.empty_union, Nat.add_assoc] at hpasses
    replace hpasses := hpasses.congr (hset _)
    obtain ⟨kind, handle, slots⟩ := q
    cases handle <;>
      simpa [Node.descends, Node.isCondition, Node.occurrences, Position.spot, occurrences]
        using hpasses
  | test u =>
    obtain ⟨hn, hu⟩ := Node.numbered_cons.1 h
    have hpasses := passes_node hn (u.passes_nodes hu passes_nil) passes_nil hchild
    rw [Set.union_empty, Set.union_empty, Nat.add_assoc] at hpasses
    replace hpasses := hpasses.congr (hset _)
    simpa [Node.descends, Node.isCondition, Node.occurrences, occurrences] using hpasses

/-- The nodes that a binding with the given floor passes in the conditions from node `id` on. -/
def Lhs.reached (floor id : Nat) : Lhs Symbol Note → Set Nat
  | [] => ∅
  | k :: ks => Ico id (id + k.size) ∪ if floor ≤ k.endDepth then reached floor (id + k.size) ks else ∅

theorem Lhs.passes_nodesFrom {l : Lhs Symbol Note} {pattern joins id : Nat}
    (h : t.Holds id (nodesFrom pattern joins id l)) :
    t.Passes floor (pendingAt (linkTo id l) false) (reach floor pattern l) (reached floor id l) := by
  induction l generalizing pattern joins id with
  | nil => exact passes_nil
  | cons k ks ih =>
    rw [nodesFrom] at h
    obtain ⟨hk, hks⟩ := h.split (Condition.length_nodes ..)
    exact Condition.passes_nodes hk (ih hks)

end Conditions

/-! ## Regular nodes -/

def Node.isPattern (n : Node) : Bool :=
  match n.kind with
  | .pattern _ => true
  | _ => false

/-- Whether nodes of the kind link to an expression. -/
def NodeKind.holdsExpression : NodeKind → Bool
  | test | predicate | returnValue => true
  | _ => false

/-- Only a test, a predicate or a return value links to an expression, and of the nodes in a pattern only
that of the pattern itself has no field number. -/
structure Node.Regular (n : Node) : Prop where
  expression : n.subexpr.isSome = true → n.kind.holdsExpression = true
  pattern : n.position.kind.isSome = true → (n.isPattern = true ↔ n.position.field = 0)

theorem Node.regular_of_field {n : Node} (h : n.subexpr.isSome = true → n.kind.holdsExpression = true)
    (hn : n.isPattern = false) (hp : n.position.kind.isSome = true → n.position.field ≠ 0) :
    n.Regular :=
  ⟨h, fun hkind => by simp [hn, hp hkind]⟩

section Regular

variable {p : Position}

namespace Term

mutual

theorem regular_nodes (hp : p.kind.isSome = true → p.field ≠ 0) (t : Term Symbol Note) (id : Nat)
    (next : Option Nat) : ∀ n ∈ t.nodes p id next, n.Regular := by
  cases t with
  | call f args =>
    exact List.forall_mem_cons.2
      ⟨Node.regular_of_field nofun rfl hp, regular_nodesAll hp args (id + 1)⟩
  | var x arity n => exact List.forall_mem_singleton.2 (Node.regular_of_field nofun rfl hp)
  | lit v => exact List.forall_mem_singleton.2 (Node.regular_of_field nofun rfl hp)
  | global x => exact List.forall_mem_singleton.2 (Node.regular_of_field nofun rfl hp)

theorem regular_nodesAll (hp : p.kind.isSome = true → p.field ≠ 0) (ts : List (Term Symbol Note))
    (id : Nat) : ∀ n ∈ nodesAll p id ts, n.Regular := by
  cases ts with
  | nil =>
    intro n hn
    cases hn
  | cons t ts =>
    exact List.forall_mem_append.2
      ⟨regular_nodes hp t id _, regular_nodesAll hp ts (id + t.size)⟩

end

end Term

namespace Constraint

theorem regular_nodes (hp : p.kind.isSome = true → p.field ≠ 0) (c : Constraint Symbol Note)
    (id : Nat) (next child : Option Nat) : ∀ n ∈ c.nodes p id next child, n.Regular := by
  obtain ⟨shape, negated⟩ := c
  cases shape with
  | literal v => exact List.forall_mem_singleton.2 (Node.regular_of_field nofun rfl hp)
  | var x arity n => exact List.forall_mem_singleton.2 (Node.regular_of_field nofun rfl hp)
  | predicate t =>
    exact List.forall_mem_cons.2
      ⟨Node.regular_of_field (fun _ => rfl) rfl hp, t.regular_nodes hp (id + 1) none⟩
  | returnValue t =>
    exact List.forall_mem_cons.2
      ⟨Node.regular_of_field (fun _ => rfl) rfl hp, t.regular_nodes hp (id + 1) none⟩

theorem regular_nodesAll (hp : p.kind.isSome = true → p.field ≠ 0)
    (cs : List (Constraint Symbol Note)) (id : Nat) : ∀ n ∈ nodesAll p id cs, n.Regular := by
  induction cs generalizing id with
  | nil =>
    intro n hn
    cases hn
  | cons c cs ih => exact List.forall_mem_append.2 ⟨c.regular_nodes hp id _ _, ih (id + c.size)⟩

end Constraint

theorem Alternative.regular_nodesAll (hp : p.kind.isSome = true → p.field ≠ 0)
    (as : List (Alternative Symbol Note)) (id : Nat) : ∀ n ∈ nodesAll p id as, n.Regular := by
  induction as generalizing id with
  | nil =>
    intro n hn
    cases hn
  | cons a as ih =>
    exact List.forall_mem_append.2 ⟨List.forall_mem_append.2
      ⟨a.first.regular_nodes hp id _ _, Constraint.regular_nodesAll hp a.rest _⟩, ih (id + a.size)⟩

end Regular

namespace Field

mutual

theorem regular_nodes {p : Position} (hp : p.kind.isSome = true → p.field ≠ 0)
    (f : Field Symbol Note) (id : Nat) (next : Option Nat) :
    ∀ n ∈ f.nodes p id next, n.Regular := by
  cases f with
  | plain b as declared n =>
    refine List.forall_mem_cons.2 ⟨?_, Alternative.regular_nodesAll hp as (id + 1)⟩
    cases b with
    | var x arity => exact Node.regular_of_field nofun rfl hp
    | wildcard arity => exact Node.regular_of_field nofun rfl hp
  | multi ps as declared n =>
    exact List.forall_mem_cons.2
      ⟨Node.regular_of_field nofun rfl hp, regular_nodesAll hp ps (id + 1) 0⟩

theorem regular_nodesAll {p : Position} (hp : p.kind.isSome = true → p.field ≠ 0)
    (fs : List (Field Symbol Note)) (id k : Nat) : ∀ n ∈ nodesAll p id k fs, n.Regular := by
  cases fs with
  | nil =>
    intro n hn
    cases hn
  | cons f fs =>
    exact List.forall_mem_append.2
      ⟨regular_nodes (p := { p with segment := some (f.segment k) }) hp f id _,
        regular_nodesAll hp fs (id + f.size) (k + 1)⟩

end

end Field

theorem Slot.regular_nodesAll {p : Position} (ss : List (Slot Symbol Note)) (id j : Nat) :
    ∀ n ∈ nodesAll p id (j + 1) ss, n.Regular := by
  induction ss generalizing id j with
  | nil =>
    intro n hn
    cases hn
  | cons s ss ih =>
    exact List.forall_mem_append.2
      ⟨Field.regular_nodes (p := { p with field := j + 1, slot := s.name })
        (fun _ => Nat.succ_ne_zero j) s.field id _, ih _ (j + 1)⟩

theorem Condition.regular_nodes (k : Condition Symbol Note) (pattern joinDepth id : Nat)
    (child : Option Nat) : ∀ n ∈ k.nodes pattern joinDepth id child, n.Regular := by
  obtain ⟨element, beginDepth, endDepth, n⟩ := k
  cases element with
  | pattern mode q =>
    exact List.forall_mem_cons.2 ⟨⟨nofun, fun _ => iff_of_true rfl rfl⟩,
      Slot.regular_nodesAll q.slots (id + 1) 0⟩
  | test t =>
    exact List.forall_mem_cons.2
      ⟨⟨fun _ => rfl, nofun⟩, t.regular_nodes (fun h => by cases h) (id + 1) none⟩

theorem Lhs.regular_nodesFrom (l : Lhs Symbol Note) (pattern joins id : Nat) :
    ∀ n ∈ nodesFrom pattern joins id l, n.Regular := by
  induction l generalizing pattern joins id with
  | nil =>
    intro n hn
    cases hn
  | cons k ks ih => exact List.forall_mem_append.2 ⟨k.regular_nodes _ _ _ _, ih _ _ _⟩

/-- **The nodes of a left-hand side are regular.** -/
theorem NodeTable.regular_ofLhs {l : Lhs Symbol Note} {j : Nat} {n : Node}
    (hn : (ofLhs l).node? j = some n) : n.Regular :=
  l.regular_nodesFrom 1 0 0 n (List.mem_of_getElem? (node?_ofLhs ▸ hn))

/-! ## Bindings that are received -/

namespace Node

/-- What a binding leaves at a node is what the node finds in a scope with one more binding. -/
theorem receive_resolved {n : Node} (hn : n.Regular) (σ : Scope) (b : Binding) :
    (n.resolved σ).receive b = n.resolved (σ ++ [b]) := by
  have hother {x : Symbol} (hx : x ≠ b.name) : Scope.named [b] x = [] := by
    simp [Scope.named, Ne.symm hx]
  have hplain (h : n.kind.holdsExpression = false) : ¬ (n.resolved σ).subexpr.isSome = true :=
    fun hs => absurd (hn.expression hs) (by simp [h])
  cases hkind : n.kind with
  | var x arity =>
    rw [receive, if_neg (hplain (by rw [hkind]; rfl))]
    by_cases hx : x = b.name
    · subst hx
      simp [resolved, hkind, Scope.note_append_singleton]
    · have hnote : Scope.note (σ ++ [b]) n.position.viewpoint x n.negated n.declared =
          σ.note n.position.viewpoint x n.negated n.declared := by
        simp [Scope.note, Scope.restriction?, Scope.origin?, Scope.origins, hother hx]
      simp [resolved, hkind, hx, hnote]
  | pattern handle =>
    cases handle with
    | none => simp [receive, resolved, hkind]
    | some h =>
      rw [receive, if_neg (hplain (by rw [hkind]; rfl))]
      by_cases hx : h = b.name
      · subst hx
        have hlast : (Scope.origins (σ ++ [b]) b.name).getLast? =
            b.origin.or (σ.origins b.name).getLast? := by
          rw [Scope.origins_append, Scope.origins_singleton, List.getLast?_append]
          cases b.origin <;> rfl
        simp only [resolved, hkind, hlast, if_pos]
      · have horigins : Scope.origins (σ ++ [b]) h = σ.origins h := by
          simp [Scope.origins, hother hx]
        simp [resolved, hkind, hx, horigins]
  | test | wildcard | multislot | literal | predicate | returnValue | call | global =>
    simp [receive, resolved, hkind]

/-- The node with what some bindings leave there, one after the other. -/
def receiveAll (bs : List Binding) (n : Node) : Node := bs.foldl (fun n b => n.receive b) n

theorem map_receiveAll (bs bs' : List Binding) (n? : Option Node) :
    (n?.map (receiveAll bs)).map (receiveAll bs') = n?.map (receiveAll (bs ++ bs')) := by
  rw [Option.map_map]
  exact congrArg (Option.map · n?) (funext fun n => List.foldl_append.symm)

theorem receiveAll_resolved {n : Node} (hn : n.Regular) (σ : Scope) (bs : List Binding) :
    (n.resolved σ).receiveAll bs = n.resolved (σ ++ bs) := by
  induction bs generalizing σ with
  | nil => rw [List.append_nil]; rfl
  | cons b bs ih =>
    show ((n.resolved σ).receive b).receiveAll bs = _
    rw [receive_resolved hn, ih, List.append_assoc]
    rfl

theorem bare_receive (b : Binding) (n : Node) : (n.receive b).bare = n.bare := by
  unfold receive
  split
  · rfl
  · split
    · split <;> rfl
    · split <;> rfl
    · rfl

theorem bare_receiveAll (bs : List Binding) (n : Node) : (n.receiveAll bs).bare = n.bare := by
  induction bs generalizing n with
  | nil => rfl
  | cons b bs ih => exact (ih (n.receive b)).trans (n.bare_receive b)

end Node

end Antecedent
