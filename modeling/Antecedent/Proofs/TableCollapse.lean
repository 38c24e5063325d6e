import Antecedent.Proofs.TableNotes

/-!
# Collapsing negated runs in a node table

In a node table, what the members of a negated run defer is collected by going over the conditions and, at
each one that opens a run, over the conditions from there on. What a member defers is taken from it, and
the condition that opens the run is overwritten with all that was taken. A run that opens inside another
one of its own depth so finds nothing at the members of that one.

* `NodeTable.takeRun` takes what the members of one run defer, and `NodeTable.scanRuns` goes over the
  conditions.
* `Lhs.strip` says what is left at the conditions while some runs are open. `Lhs.stripRun_strip` and
  `Lhs.runDeferred_strip` say what opening one more run leaves and takes.
* `NodeTable.takeRun_eq` and `NodeTable.scanRuns_eq` say that the table is changed accordingly.
* `NodeTable.collapse_ofLhs` is the main result: the table of a left-hand side becomes that of
  `Lhs.collapse`.
-/

namespace Antecedent

/-! ## Scanning a table -/

/-- The node with another output that is deferred. -/
def Node.withDeferred (d : JoinOutput) (n : Node) : Node :=
  { n with note := { n.note with out := { n.note.out with deferred := d } } }

namespace NodeTable

/-- Takes what the condition at a node defers if it is a member of a run at the given depth, and adds it to
what was taken before. -/
def take (depth id : Nat) (n : Node) (d : JoinOutput) (t : NodeTable) : JoinOutput × NodeTable :=
  if n.position.beginDepth = depth then
    (d ++ n.note.out.deferred, t.modify id (Node.withDeferred {}))
  else (d, t)

/-- Takes what the members of a run at the given depth defer, from some condition inside it on. -/
def takeRun (depth : Nat) : List Nat → JoinOutput → NodeTable → Except TableFault (JoinOutput × NodeTable)
  | [], d, t => return (d, t)
  | id :: ids, d, t => do
    let n ← t.get id
    let (d, t) := t.take depth id n d
    if n.position.endDepth < depth then return (d, t) else takeRun depth ids d t

/-- Goes over the conditions after one that ends at `previousEnd`. Where a run opens, what its members
defer is taken from them and put there. -/
def scanRuns (previousEnd : Nat) : List Nat → NodeTable → Except TableFault NodeTable
  | [], t => return t
  | id :: ids, t => do
    let n ← t.get id
    let depth := n.position.beginDepth
    if depth = 0 ∨ depth = previousEnd then scanRuns n.position.endDepth ids t
    else
      let (d, t) ← takeRun depth (id :: ids) {} t
      scanRuns n.position.endDepth ids (t.modify id (Node.withDeferred d))

/-- Moves what the members of each negated run defer to the condition that opens it. -/
def collapse (t : NodeTable) : Except TableFault NodeTable := t.scanRuns 0 t.conditions

end NodeTable

/-! ## What is left -/

namespace Lhs

/-- What is left when what the members of a run at the given depth defer is taken, from some condition
inside it on. -/
def stripRun (depth : Nat) : Lhs Symbol Note → Lhs Symbol Note
  | [] => []
  | k :: ks =>
    k.withDeferred (if k.beginDepth = depth then {} else k.deferred) ::
      if k.endDepth < depth then ks else stripRun depth ks

/-- What is left when what the members of the runs that are open at some depths defer is taken. -/
def strip (opened : List Nat) : Lhs Symbol Note → Lhs Symbol Note
  | [] => []
  | k :: ks =>
    k.withDeferred (if k.beginDepth ∈ opened then {} else k.deferred) ::
      strip (opened.filter (· ≤ k.endDepth)) ks

theorem strip_nil (l : Lhs Symbol Note) : strip [] l = l := by
  induction l with
  | nil => rfl
  | cons k ks ih =>
    rw [strip, if_neg List.not_mem_nil, List.filter_nil, ih]
    rfl

theorem length_stripRun (depth : Nat) (l : Lhs Symbol Note) : (stripRun depth l).length = l.length := by
  induction l with
  | nil => rfl
  | cons k ks ih =>
    rw [stripRun, List.length_cons, List.length_cons]
    split
    · rfl
    · rw [ih]

theorem length_strip (opened : List Nat) (l : Lhs Symbol Note) : (strip opened l).length = l.length := by
  induction l generalizing opened with
  | nil => rfl
  | cons k ks ih => rw [strip, List.length_cons, List.length_cons, ih]

theorem map_size_strip (opened : List Nat) (l : Lhs Symbol Note) :
    (strip opened l).map Condition.size = l.map Condition.size := by
  induction l generalizing opened with
  | nil => rfl
  | cons k ks ih =>
    rw [strip, List.map_cons, List.map_cons, ih]
    rfl

/-- **Opening one more run** strips its members as well. -/
theorem stripRun_strip (depth : Nat) (opened : List Nat) (l : Lhs Symbol Note) :
    stripRun depth (strip opened l) = strip (depth :: opened) l := by
  induction l generalizing opened with
  | nil => rfl
  | cons k ks ih =>
    rw [strip, stripRun, strip, List.filter_cons]
    refine congrArg₂ List.cons ?_ ?_
    · show k.withDeferred (if k.beginDepth = depth then {} else
        if k.beginDepth ∈ opened then {} else k.deferred) = _
      by_cases hdepth : k.beginDepth = depth <;> simp [hdepth]
    · show (if k.endDepth < depth then _ else _) = _
      by_cases hlt : k.endDepth < depth
      · rw [if_pos hlt, if_neg (by simpa using hlt)]
      · rw [if_neg hlt, if_pos (by simpa using hlt), ih]

/-- **What one more run takes.** Where a run of its depth is open there is nothing left. -/
theorem runDeferred_strip (depth : Nat) (opened : List Nat) (l : Lhs Symbol Note) :
    runDeferred depth (strip opened l) = if depth ∈ opened then {} else runDeferred depth l := by
  induction l generalizing opened with
  | nil => split <;> rfl
  | cons k ks ih =>
    simp only [strip, runDeferred, ih, Condition.beginDepth_withDeferred,
      Condition.endDepth_withDeferred, Condition.deferred_withDeferred, List.mem_filter]
    by_cases hmem : depth ∈ opened
    · by_cases hbegin : k.beginDepth = depth <;> by_cases hlt : k.endDepth < depth <;>
        simp_all
    · by_cases hbegin : k.beginDepth = depth <;> simp_all

section Collapse

variable {previousEnd : Nat} {opened : List Nat} {k : Condition Symbol Note} {ks : Lhs Symbol Note}

theorem collapseFrom_cons_of_closed (h : k.beginDepth = 0 ∨ k.beginDepth = previousEnd) :
    collapseFrom previousEnd opened (k :: ks) =
      k.withDeferred (if k.beginDepth ∈ opened then {} else k.deferred) ::
        collapseFrom k.endDepth (opened.filter (· ≤ k.endDepth)) ks := by
  have hopens : ¬ (k.beginDepth ≠ 0 ∧ k.beginDepth ≠ previousEnd) := by tauto
  simp only [collapseFrom, List.contains_iff_mem, if_neg hopens]

theorem collapseFrom_cons_of_opens (h : ¬ (k.beginDepth = 0 ∨ k.beginDepth = previousEnd)) :
    collapseFrom previousEnd opened (k :: ks) =
      k.withDeferred (if k.beginDepth ∈ opened then {} else runDeferred k.beginDepth (k :: ks)) ::
        collapseFrom k.endDepth ((k.beginDepth :: opened).filter (· ≤ k.endDepth)) ks := by
  have hopens : k.beginDepth ≠ 0 ∧ k.beginDepth ≠ previousEnd := by tauto
  simp only [collapseFrom, List.contains_iff_mem, if_pos hopens]

theorem totalSize_collapse (l : Lhs Symbol Note) :
    totalSize Condition.size l.collapse = totalSize Condition.size l := by
  have h := forall₂_collapse l
  generalize l.collapse = l' at h ⊢
  induction h with
  | nil => rfl
  | cons head tail ih =>
    obtain ⟨d, rfl⟩ := head
    rw [totalSize_cons, totalSize_cons, ih, Condition.size_withDeferred]

theorem nodesFrom_withDeferred_cons (k : Condition Symbol Note) (d : JoinOutput)
    {ks' : Lhs Symbol Note} (h : ks'.length = ks.length) (pattern joins id : Nat) :
    nodesFrom pattern joins id (k.withDeferred d :: ks') =
      (k.withDeferred d).nodes pattern (k.joinsAfter joins) id (linkTo (id + k.size) ks) ++
        nodesFrom (pattern + 1) (k.joinsAfter joins) (id + k.size) ks' := by
  rw [nodesFrom, linkTo_eq_of_length h]
  rfl

end Collapse

end Lhs

/-! ## Tables of left-hand sides -/

namespace NodeTable

/-- Only nodes from a number on are changed, and the table holds these nodes there. -/
structure Replaces (t t' : NodeTable) (id : Nat) (ns : List Node) : Prop where
  holds : t'.Holds id ns
  before {j : Nat} (hj : j < id) : t'.node? j = t.node? j
  size_eq : t'.size = t.size
  first_eq : t'.first = t.first

namespace Replaces

variable {t t₁ t' : NodeTable} {id : Nat} {ns ms : List Node}

theorem refl (h : t.Holds id ns) : t.Replaces t id ns := ⟨h, fun _ => rfl, rfl, rfl⟩

theorem trans (h : t.Replaces t₁ id ns) (h' : t₁.Replaces t' id ms) : t.Replaces t' id ms where
  holds := h'.holds
  before hj := (h'.before hj).trans (h.before hj)
  size_eq := h'.size_eq.trans h.size_eq
  first_eq := h'.first_eq.trans h.first_eq

theorem append (h : t.Replaces t₁ id ns) (h' : t₁.Replaces t' (id + ns.length) ms) :
    t.Replaces t' id (ns ++ ms) where
  holds := Node.numbered_append.2 ⟨h.holds.congr fun _ _ hj => h'.before hj, h'.holds⟩
  before hj := (h'.before (by omega)).trans (h.before hj)
  size_eq := h'.size_eq.trans h.size_eq
  first_eq := h'.first_eq.trans h.first_eq

end Replaces

section Condition

variable {t : NodeTable} {k : Condition Symbol Note} {pattern joinDepth id : Nat} {child : Option Nat}

theorem replaces_withDeferred (h : t.Holds id (k.nodes pattern joinDepth id child)) (d : JoinOutput) :
    t.Replaces (t.modify id (Node.withDeferred d)) id
      ((k.withDeferred d).nodes pattern joinDepth id child) := by
  refine ⟨?_, fun hj => node?_modify_of_ne (by omega) _, size_modify .., rfl⟩
  obtain ⟨n, ms, hnodes, hhead, hnote⟩ := k.exists_nodes_eq pattern joinDepth id child
  rw [hnodes] at h
  rw [Condition.withDeferred, hnote, ← hhead.note_eq]
  exact h.modify_head _

theorem exists_take (h : t.Holds id (k.nodes pattern joinDepth id child)) {n : Node}
    (hhead : k.Head child n) (depth : Nat) (d : JoinOutput) :
    ∃ t', t.take depth id n d = (d ++ (if k.beginDepth = depth then k.deferred else {}), t') ∧
      t.Replaces t' id ((k.withDeferred (if k.beginDepth = depth then {} else k.deferred)).nodes
        pattern joinDepth id child) ∧
      ∀ j, id < j → t'.node? j = t.node? j := by
  rw [take, hhead.beginDepth_eq, hhead.note_eq]
  split
  · exact ⟨_, rfl, replaces_withDeferred h {}, fun j hj => node?_modify_of_ne (by omega) _⟩
  · exact ⟨t, by rw [JoinOutput.append_empty], .refl h, fun _ _ => rfl⟩

end Condition

variable {t : NodeTable} {pattern joins id : Nat}

/-- **Taking what one run defers** strips its members. -/
theorem takeRun_eq {l : Lhs Symbol Note} (h : t.Holds id (l.nodesFrom pattern joins id)) (depth : Nat)
    (d : JoinOutput) :
    ∃ t', takeRun depth (numbers Condition.size id l) d t = .ok (d ++ l.runDeferred depth, t') ∧
      t.Replaces t' id ((l.stripRun depth).nodesFrom pattern joins id) := by
  induction l generalizing t pattern joins id d with
  | nil =>
    rw [Lhs.runDeferred, JoinOutput.append_empty]
    exact ⟨t, rfl, .refl h⟩
  | cons k ks ih =>
    rw [Lhs.nodesFrom] at h
    obtain ⟨hk, hks⟩ := h.split (Condition.length_nodes ..)
    obtain ⟨n, hn, hhead⟩ := Holds.condition_head hk
    obtain ⟨t₁, htake, hreplaces, hbehind⟩ := exists_take hk hhead depth d
    have hrest : t₁.Holds (id + k.size) _ :=
      Holds.congr hks fun j hj _ => hbehind j (by have := k.size_pos; omega)
    have hnumbers : numbers Condition.size id (k :: ks) =
        id :: numbers Condition.size (id + k.size) ks := rfl
    simp only [hnumbers, takeRun, get_eq_ok hn, ok_bind, htake, hhead.endDepth_eq]
    rw [Lhs.runDeferred, Lhs.stripRun, ← JoinOutput.append_assoc]
    by_cases hlt : k.endDepth < depth
    · refine ⟨t₁, by rw [if_pos hlt, if_pos hlt, JoinOutput.append_empty]; rfl, ?_⟩
      rw [if_pos hlt, Lhs.nodesFrom_withDeferred_cons k _ rfl]
      exact hreplaces.append (.refl (by rwa [Condition.length_nodes]))
    · obtain ⟨t', ht', hreplaces'⟩ := ih hrest (d ++ if k.beginDepth = depth then k.deferred else {})
      refine ⟨t', by rw [if_neg hlt, if_neg hlt, ht'], ?_⟩
      rw [if_neg hlt, Lhs.nodesFrom_withDeferred_cons k _ (Lhs.length_stripRun depth ks)]
      exact hreplaces.append (by rwa [Condition.length_nodes])

/-- **Scanning the runs** of conditions at which some runs are open collapses the others. -/
theorem scanRuns_eq {l : Lhs Symbol Note} {opened : List Nat}
    (h : t.Holds id ((l.strip opened).nodesFrom pattern joins id)) (previousEnd : Nat) :
    ∃ t', scanRuns previousEnd (numbers Condition.size id l) t = .ok t' ∧
      t.Replaces t' id ((l.collapseFrom previousEnd opened).nodesFrom pattern joins id) := by
  induction l generalizing t pattern joins id opened previousEnd with
  | nil => exact ⟨t, rfl, .refl h⟩
  | cons k ks ih =>
    have hstrip := h
    rw [Lhs.strip, Lhs.nodesFrom_withDeferred_cons k _ (Lhs.length_strip _ ks)] at h
    obtain ⟨hk, hks⟩ := h.split ((Condition.length_nodes ..).trans (Condition.size_withDeferred ..))
    obtain ⟨n, hn, hhead⟩ := Holds.condition_head hk
    have hbegin : n.position.beginDepth = k.beginDepth := hhead.beginDepth_eq
    have hend : n.position.endDepth = k.endDepth := hhead.endDepth_eq
    have hnumbers : numbers Condition.size id (k :: ks) =
        id :: numbers Condition.size (id + k.size) ks := rfl
    simp only [hnumbers, scanRuns, get_eq_ok hn, ok_bind, hbegin, hend]
    by_cases hclosed : k.beginDepth = 0 ∨ k.beginDepth = previousEnd
    · obtain ⟨t', ht', hreplaces⟩ := ih hks k.endDepth
      refine ⟨t', by rw [if_pos hclosed, ht'], ?_⟩
      rw [Lhs.collapseFrom_cons_of_closed hclosed,
        Lhs.nodesFrom_withDeferred_cons k _ (Lhs.length_collapseFrom _ _ ks)]
      exact (Replaces.refl hk).append (by rwa [Condition.length_nodes])
    · obtain ⟨t₁, ht₁, hreplaces₁⟩ := takeRun_eq hstrip k.beginDepth {}
      rw [numbers_eq_of_map (Lhs.map_size_strip opened (k :: ks)), Lhs.runDeferred_strip,
        JoinOutput.empty_append, hnumbers] at ht₁
      rw [Lhs.stripRun_strip, Lhs.strip, Lhs.nodesFrom_withDeferred_cons k _ (Lhs.length_strip _ ks)]
        at hreplaces₁
      obtain ⟨hk₁, hks₁⟩ := hreplaces₁.holds.split
        ((Condition.length_nodes ..).trans (Condition.size_withDeferred ..))
      let d := if k.beginDepth ∈ opened then {} else Lhs.runDeferred k.beginDepth (k :: ks)
      have hhome := replaces_withDeferred hk₁ d
      rw [Condition.withDeferred_withDeferred] at hhome
      have hrest : (t₁.modify id (Node.withDeferred d)).Holds (id + k.size) _ :=
        Holds.congr hks₁ fun j hj _ => node?_modify_of_ne (by have := k.size_pos; omega) _
      obtain ⟨t', ht', hreplaces⟩ := ih hrest k.endDepth
      refine ⟨t', by rw [if_neg hclosed, ht₁, ok_bind, ht'], ?_⟩
      rw [Lhs.collapseFrom_cons_of_opens hclosed,
        Lhs.nodesFrom_withDeferred_cons k _ (Lhs.length_collapseFrom _ _ ks)]
      exact hreplaces₁.trans (hhome.append (by rwa [Condition.length_nodes]))

theorem conditions_ofLhs (l : Lhs Symbol Note) : (ofLhs l).conditions = numbers Condition.size 0 l := by
  rw [conditions, first_ofLhs, chain_conditions (holds_ofLhs l)]

/-- **Collapsing in a table** does what collapsing the left-hand side does. -/
theorem collapse_ofLhs (l : Lhs Symbol Note) : (ofLhs l).collapse = .ok (ofLhs l.collapse) := by
  have hholds : (ofLhs l).Holds 0 ((l.strip []).nodesFrom 1 0 0) := by
    rw [Lhs.strip_nil]
    exact holds_ofLhs l
  obtain ⟨t', ht', hreplaces⟩ := scanRuns_eq hholds 0
  rw [collapse, conditions_ofLhs, ht']
  refine congrArg Except.ok (eq_ofLhs hreplaces.holds ?_ ?_)
  · rw [hreplaces.size_eq, size_ofLhs, Lhs.nodes, Lhs.nodes, Lhs.length_nodesFrom, Lhs.length_nodesFrom,
      Lhs.totalSize_collapse]
  · rw [hreplaces.first_eq, first_ofLhs]
    exact linkTo_eq_of_length (Lhs.length_collapseFrom 0 [] l).symm

end NodeTable

end Antecedent
