import Antecedent.Proofs.LexicalScope
import Antecedent.Proofs.ReadingBack

/-!
# Depths of negation

The depths of a condition are computed while the groups around it are put together: each group puts its
members one level deeper, and its last member ends where the group ends. A condition may be the last one
of several groups at once. What comes of this is a count of groups.

* `Step.leavesAll` lists the steps that add the conditions, without the groups around them.
* `Group.around` counts the groups that contain a condition, and `Group.across` those that contain the
  following condition as well.
* `Lhs.Counted` says that the depths of some conditions are these counts. It is kept when conditions are
  appended (`Counted.append`) and when they are put into a group (`Counted.deepen`).
* `NodeTable.depths?` reads the depths of a condition from a node table, and `NodeTable.depths?_ofLhs`
  says that they are those of the condition.
* `Lhs.depths_count_groups` is the main result.
-/

namespace Antecedent

variable {ν α : Type}

/-! ## Leaves of a description -/

namespace Step

/-- Whether a step adds a negated pattern. -/
def isNotPattern : Step ν α → Bool
  | notPattern _ => true
  | _ => false

mutual

/-- The steps that add the conditions of a step, without the groups around them. -/
def leaves : Step ν α → List (Step ν α)
  | notGroup steps => leavesAll steps
  | depths _ _ => []
  | s => [s]

def leavesAll : List (Step ν α) → List (Step ν α)
  | [] => []
  | s :: ss => leaves s ++ leavesAll ss

end

end Step

/-! ## Counting groups -/

namespace Group

/-- The number of groups that contain the condition with a given number. -/
def around (gs : List Group) (n : Nat) : Nat := gs.countP fun g => g.Contains n

/-- The number of groups that contain both the condition with a given number and the following one. -/
def across (gs : List Group) (n : Nat) : Nat := gs.countP fun g => g.Contains n ∧ g.Contains (n + 1)

theorem around_append (gs gs' : List Group) (n : Nat) :
    around (gs ++ gs') n = around gs n + around gs' n :=
  List.countP_append

theorem across_append (gs gs' : List Group) (n : Nat) :
    across (gs ++ gs') n = across gs n + across gs' n :=
  List.countP_append

theorem around_cons (g : Group) (gs : List Group) (n : Nat) :
    around (g :: gs) n = around gs n + if g.Contains n then 1 else 0 := by
  simp [around, List.countP_cons]

theorem across_cons (g : Group) (gs : List Group) (n : Nat) :
    across (g :: gs) n = across gs n + if g.Contains n ∧ g.Contains (n + 1) then 1 else 0 := by
  simp [across, List.countP_cons]

theorem around_eq_zero {gs : List Group} {n : Nat} (h : ∀ g ∈ gs, ¬ g.Contains n) :
    around gs n = 0 :=
  List.countP_eq_zero.2 fun g hg => by simpa using h g hg

theorem across_le_around (gs : List Group) (n : Nat) : across gs n ≤ around gs n :=
  List.countP_mono_left fun _ _ hg => decide_eq_true (of_decide_eq_true hg).1

theorem across_le_around_succ (gs : List Group) (n : Nat) : across gs n ≤ around gs (n + 1) :=
  List.countP_mono_left fun _ _ hg => decide_eq_true (of_decide_eq_true hg).2

theorem across_eq_zero {gs : List Group} {n : Nat} (h : ∀ g ∈ gs, ¬ g.Contains n) :
    across gs n = 0 :=
  Nat.eq_zero_of_le_zero (around_eq_zero h ▸ across_le_around gs n)

end Group

/-! ## Depths that count groups -/

namespace Lhs

/-- The depths of some conditions, the first of which has number `start`, count the given groups. The
conditions are added by the given steps, and a negated pattern begins one level deeper. -/
structure Counted (start : Nat) (l : Lhs ν α) (leaves : List (Step ν α)) (gs : List Group) : Prop where
  length_eq : l.length = leaves.length
  depths_eq : ∀ i, l[i]?.map Condition.depths = leaves[i]?.map fun s =>
    (Group.around gs (start + i) + (if s.isNotPattern then 1 else 0), Group.across gs (start + i))

theorem counted_nil (start : Nat) : Counted start ([] : Lhs ν α) [] [] := ⟨rfl, fun _ => rfl⟩

theorem counted_singleton {start : Nat} {k : Condition ν α} {s : Step ν α}
    (h : k.depths = (if s.isNotPattern then 1 else 0, 0)) : Counted start [k] [s] [] where
  length_eq := rfl
  depths_eq i := by
    cases i with
    | zero => simp [h, Group.around, Group.across]
    | succ i => rfl

namespace Counted

variable {start : Nat} {l l' : Lhs ν α} {ss ss' : List (Step ν α)} {gs gs' : List Group}

/-- The groups of either part contain no condition of the other one. -/
theorem append (hl : Grouped start l gs) (hl' : Grouped (start + l.length) l' gs')
    (h : Counted start l ss gs) (h' : Counted (start + l.length) l' ss' gs') :
    Counted start (l ++ l') (ss ++ ss') (gs ++ gs') where
  length_eq := by rw [List.length_append, List.length_append, h.length_eq, h'.length_eq]
  depths_eq i := by
    rw [Group.around_append, Group.across_append]
    rcases Nat.lt_or_ge i l.length with hi | hi
    · have hnone : ∀ g ∈ gs', ¬ g.Contains (start + i) :=
        fun g hg => hl'.not_contains_of_lt hg (by omega)
      rw [List.getElem?_append_left hi, List.getElem?_append_left (h.length_eq ▸ hi), h.depths_eq i,
        Group.around_eq_zero hnone, Group.across_eq_zero hnone, Nat.add_zero, Nat.add_zero]
    · obtain ⟨n, rfl⟩ := Nat.exists_eq_add_of_le hi
      have hnone : ∀ g ∈ gs, ¬ g.Contains (start + (l.length + n)) :=
        fun g hg => hl.not_contains_of_le hg (by omega)
      rw [List.getElem?_append_right hi, List.getElem?_append_right (h.length_eq ▸ hi),
        ← h.length_eq, Nat.add_sub_cancel_left, h'.depths_eq n, Group.around_eq_zero hnone,
        Group.across_eq_zero hnone, Nat.zero_add, Nat.zero_add, Nat.add_assoc]

/-- A group around some conditions is counted for each of them, and between any two neighbours. -/
theorem deepen (h : Counted start l ss gs) :
    Counted start (deepen l) ss (⟨start, start + l.length⟩ :: gs) where
  length_eq := by rw [length_deepen, h.length_eq]
  depths_eq i := by
    have hi := h.depths_eq i
    rw [getElem?_deepen, Option.map_map]
    cases hk : l[i]? with
    | none =>
      rw [hk] at hi
      rw [Option.map_eq_none_iff.1 hi.symm]
      rfl
    | some k =>
      have hlt : i < l.length := (List.getElem?_eq_some_iff.1 hk).1
      obtain ⟨s, hs, hdepths⟩ := Option.map_eq_some_iff.1 ((hk ▸ hi).symm)
      obtain ⟨hbegin, hend⟩ := Prod.mk.inj hdepths
      have hcontains : Group.Contains ⟨start, start + l.length⟩ (start + i) :=
        ⟨Nat.le_add_right _ _, Nat.add_lt_add_left hlt _⟩
      have hnext : Group.Contains ⟨start, start + l.length⟩ (start + i + 1) ↔ i + 1 < l.length := by
        simp only [Group.Contains]
        omega
      rw [hs, Option.map_some, Option.map_some, Group.around_cons, Group.across_cons, if_pos hcontains]
      refine congrArg some (Prod.ext ?_ ?_)
      · show k.beginDepth + 1 = _
        rw [← hbegin, Nat.add_right_comm]
      · show (if i + 1 < l.length then k.endDepth + 1 else k.endDepth) = _
        rw [← hend]
        simp only [hcontains, hnext, true_and]
        split <;> rfl

end Counted

end Lhs

namespace Step

mutual

theorem counted_addTo (blank : α) (start : Nat) {s : Step ν α} (hs : s.keepsDepths = true) :
    Lhs.Counted start (s.addTo blank []) s.leaves (s.groups start) := by
  cases s with
  | pattern p => exact Lhs.counted_singleton rfl
  | notPattern p => exact Lhs.counted_singleton rfl
  | existsPattern p => exact Lhs.counted_singleton rfl
  | test t => exact Lhs.counted_singleton rfl
  | notGroup steps =>
    rw [addTo, List.nil_append, leaves, groups, ← length_addAllTo blank hs]
    exact (counted_addAllTo blank start hs).deepen
  | depths beginDepth endDepth => cases hs

theorem counted_addAllTo (blank : α) (start : Nat) {ss : List (Step ν α)}
    (hss : keepsDepthsAll ss = true) :
    Lhs.Counted start (addAllTo blank [] ss) (leavesAll ss) (groupsAll start ss) := by
  cases ss with
  | nil => exact Lhs.counted_nil start
  | cons s ss =>
    rw [keepsDepthsAll, Bool.and_eq_true] at hss
    rw [addAllTo, addAllTo_eq_append blank _ hss.2, leavesAll, groupsAll, ← length_addTo blank hss.1]
    exact (counted_addTo blank start hss.1).append (grouped_addTo blank start hss.1)
      (grouped_addAllTo blank _ hss.2) (counted_addAllTo blank _ hss.2)

end

end Step

/-! ## Depths in a node table -/

namespace NodeTable

/-- The depths at which the condition with a number counted from one begins and ends. -/
def depths? (t : NodeTable) (pattern : Nat) : Option (Nat × Nat) :=
  ((t.condition? pattern).bind t.node?).map fun n => (n.position.beginDepth, n.position.endDepth)

/-- The first node of a condition has the number and the depths of the condition. -/
theorem Holds.condition_position {t : NodeTable} {k : Condition Symbol Note}
    {pattern joinDepth id : Nat} {child : Option Nat}
    (h : t.Holds id (k.nodes pattern joinDepth id child)) :
    ∃ n, t.node? id = some n ∧ n.child = child ∧ n.position.pattern = pattern ∧
      (n.position.beginDepth, n.position.endDepth) = k.depths := by
  obtain ⟨element, beginDepth, endDepth, note⟩ := k
  cases element <;> exact ⟨_, (Node.numbered_cons.1 h).1, rfl, rfl, rfl⟩

/-- Conditions that follow each other are found by their numbers. -/
theorem find?_chain_conditions {t : NodeTable} {l : Lhs Symbol Note} {pattern joins id : Nat}
    (h : t.Holds id (l.nodesFrom pattern joins id)) (i : Nat) :
    ((((t.chain Node.child (linkTo id l)).find? fun j =>
      (t.node? j).any fun n => n.position.pattern = pattern + i).bind t.node?).map fun n =>
        (n.position.beginDepth, n.position.endDepth)) = l[i]?.map Condition.depths := by
  induction l generalizing pattern joins id i with
  | nil => rfl
  | cons k ks ih =>
    rw [Lhs.nodesFrom] at h
    obtain ⟨hk, hks⟩ := h.split (Condition.length_nodes ..)
    obtain ⟨n, hn, hchild, hpattern, hdepths⟩ := Holds.condition_position hk
    rw [chain_linkTo_cons hn k.size_pos hchild]
    cases i with
    | zero => simp [hn, hpattern, hdepths]
    | succ i =>
      have hskip : ((t.node? id).any fun n => n.position.pattern = pattern + (i + 1)) = false := by
        simp [hn, hpattern]
      rw [List.find?_cons, hskip, List.getElem?_cons_succ, ← ih hks i, Nat.add_assoc, Nat.add_comm 1]

theorem depths?_ofLhs (l : Lhs Symbol Note) (i : Nat) :
    (ofLhs l).depths? (i + 1) = l[i]?.map Condition.depths := by
  rw [depths?, condition?, conditions, first_ofLhs, Nat.add_comm]
  exact find?_chain_conditions (holds_ofLhs l) i

end NodeTable

/-! ## The count -/

namespace Lhs

/-- **Depths of negation count groups.** In the node table of a description that overrides no depths, a
condition begins at the number of groups around it, and one level deeper if it is a negated pattern; it
ends at the number of groups around both it and the following condition. So no condition ends deeper than
it begins or than the following one begins, and the last condition ends at depth 0. -/
theorem depths_count_groups {steps : List (Step String Unit)}
    (h : Step.keepsDepthsAll steps = true) (names : SymbolTable) :
    let t := NodeTable.ofLhs ((ofSteps steps).intern names).1
    let gs := Step.groupsAll 1 steps
    (∀ i, t.depths? (i + 1) = (Step.leavesAll steps)[i]?.map fun s =>
      (Group.around gs (i + 1) + (if s.isNotPattern then 1 else 0), Group.across gs (i + 1))) ∧
    ∀ i b e, t.depths? (i + 1) = some (b, e) →
      e ≤ b ∧ (∀ b' e', t.depths? (i + 2) = some (b', e') → e ≤ b') ∧
        (t.depths? (i + 2) = none → e = 0) := by
  intro t gs
  have hcounted : Counted 1 (ofSteps steps) (Step.leavesAll steps) gs := Step.counted_addAllTo () 1 h
  have hdepths (i : Nat) : t.depths? (i + 1) = (Step.leavesAll steps)[i]?.map fun s =>
      (Group.around gs (i + 1) + (if s.isNotPattern then 1 else 0), Group.across gs (i + 1)) := by
    have hintern := congrArg (fun ds => ds[i]?) (map_depths_intern (ofSteps steps) names)
    simp only [List.getElem?_map] at hintern
    rw [NodeTable.depths?_ofLhs, hintern, hcounted.depths_eq, Nat.add_comm]
  refine ⟨hdepths, fun i b e hbe => ?_⟩
  rw [hdepths] at hbe
  obtain ⟨s, hs, heq⟩ := Option.map_eq_some_iff.1 hbe
  obtain ⟨rfl, rfl⟩ := Prod.mk.inj heq
  refine ⟨?_, fun b' e' hbe' => ?_, fun hnone => ?_⟩
  · have := Group.across_le_around gs (i + 1)
    omega
  · rw [hdepths] at hbe'
    obtain ⟨s', -, heq'⟩ := Option.map_eq_some_iff.1 hbe'
    obtain ⟨rfl, rfl⟩ := Prod.mk.inj heq'
    have := Group.across_le_around_succ gs (i + 1)
    omega
  · rw [hdepths, Option.map_eq_none_iff, List.getElem?_eq_none_iff] at hnone
    have hlength : (ofSteps steps).length = (Step.leavesAll steps).length := hcounted.length_eq
    have hbeyond : Group.around gs (i + 1 + 1) = 0 :=
      Group.around_eq_zero fun g hg => (grouped_ofSteps h).not_contains_of_le hg (by omega)
    have := Group.across_le_around_succ gs (i + 1)
    omega

/-- A group with an empty group in it, and with a group at its end that ends with a negated pattern. -/
def endingTogether : List (Step String Unit) :=
  [.pattern (factPattern [some "x"]),
    .notGroup [.pattern (factPattern [some "x"]), .notGroup [],
      .notGroup [.test (.var "x" .single ()), .notPattern (factPattern [some "x"])]]]

/-- The negated pattern begins at depth 3 and ends both groups. -/
theorem endingTogether_depths :
    let t := NodeTable.ofLhs ((ofSteps endingTogether).intern .empty).1
    Step.keepsDepthsAll endingTogether = true ∧ t.depths? 1 = some (0, 0) ∧
      t.depths? 2 = some (1, 1) ∧ t.depths? 3 = some (2, 2) ∧ t.depths? 4 = some (3, 0) := by
  have hsteps : Step.keepsDepthsAll endingTogether = true := by decide +kernel
  have hdepths := (depths_count_groups hsteps .empty).1
  exact ⟨hsteps, (hdepths 0).trans (by decide +kernel), (hdepths 1).trans (by decide +kernel),
    (hdepths 2).trans (by decide +kernel), (hdepths 3).trans (by decide +kernel)⟩

end Lhs

end Antecedent
