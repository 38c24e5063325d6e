import Antecedent.Proofs.Visits

/-!
# What collapsing the negated runs does

Collapsing moves what the members of a run defer to the condition that opens it. Nothing is lost or
made up on the way, and nothing else changes.

* `JoinOutput.Conjunctive` says of a property of join outputs that a concatenation has it exactly if
  both sides have it. `Lhs.forall_deferred_collapse`: such a property holds of everything deferred
  after collapsing exactly if it did before.
* `Lhs.forall₂_collapse` says that a condition changes in what it defers only.
* `Lhs.mem_openedAfter` says which runs are open behind some conditions: those that a condition
  opened at their depth and no condition since then ended below.
-/

namespace Antecedent

variable {ν α β : Type}

/-! ## Properties of join outputs -/

namespace JoinOutput

/-- A property that a concatenation has exactly if both sides have it. -/
structure Conjunctive (H : JoinOutput → Prop) : Prop where
  empty : H {}
  append : ∀ a b, H (a ++ b) ↔ H a ∧ H b

namespace Conjunctive

variable {H : JoinOutput → Prop} (hH : Conjunctive H)

include hH

theorem allJoin_iff (vs : List (Visited β)) : H (Visited.allJoin vs) ↔ ∀ v ∈ vs, H v.join := by
  induction vs with
  | nil => simp [Visited.allJoin, hH.empty]
  | cons v vs ih => rw [Visited.allJoin, hH.append, ih, List.forall_mem_cons]

theorem allDeferred_iff (vs : List (Visited β)) :
    H (Visited.allDeferred vs) ↔ ∀ v ∈ vs, H v.deferred := by
  induction vs with
  | nil => simp [Visited.allDeferred, hH.empty]
  | cons v vs ih => rw [Visited.allDeferred, hH.append, ih, List.forall_mem_cons]

end Conjunctive

end JoinOutput

/-! ## What stays -/

namespace Condition

@[simp] theorem deferred_withDeferred (k : Condition Symbol Note) (d : JoinOutput) :
    (k.withDeferred d).deferred = d := rfl

@[simp] theorem beginDepth_withDeferred (k : Condition Symbol Note) (d : JoinOutput) :
    (k.withDeferred d).beginDepth = k.beginDepth := rfl

@[simp] theorem endDepth_withDeferred (k : Condition Symbol Note) (d : JoinOutput) :
    (k.withDeferred d).endDepth = k.endDepth := rfl

@[simp] theorem size_withDeferred (k : Condition Symbol Note) (d : JoinOutput) :
    (k.withDeferred d).size = k.size := rfl

@[simp] theorem withDeferred_withDeferred (k : Condition Symbol Note) (d e : JoinOutput) :
    (k.withDeferred d).withDeferred e = k.withDeferred e := rfl

@[simp] theorem bare_withDeferred (k : Condition Symbol Note) (d : JoinOutput) :
    (k.withDeferred d).bare = k.bare := rfl

end Condition

namespace Lhs

theorem forall₂_collapseFrom (previousEnd : Nat) (opened : List Nat) (l : Lhs Symbol Note) :
    List.Forall₂ (fun k k' => ∃ d, k' = k.withDeferred d) l (collapseFrom previousEnd opened l) := by
  induction l generalizing previousEnd opened with
  | nil => exact .nil
  | cons k ks ih => exact .cons ⟨_, rfl⟩ (ih _ _)

theorem forall₂_collapse (l : Lhs Symbol Note) :
    List.Forall₂ (fun k k' => ∃ d, k' = k.withDeferred d) l (collapse l) :=
  forall₂_collapseFrom 0 [] l

theorem bare_collapseFrom (previousEnd : Nat) (opened : List Nat) (l : Lhs Symbol Note) :
    (collapseFrom previousEnd opened l).bare = l.bare := by
  induction l generalizing previousEnd opened with
  | nil => rfl
  | cons k ks ih => exact congrArg₂ List.cons (Condition.bare_withDeferred k _) (ih _ _)

theorem bare_collapse (l : Lhs Symbol Note) : (collapse l).bare = l.bare :=
  bare_collapseFrom 0 [] l

theorem forall₂_conditionsFrom {l l' : Lhs Symbol Note}
    (h : List.Forall₂ (fun k k' => ∃ d, k' = k.withDeferred d) l l') (pattern joins id : Nat) :
    List.Forall₂ (fun z y => ∃ d, y = { z with condition := z.condition.withDeferred d })
      (conditionsFrom pattern joins id l) (conditionsFrom pattern joins id l') := by
  induction h generalizing pattern joins id with
  | nil => exact .nil
  | @cons k k' ks ks' hk _ ih =>
    obtain ⟨d, rfl⟩ := hk
    exact .cons ⟨d, rfl⟩ (ih _ _ _)

/-- What does not depend on deferred tests holds of the collapsed conditions exactly if it holds of
the original ones. -/
theorem forall_conditionsAt_collapse {P : ConditionAt Note → Prop}
    (hP : ∀ z d, P { z with condition := z.condition.withDeferred d } ↔ P z) (l : Lhs Symbol Note) :
    (∀ y ∈ (collapse l).conditionsAt, P y) ↔ ∀ z ∈ l.conditionsAt, P z := by
  refine (forall_mem_iff_of_forall₂ (forall₂_conditionsFrom (forall₂_collapse l) 1 0 0) ?_).symm
  rintro z y ⟨d, rfl⟩
  exact (hP z d).symm

/-! ## What moves -/

section Conjunctive

variable {H : JoinOutput → Prop} (hH : JoinOutput.Conjunctive H)

include hH

theorem runDeferred_of_forall {l : Lhs Symbol Note} (h : ∀ k ∈ l, H k.deferred) (depth : Nat) :
    H (runDeferred depth l) := by
  induction l with
  | nil => exact hH.empty
  | cons k ks ih =>
    obtain ⟨hk, hks⟩ := List.forall_mem_cons.1 h
    rw [runDeferred, hH.append]
    constructor
    · split
      · exact hk
      · exact hH.empty
    · split
      · exact hH.empty
      · exact ih hks

/-- While runs are open, what their members from here on defer is kept by the conditions that opened
them; that and what the collapsed conditions defer is everything. -/
theorem forall_deferred_collapseFrom (previousEnd : Nat) (opened : List Nat)
    (l : Lhs Symbol Note) :
    ((∀ k ∈ collapseFrom previousEnd opened l, H k.deferred) ∧
      ∀ d ∈ opened, H (runDeferred d l)) ↔ ∀ k ∈ l, H k.deferred := by
  induction l generalizing previousEnd opened with
  | nil => simp [collapseFrom, runDeferred, hH.empty]
  | cons k ks ih =>
    have hrun : ∀ d, H (runDeferred d (k :: ks)) ↔
        (k.beginDepth = d → H k.deferred) ∧ (d ≤ k.endDepth → H (runDeferred d ks)) := by
      intro d
      rw [runDeferred, hH.append]
      have hempty := hH.empty
      by_cases h₁ : k.beginDepth = d <;> by_cases h₂ : k.endDepth < d <;> grind
    constructor
    · rintro ⟨hcollapsed, hopened⟩
      rw [collapseFrom, List.forall_mem_cons, Condition.deferred_withDeferred] at hcollapsed
      obtain ⟨hd, hrest⟩ := hcollapsed
      -- the run at this condition's depth, if it is open or opens here, has all of its members
      have hown : k.beginDepth ∈ opened ∨ k.beginDepth ≠ 0 ∧ k.beginDepth ≠ previousEnd →
          H (runDeferred k.beginDepth (k :: ks)) := by
        intro h
        by_cases hmem : k.beginDepth ∈ opened
        · exact hopened _ hmem
        · simpa [hmem, h.resolve_left hmem] using hd
      have hk : H k.deferred := by
        by_cases h : k.beginDepth ∈ opened ∨ k.beginDepth ≠ 0 ∧ k.beginDepth ≠ previousEnd
        · exact ((hrun _).1 (hown h)).1 rfl
        · obtain ⟨hmem, hopens⟩ := not_or.1 h
          simpa [hmem, hopens] using hd
      refine List.forall_mem_cons.2 ⟨hk, (ih _ _).1 ⟨hrest, fun d hmem => ?_⟩⟩
      obtain ⟨hmem, hle⟩ := List.mem_filter.1 hmem
      refine ((hrun d).1 ?_).2 (by simpa using hle)
      split at hmem
      · next hopens =>
        rcases List.mem_cons.1 hmem with rfl | hmem
        · exact hown (.inr hopens)
        · exact hopened d hmem
      · exact hopened d hmem
    · intro h
      refine ⟨?_, fun d _ => runDeferred_of_forall hH h d⟩
      obtain ⟨hk, hks⟩ := List.forall_mem_cons.1 h
      rw [collapseFrom, List.forall_mem_cons, Condition.deferred_withDeferred]
      refine ⟨?_, ((ih _ _).2 hks).1⟩
      split
      · exact hH.empty
      · split
        · exact runDeferred_of_forall hH h _
        · exact hk

/-- **Collapsing loses nothing and makes nothing up.** -/
theorem forall_deferred_collapse (l : Lhs Symbol Note) :
    (∀ k ∈ collapse l, H k.deferred) ↔ ∀ k ∈ l, H k.deferred := by
  have h := forall_deferred_collapseFrom hH 0 [] l
  rw [and_iff_left (fun _ hd => absurd hd List.not_mem_nil)] at h
  exact h

end Conjunctive

/-! ## Which runs are open -/

/-- The conditions from index `i` on, up to index `j` and without it. -/
def between (l : Lhs ν α) (i j : Nat) : Lhs ν α := (l.take j).drop i

/-- The depth at which the condition before index `f` ends; `previousEnd` before the first one. -/
def endBefore (previousEnd : Nat) (l : Lhs ν α) : Nat → Nat
  | 0 => previousEnd
  | f + 1 => (l[f]?.map Condition.endDepth).getD 0

/-- A run opens at index `f` and at the given depth. -/
def OpensRun (previousEnd : Nat) (l : Lhs ν α) (depth f : Nat) : Prop :=
  l[f]?.map Condition.beginDepth = some depth ∧ depth ≠ 0 ∧ depth ≠ endBefore previousEnd l f

instance (previousEnd : Nat) (l : Lhs ν α) (depth f : Nat) :
    Decidable (OpensRun previousEnd l depth f) :=
  inferInstanceAs (Decidable (_ ∧ _ ∧ _))

theorem endBefore_cons (previousEnd : Nat) (k : Condition ν α) (ks : Lhs ν α) (f : Nat) :
    endBefore previousEnd (k :: ks) (f + 1) = endBefore k.endDepth ks f := by
  cases f <;> simp [endBefore]

theorem opensRun_cons_succ {previousEnd : Nat} {k : Condition ν α} {ks : Lhs ν α} {depth f : Nat} :
    OpensRun previousEnd (k :: ks) depth (f + 1) ↔ OpensRun k.endDepth ks depth f := by
  rw [OpensRun, endBefore_cons, List.getElem?_cons_succ, OpensRun]

theorem opensRun_cons_zero {previousEnd : Nat} {k : Condition ν α} {ks : Lhs ν α} {depth : Nat} :
    OpensRun previousEnd (k :: ks) depth 0 ↔
      k.beginDepth = depth ∧ depth ≠ 0 ∧ depth ≠ previousEnd := by
  simp [OpensRun, endBefore]

/-- The depths of the runs that are open behind some conditions. -/
def openedAfter (previousEnd : Nat) (opened : List Nat) : Lhs ν α → List Nat
  | [] => opened
  | k :: ks =>
    openedAfter k.endDepth
      ((if k.beginDepth ≠ 0 ∧ k.beginDepth ≠ previousEnd then k.beginDepth :: opened
        else opened).filter (· ≤ k.endDepth)) ks

/-- A run is open if it was open before or was opened since, and no condition since then ended at a
lesser depth. -/
theorem mem_openedAfter {previousEnd : Nat} {opened : List Nat} {l : Lhs ν α} {depth : Nat} :
    depth ∈ openedAfter previousEnd opened l ↔
      (depth ∈ opened ∧ ∀ z ∈ l, depth ≤ z.endDepth) ∨
        ∃ f, OpensRun previousEnd l depth f ∧ ∀ z ∈ l.drop f, depth ≤ z.endDepth := by
  induction l generalizing previousEnd opened with
  | nil => simp [openedAfter, OpensRun]
  | cons k ks ih =>
    rw [openedAfter, ih, List.mem_filter, List.forall_mem_cons]
    have hhead : depth ∈ (if k.beginDepth ≠ 0 ∧ k.beginDepth ≠ previousEnd then
          k.beginDepth :: opened else opened) ↔
        depth ∈ opened ∨ OpensRun previousEnd (k :: ks) depth 0 := by
      rw [opensRun_cons_zero]
      split <;> grind
    rw [hhead]
    simp only [decide_eq_true_eq]
    constructor
    · rintro (⟨⟨h | h, hk⟩, hks⟩ | ⟨f, hf, hks⟩)
      · exact .inl ⟨h, hk, hks⟩
      · exact .inr ⟨0, h, List.forall_mem_cons.2 ⟨hk, hks⟩⟩
      · exact .inr ⟨f + 1, opensRun_cons_succ.2 hf, hks⟩
    · rintro (⟨h, hk, hks⟩ | ⟨f, hf, hks⟩)
      · exact .inl ⟨⟨.inl h, hk⟩, hks⟩
      · cases f with
        | zero =>
          obtain ⟨hk, hks⟩ := List.forall_mem_cons.1 hks
          exact .inl ⟨⟨.inr hf, hk⟩, hks⟩
        | succ f => exact .inr ⟨f, opensRun_cons_succ.1 hf, hks⟩

/-- What is left of collapsing behind some conditions depends on them only through the depth at
which they end and the runs that are open. -/
theorem drop_collapseFrom (previousEnd : Nat) (opened : List Nat) (l : Lhs Symbol Note) (j : Nat) :
    (collapseFrom previousEnd opened l).drop j =
      collapseFrom (endBefore previousEnd l j) (openedAfter previousEnd opened (l.take j))
        (l.drop j) := by
  induction j generalizing previousEnd opened l with
  | zero => simp [endBefore, openedAfter]
  | succ j ih =>
    cases l with
    | nil => simp [collapseFrom]
    | cons k ks =>
      rw [collapseFrom, List.drop_succ_cons, ih, endBefore_cons, List.take_succ_cons, openedAfter,
        List.drop_succ_cons]

/-- What the condition at an index defers after collapsing. -/
theorem getElem?_collapse {l : Lhs Symbol Note} {j : Nat} {x : Condition Symbol Note}
    (hx : l[j]? = some x) :
    (collapse l)[j]? = some (x.withDeferred
      (if x.beginDepth ∈ openedAfter 0 [] (l.take j) then {}
      else if x.beginDepth ≠ 0 ∧ x.beginDepth ≠ endBefore 0 l j then
        runDeferred x.beginDepth (l.drop j)
      else x.deferred)) := by
  obtain ⟨hj, rfl⟩ := List.getElem?_eq_some_iff.1 hx
  have hdrop : l.drop j = l[j] :: l.drop (j + 1) := List.drop_eq_getElem_cons hj
  rw [← List.head?_drop, collapse, drop_collapseFrom, hdrop, collapseFrom]
  simp

end Lhs

end Antecedent
