import Antecedent.Proofs.Mentions
import Antecedent.Proofs.NegatedGroups

/-!
# Lexical scope

Scopes are kept by depths of negation, which a description by steps does not mention. In terms of the
steps, a binding occurrence is visible from a mention if it stands before it in the same condition, or
in an earlier one that is no negated and no existential pattern and whose negated groups all contain
the mention.

* `Step.groupsAll` lists the negated groups of a description by the numbers of their conditions.
* `Lhs.Grouped` says that the depths of a left-hand side belong to its groups, and
  `Lhs.grouped_ofSteps` that those of a description do.
* `Lhs.LexicallyVisible` is visibility in terms of groups, and `Grouped.lexicallyVisible_iff_sees` says
  that it is the same as visibility by depths.
* `Lhs.unbound_iff_not_lexically_visible` says that a compilation which succeeds has found for every
  mention a lexically visible binding occurrence, and that one which stops at an unbound variable
  blames a mention that has none.
-/

namespace Antecedent

variable {ν μ α β : Type}

/-! ## Groups -/

/-- The conditions of a negated group: those from number `first` on and before number `next`. -/
structure Group where
  first : Nat
  next : Nat
  deriving DecidableEq, Repr

/-- A condition with the given number is in the group. -/
def Group.Contains (g : Group) (n : Nat) : Prop := g.first ≤ n ∧ n < g.next

instance (g : Group) (n : Nat) : Decidable (g.Contains n) := inferInstanceAs (Decidable (_ ∧ _))

namespace Step

mutual

/-- The number of conditions that a step adds. -/
def count : Step ν α → Nat
  | pattern _ | notPattern _ | existsPattern _ | test _ => 1
  | notGroup steps => countAll steps
  | depths _ _ => 0

def countAll : List (Step ν α) → Nat
  | [] => 0
  | s :: ss => count s + countAll ss

end

mutual

/-- The negated groups of a step whose first condition has number `start`. -/
def groups (start : Nat) : Step ν α → List Group
  | notGroup steps => ⟨start, start + countAll steps⟩ :: groupsAll start steps
  | pattern _ | notPattern _ | existsPattern _ | test _ | depths _ _ => []

def groupsAll (start : Nat) : List (Step ν α) → List Group
  | [] => []
  | s :: ss => groups start s ++ groupsAll (start + count s) ss

end

end Step

/-! ## Depths that belong to groups -/

namespace Lhs

/-- The depths of some conditions, the first of which has number `start`, belong to the given groups. -/
structure Grouped (start : Nat) (l : Lhs ν α) (gs : List Group) : Prop where
  bounded : ∀ g ∈ gs, start ≤ g.first ∧ g.next ≤ start + l.length
  closed : ∀ k ∈ l.getLast?, k.endDepth = 0
  /-- A plain condition begins at depth 0 exactly if it is in no group. -/
  outside : ∀ i k, l[i]? = some k → k.mode = .plain →
    (k.beginDepth = 0 ↔ ∀ g ∈ gs, ¬ g.Contains (start + i))
  /-- A later condition is reached exactly if no group ends before it. -/
  reaches : ∀ i j k, l[i]? = some k → k.mode = .plain → i < j → j < l.length →
    ((∀ z ∈ l.between i j, k.beginDepth ≤ z.endDepth) ↔
      ∀ g ∈ gs, g.Contains (start + i) → g.Contains (start + j))

theorem between_append_left {l l' : Lhs ν α} {i j : Nat} (hj : j ≤ l.length) :
    between (l ++ l') i j = l.between i j := by
  rw [between, between, List.take_append_of_le_length hj]

theorem between_append_right (l l' : Lhs ν α) (i j : Nat) :
    between (l ++ l') (l.length + i) (l.length + j) = l'.between i j := by
  rw [between, between, List.take_length_add_append, List.drop_length_add_append]

theorem grouped_nil (start : Nat) : Grouped start ([] : Lhs ν α) [] where
  bounded g hg := by cases hg
  closed k hk := by cases hk
  outside i k hk := by cases hk
  reaches i j k hk := by cases hk

theorem grouped_singleton {start : Nat} {k : Condition ν α} (hend : k.endDepth = 0)
    (hbegin : k.mode = .plain → k.beginDepth = 0) : Grouped start [k] [] where
  bounded g hg := by cases hg
  closed z hz := by
    obtain rfl : k = z := Option.some.inj hz
    exact hend
  outside i z hz hplain := by
    obtain rfl : z = k := List.mem_singleton.1 (List.mem_of_getElem? hz)
    simp [hbegin hplain]
  reaches i j z _ _ hij hj := by
    rw [List.length_singleton] at hj
    omega

namespace Grouped

variable {start : Nat} {l l' : Lhs ν α} {gs gs' : List Group}

theorem not_contains_of_le (h : Grouped start l gs) {g : Group} (hg : g ∈ gs) {n : Nat}
    (hn : start + l.length ≤ n) : ¬ g.Contains n := by
  rintro ⟨-, hlt⟩
  have := (h.bounded g hg).2
  omega

theorem not_contains_of_lt (h : Grouped start l gs) {g : Group} (hg : g ∈ gs) {n : Nat}
    (hn : n < start) : ¬ g.Contains n := by
  rintro ⟨hle, -⟩
  have := (h.bounded g hg).1
  omega

/-- From a condition in the first part, one in the second part is reached only from outside of all
groups. -/
theorem reaches_across (h : Grouped start l gs) (h' : Grouped (start + l.length) l' gs') {i j : Nat}
    {k : Condition ν α} (hk : l[i]? = some k) (hplain : k.mode = .plain) (hj : l.length ≤ j) :
    (∀ z ∈ (l ++ l').between i j, k.beginDepth ≤ z.endDepth) ↔
      ∀ g ∈ gs ++ gs', g.Contains (start + i) → g.Contains (start + j) := by
  have hi := (List.getElem?_eq_some_iff.1 hk).1
  have hdepth : (∀ z ∈ (l ++ l').between i j, k.beginDepth ≤ z.endDepth) ↔ k.beginDepth = 0 := by
    constructor
    · intro hall
      have hlast : l.getLast? = some l[l.length - 1] := by
        rw [List.getLast?_eq_getElem?, List.getElem?_eq_getElem (by omega)]
      have hget : (l ++ l')[l.length - 1]? = some l[l.length - 1] := by
        rw [List.getElem?_append_left (by omega), List.getElem?_eq_getElem (by omega)]
      have hle := hall _ (mem_between hget (by omega) (by omega))
      rw [h.closed _ hlast] at hle
      omega
    · intro hzero z _
      omega
  have hnone : (∀ g ∈ gs ++ gs', g.Contains (start + i) → g.Contains (start + j)) ↔
      ∀ g ∈ gs, ¬ g.Contains (start + i) := by
    rw [List.forall_mem_append]
    constructor
    · rintro ⟨hall, -⟩ g hg hcontains
      exact h.not_contains_of_le hg (by omega) (hall g hg hcontains)
    · intro hall
      refine ⟨fun g hg hcontains => absurd hcontains (hall g hg), fun g hg hcontains => ?_⟩
      exact absurd hcontains (h'.not_contains_of_lt hg (by omega))
  rw [hdepth, hnone, h.outside i k hk hplain]

theorem append (h : Grouped start l gs) (h' : Grouped (start + l.length) l' gs') :
    Grouped start (l ++ l') (gs ++ gs') where
  bounded := by
    rw [List.forall_mem_append, List.length_append]
    refine ⟨fun g hg => ?_, fun g hg => ?_⟩
    · have := h.bounded g hg
      omega
    · have := h'.bounded g hg
      omega
  closed k hk := by
    rw [List.getLast?_append, Option.mem_def, Option.or_eq_some_iff] at hk
    rcases hk with hk | ⟨-, hk⟩
    · exact h'.closed k hk
    · exact h.closed k hk
  outside i k hk hplain := by
    rw [List.forall_mem_append]
    rcases Nat.lt_or_ge i l.length with hi | hi
    · rw [List.getElem?_append_left hi] at hk
      rw [h.outside i k hk hplain]
      exact (and_iff_left fun g hg => h'.not_contains_of_lt hg (by omega)).symm
    · obtain ⟨n, rfl⟩ := Nat.exists_eq_add_of_le hi
      rw [List.getElem?_append_right hi, Nat.add_sub_cancel_left] at hk
      rw [h'.outside n k hk hplain, Nat.add_assoc]
      exact (and_iff_right fun g hg => h.not_contains_of_le hg (by omega)).symm
  reaches i j k hk hplain hij hj := by
    rcases Nat.lt_or_ge i l.length with hi | hi
    · rw [List.getElem?_append_left hi] at hk
      rcases Nat.lt_or_ge j l.length with hj' | hj'
      · rw [between_append_left hj'.le, h.reaches i j k hk hplain hij hj', List.forall_mem_append]
        refine (and_iff_left fun g hg hcontains => ?_).symm
        exact absurd hcontains (h'.not_contains_of_lt hg (by omega))
      · exact h.reaches_across h' hk hplain hj'
    · obtain ⟨n, rfl⟩ := Nat.exists_eq_add_of_le hi
      obtain ⟨m, rfl⟩ := Nat.exists_eq_add_of_le (hi.trans hij.le)
      rw [List.getElem?_append_right hi, Nat.add_sub_cancel_left] at hk
      rw [List.length_append] at hj
      rw [between_append_right, h'.reaches n m k hk hplain (by omega) (by omega),
        List.forall_mem_append, Nat.add_assoc, Nat.add_assoc]
      refine (and_iff_right fun g hg hcontains => ?_).symm
      exact absurd hcontains (h.not_contains_of_le hg (by omega))

end Grouped

theorem getElem?_deepen (l : Lhs ν α) (i : Nat) :
    (deepen l)[i]? = l[i]?.map fun k =>
      { k with
        beginDepth := k.beginDepth + 1
        endDepth := if i + 1 < l.length then k.endDepth + 1 else k.endDepth } := by
  induction l generalizing i with
  | nil => rfl
  | cons k ks ih =>
    cases ks with
    | nil => cases i <;> simp [deepen]
    | cons k' ks =>
      rw [deepen]
      · cases i with
        | zero => simp
        | succ i => simp [ih i]
      · simp

/-- The last condition, which does not end deeper, is not among those in between. -/
theorem forall_between_deepen_iff {l : Lhs ν α} {i j depth : Nat} (hj : j < l.length) :
    (∀ z ∈ (deepen l).between i j, depth + 1 ≤ z.endDepth) ↔
      ∀ z ∈ l.between i j, depth ≤ z.endDepth := by
  constructor
  · intro hall z hz
    obtain ⟨m, him, hmj, hz⟩ := exists_of_mem_between hz
    have hm : (deepen l)[m]? = some { z with
        beginDepth := z.beginDepth + 1, endDepth := z.endDepth + 1 } := by
      rw [getElem?_deepen, hz, Option.map_some, if_pos (by omega)]
    exact Nat.le_of_succ_le_succ (hall _ (mem_between hm him hmj))
  · intro hall z hz
    obtain ⟨m, him, hmj, hz⟩ := exists_of_mem_between hz
    rw [getElem?_deepen, Option.map_eq_some_iff] at hz
    obtain ⟨z', hz', rfl⟩ := hz
    have hle := hall z' (mem_between hz' him hmj)
    show depth + 1 ≤ if m + 1 < l.length then z'.endDepth + 1 else z'.endDepth
    rw [if_pos (by omega)]
    exact Nat.succ_le_succ hle

/-- The conditions of a group belong to the group, and to what they belonged before. -/
theorem Grouped.deepen {start : Nat} {l : Lhs ν α} {gs : List Group} (h : Grouped start l gs) :
    Grouped start (deepen l) (⟨start, start + l.length⟩ :: gs) where
  bounded := by
    rw [length_deepen, List.forall_mem_cons]
    exact ⟨⟨Nat.le_refl _, Nat.le_refl _⟩, h.bounded⟩
  closed k hk := by
    rw [List.getLast?_eq_getElem?, length_deepen, getElem?_deepen, Option.mem_def,
      Option.map_eq_some_iff] at hk
    obtain ⟨k', hk', rfl⟩ := hk
    have hlast : ¬ l.length - 1 + 1 < l.length := by
      have := (List.getElem?_eq_some_iff.1 hk').1
      omega
    rw [← List.getLast?_eq_getElem?] at hk'
    simpa [hlast] using h.closed k' hk'
  outside i k hk hplain := by
    rw [getElem?_deepen, Option.map_eq_some_iff] at hk
    obtain ⟨k', hk', rfl⟩ := hk
    have hi := (List.getElem?_eq_some_iff.1 hk').1
    refine iff_of_false (Nat.succ_ne_zero _) fun hall => ?_
    exact hall _ List.mem_cons_self ⟨Nat.le_add_right _ _, Nat.add_lt_add_left hi _⟩
  reaches i j k hk hplain hij hj := by
    rw [length_deepen] at hj
    rw [getElem?_deepen, Option.map_eq_some_iff] at hk
    obtain ⟨k', hk', rfl⟩ := hk
    show (∀ z ∈ (Lhs.deepen l).between i j, k'.beginDepth + 1 ≤ z.endDepth) ↔ _
    rw [forall_between_deepen_iff hj, h.reaches i j k' hk' hplain hij hj, List.forall_mem_cons]
    refine (and_iff_right fun _ => ?_).symm
    exact ⟨Nat.le_add_right _ _, Nat.add_lt_add_left hj _⟩

end Lhs

namespace Step

/-- A step that overrides no depths adds conditions and leaves the others alone. -/
theorem addTo_eq_append (blank : α) (l : Lhs ν α) {s : Step ν α} (hs : s.keepsDepths = true) :
    s.addTo blank l = l ++ s.addTo blank [] := by
  cases s with
  | pattern p => rfl
  | notPattern p => rfl
  | existsPattern p => rfl
  | test t => rfl
  | notGroup steps => rfl
  | depths beginDepth endDepth => cases hs

theorem addAllTo_eq_append (blank : α) (l : Lhs ν α) {ss : List (Step ν α)}
    (hss : keepsDepthsAll ss = true) : addAllTo blank l ss = l ++ addAllTo blank [] ss := by
  induction ss generalizing l with
  | nil => simp [addAllTo]
  | cons s ss ih =>
    rw [keepsDepthsAll, Bool.and_eq_true] at hss
    rw [addAllTo, addAllTo, ih (addTo blank l s) hss.2, ih (addTo blank [] s) hss.2,
      addTo_eq_append blank l hss.1, List.append_assoc]

mutual

theorem length_addTo (blank : α) {s : Step ν α} (hs : s.keepsDepths = true) :
    (s.addTo blank []).length = s.count := by
  cases s with
  | pattern p => rfl
  | notPattern p => rfl
  | existsPattern p => rfl
  | test t => rfl
  | notGroup steps =>
    rw [addTo, List.nil_append, Lhs.length_deepen, count]
    exact length_addAllTo blank hs
  | depths beginDepth endDepth => cases hs

theorem length_addAllTo (blank : α) {ss : List (Step ν α)} (hss : keepsDepthsAll ss = true) :
    (addAllTo blank [] ss).length = countAll ss := by
  cases ss with
  | nil => rfl
  | cons s ss =>
    rw [keepsDepthsAll, Bool.and_eq_true] at hss
    rw [addAllTo, addAllTo_eq_append blank _ hss.2, List.length_append, length_addTo blank hss.1,
      length_addAllTo blank hss.2, countAll]

end

mutual

theorem grouped_addTo (blank : α) (start : Nat) {s : Step ν α} (hs : s.keepsDepths = true) :
    Lhs.Grouped start (s.addTo blank []) (s.groups start) := by
  cases s with
  | pattern p => exact Lhs.grouped_singleton rfl fun _ => rfl
  | notPattern p => exact Lhs.grouped_singleton rfl fun h => nomatch h
  | existsPattern p => exact Lhs.grouped_singleton rfl fun _ => rfl
  | test t => exact Lhs.grouped_singleton rfl fun _ => rfl
  | notGroup steps =>
    rw [addTo, List.nil_append, groups, ← length_addAllTo blank hs]
    exact (grouped_addAllTo blank start hs).deepen
  | depths beginDepth endDepth => cases hs

theorem grouped_addAllTo (blank : α) (start : Nat) {ss : List (Step ν α)}
    (hss : keepsDepthsAll ss = true) :
    Lhs.Grouped start (addAllTo blank [] ss) (groupsAll start ss) := by
  cases ss with
  | nil => exact Lhs.grouped_nil start
  | cons s ss =>
    rw [keepsDepthsAll, Bool.and_eq_true] at hss
    rw [addAllTo, addAllTo_eq_append blank _ hss.2, groupsAll, ← length_addTo blank hss.1]
    exact (grouped_addTo blank start hss.1).append (grouped_addAllTo blank _ hss.2)

end

end Step

namespace Lhs

/-- The depths that a description by steps gives its conditions belong to its groups. -/
theorem grouped_ofSteps {steps : List (Step ν Unit)} (h : Step.keepsDepthsAll steps = true) :
    Grouped 1 (ofSteps steps) (Step.groupsAll 1 steps) :=
  Step.grouped_addAllTo () 1 h

/-! ### Only depths and modes matter -/

theorem Grouped.of_frames {start : Nat} {l : Lhs ν α} {l' : Lhs μ β} {gs : List Group}
    (hdepths : l.map Condition.depths = l'.map Condition.depths)
    (hmodes : l.map Condition.mode = l'.map Condition.mode) (h : Grouped start l gs) :
    Grouped start l' gs := by
  have hlength : l.length = l'.length := by simpa using congrArg List.length hmodes
  have hcounterpart : ∀ (i : Nat) (k' : Condition μ β), l'[i]? = some k' → ∃ k : Condition ν α,
      l[i]? = some k ∧ k.depths = k'.depths ∧ k.mode = k'.mode := by
    intro i k' hk'
    have hi : i < l.length := hlength ▸ (List.getElem?_eq_some_iff.1 hk').1
    refine ⟨l[i], List.getElem?_eq_getElem hi, ?_, ?_⟩
    · have hget := congrArg (fun ds => ds[i]?) hdepths
      simpa [hk', hi] using hget
    · have hget := congrArg (fun ms => ms[i]?) hmodes
      simpa [hk', hi] using hget
  refine ⟨hlength ▸ h.bounded, fun k' hk' => ?_, fun i k' hk' hplain => ?_,
    fun i j k' hk' hplain hij hj => ?_⟩
  · rw [List.getLast?_eq_getElem?, ← hlength] at hk'
    obtain ⟨k, hk, hkd, -⟩ := hcounterpart _ k' hk'
    rw [← List.getLast?_eq_getElem?] at hk
    exact (congrArg Prod.snd hkd).symm.trans (h.closed k hk)
  · obtain ⟨k, hk, hkd, hkm⟩ := hcounterpart i k' hk'
    have hbegin : k.beginDepth = k'.beginDepth := congrArg Prod.fst hkd
    rw [← hbegin]
    exact h.outside i k hk (hkm.trans hplain)
  · obtain ⟨k, hk, hkd, hkm⟩ := hcounterpart i k' hk'
    have hbegin : k.beginDepth = k'.beginDepth := congrArg Prod.fst hkd
    rw [← hbegin, forall_between_iff, ← hdepths, ← forall_between_iff]
    exact h.reaches i j k hk (hkm.trans hplain) hij (hlength ▸ hj)

/-- Interning keeps the modes. -/
theorem map_mode_intern (l : Lhs String Unit) (t : SymbolTable) :
    (l.intern t).1.map Condition.mode = l.map Condition.mode := by
  induction l generalizing t with
  | nil => rfl
  | cons k ks ih =>
    have hcons : (Lhs.intern (k :: ks) t).1 =
        (k.intern t).1 :: (Lhs.intern ks (k.intern t).2).1 := by
      rw [Lhs.intern, List.mapM_cons]
      rfl
    have hmode : (k.intern t).1.mode = k.mode := by
      obtain ⟨element, _, _, _⟩ := k
      cases element <;> rfl
    rw [hcons, List.map_cons, List.map_cons, ih, hmode]

/-! ## Lexical visibility -/

/-- A binding occurrence is visible from a mention: it stands before it in the same condition, as the
match handle, as an earlier field or as the field itself; or it stands in an earlier condition that is
neither a negated nor an existential pattern, and every group around that contains the mention. -/
def LexicallyVisible (l : Lhs Symbol α) (gs : List Group) (m : Mention) (o : Origin) : Prop :=
  (o.place.pattern = m.pattern ∧ o.id ≤ m.id) ∨
    (o.place.pattern < m.pattern ∧ (∃ k ∈ l[o.place.pattern - 1]?, k.mode = .plain) ∧
      ∀ g ∈ gs, g.Contains o.place.pattern → g.Contains m.pattern)

theorem pattern_le_of_mem_mentions {l : Lhs Symbol α} {m : Mention} (hm : m ∈ l.mentions) :
    1 ≤ m.pattern ∧ m.pattern ≤ l.length := by
  obtain ⟨y, hy, hm⟩ := List.mem_flatMap.1 hm
  obtain ⟨hpos, hget⟩ := getElem?_of_mem_conditionsFrom hy
  have hlt := (List.getElem?_eq_some_iff.1 hget).1
  have hpattern : m.pattern = y.pattern := by
    unfold ConditionAt.mentions at hm
    split at hm
    · next mode q hq =>
      obtain ⟨x, hx, hm⟩ := List.mem_flatMap.1 hm
      obtain ⟨s, -, rfl⟩ := List.mem_map.1 hm
      exact (Condition.samePattern_of_mem_fieldsAt hq hx).pattern_eq
    · obtain ⟨s, -, rfl⟩ := List.mem_map.1 hm
      rfl
  omega

/-- **Visibility by depths is lexical visibility** if the depths belong to the groups. -/
theorem Grouped.lexicallyVisible_iff_sees {l : Lhs Symbol α} {gs : List Group} (h : Grouped 1 l gs)
    {m : Mention} (hm : m ∈ l.mentions) {b : Symbol × Origin} (hb : b ∈ l.binders) :
    l.LexicallyVisible gs m b.2 ↔ l.Sees m.pattern (m.id + 1) b.2 := by
  obtain ⟨k, hk, hpos, -⟩ := exists_of_mem_binders hb
  obtain ⟨-, hlength⟩ := pattern_le_of_mem_mentions hm
  rw [LexicallyVisible, Sees, Nat.lt_succ_iff, reaches_iff_of_getElem? hk]
  refine or_congr Iff.rfl (and_congr_right fun hlt => ?_)
  have hmode : (∃ k ∈ l[b.2.place.pattern - 1]?, k.mode = .plain) ↔ k.mode = .plain := by simp [hk]
  rw [hmode]
  refine and_congr_right fun hplain => ?_
  rw [h.reaches _ (m.pattern - 1) k hk hplain (by omega) (by omega), Nat.add_sub_cancel' hpos,
    Nat.add_sub_cancel' (by omega)]

theorem visible_ne_nil_iff {l : Lhs Symbol α} {pattern i : Nat} {x : Symbol} :
    l.visible pattern i x ≠ [] ↔ ∃ o, (x, o) ∈ l.binders ∧ l.Sees pattern i o := by
  constructor
  · intro hne
    obtain ⟨o, ho⟩ := List.exists_mem_of_ne_nil _ hne
    obtain ⟨b, hb, rfl⟩ := List.mem_map.1 ho
    obtain ⟨hmem, hcond⟩ := List.mem_filter.1 hb
    obtain ⟨rfl, hsees⟩ := of_decide_eq_true hcond
    exact ⟨b.2, hmem, hsees⟩
  · rintro ⟨o, hmem, hsees⟩
    have hvisible : o ∈ l.visible pattern i x :=
      List.mem_map.2 ⟨(x, o), List.mem_filter.2 ⟨hmem, decide_eq_true ⟨rfl, hsees⟩⟩, rfl⟩
    exact List.ne_nil_of_mem hvisible

/-- A mention of a variable is grounded exactly if a binding occurrence is lexically visible. -/
theorem Grouped.grounded_iff {c : Context} {l : Lhs Symbol α} {gs : List Group} (h : Grouped 1 l gs)
    {m : Mention} (hm : m ∈ l.mentions) {x : Symbol} (hx : m.subject = .var x) :
    m.Grounded c l ↔ ∃ o, (x, o) ∈ l.binders ∧ l.LexicallyVisible gs m o := by
  rw [Mention.Grounded, hx]
  refine visible_ne_nil_iff.trans (exists_congr fun o => and_congr_right fun hmem => ?_)
  exact (h.lexicallyVisible_iff_sees hm hmem).symm

/-- **Unbound variables are violations of lexical scope.** If a description by steps compiles, then for
every variable that is mentioned some binding occurrence of its name is lexically visible. If the
compilation stops at an unbound variable, then the diagnostic blames a mention that stands there: a
global variable that is not defined, or a variable of which no binding occurrence is lexically
visible. -/
theorem unbound_iff_not_lexically_visible {steps : List (Step String Unit)}
    (hsteps : Step.keepsDepthsAll steps = true) {t : SymbolTable} {l : Lhs Symbol Note}
    (hl : l = ((ofSteps steps).intern t).1) (hflat : l.isFlat = true) (c : Context) :
    (∀ r, l.compile c = .ok r → ∀ m ∈ l.mentions, ∀ x, m.subject = .var x →
      ∃ o, (x, o) ∈ l.binders ∧ l.LexicallyVisible (Step.groupsAll 1 steps) m o) ∧
    ∀ d, l.compile c = .error d → d.fault = .unboundVariable → ∃ m ∈ l.mentions, d.Blames c m ∧
      (∀ x, m.subject = .global x → ¬ c.env.isGlobal x = true) ∧
      ∀ x, m.subject = .var x → ∀ o, (x, o) ∈ l.binders →
        ¬ l.LexicallyVisible (Step.groupsAll 1 steps) m o := by
  have hgrouped : Grouped 1 l (Step.groupsAll 1 steps) := by
    rw [hl]
    exact (grouped_ofSteps hsteps).of_frames (map_depths_intern _ t).symm (map_mode_intern _ t).symm
  refine ⟨fun r hr m hm x hx => ?_, fun d hd hfault => ?_⟩
  · exact (hgrouped.grounded_iff hm hx).1 (grounded_of_compile hr m hm)
  · obtain ⟨m, hm, hungrounded, hblames⟩ := exists_ungrounded_of_compile hflat hd hfault
    refine ⟨m, hm, hblames, fun x hx => ?_, fun x hx o hmem hvisible => ?_⟩
    · rw [Mention.Grounded, hx] at hungrounded
      exact hungrounded
    · exact hungrounded ((hgrouped.grounded_iff hm hx).2 ⟨o, hmem, hvisible⟩)

/-- A negated group that binds `x`, and behind it a pattern with a field that mentions `x`. -/
def mentionBehindGroup : List (Step String Unit) :=
  [.notGroup [.pattern (factPattern [some "x"])],
    .pattern
      { kind := .fact
        handle := none
        slots := [⟨none, .plain (.wildcard .single) [⟨.var "x" .single (), []⟩] none ()⟩] }]

theorem mentionBehindGroup_unbound :
    ∃ d m, compiledSteps mentionBehindGroup = .error d ∧ d.fault = .unboundVariable ∧
      d.Blames ⟨.empty, .standard⟩ m ∧ m.subject = .var ⟨0⟩ ∧
      ∀ o, (⟨0⟩, o) ∈ ((ofSteps mentionBehindGroup).intern .empty).1.binders →
        ¬ ((ofSteps mentionBehindGroup).intern .empty).1.LexicallyVisible
          (Step.groupsAll 1 mentionBehindGroup) m o := by
  obtain ⟨d, hd, hfault⟩ := exists_error_of_check (e := compiledSteps mentionBehindGroup)
    (p := fun d => decide (d.fault = .unboundVariable)) (by decide +kernel)
  have hsteps : Step.keepsDepthsAll mentionBehindGroup = true := by decide +kernel
  have hflat : ((ofSteps mentionBehindGroup).intern .empty).1.isFlat = true := by decide +kernel
  have hmentions : ∀ m ∈ ((ofSteps mentionBehindGroup).intern .empty).1.mentions,
      m.subject = .var ⟨0⟩ := by
    decide +kernel
  obtain ⟨m, hm, hblames, -, hnone⟩ := (unbound_iff_not_lexically_visible hsteps rfl hflat
    ⟨.empty, .standard⟩).2 d hd (of_decide_eq_true hfault)
  exact ⟨d, m, hd, of_decide_eq_true hfault, hblames, hmentions m hm, hnone _ (hmentions m hm)⟩

end Lhs

end Antecedent
