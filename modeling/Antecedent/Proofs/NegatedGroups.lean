import Antecedent.Lhs.Interning
import Antecedent.Lhs.Step
import Antecedent.Proofs.NegatedRuns
import Mathlib.Data.List.Chain

/-!
# Who carries what a negated group defers

The members of a negated group are the conditions that begin at its depth. After collapsing, only
the first member should carry what the members defer. This is so exactly for the groups that one of
their members opens.

A group may open with a negated pattern or with another group. Then its first condition begins
deeper than the group, the run at the group's own depth never opens, and every member keeps what it
defers.

* `Lhs.Nested` says how the depths of neighbours relate if no depths are overridden
  (`Lhs.nested_ofSteps`).
* `Lhs.SameGroup` says of two conditions that they are members of one group.
* `Lhs.deferred_empty_iff_run_opened` says when a later member defers nothing.
-/

namespace Antecedent

variable {ν μ α β : Type}

/-! ## Depths of a left-hand side put together from steps -/

/-- The depths at which a condition begins and ends. -/
def Condition.depths (k : Condition ν α) : Nat × Nat := (k.beginDepth, k.endDepth)

namespace Lhs

/-- No condition begins at a lesser depth than that at which the one before it ends, and the last
one ends outside of every group. -/
structure Nested (l : Lhs ν α) : Prop where
  chain : l.IsChain fun k k' => k.endDepth ≤ k'.beginDepth
  closed : ∀ k ∈ l.getLast?, k.endDepth = 0

theorem nested_iff_depths (l : Lhs ν α) :
    l.Nested ↔ ((l.map Condition.depths).IsChain fun a b => a.2 ≤ b.1) ∧
      ∀ a ∈ (l.map Condition.depths).getLast?, a.2 = 0 := by
  rw [List.isChain_map, List.getLast?_map]
  constructor
  · intro h
    refine ⟨h.chain, fun a ha => ?_⟩
    obtain ⟨k, hk, rfl⟩ := Option.map_eq_some_iff.1 ha
    exact h.closed k hk
  · rintro ⟨hchain, hclosed⟩
    exact ⟨hchain, fun k hk => hclosed k.depths (Option.map_eq_some_iff.2 ⟨k, hk, rfl⟩)⟩

theorem Nested.of_depths {l : Lhs ν α} {l' : Lhs μ β}
    (h : l.map Condition.depths = l'.map Condition.depths) (hl : l.Nested) : l'.Nested := by
  rw [nested_iff_depths, ← h, ← nested_iff_depths]
  exact hl

theorem nested_nil : Nested ([] : Lhs ν α) := ⟨.nil, by simp⟩

theorem Nested.append {l l' : Lhs ν α} (hl : l.Nested) (hl' : l'.Nested) : (l ++ l').Nested := by
  refine ⟨?_, fun k hk => ?_⟩
  · rw [List.isChain_append]
    refine ⟨hl.chain, hl'.chain, fun k hk k' _ => ?_⟩
    rw [hl.closed k hk]
    exact Nat.zero_le _
  · rw [List.getLast?_append, Option.mem_def, Option.or_eq_some_iff] at hk
    rcases hk with hk | ⟨-, hk⟩
    · exact hl'.closed k hk
    · exact hl.closed k hk

theorem nested_singleton {k : Condition ν α} (h : k.endDepth = 0) : Nested [k] :=
  ⟨.singleton k, by simp [h]⟩

/-- The conditions of a group nest if the conditions of the group on its own do. -/
theorem Nested.deepen {l : Lhs ν α} (h : l.Nested) : (deepen l).Nested := by
  induction l with
  | nil => exact nested_nil
  | cons k ks ih =>
    cases ks with
    | nil => exact nested_singleton (h.closed k (by simp))
    | cons k' ks =>
      obtain ⟨hk, hks⟩ := List.isChain_cons_cons.1 h.chain
      have htail := ih ⟨hks, fun z hz => h.closed z (by simpa using hz)⟩
      -- the head of the deepened rest is one level deeper than `k'`
      obtain ⟨k₁, ks₁, hrest, hk₁⟩ : ∃ k₁ ks₁, Lhs.deepen (k' :: ks) = k₁ :: ks₁ ∧
          k₁.beginDepth = k'.beginDepth + 1 := by
        cases ks with
        | nil => exact ⟨_, _, rfl, rfl⟩
        | cons k'' ks => exact ⟨_, _, rfl, rfl⟩
      rw [Lhs.deepen, hrest]
      · rw [hrest] at htail
        refine ⟨List.isChain_cons_cons.2 ⟨?_, htail.chain⟩, fun z hz => htail.closed z (by simpa using hz)⟩
        simp only [hk₁]
        omega
      · simp

end Lhs

namespace Step

mutual

/-- Whether no depths are overridden in a step. -/
def keepsDepths : Step ν α → Bool
  | pattern _ | notPattern _ | existsPattern _ | test _ => true
  | notGroup steps => keepsDepthsAll steps
  | depths _ _ => false

def keepsDepthsAll : List (Step ν α) → Bool
  | [] => true
  | s :: ss => keepsDepths s && keepsDepthsAll ss

end

mutual

theorem nested_addTo (blank : α) {l : Lhs ν α} (hl : l.Nested) (s : Step ν α)
    (hs : s.keepsDepths = true) : (s.addTo blank l).Nested := by
  cases s with
  | pattern p => exact hl.append (Lhs.nested_singleton rfl)
  | notPattern p => exact hl.append (Lhs.nested_singleton rfl)
  | existsPattern p => exact hl.append (Lhs.nested_singleton rfl)
  | test t => exact hl.append (Lhs.nested_singleton rfl)
  | notGroup steps =>
    exact hl.append (nested_addAllTo blank Lhs.nested_nil steps hs).deepen
  | depths beginDepth endDepth => cases hs

theorem nested_addAllTo (blank : α) {l : Lhs ν α} (hl : l.Nested) (ss : List (Step ν α))
    (hss : keepsDepthsAll ss = true) : (addAllTo blank l ss).Nested := by
  cases ss with
  | nil => exact hl
  | cons s ss =>
    rw [keepsDepthsAll, Bool.and_eq_true] at hss
    exact nested_addAllTo blank (nested_addTo blank hl s hss.1) ss hss.2

end

end Step

namespace Lhs

theorem nested_ofSteps {steps : List (Step ν Unit)} (h : Step.keepsDepthsAll steps = true) :
    (ofSteps steps).Nested :=
  Step.nested_addAllTo () nested_nil steps h

/-- Interning keeps the depths. -/
theorem map_depths_intern (l : Lhs String Unit) (t : SymbolTable) :
    (l.intern t).1.map Condition.depths = l.map Condition.depths := by
  induction l generalizing t with
  | nil => rfl
  | cons k ks ih =>
    have hcons : (Lhs.intern (k :: ks) t).1 =
        (k.intern t).1 :: (Lhs.intern ks (k.intern t).2).1 := by
      rw [Lhs.intern, List.mapM_cons]
      rfl
    rw [hcons, List.map_cons, List.map_cons, ih]
    rfl

theorem map_depths_of_bare {l : Lhs ν α} {l' : Lhs ν β} (h : l.bare = l'.bare) :
    l.map Condition.depths = l'.map Condition.depths := by
  have hd := congrArg (List.map Condition.depths) h
  rwa [bare, bare, List.map_map, List.map_map] at hd

/-! ## Members of one group -/

/-- The conditions at two indices are members of one negated group at the given depth: both begin at
that depth, and no condition from the first one on and before the second one ends below it. -/
structure SameGroup (l : Lhs ν α) (depth i j : Nat) : Prop where
  lt : i < j
  pos : 0 < depth
  first : l[i]?.map Condition.beginDepth = some depth
  second : l[j]?.map Condition.beginDepth = some depth
  inside : ∀ z ∈ l.between i j, depth ≤ z.endDepth

instance (l : Lhs ν α) (depth i j : Nat) : Decidable (l.SameGroup depth i j) :=
  decidable_of_iff
    (i < j ∧ 0 < depth ∧ l[i]?.map Condition.beginDepth = some depth ∧
      l[j]?.map Condition.beginDepth = some depth ∧ ∀ z ∈ l.between i j, depth ≤ z.endDepth)
    ⟨fun ⟨lt, pos, first, second, inside⟩ => ⟨lt, pos, first, second, inside⟩,
      fun ⟨lt, pos, first, second, inside⟩ => ⟨lt, pos, first, second, inside⟩⟩

/-- The run at the given depth opens at index `i` or before, and no condition from there on and
before index `j` ends below it. -/
def RunOpened (l : Lhs ν α) (depth i j : Nat) : Prop :=
  ∃ f ≤ i, OpensRun 0 l depth f ∧ ∀ z ∈ l.between f j, depth ≤ z.endDepth

theorem mem_between {l : Lhs ν α} {i j m : Nat} {z : Condition ν α} (hz : l[m]? = some z)
    (hi : i ≤ m) (hj : m < j) : z ∈ l.between i j := by
  refine List.mem_of_getElem? (i := m - i) ?_
  rw [between, List.getElem?_drop, Nat.add_sub_cancel' hi, List.getElem?_take_of_lt hj, hz]

theorem exists_of_mem_between {l : Lhs ν α} {i j : Nat} {z : Condition ν α} (hz : z ∈ l.between i j) :
    ∃ m, i ≤ m ∧ m < j ∧ l[m]? = some z := by
  obtain ⟨n, hn⟩ := List.mem_iff_getElem?.1 hz
  rw [between, List.getElem?_drop] at hn
  have hlt : i + n < j := by
    by_contra hge
    rw [List.getElem?_take_eq_none (by omega)] at hn
    cases hn
  rw [List.getElem?_take_of_lt hlt] at hn
  exact ⟨i + n, by omega, hlt, hn⟩

theorem between_subset {l : Lhs ν α} {i i' j j' : Nat} (hi : i ≤ i') (hj : j' ≤ j) :
    l.between i' j' ⊆ l.between i j := by
  intro z hz
  obtain ⟨m, hm, hm', hget⟩ := exists_of_mem_between hz
  exact mem_between hget (by omega) (by omega)

/-- Inside of a group, a condition at the group's depth begins where the one before it ends. -/
theorem SameGroup.endBefore_eq {l : Lhs ν α} (hl : l.Nested) {depth i j f : Nat}
    (h : l.SameGroup depth i j) (hi : i < f) (hj : f ≤ j)
    (hf : l[f]?.map Condition.beginDepth = some depth) : endBefore 0 l f = depth := by
  cases f with
  | zero => omega
  | succ f =>
    obtain ⟨z, hz, hbegin⟩ := Option.map_eq_some_iff.1 hf
    obtain ⟨hlt, rfl⟩ := List.getElem?_eq_some_iff.1 hz
    have hy : l[f]? = some l[f] := List.getElem?_eq_getElem (by omega)
    have hge : depth ≤ l[f].endDepth := h.inside _ (mem_between hy (by omega) (by omega))
    have hle : l[f].endDepth ≤ l[f + 1].beginDepth := List.isChain_iff_getElem.1 hl.chain f hlt
    rw [endBefore, hy, Option.map_some, Option.getD_some]
    omega

theorem opensRun_take {l : Lhs ν α} {depth j f : Nat} :
    OpensRun 0 (l.take j) depth f ↔ f < j ∧ OpensRun 0 l depth f := by
  by_cases hf : f < j
  · have hend : endBefore 0 (l.take j) f = endBefore 0 l f := by
      cases f with
      | zero => rfl
      | succ f => rw [endBefore, endBefore, List.getElem?_take_of_lt (by omega)]
    rw [OpensRun, OpensRun, List.getElem?_take_of_lt hf, hend]
    exact (and_iff_right hf).symm
  · rw [OpensRun, List.getElem?_take_eq_none (by omega)]
    simp [hf]

/-- The run of a group is open at a later member exactly if it opened at the earlier one or
before. -/
theorem SameGroup.mem_openedAfter_iff {l : Lhs ν α} (hl : l.Nested) {depth i j : Nat}
    (h : l.SameGroup depth i j) : depth ∈ openedAfter 0 [] (l.take j) ↔ l.RunOpened depth i j := by
  rw [mem_openedAfter, or_iff_right (fun hmem => List.not_mem_nil hmem.1)]
  constructor
  · rintro ⟨f, hf, hopen⟩
    obtain ⟨hlt, hf⟩ := opensRun_take.1 hf
    refine ⟨f, Nat.le_of_not_lt fun hi => ?_, hf, hopen⟩
    exact hf.2.2 (h.endBefore_eq hl hi hlt.le hf.1).symm
  · rintro ⟨f, hi, hf, hopen⟩
    exact ⟨f, opensRun_take.2 ⟨lt_of_le_of_lt hi h.lt, hf⟩, hopen⟩

/-! ### Only depths matter -/

theorem map_depths_between (l : Lhs ν α) (i j : Nat) :
    (l.between i j).map Condition.depths = ((l.map Condition.depths).take j).drop i := by
  rw [between, List.map_drop, List.map_take]

theorem forall_between_iff (l : Lhs ν α) (depth i j : Nat) :
    (∀ z ∈ l.between i j, depth ≤ z.endDepth) ↔
      ∀ a ∈ ((l.map Condition.depths).take j).drop i, depth ≤ a.2 := by
  rw [← map_depths_between, List.forall_mem_map]
  rfl

theorem map_beginDepth_getElem? (l : Lhs ν α) (i : Nat) :
    l[i]?.map Condition.beginDepth = (l.map Condition.depths)[i]?.map Prod.fst := by
  rw [List.getElem?_map, Option.map_map]
  rfl

theorem endBefore_of_depths {l : Lhs ν α} {l' : Lhs μ β}
    (h : l.map Condition.depths = l'.map Condition.depths) (previousEnd f : Nat) :
    endBefore previousEnd l f = endBefore previousEnd l' f := by
  cases f with
  | zero => rfl
  | succ f =>
    have hf := congrArg (fun ds => ds[f]?.map Prod.snd) h
    simp only [List.getElem?_map, Option.map_map] at hf
    exact congrArg (Option.getD · 0) hf

theorem SameGroup.of_depths {l : Lhs ν α} {l' : Lhs μ β}
    (h : l.map Condition.depths = l'.map Condition.depths) {depth i j : Nat}
    (hg : l.SameGroup depth i j) : l'.SameGroup depth i j where
  lt := hg.lt
  pos := hg.pos
  first := by rw [map_beginDepth_getElem?, ← h, ← map_beginDepth_getElem?, hg.first]
  second := by rw [map_beginDepth_getElem?, ← h, ← map_beginDepth_getElem?, hg.second]
  inside := by
    rw [forall_between_iff, ← h, ← forall_between_iff]
    exact hg.inside

theorem runOpened_of_depths {l : Lhs ν α} {l' : Lhs μ β}
    (h : l.map Condition.depths = l'.map Condition.depths) (depth i j : Nat) :
    l.RunOpened depth i j ↔ l'.RunOpened depth i j := by
  refine exists_congr fun f => and_congr_right fun _ => and_congr ?_ ?_
  · rw [OpensRun, OpensRun, map_beginDepth_getElem?, map_beginDepth_getElem?, h,
      endBefore_of_depths h]
  · rw [forall_between_iff, forall_between_iff, h]

/-! ### Later members -/

/-- A later member of a group loses what it defers if the run of the group is open, and else
keeps it. -/
theorem SameGroup.getElem?_collapse {l : Lhs Symbol Note} (hl : l.Nested) {depth i j : Nat}
    (h : l.SameGroup depth i j) {x : Condition Symbol Note} (hx : l[j]? = some x) :
    (l.RunOpened depth i j → (collapse l)[j]? = some (x.withDeferred {})) ∧
      (¬ l.RunOpened depth i j → (collapse l)[j]? = some x) := by
  have hdepth : x.beginDepth = depth := by simpa [hx] using h.second
  have hend := h.endBefore_eq hl h.lt le_rfl h.second
  have hcollapse := Lhs.getElem?_collapse hx
  rw [hdepth, hend] at hcollapse
  refine ⟨fun ho => ?_, fun ho => ?_⟩
  · rw [hcollapse, if_pos ((h.mem_openedAfter_iff hl).2 ho)]
  · rw [hcollapse, if_neg (mt (h.mem_openedAfter_iff hl).1 ho), if_neg (fun hne => hne.2 rfl)]
    rfl

/-- **A later member of a negated group defers nothing, exactly if the run of the group was opened
or the member has nothing to defer.** The run of a group is opened by the group's first condition,
and only if that begins at the depth of the group. -/
theorem deferred_empty_iff_run_opened {steps : List (Step String Unit)}
    (hsteps : Step.keepsDepthsAll steps = true) {t : SymbolTable} {c : Context}
    {r : Lhs Symbol Note} (h : ((ofSteps steps).intern t).1.compile c = .ok r) {depth i j : Nat}
    (hg : r.SameGroup depth i j) {y : Condition Symbol Note} (hy : r[j]? = some y) :
    (y.note.out.deferred.test = none ∧ y.note.out.deferred.hash = []) ↔
      r.RunOpened depth i j ∨
        ∃ u x, compileFrom c 1 0 0 [] ((ofSteps steps).intern t).1 = .ok u ∧ u[j]? = some x ∧
          x.note.out.deferred.test = none ∧ x.note.out.deferred.hash = [] := by
  obtain ⟨u, hu, rfl⟩ := exists_compileFrom_of_compile h
  have hdepths : (collapse u).map Condition.depths = u.map Condition.depths :=
    map_depths_of_bare (bare_collapse u)
  have hnested : u.Nested :=
    (nested_ofSteps hsteps).of_depths
      ((map_depths_intern _ t).symm.trans (map_depths_of_bare (bare_of_compileFrom hu).symm))
  have hgu := hg.of_depths hdepths
  obtain ⟨x, hx, -⟩ := Option.map_eq_some_iff.1 hgu.second
  obtain ⟨hopened, hclosed⟩ := hgu.getElem?_collapse hnested hx
  rw [runOpened_of_depths hdepths]
  by_cases ho : u.RunOpened depth i j
  · have hyx : y = x.withDeferred {} := Option.some.inj (hy.symm.trans (hopened ho))
    rw [hyx]
    exact ⟨fun _ => .inl ho, fun _ => ⟨rfl, rfl⟩⟩
  · have hyx : y = x := Option.some.inj (hy.symm.trans (hclosed ho))
    rw [hyx, or_iff_right ho]
    constructor
    · rintro ⟨htest, hhash⟩
      exact ⟨u, x, hu, hx, htest, hhash⟩
    · rintro ⟨u', x', hu', hx', hempty⟩
      obtain rfl : u = u' := Except.ok.inj (hu.symm.trans hu')
      obtain rfl : x = x' := Option.some.inj (hx.symm.trans hx')
      exact hempty

/-- A negated group of two patterns that use outer variables. -/
def plainGroup : List (Step String Unit) :=
  [.pattern (factPattern [some "x", some "y"]),
    .notGroup [.pattern (factPattern [some "x"]), .pattern (factPattern [some "y"])]]

/-- The same group with a negated pattern in front. -/
def groupOpeningWithNot : List (Step String Unit) :=
  [.pattern (factPattern [some "x", some "y"]),
    .notGroup [.notPattern (factPattern [none]), .pattern (factPattern [some "x"]),
      .pattern (factPattern [some "y"])]]

theorem plainGroup_second_member_defers_nothing :
    ∃ r y, compiledSteps plainGroup = .ok r ∧ r.SameGroup 1 1 2 ∧ r[2]? = some y ∧
      y.note.out.deferred.test = none ∧ y.note.out.deferred.hash = [] := by
  obtain ⟨r, hr, hcheck⟩ := exists_ok_of_check (e := compiledSteps plainGroup)
    (p := fun r => decide (r.SameGroup 1 1 2 ∧ OpensRun 0 r 1 1)) (by decide +kernel)
  obtain ⟨hg, hopens⟩ := of_decide_eq_true hcheck
  obtain ⟨y, hy, -⟩ := Option.map_eq_some_iff.1 hg.second
  refine ⟨r, y, hr, hg, hy, ?_⟩
  have hsteps : Step.keepsDepthsAll plainGroup = true := by decide +kernel
  exact (deferred_empty_iff_run_opened hsteps hr hg hy).2 (.inl ⟨1, le_rfl, hopens, hg.inside⟩)

/-- In a group that opens with a negated pattern, the second member keeps its deferred test. -/
theorem groupOpeningWithNot_second_member_defers :
    ∃ r y, compiledSteps groupOpeningWithNot = .ok r ∧ r.SameGroup 1 2 3 ∧ r[3]? = some y ∧
      ¬ (y.note.out.deferred.test = none ∧ y.note.out.deferred.hash = []) := by
  obtain ⟨r, hr, hcheck⟩ := exists_ok_of_check (e := compiledSteps groupOpeningWithNot)
    (p := fun r => decide (r.SameGroup 1 2 3) && r[3]?.any (·.note.out.deferred.test.isSome))
    (by decide +kernel)
  rw [Bool.and_eq_true, decide_eq_true_eq, Option.any_eq_true] at hcheck
  obtain ⟨hg, y, hy, hsome⟩ := hcheck
  exact ⟨r, y, hr, hg, hy, fun hempty => by simp [hempty.1] at hsome⟩

end Lhs

end Antecedent
