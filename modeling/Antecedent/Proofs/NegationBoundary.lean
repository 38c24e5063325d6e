import Antecedent.Proofs.Contributions
import Antecedent.Proofs.NegatedGroups

/-!
# Reads across the boundary of a negated group

A test that refers to something bound outside of a negated group has to wait for the join of the
group; a test that does not must not wait. Which test waits is decided for every field, and where the
waiting tests end up is decided when the negated runs are collapsed.

* `Lhs.deferred_collapse_of_members` says that what a condition defers after collapsing is put together
  from what the members of its run defer.
* `Lhs.reads_respect_boundary` says that a join reads nothing from outside of its group, that whatever
  is deferred reads something from outside, and that a field which refers to its own pattern only has
  no part in either.
* `Lhs.GroupSees` says what the join of a negated group sees.
* `Lhs.stages_read_what_they_see` says that tests on the candidate read the candidate, that tests in
  the join read neither that nor members of a group, and that deferred tests read what the join of the
  group sees, also after they have been moved.
-/

namespace Antecedent

variable {ν α : Type}

/-! ## Properties of what is put together -/

namespace JoinOutput

/-- A property that a concatenation has if both sides have it. -/
structure Closed (H : JoinOutput → Prop) : Prop where
  empty : H {}
  append : ∀ a b, H a → H b → H (a ++ b)

theorem Conjunctive.closed {H : JoinOutput → Prop} (hH : Conjunctive H) : Closed H :=
  ⟨hH.empty, fun a b ha hb => (hH.append a b).2 ⟨ha, hb⟩⟩

theorem Closed.all {H : JoinOutput → Prop} (hH : Closed H) {os : List JoinOutput}
    (h : ∀ o ∈ os, H o) : H (.all os) := by
  induction os with
  | nil => exact hH.empty
  | cons o os ih =>
    obtain ⟨ho, hos⟩ := List.forall_mem_cons.1 h
    exact hH.append _ _ ho (ih hos)

theorem closed_reads (P : Fetch → Prop) : Closed fun o => ∀ f ∈ Test.reads o.test, P f where
  empty := by simp
  append a b ha hb := by
    rw [test_append, Test.reads_conjoin]
    exact List.forall_mem_append.2 ⟨ha, hb⟩

/-- If a concatenation has a test, then it reads whatever one of its sides reads. -/
theorem closed_exists_read (P : Fetch → Prop) :
    Closed fun o => o.test ≠ none → ∃ f ∈ Test.reads o.test, P f where
  empty := fun h => absurd rfl h
  append a b ha hb := by
    intro h
    rw [test_append, ne_eq, Test.conjoin_eq_none_iff, not_and_or] at h
    rw [test_append, Test.reads_conjoin]
    rcases h with h | h
    · obtain ⟨f, hf, hP⟩ := ha h
      exact ⟨f, List.mem_append_left _ hf, hP⟩
    · obtain ⟨f, hf, hP⟩ := hb h
      exact ⟨f, List.mem_append_right _ hf, hP⟩

end JoinOutput

namespace Lhs

section Members

variable {H : JoinOutput → Prop} (hH : JoinOutput.Closed H)

include hH

theorem runDeferred_of_members {l : Lhs Symbol Note} {depth : Nat}
    (h : ∀ j x, l[j]? = some x → x.beginDepth = depth → (∀ z ∈ l.take j, depth ≤ z.endDepth) →
      H x.deferred) : H (runDeferred depth l) := by
  induction l with
  | nil => exact hH.empty
  | cons k ks ih =>
    rw [runDeferred]
    refine hH.append _ _ ?_ ?_
    · split
      · next hk => exact h 0 k rfl hk (by simp)
      · exact hH.empty
    · split
      · exact hH.empty
      · next hend =>
        refine ih fun j x hx hdepth hinside => h (j + 1) x hx hdepth ?_
        rw [List.take_succ_cons]
        exact List.forall_mem_cons.2 ⟨Nat.le_of_not_lt hend, hinside⟩

/-- What a condition defers after collapsing has a property if what the members of its run defer has
it. The members begin at the same depth, and nothing in between ends below that. -/
theorem deferred_collapse_of_members {l : Lhs Symbol Note} {i : Nat} {y : Condition Symbol Note}
    (hy : (collapse l)[i]? = some y)
    (h : ∀ j x, i ≤ j → l[j]? = some x → x.beginDepth = y.beginDepth →
      (∀ z ∈ l.between i j, y.beginDepth ≤ z.endDepth) → H x.deferred) : H y.deferred := by
  have hi : i < l.length := by
    have hlt := (List.getElem?_eq_some_iff.1 hy).1
    rwa [collapse, length_collapseFrom] at hlt
  have hx : l[i]? = some l[i] := List.getElem?_eq_getElem hi
  obtain rfl := Option.some.inj ((getElem?_collapse hx).symm.trans hy)
  rw [Condition.deferred_withDeferred]
  split
  · exact hH.empty
  · split
    · refine runDeferred_of_members hH fun j x hxj hdepth hinside => ?_
      rw [List.getElem?_drop] at hxj
      refine h (i + j) x (Nat.le_add_right i j) hxj hdepth fun z hz => hinside z ?_
      rw [List.take_drop]
      exact hz
    · refine h i l[i] (Nat.le_refl i) hx rfl fun z hz => ?_
      simp [between] at hz

end Members

/-! ## What the conditions read -/

theorem exists_conditionAt {pattern joins id : Nat} {l : Lhs Symbol α} {j : Nat}
    {k : Condition Symbol α} (h : l[j]? = some k) :
    ∃ z ∈ conditionsFrom pattern joins id l, z.pattern = pattern + j ∧ z.condition = k := by
  induction l generalizing pattern joins id j with
  | nil => cases h
  | cons k' ks ih =>
    cases j with
    | zero =>
      obtain rfl := Option.some.inj h
      exact ⟨_, List.mem_cons_self, rfl, rfl⟩
    | succ j =>
      obtain ⟨z, hz, hpattern, hcondition⟩ := ih h
      exact ⟨z, List.mem_cons_of_mem _ hz, by omega, hcondition⟩

theorem InSight.mem_binders {l : Lhs Symbol α} {pattern : Nat} {o : Origin}
    (h : l.InSight pattern o) : ∃ x, (x, o) ∈ l.binders := by
  obtain ⟨i, x, ho⟩ := h
  exact ⟨x, mem_binders_of_mem_visible ho⟩

/-- What is in sight stands in the same condition, or reaches it from an earlier one. -/
theorem InSight.eq_or_reaches {l : Lhs Symbol α} {pattern : Nat} {o : Origin}
    (h : l.InSight pattern o) :
    o.place.pattern = pattern ∨ o.place.pattern < pattern ∧ l.Reaches pattern o := by
  obtain ⟨i, x, ho⟩ := h
  obtain ⟨b, hb, rfl⟩ := List.mem_map.1 ho
  obtain ⟨-, hsees⟩ := of_decide_eq_true (List.mem_filter.1 hb).2
  exact hsees.imp_left And.left

/-- All binding occurrences of a condition begin at its depth. -/
theorem beginDepth_of_mem_binders {l : Lhs Symbol α} {b : Symbol × Origin} (hb : b ∈ l.binders)
    {y : ConditionAt α} (hy : y ∈ l.conditionsAt) (hpattern : b.2.place.pattern = y.pattern) :
    b.2.place.beginDepth = y.condition.beginDepth := by
  obtain ⟨h, hh, -, hdepth⟩ := exists_of_mem_binders hb
  rw [hpattern, (getElem?_of_mem_conditionsFrom hy).2] at hh
  rw [hdepth, Option.some.inj hh]

section Reads

variable {c : Context} {l : Lhs Symbol α} {u : Lhs Symbol Note}

theorem settled_of_mem_fields (hu : compileFrom c 1 0 0 [] l = .ok u) {y : ConditionAt Note}
    (hy : y ∈ u.conditionsAt) : ∀ x ∈ y.fields, x.Settled l := by
  cases hq : y.condition.element with
  | pattern mode q => exact (outputs_of_pattern hu hy hq).2
  | test t => simp [ConditionAt.fields, Condition.fieldsAt, hq]

/-- The join of a condition reads the entering entity, and from the partial match what is in sight and
bound no less deep. -/
theorem side_join_of_mem (hu : compileFrom c 1 0 0 [] l = .ok u) {y : ConditionAt Note}
    (hy : y ∈ u.conditionsAt) : ∀ f ∈ y.condition.note.out.join.leftReads, f.side = .joining ∨
      ∃ o, l.InSight y.pattern o ∧ f.side = .matched o.place.site.joinDepth ∧
        y.condition.beginDepth ≤ o.place.beginDepth := by
  cases hq : y.condition.element with
  | pattern mode q =>
    obtain ⟨hout, hfields⟩ := outputs_of_pattern hu hy hq
    rw [hout]
    refine (JoinOutput.conjunctive_leftReads _).closed.all ?_
    rw [List.forall_mem_map]
    intro x hx f hf
    obtain ⟨hpattern, hbegin, -⟩ := ConditionAt.place_of_mem_fields hx
    refine (Outputs.side_join_ofField hf).imp_right fun ⟨o, ho, hside, hlevel⟩ => ⟨o, ?_, hside, ?_⟩
    · rw [(hfields x hx).references_eq] at ho
      exact hpattern ▸ (hfields x hx).inSight o ho
    · exact hbegin ▸ hlevel
  | test t =>
    obtain ⟨e, -, hout, hsight⟩ := outputs_of_test hu hy hq
    rw [hout]
    intro f hf
    refine (Outputs.side_join_ofTest hf).imp_right fun ⟨o, ho, hside, hlevel⟩ => ?_
    exact ⟨o, hsight o ho, hside, hlevel⟩

theorem side_join_of_compile {r : Lhs Symbol Note} (h : l.compile c = .ok r) :
    ∀ y ∈ r.conditionsAt, ∀ f ∈ y.condition.note.out.join.leftReads, f.side = .joining ∨
      ∃ o, l.InSight y.pattern o ∧ f.side = .matched o.place.site.joinDepth ∧
        y.condition.beginDepth ≤ o.place.beginDepth := by
  obtain ⟨u, hu, rfl⟩ := exists_compileFrom_of_compile h
  exact (forall_conditionsAt_collapse (fun z d => Iff.rfl) u).2 fun y hy => side_join_of_mem hu hy

theorem side_candidate_of_compile {r : Lhs Symbol Note} (h : l.compile c = .ok r) :
    ∀ y ∈ r.conditionsAt, ∀ x ∈ y.fields,
      (∀ f ∈ Test.reads x.field.note.out.candidate, f.side = .candidate) ∧
        ∀ look ∈ x.field.note.out.lookup, ∀ f ∈ look.selector.fetches, f.side = .candidate := by
  obtain ⟨u, hu, rfl⟩ := exists_compileFrom_of_compile h
  refine (forall_conditionsAt_collapse (fun z d => Iff.rfl) u).2 fun y hy x hx => ?_
  rw [(settled_of_mem_fields hu hy x hx).out_eq]
  exact ⟨fun f hf => Outputs.side_candidate_ofField hf,
    fun look hlook f hf => Outputs.side_selector_ofField hlook hf⟩

/-- What a condition defers reads its own entity from the members of the group, and what is in sight
from them or from the partial match. -/
theorem side_deferred_of_mem (hu : compileFrom c 1 0 0 [] l = .ok u) {y : ConditionAt Note}
    (hy : y ∈ u.conditionsAt) : ∀ f ∈ Test.reads y.condition.deferred.test,
      y.condition.pattern?.isSome = true ∧ f.side = .nested y.joinDepth ∨
        ∃ o, l.InSight y.pattern o ∧ o.ReadDeferred y.condition.beginDepth f := by
  unfold Condition.deferred
  cases hq : y.condition.element with
  | pattern mode q =>
    obtain ⟨hout, hfields⟩ := outputs_of_pattern hu hy hq
    rw [hout]
    refine (JoinOutput.closed_reads _).all ?_
    rw [List.forall_mem_map]
    intro x hx f hf
    obtain ⟨hpattern, hbegin, hjoin⟩ := ConditionAt.place_of_mem_fields hx
    have hside := Outputs.side_deferred_ofField (hfields x hx).joinDepth_eq hf
    rw [hjoin, hbegin, (hfields x hx).references_eq] at hside
    rcases hside with hside | ⟨o, ho, hread⟩
    · exact .inl ⟨by simp [Condition.pattern?, hq], hside⟩
    · exact .inr ⟨o, hpattern ▸ (hfields x hx).inSight o ho, hread⟩
  | test t =>
    obtain ⟨e, -, hout, hsight⟩ := outputs_of_test hu hy hq
    rw [hout]
    intro f hf
    obtain ⟨o, ho, hread⟩ := Outputs.side_deferred_ofTest hf
    exact .inr ⟨o, hsight o ho, hread⟩

/-- A condition that defers a test reads in it something in sight that is bound less deep. -/
theorem exists_outer_read_of_mem (hu : compileFrom c 1 0 0 [] l = .ok u) {y : ConditionAt Note}
    (hy : y ∈ u.conditionsAt) (h : y.condition.deferred.test ≠ none) :
    ∃ f ∈ Test.reads y.condition.deferred.test, ∃ o, l.InSight y.pattern o ∧
      f.side = .matched o.place.site.joinDepth ∧ o.place.beginDepth < y.condition.beginDepth := by
  revert h
  unfold Condition.deferred
  cases hq : y.condition.element with
  | pattern mode q =>
    obtain ⟨hout, hfields⟩ := outputs_of_pattern hu hy hq
    rw [hout]
    refine (JoinOutput.closed_exists_read _).all ?_
    rw [List.forall_mem_map]
    intro x hx hne
    obtain ⟨hpattern, hbegin, -⟩ := ConditionAt.place_of_mem_fields hx
    have hsight : ∀ o ∈ Staging.references x.field.note.origin x.bound, l.InSight y.pattern o := by
      rw [(hfields x hx).references_eq, ← hpattern]
      exact (hfields x hx).inSight
    have hlevel : ∀ o ∈ Staging.references x.field.note.origin x.bound,
        o.place.pattern = x.place.pattern → o.place.beginDepth = x.place.beginDepth := by
      intro o ho heq
      obtain ⟨name, hmem⟩ := (hsight o ho).mem_binders
      have hbinders : u.binders = l.binders := binders_of_compileFrom hu
      rw [← hbinders] at hmem
      rw [hbegin]
      exact beginDepth_of_mem_binders hmem hy (heq.trans hpattern)
    obtain ⟨f, hf, o, ho, hside, hlt⟩ := Outputs.exists_outer_read_ofField hlevel hne
    exact ⟨f, hf, o, hsight o ho, hside, hbegin ▸ hlt⟩
  | test t =>
    obtain ⟨e, -, hout, hsight⟩ := outputs_of_test hu hy hq
    rw [hout]
    intro hne
    obtain ⟨f, hf, o, ho, hside, hlt⟩ := Outputs.exists_outer_read_ofTest hne
    exact ⟨f, hf, o, hsight o ho, hside, hlt⟩

end Reads

/-! ## The boundary -/

/-- The pattern of a binding occurrence in sight is found by its join depth. -/
theorem InSight.exists_patternAt? {c : Context} {l : Lhs Symbol α} {r : Lhs Symbol Note}
    (h : l.compile c = .ok r) {pattern : Nat} {o : Origin} (ho : l.InSight pattern o) :
    ∃ z, r.patternAt? o.place.site.joinDepth = some z ∧
      z.condition.beginDepth = o.place.beginDepth := by
  obtain ⟨x, hx⟩ := ho.mem_binders
  obtain ⟨z, hz, -, hbegin⟩ := patternAt?_of_mem_binders (binders_compile h ▸ hx)
  exact ⟨z, hz, hbegin⟩

/-- What a join reads from the partial match is bound no less deep than its condition. -/
theorem beginDepth_le_of_mem_leftReads {c : Context} {l : Lhs Symbol α} {r : Lhs Symbol Note}
    (h : l.compile c = .ok r) {y : ConditionAt Note} (hy : y ∈ r.conditionsAt) {f : Fetch}
    (hf : f ∈ y.condition.note.out.join.leftReads) {d : Nat} (hd : f.side = .matched d) :
    ∃ z, r.patternAt? d = some z ∧ y.condition.beginDepth ≤ z.condition.beginDepth := by
  rcases side_join_of_compile h y hy f hf with hside | ⟨o, ho, hside, hlevel⟩
  · rw [hside] at hd
    cases hd
  · obtain rfl := Side.matched.inj (hside.symm.trans hd)
    obtain ⟨z, hz, hbegin⟩ := ho.exists_patternAt? h
    exact ⟨z, hz, hbegin ▸ hlevel⟩

/-- What is deferred reads something that is bound less deep, also after it has been moved. -/
theorem exists_outer_read_of_compile {c : Context} {l : Lhs Symbol α} {r : Lhs Symbol Note}
    (h : l.compile c = .ok r) {y : ConditionAt Note} (hy : y ∈ r.conditionsAt) :
    y.condition.deferred.test ≠ none →
      ∃ f ∈ Test.reads y.condition.deferred.test, ∃ d z, f.side = .matched d ∧
        r.patternAt? d = some z ∧ z.condition.beginDepth < y.condition.beginDepth := by
  have hfound := fun {pattern : Nat} {o : Origin} (ho : l.InSight pattern o) =>
    ho.exists_patternAt? h
  obtain ⟨u, hu, rfl⟩ := exists_compileFrom_of_compile h
  have hget := (getElem?_of_mem_conditionsFrom hy).2
  refine deferred_collapse_of_members (JoinOutput.closed_exists_read _) hget ?_
  intro j x _ hx hbegin _ hne
  obtain ⟨w, hw, -, rfl⟩ := exists_conditionAt hx
  obtain ⟨f, hf, o, ho, hside, hlt⟩ := exists_outer_read_of_mem hu hw hne
  obtain ⟨z, hz, hz'⟩ := hfound ho
  exact ⟨f, hf, _, z, hside, hz, by omega⟩

/-- The outputs of a compiled pattern are what its fields contribute, and a field that refers to
nothing outside of the pattern contributes nothing. -/
theorem contributes_nothing_within {c : Context} {l : Lhs Symbol α} {u : Lhs Symbol Note}
    (hu : compileFrom c 1 0 0 [] l = .ok u) {y : ConditionAt Note} (hy : y ∈ u.conditionsAt)
    (hpattern : y.condition.pattern?.isSome = true) :
    y.condition.note.out =
        { join := .all (y.fields.map fun x => x.outputs.join)
          deferred := .all (y.fields.map fun x => x.outputs.deferred) } ∧
      ∀ x ∈ y.fields, (∀ o ∈ x.field.note.origin.toList ++ x.references,
          o.place.pattern = x.place.pattern) →
        x.outputs.join = {} ∧ x.outputs.deferred = {} := by
  obtain ⟨mode, q, hq⟩ : ∃ mode q, y.condition.element = .pattern mode q := by
    cases he : y.condition.element with
    | pattern mode q => exact ⟨mode, q, rfl⟩
    | test t => simp [Condition.pattern?, he] at hpattern
  obtain ⟨hout, hfields⟩ := outputs_of_pattern hu hy hq
  refine ⟨hout, fun x hx hwithin => Outputs.ofField_of_within ?_⟩
  rw [(hfields x hx).references_eq]
  exact hwithin

/-- **Reads across the boundary of a negated group.** What a join reads from the partial match is bound
no less deep than its condition. What is deferred reads something that is bound less deep, so nothing
is deferred outside of all groups. The outputs of a pattern before collapsing are what its fields
contribute, and a field that refers to nothing outside of its pattern contributes nothing to them. -/
theorem reads_respect_boundary {c : Context} {l : Lhs Symbol α} {r : Lhs Symbol Note}
    (h : l.compile c = .ok r) :
    (∀ y ∈ r.conditionsAt, ∀ f ∈ y.condition.note.out.join.leftReads, ∀ d, f.side = .matched d →
      ∃ z, r.patternAt? d = some z ∧ y.condition.beginDepth ≤ z.condition.beginDepth) ∧
    (∀ y ∈ r.conditionsAt, y.condition.deferred.test ≠ none →
      y.condition.beginDepth ≠ 0 ∧ ∃ f ∈ Test.reads y.condition.deferred.test, ∃ d z,
        f.side = .matched d ∧ r.patternAt? d = some z ∧
        z.condition.beginDepth < y.condition.beginDepth) ∧
    ∃ u, compileFrom c 1 0 0 [] l = .ok u ∧ r = collapse u ∧
      ∀ y ∈ u.conditionsAt, y.condition.pattern?.isSome = true →
        y.condition.note.out =
          { join := .all (y.fields.map fun x => x.outputs.join)
            deferred := .all (y.fields.map fun x => x.outputs.deferred) } ∧
        ∀ x ∈ y.fields, (∀ o ∈ x.field.note.origin.toList ++ x.references,
            o.place.pattern = x.place.pattern) →
          x.outputs.join = {} ∧ x.outputs.deferred = {} := by
  refine ⟨fun y hy f hf d hd => beginDepth_le_of_mem_leftReads h hy hf hd, fun y hy hne => ?_, ?_⟩
  · obtain ⟨f, hf, d, z, hside, hz, hlt⟩ := exists_outer_read_of_compile h hy hne
    exact ⟨by omega, f, hf, d, z, hside, hz, hlt⟩
  · obtain ⟨u, hu, rfl⟩ := exists_compileFrom_of_compile h
    exact ⟨u, hu, rfl, fun y hy hpattern => contributes_nothing_within hu hy hpattern⟩

/-- In a negated group of two patterns, what is deferred reads the pattern in front of the group. -/
theorem plainGroup_defers_outer_read :
    ∃ r y, compiledSteps plainGroup = .ok r ∧ y ∈ r.conditionsAt ∧
      ∃ f ∈ Test.reads y.condition.deferred.test, ∃ d z, f.side = .matched d ∧
        r.patternAt? d = some z ∧ z.condition.beginDepth < y.condition.beginDepth := by
  obtain ⟨r, hr, hcheck⟩ := exists_ok_of_check (e := compiledSteps plainGroup)
    (p := fun r => r.conditionsAt.any fun y => y.condition.deferred.test.isSome) (by decide +kernel)
  obtain ⟨y, hy, hsome⟩ := List.any_eq_true.1 hcheck
  have hne : y.condition.deferred.test ≠ none := Option.isSome_iff_ne_none.1 hsome
  obtain ⟨-, f, hf⟩ := (reads_respect_boundary hr).2.1 y hy hne
  exact ⟨r, y, hr, hy, f, hf⟩

/-! ## What the join of a group sees -/

/-- From the earlier one of two conditions on, and before the later one, no condition ends below the
given depth. -/
def Together (l : Lhs ν α) (depth m n : Nat) : Prop :=
  ∀ z ∈ l.between (min m n - 1) (max m n - 1), depth ≤ z.endDepth

/-- What the join of a negated group sees if condition number `pattern` carries its tests: the members
of the group, and of the partial match the patterns in front of that condition that begin less deep. -/
inductive GroupSees (l : Lhs Symbol α) (pattern depth : Nat) (f : Fetch) : Prop where
  | member {d : Nat} {z : ConditionAt α} (side : f.side = .nested d) (found : l.patternAt? d = some z)
      (level : z.condition.beginDepth = depth) (together : l.Together depth pattern z.pattern)
  | outer {d : Nat} {z : ConditionAt α} (side : f.side = .matched d) (found : l.patternAt? d = some z)
      (level : z.condition.beginDepth < depth) (earlier : z.pattern < pattern)

/-- If nothing from some condition on ends below a depth, then nothing after it begins below it. -/
theorem Nested.le_beginDepth {l : Lhs ν α} (hl : l.Nested) {depth i m : Nat} (hlt : i < m)
    (h : ∀ z ∈ l.between i m, depth ≤ z.endDepth) {k : Condition ν α} (hk : l[m]? = some k) :
    depth ≤ k.beginDepth := by
  obtain ⟨hm, rfl⟩ := List.getElem?_eq_some_iff.1 hk
  obtain ⟨n, rfl⟩ : ∃ n, m = n + 1 := ⟨m - 1, by omega⟩
  have hn : l[n]? = some l[n] := List.getElem?_eq_getElem (by omega)
  calc depth ≤ l[n].endDepth := h _ (mem_between hn (by omega) (by omega))
    _ ≤ l[n + 1].beginDepth := List.isChain_iff_getElem.1 hl.chain n hm

/-- What is in sight of a member of a group is bound no deeper than the group, because the conditions
are nested. -/
theorem beginDepth_le_of_sight {l : Lhs Symbol α} (hl : l.Nested) {j : Nat} {x : Condition Symbol α}
    (hx : l[j]? = some x) {b : Symbol × Origin} (hb : b ∈ l.binders)
    (hsight : b.2.place.pattern = j + 1 ∨ b.2.place.pattern < j + 1 ∧
      ∀ z ∈ l.between (b.2.place.pattern - 1) j, b.2.place.beginDepth ≤ z.endDepth) :
    b.2.place.beginDepth ≤ x.beginDepth := by
  obtain ⟨k, hk, hpos, hkbegin⟩ := exists_of_mem_binders hb
  rcases hsight with heq | ⟨hlt, hreaches⟩
  · rw [heq, Nat.add_sub_cancel, hx] at hk
    rw [hkbegin, ← Option.some.inj hk]
  · exact hl.le_beginDepth (by omega) hreaches hx

/-- What a member of a run reads for a deferred test, the join of the group sees from the condition
that the test is moved to. -/
theorem groupSees_of_readDeferred {l : Lhs Symbol α} (hl : l.Nested) {i j depth : Nat} (hij : i ≤ j)
    {y x : Condition Symbol α} (hy : l[i]? = some y) (hx : l[j]? = some x)
    (hybegin : y.beginDepth = depth) (hxbegin : x.beginDepth = depth)
    (hinside : ∀ z ∈ l.between i j, depth ≤ z.endDepth) {b : Symbol × Origin} (hb : b ∈ l.binders)
    (hsight : b.2.place.pattern = j + 1 ∨ b.2.place.pattern < j + 1 ∧
      ∀ z ∈ l.between (b.2.place.pattern - 1) j, b.2.place.beginDepth ≤ z.endDepth)
    {f : Fetch} (hread : b.2.ReadDeferred depth f) : l.GroupSees (i + 1) depth f := by
  obtain ⟨k, hk, hpos, hkbegin⟩ := exists_of_mem_binders hb
  obtain ⟨z, hz, hnumber, hzbegin⟩ := patternAt?_of_mem_binders hb
  have hle : b.2.place.beginDepth ≤ depth := hxbegin ▸ beginDepth_le_of_sight hl hx hb hsight
  cases hread with
  | nested side level =>
    have hdepth : b.2.place.beginDepth = depth := Nat.le_antisymm hle level
    refine .member side hz (hzbegin.trans hdepth) fun w hw => ?_
    rw [hnumber] at hw
    -- in front of the run, the occurrence itself reaches; inside of it, the run lasts
    rcases hsight with heq | ⟨hlt, hreaches⟩
    · exact hinside w (between_subset (by omega) (by omega) hw)
    · rcases Nat.le_total (b.2.place.pattern - 1) i with hi | hi
      · exact hdepth ▸ hreaches w (between_subset (by omega) (by omega) hw)
      · exact hinside w (between_subset (by omega) (by omega) hw)
  | matched side level =>
    have hless : b.2.place.beginDepth < depth := Nat.lt_of_le_of_ne hle level
    refine .outer side hz (hzbegin ▸ hless) ?_
    -- inside of the run, nothing begins less deep than the run
    by_contra hge
    rw [hnumber] at hge
    by_cases hi : b.2.place.pattern - 1 = i
    · rw [hi, hy] at hk
      rw [Option.some.inj hk] at hybegin
      omega
    · have hinside' : ∀ z ∈ l.between i (b.2.place.pattern - 1), depth ≤ z.endDepth :=
        fun z hz => hinside z (between_subset (by omega) (by omega) hz)
      have hbegin := hl.le_beginDepth (by omega) hinside' hk
      omega

theorem map_depths_of_compile {c : Context} {l : Lhs Symbol α} {r : Lhs Symbol Note}
    (h : l.compile c = .ok r) : r.map Condition.depths = l.map Condition.depths := by
  obtain ⟨u, hu, rfl⟩ := exists_compileFrom_of_compile h
  rw [map_depths_of_bare (bare_collapse u), map_depths_of_bare (bare_of_compileFrom hu)]

/-- What is in sight from an earlier condition stays inside of everything in between. -/
theorem InSight.eq_or_between {l : Lhs Symbol α} {r : Lhs Symbol Note}
    (hdepths : r.map Condition.depths = l.map Condition.depths) {pattern : Nat} {o : Origin}
    (h : l.InSight pattern o) : o.place.pattern = pattern ∨ o.place.pattern < pattern ∧
      ∀ z ∈ r.between (o.place.pattern - 1) (pattern - 1), o.place.beginDepth ≤ z.endDepth := by
  refine h.eq_or_reaches.imp_right fun ⟨hlt, k, hk, _, hreaches⟩ => ⟨hlt, ?_⟩
  obtain ⟨x, hx⟩ := h.mem_binders
  obtain ⟨k', hk', -, hdepth⟩ := exists_of_mem_binders hx
  obtain rfl : k = k' := Option.some.inj ((Option.mem_def.1 hk).symm.trans hk')
  rw [forall_between_iff, hdepths, ← forall_between_iff, hdepth]
  exact hreaches

/-- **What a deferred test reads**, the join of its group sees from where the test ends up. -/
theorem groupSees_of_mem_deferred {c : Context} {l : Lhs Symbol α} {r : Lhs Symbol Note}
    (hl : l.Nested) (h : l.compile c = .ok r) {y : ConditionAt Note} (hy : y ∈ r.conditionsAt) :
    ∀ f ∈ Test.reads y.condition.deferred.test, r.GroupSees y.pattern y.condition.beginDepth f := by
  have hdepths := map_depths_of_compile h
  have hbinders := binders_compile h
  have hnested : r.Nested := hl.of_depths hdepths.symm
  obtain ⟨u, hu, rfl⟩ := exists_compileFrom_of_compile h
  obtain ⟨hpos, hget⟩ := getElem?_of_mem_conditionsFrom hy
  obtain ⟨i, hi⟩ : ∃ i, y.pattern = i + 1 := ⟨y.pattern - 1, by omega⟩
  rw [hi, Nat.add_sub_cancel] at hget
  rw [hi]
  refine deferred_collapse_of_members (JoinOutput.closed_reads _) hget ?_
  intro j x hij hx hbegin hinside f hf
  rw [forall_between_iff, ← map_depths_of_bare (bare_collapse u), ← forall_between_iff] at hinside
  obtain ⟨w, hw, hnumber, rfl⟩ := exists_conditionAt hx
  rcases side_deferred_of_mem hu hw f hf with ⟨hpattern, hside⟩ | ⟨o, ho, hread⟩
  · obtain ⟨w', hw', d, rfl⟩ :=
      exists_of_mem_forall₂ (forall₂_conditionsFrom (forall₂_collapse u) 1 0 0) hw
    have hfound := patternAt?_eq hw' hpattern
    refine .member hside hfound hbegin fun z hz => hinside z ?_
    have hz : z ∈ (collapse u).between (min (i + 1) w.pattern - 1) (max (i + 1) w.pattern - 1) := hz
    exact between_subset (by omega) (by omega) hz
  · obtain ⟨name, hmem⟩ := ho.mem_binders
    have hsight := ho.eq_or_between hdepths
    rw [hnumber, Nat.add_comm, Nat.add_sub_cancel] at hsight
    rw [hbegin] at hread
    exact groupSees_of_readDeferred hnested hij hget (getElem?_collapse hx) rfl hbegin hinside
      (hbinders ▸ hmem) hsight hread

/-- **Every stage reads what it sees.** Tests on the candidate and the selectors of look-ups read the
candidate. Tests in the join read neither the candidate nor a member of a negated group. A deferred test
reads members of the group of the condition that carries it, and patterns in front of that condition
that begin less deep. -/
theorem stages_read_what_they_see {steps : List (Step String Unit)}
    (hsteps : Step.keepsDepthsAll steps = true) {t : SymbolTable} {c : Context}
    {r : Lhs Symbol Note} (h : ((ofSteps steps).intern t).1.compile c = .ok r)
    {y : ConditionAt Note} (hy : y ∈ r.conditionsAt) :
    (∀ x ∈ y.fields, (∀ f ∈ Test.reads x.field.note.out.candidate, f.side = .candidate) ∧
      ∀ look ∈ x.field.note.out.lookup, ∀ f ∈ look.selector.fetches, f.side = .candidate) ∧
    (∀ f ∈ Test.reads y.condition.note.out.join.test,
      f.side ≠ .candidate ∧ ∀ d, f.side ≠ .nested d) ∧
    ∀ f ∈ Test.reads y.condition.note.out.deferred.test,
      r.GroupSees y.pattern y.condition.beginDepth f := by
  have hnested : ((ofSteps steps).intern t).1.Nested :=
    (nested_ofSteps hsteps).of_depths (map_depths_intern _ t).symm
  refine ⟨side_candidate_of_compile h y hy, fun f hf => ?_, groupSees_of_mem_deferred hnested h hy⟩
  rcases side_join_of_compile h y hy f (List.mem_append_left _ hf) with hside | ⟨o, -, hside, -⟩
  · exact ⟨by simp [hside], by simp [hside]⟩
  · exact ⟨by simp [hside], by simp [hside]⟩

/-- The first member of a negated group carries a test that reads a member and an outer pattern. -/
theorem plainGroup_reads_member_and_outer :
    ∃ r y f g, compiledSteps plainGroup = .ok r ∧ y ∈ r.conditionsAt ∧
      f ∈ Test.reads y.condition.deferred.test ∧ g ∈ Test.reads y.condition.deferred.test ∧
      f.side = .nested 3 ∧ g.side = .matched 1 ∧
      r.GroupSees y.pattern y.condition.beginDepth f ∧
      r.GroupSees y.pattern y.condition.beginDepth g := by
  obtain ⟨r, hr, hcheck⟩ := exists_ok_of_check (e := compiledSteps plainGroup)
    (p := fun r => r.conditionsAt.any fun y =>
      (Test.reads y.condition.deferred.test).any (fun f => decide (f.side = .nested 3)) &&
        (Test.reads y.condition.deferred.test).any fun f => decide (f.side = .matched 1))
    (by decide +kernel)
  obtain ⟨y, hy, hcheck⟩ := List.any_eq_true.1 hcheck
  rw [Bool.and_eq_true, List.any_eq_true, List.any_eq_true] at hcheck
  obtain ⟨⟨f, hf, hfside⟩, g, hg, hgside⟩ := hcheck
  have hsteps : Step.keepsDepthsAll plainGroup = true := by decide +kernel
  have hsees := (stages_read_what_they_see hsteps hr hy).2.2
  exact ⟨r, y, f, g, hr, hy, hf, hg, of_decide_eq_true hfside, of_decide_eq_true hgside,
    hsees f hf, hsees g hg⟩

end Lhs

end Antecedent
