import Antecedent.Proofs.Meaning
import Antecedent.Proofs.Origins

/-!
# The tests of a field mean what the field says

A constraint is tested on the candidate, in the join or deferred, and at each of these stages values
are fetched from different sides. Whichever stage it is, the test is true exactly if the constraint
holds, because the sides all lead to the entities in which the variables are bound.

* `Staging.holds_conjunctTest_iff` says this of one conjunct.
* `Outputs.forall_satisfied_ofAlternatives_iff` says that the tests of all stages together are true
  exactly if some alternative holds. The conjuncts of a single alternative may be spread over the
  stages; several alternatives are always tested at one stage.
* `Outputs.forall_satisfied_ofField_iff` adds the field's own variable.
* `Outputs.fixed_ofField` says that deferred tests read the same entities at every depth, so that
  they can be moved from one condition to another.
-/

namespace Antecedent

variable {E V : Type} {I : Interpretation E V}

/-! ## Variables and comparisons -/

theorem Site.depth_side (s : Site) {r : Role} {d : Nat} (h : r = .joining → d = s.joinDepth) :
    (s.side r).depth d = s.joinDepth := by
  cases r with
  | matched => rfl
  | joining => exact h rfl
  | nested => rfl

/-- Any stage reads the field's own value from the entity of its pattern. -/
theorem Staging.read_ownSide {s : Staging} {stage : Stage} :
    I.read s.place.site.joinDepth (s.place.site.fetch (s.ownSide s.place.site stage)) =
      s.place.site.value I := by
  refine Site.read_fetch I ?_
  cases stage with
  | candidate => rfl
  | join => exact Site.depth_side _ fun _ => rfl
  | deferred => exact Site.depth_side _ fun _ => rfl

variable [DecidableEq V]

namespace Origin

/-- In a join, an expression reads a variable from the entity that it is bound in. -/
theorem eval_joinValue (depth joinDepth : Nat) (deferred : Bool) (o : Origin) :
    (o.joinValue depth joinDepth deferred).eval I joinDepth = o.value I := by
  refine Site.read_fetch I (Site.depth_side _ fun hrole => ?_)
  unfold role at hrole
  split at hrole
  · split at hrole <;> cases hrole
  · split at hrole
    · assumption
    · cases hrole

/-- On a candidate, an expression reads a variable right if it is bound at the same depth. -/
theorem eval_candidateValue {o : Origin} {d : Nat} (h : d = o.place.site.joinDepth) :
    o.candidateValue.eval I d = o.value I :=
  Site.read_fetch I h

end Origin

namespace Staging

variable {s : Staging} {stage : Stage}

theorem value?_eq_eval_termTest {t : Term Symbol Origin}
    (h : stage = .candidate → ∀ o ∈ t.notes, o.place.SamePattern s.place) :
    t.value? I (fun o => some (o.value I)) =
      some ((s.termTest t stage).eval I s.place.site.joinDepth) := by
  cases stage with
  | candidate =>
    exact Term.value?_eq_eval_test t fun o ho =>
      Origin.eval_candidateValue (h rfl o ho).joinDepth_eq.symm
  | join => exact Term.value?_eq_eval_test t fun o _ => Origin.eval_joinValue _ _ _ o
  | deferred => exact Term.value?_eq_eval_test t fun o _ => Origin.eval_joinValue _ _ _ o

/-- At any stage, the comparison with a binding occurrence compares with its value. -/
theorem holds_comparison_iff {negated : Bool} {o : Origin}
    (h : stage = .candidate → o.place.SamePattern s.place) :
    (s.comparison s.place.site negated o stage).Holds I s.place.site.joinDepth ↔
      decide (s.place.site.value I = o.value I) = !negated := by
  have hjoin : (s.place.site.compareJoin negated o.place.site s.ownRole (s.originRole o)).Holds I
      s.place.site.joinDepth ↔ decide (s.place.site.value I = o.value I) = !negated := by
    have hrole : s.originRole o = .joining → s.place.site.joinDepth = o.place.site.joinDepth := by
      unfold originRole
      split <;> intro hr <;> cases hr
    rw [Site.holds_compareJoin, Site.read_fetch I (Site.depth_side _ fun _ => rfl),
      Site.read_fetch I (Site.depth_side _ hrole)]
    rfl
  cases stage with
  | candidate =>
    have hsame := h rfl
    have hown : I.read s.place.site.joinDepth (s.place.site.fetch .candidate) =
        s.place.site.value I := Site.read_fetch I rfl
    have horigin : I.read s.place.site.joinDepth (o.place.site.fetch .candidate) = o.value I :=
      Site.read_fetch I hsame.joinDepth_eq.symm
    rw [comparison, Site.holds_compareCandidate hsame.kind_eq, hown, horigin]
  | join => exact hjoin
  | deferred => exact hjoin

/-- **The test of a conjunct** is true exactly if the conjunct holds, whichever stage it runs at. -/
theorem holds_conjunctTest_iff {k : Conjunct Origin} (hsite : k.site = s.place.site)
    (h : stage = .candidate → ∀ o ∈ k.origins, o.place.SamePattern s.place) :
    (s.conjunctTest k stage).Holds I s.place.site.joinDepth ↔
      k.constraint.Holds I (fun o => some (o.value I)) (k.site.value I) := by
  obtain ⟨site, shape, negated⟩ := k
  obtain rfl : site = s.place.site := hsite
  cases shape with
  | literal v =>
    rw [conjunctTest, Site.holds_constantTest, read_ownSide]
    exact (Option.some_inj).symm
  | var x arity o =>
    have hsame : stage = .candidate → o.place.SamePattern s.place :=
      fun hc => h hc o List.mem_cons_self
    exact (holds_comparison_iff hsame).trans Option.some_inj.symm
  | predicate t =>
    have hvalue := value?_eq_eval_termTest (I := I) h
    rw [conjunctTest, Test.holds_negateIf]
    simp only [Constraint.Holds, Constraint.truth?, hvalue, Option.map_some, Option.some_inj]
  | returnValue t =>
    have hvalue := value?_eq_eval_termTest (I := I) h
    rw [conjunctTest, Test.holds_equality, Test.eval_get, read_ownSide]
    simp only [Constraint.Holds, Constraint.truth?, hvalue, Option.map_some, Option.some_inj]

end Staging

/-! ## A field's own variable -/

namespace Staging

/-- A test on the candidate refers to its own pattern only. -/
theorem samePattern_of_candidate {s : Staging} {os : List Origin} (hos : ∀ o ∈ os, o.Around s.place)
    (h : s.stage os = .candidate) : ∀ o ∈ os, o.place.SamePattern s.place := by
  intro o ho
  have hbinds : s.binds os = true := by
    unfold stage at h
    split at h
    · simp_all
    · split at h <;> cases h
  exact (hos o ho).samePattern (of_decide_eq_true (List.all_eq_true.1 hbinds o ho))

/-- The comparison of a field's own variable at its stage is true exactly if the values agree. -/
theorem forall_holds_ofOwn_iff {p : Place} {o : Origin} (ho : o.Around p) :
    (∀ stage, (ofOwn p o).stage [o] = stage →
      ((ofOwn p o).comparison p.site false o stage).Holds I p.site.joinDepth) ↔
        p.site.value I = o.value I := by
  have hcomparison : ∀ stage, (ofOwn p o).stage [o] = stage →
      (((ofOwn p o).comparison p.site false o stage).Holds I p.site.joinDepth ↔
        decide (p.site.value I = o.value I) = !false) := by
    intro stage hstage
    refine holds_comparison_iff (s := ofOwn p o) fun hc => ?_
    exact samePattern_of_candidate (List.forall_mem_singleton.2 ho) (hstage.trans hc) o
      List.mem_cons_self
  constructor
  · intro h
    exact of_decide_eq_true ((hcomparison _ rfl).1 (h _ rfl))
  · intro h stage hstage
    exact (hcomparison stage hstage).2 (decide_eq_true h)

end Staging

/-! ## Alternatives -/

theorem Test.satisfied_ite {c : Prop} [Decidable c] {t : Test} {d : Nat} :
    Satisfied I d (if c then some t else none) ↔ (c → t.Holds I d) := by
  by_cases h : c <;> simp [h]

theorem Test.conjoin_eq_none_iff {a b : Option Test} : conjoin a b = none ↔ a = none ∧ b = none := by
  cases a <;> cases b <;> simp [conjoin]

namespace StageTests

theorem all_test_eq_none_iff {ss : List StageTests} {stage : Stage} :
    (all ss).test stage = none ↔ ∀ s ∈ ss, s.test stage = none := by
  induction ss with
  | nil => simp [all]
  | cons s ss ih => rw [all, test_append, Test.conjoin_eq_none_iff, ih, List.forall_mem_cons]

theorem satisfied_all_iff {ss : List StageTests} {stage : Stage} {d : Nat} :
    Test.Satisfied I d ((all ss).test stage) ↔ ∀ s ∈ ss, Test.Satisfied I d (s.test stage) := by
  induction ss with
  | nil => simp [all]
  | cons s ss ih => rw [all, test_append, Test.satisfied_conjoin, ih, List.forall_mem_cons]

end StageTests

namespace Staging

variable {s : Staging} {stage : Stage} {ks : List (Conjunct Origin)}

theorem alternative_test_eq_none_iff :
    (s.alternative ks).test stage = none ↔ ∀ k ∈ ks, s.stage k.origins ≠ stage := by
  rw [alternative, StageTests.all_test_eq_none_iff, List.forall_mem_map]
  refine forall₂_congr fun k _ => ?_
  rw [test_conjunct]
  by_cases h : s.stage k.origins = stage <;> simp [h]

theorem satisfied_alternative_iff {d : Nat} :
    Test.Satisfied I d ((s.alternative ks).test stage) ↔
      ∀ k ∈ ks, s.stage k.origins = stage → (s.conjunctTest k stage).Holds I d := by
  rw [alternative, StageTests.satisfied_all_iff, List.forall_mem_map]
  refine forall₂_congr fun k _ => ?_
  rw [test_conjunct]
  by_cases h : s.stage k.origins = stage <;> simp [h]

/-- All conjuncts of a field with several alternatives are tested at one stage. -/
theorem exists_common_stage {p : Place} {own : Option Origin} {as : List (List (Conjunct Origin))}
    (has : 2 ≤ as.length) :
    ∃ stage, ∀ ks ∈ as, ∀ k ∈ ks, (ofField p own as).stage k.origins = stage := by
  cases hin : (ofField p own as).inPattern with
  | true =>
    refine ⟨.candidate, fun ks hks k hk => ?_⟩
    have hall : ∀ ks ∈ as, ∀ k ∈ ks, ∀ o ∈ k.origins, o.place.pattern = p.pattern := by
      have hlength : ¬ as.length < 2 := by omega
      simpa [ofField, hlength] using hin
    have hbinds : (ofField p own as).binds k.origins = true := by
      rw [binds, List.all_eq_true]
      intro o ho
      exact decide_eq_true (hall ks hks k hk o ho)
    rw [stage, hin, hbinds]
    rfl
  | false =>
    refine ⟨if (ofField p own as).deferred then .deferred else .join, fun ks _ k _ => ?_⟩
    rw [stage, hin]
    rfl

end Staging

namespace Outputs

theorem test_ofAlternatives_singleton (t : StageTests) (stage : Stage) :
    (ofAlternatives [t]).test stage = t.test stage := by
  rw [test_ofAlternatives]
  cases h : t.test stage <;> simp [h, Test.anyOf]

/-- Alternatives that are all tested at one stage make a disjunction there and nothing elsewhere. -/
theorem forall_satisfied_iff_of_common_stage {s : Staging} {as : List (List (Conjunct Origin))}
    {st : Stage} {d : Nat} (hst : ∀ ks ∈ as, ∀ k ∈ ks, s.stage k.origins = st) (has : as ≠ [])
    (hne : ∀ ks ∈ as, ks ≠ []) :
    (∀ stage, Test.Satisfied I d ((ofAlternatives (as.map s.alternative)).test stage)) ↔
      ∃ ks ∈ as, ∀ k ∈ ks, (s.conjunctTest k st).Holds I d := by
  have hmem : ∀ ks ∈ as, ∃ t, (s.alternative ks).test st = some t ∧
      (t.Holds I d ↔ ∀ k ∈ ks, (s.conjunctTest k st).Holds I d) := by
    intro ks hks
    obtain ⟨k, hk⟩ := List.exists_mem_of_ne_nil ks (hne ks hks)
    have hsome : (s.alternative ks).test st ≠ none := by
      rw [Ne, Staging.alternative_test_eq_none_iff]
      exact fun hnone => hnone k hk (hst ks hks k hk)
    obtain ⟨t, ht⟩ := Option.ne_none_iff_exists'.1 hsome
    refine ⟨t, ht, ?_⟩
    rw [← Test.satisfied_some, ← ht, Staging.satisfied_alternative_iff]
    exact forall₂_congr fun k hk => imp_iff_right (hst ks hks k hk)
  have hdisjunction : Test.Satisfied I d ((ofAlternatives (as.map s.alternative)).test st) ↔
      ∃ ks ∈ as, ∀ k ∈ ks, (s.conjunctTest k st).Holds I d := by
    rw [test_ofAlternatives, Test.satisfied_anyOf]
    · simp only [List.mem_filterMap, List.mem_map]
      constructor
      · rintro ⟨t, ⟨-, ⟨ks, hks, rfl⟩, ht⟩, hholds⟩
        obtain ⟨t', ht', hiff⟩ := hmem ks hks
        obtain rfl : t = t' := Option.some.inj (ht.symm.trans ht')
        exact ⟨ks, hks, hiff.1 hholds⟩
      · rintro ⟨ks, hks, hholds⟩
        obtain ⟨t, ht, hiff⟩ := hmem ks hks
        exact ⟨t, ⟨_, ⟨ks, hks, rfl⟩, ht⟩, hiff.2 hholds⟩
    · obtain ⟨ks, hks⟩ := List.exists_mem_of_ne_nil as has
      obtain ⟨t, ht, -⟩ := hmem ks hks
      exact List.ne_nil_of_mem
        (List.mem_filterMap.2 ⟨s.alternative ks, List.mem_map_of_mem hks, ht⟩)
  refine ⟨fun h => hdisjunction.1 (h st), fun h stage => ?_⟩
  by_cases hstage : stage = st
  · exact hstage ▸ hdisjunction.2 h
  · have hnone : (as.map s.alternative).filterMap (·.test stage) = [] := by
      rw [List.filterMap_eq_nil_iff, List.forall_mem_map]
      intro ks hks
      rw [Staging.alternative_test_eq_none_iff]
      exact fun k hk heq => hstage (heq.symm.trans (hst ks hks k hk))
    rw [test_ofAlternatives, hnone]
    exact Test.satisfied_none

/-- **The tests of the alternatives**, taken over all stages, are true exactly if some alternative
holds. -/
theorem forall_satisfied_ofAlternatives_iff {p : Place} {own : Option Origin}
    {as : List (List (Conjunct Origin))} {d : Nat} {P : Conjunct Origin → Prop}
    (hne : ∀ ks ∈ as, ks ≠ [])
    (hP : ∀ ks ∈ as, ∀ k ∈ ks, ∀ stage, (Staging.ofField p own as).stage k.origins = stage →
      (((Staging.ofField p own as).conjunctTest k stage).Holds I d ↔ P k)) :
    (∀ stage, Test.Satisfied I d
        ((ofAlternatives (as.map (Staging.ofField p own as).alternative)).test stage)) ↔
      (as ≠ [] → ∃ ks ∈ as, ∀ k ∈ ks, P k) := by
  by_cases hlength : 2 ≤ as.length
  · obtain ⟨st, hst⟩ : ∃ st, ∀ ks ∈ as, ∀ k ∈ ks, (Staging.ofField p own as).stage k.origins = st :=
      Staging.exists_common_stage hlength
    have has : as ≠ [] := by rintro rfl; simp at hlength
    rw [forall_satisfied_iff_of_common_stage hst has hne, imp_iff_right has]
    refine exists_congr fun ks => and_congr_right fun hks => forall₂_congr fun k hk => ?_
    exact hP ks hks k hk st (hst ks hks k hk)
  · rcases as with _ | ⟨ks, _ | ⟨_, _⟩⟩
    · simp [test_ofAlternatives, Test.anyOf]
    · -- the conjuncts of one alternative go to their own stages, and each stage is a conjunction
      have hks := List.forall_mem_singleton.1 hP
      simp only [List.map_singleton, test_ofAlternatives_singleton,
        Staging.satisfied_alternative_iff]
      constructor
      · intro h _
        exact ⟨ks, List.mem_cons_self, fun k hk => (hks k hk _ rfl).1 (h _ k hk rfl)⟩
      · intro h stage k hk hstage
        obtain ⟨ks', hks', hholds⟩ := h (List.cons_ne_nil _ _)
        obtain rfl := List.mem_singleton.1 hks'
        exact (hks k hk stage hstage).2 (hholds k hk)
    · simp at hlength

/-- **The tests of a field**, taken over all stages, are true exactly if its own variable has the
value of its binding occurrence and some alternative holds. -/
theorem forall_satisfied_ofField_iff {p : Place} {own : Option Origin}
    {as : List (List (Conjunct Origin))} (hown : ∀ o, own = some o → o.Around p)
    (has : ∀ ks ∈ as, ∀ k ∈ ks, ∀ o ∈ k.origins, o.Around p)
    (hsite : ∀ ks ∈ as, ∀ k ∈ ks, k.site = p.site) (hne : ∀ ks ∈ as, ks ≠ []) :
    (∀ stage, Test.Satisfied I p.site.joinDepth ((ofField p own as).test stage)) ↔
      (∀ o, own = some o → p.site.value I = o.value I) ∧
        (as ≠ [] → ∃ ks ∈ as, ∀ k ∈ ks,
          k.constraint.Holds I (fun o => some (o.value I)) (k.site.value I)) := by
  have halternatives := forall_satisfied_ofAlternatives_iff (I := I) (d := p.site.joinDepth)
    (P := fun k => k.constraint.Holds I (fun o => some (o.value I)) (k.site.value I)) hne
    (fun ks hks k hk stage hstage =>
      Staging.holds_conjunctTest_iff (s := Staging.ofField p own as) (hsite ks hks k hk)
        fun hc => Staging.samePattern_of_candidate (has ks hks k hk) (hstage.trans hc))
  cases own with
  | none =>
    rw [ofField, halternatives]
    simp
  | some o =>
    rw [ofField]
    simp only [test_compareOwn, Test.satisfied_conjoin, Test.satisfied_ite, forall_and]
    rw [halternatives, Staging.forall_holds_ofOwn_iff (hown o rfl)]
    simp

end Outputs

/-! ## Deferred tests can be moved -/

/-- The fetch reads the same entity at every depth. -/
def Fetch.Fixed (f : Fetch) : Prop := ∀ d d', f.side.depth d = f.side.depth d'

theorem Test.satisfied_iff_of_fixed {t : Option Test} (h : ∀ f ∈ reads t, f.Fixed) {d d' : Nat} :
    Satisfied I d t ↔ Satisfied I d' t := by
  cases t with
  | none => simp
  | some t =>
    have heval : t.eval I d = t.eval I d' := by
      refine eval_congr t fun f hf => ?_
      rw [Interpretation.read, Interpretation.read, h f (by simpa using hf) d d']
    rw [satisfied_some, satisfied_some, Holds, Holds, heval]

theorem Site.fixed_fetch {s : Site} {r : Role} (h : r ≠ .joining) : (s.fetch (s.side r)).Fixed := by
  intro d d'
  cases r with
  | matched => rfl
  | joining => exact absurd rfl h
  | nested => rfl

theorem Origin.fixed_of_mem_joinValue {o : Origin} {depth joinDepth : Nat} {f : Fetch}
    (hf : f ∈ (o.joinValue depth joinDepth true).fetches) : f.Fixed := by
  rw [joinValue, Site.fetches_joinValue, List.mem_singleton] at hf
  subst hf
  refine Site.fixed_fetch ?_
  unfold role
  rw [if_pos rfl]
  split <;> simp

namespace Staging

variable {s : Staging} (hs : s.deferred = true)

include hs

theorem ownRole_ne_joining : s.ownRole ≠ .joining := by
  simp [ownRole, hs]

theorem fixed_comparison {site : Site} {negated : Bool} {o : Origin} {f : Fetch}
    (hf : f ∈ (s.comparison site negated o .deferred).fetches) : f.Fixed := by
  rw [comparison, Site.fetches_compareJoin, List.mem_cons, List.mem_singleton] at hf
  rcases hf with rfl | rfl
  · exact Site.fixed_fetch (ownRole_ne_joining hs)
  · refine Site.fixed_fetch ?_
    unfold originRole
    split <;> simp

theorem fixed_termTest {t : Term Symbol Origin} {f : Fetch}
    (hf : f ∈ (s.termTest t .deferred).fetches) : f.Fixed := by
  rw [termTest, Term.fetches_test, hs] at hf
  obtain ⟨o, -, hf⟩ := List.mem_flatMap.1 hf
  exact Origin.fixed_of_mem_joinValue hf

theorem fixed_conjunctTest {k : Conjunct Origin} {f : Fetch}
    (hf : f ∈ (s.conjunctTest k .deferred).fetches) : f.Fixed := by
  obtain ⟨site, shape, negated⟩ := k
  cases shape with
  | literal v =>
    rw [conjunctTest, Site.fetches_constantTest, List.mem_singleton] at hf
    exact hf ▸ Site.fixed_fetch (ownRole_ne_joining hs)
  | var x arity o => exact fixed_comparison hs hf
  | predicate t =>
    rw [conjunctTest, Test.fetches_negateIf] at hf
    exact fixed_termTest hs hf
  | returnValue t =>
    rw [conjunctTest, Test.fetches_equality, Test.fetches_get, List.mem_append,
      List.mem_singleton] at hf
    rcases hf with rfl | hf
    · exact Site.fixed_fetch (ownRole_ne_joining hs)
    · exact fixed_termTest hs hf

end Staging

theorem Staging.deferred_of_stage {s : Staging} {os : List Origin} (h : s.stage os = .deferred) :
    s.deferred = true := by
  unfold stage at h
  split at h
  · cases h
  · split at h
    · assumption
    · cases h

namespace Outputs

/-- What a field defers reads the same entities at every depth. -/
theorem fixed_ofField {p : Place} {own : Option Origin} {as : List (List (Conjunct Origin))} :
    ∀ f ∈ Test.reads (ofField p own as).deferred.test, f.Fixed := by
  intro f hf
  have hf : f ∈ Test.reads ((ofField p own as).test .deferred) := hf
  rcases mem_reads_ofField.1 hf with ⟨o, -, hstage, hf⟩ | ⟨ks, -, k, -, hstage, hf⟩
  · exact Staging.fixed_comparison (Staging.deferred_of_stage hstage) hf
  · exact Staging.fixed_conjunctTest (Staging.deferred_of_stage hstage) hf

/-- What a test condition defers reads the same entities at every depth. -/
theorem fixed_ofTest {beginDepth joinDepth : Nat} {t : Term Symbol Origin} :
    ∀ f ∈ Test.reads (ofTest beginDepth joinDepth t).deferred.test, f.Fixed := by
  intro f hf
  cases hdeferred : t.notes.any (·.isOutside beginDepth) with
  | true =>
    simp only [ofTest, hdeferred, if_true, Test.reads_some, Term.fetches_test] at hf
    obtain ⟨o, -, hf⟩ := List.mem_flatMap.1 hf
    exact Origin.fixed_of_mem_joinValue hf
  | false =>
    simp only [ofTest, hdeferred, Bool.false_eq_true, if_false] at hf
    cases hf

/-- A test condition's test is true exactly if its expression has a true value. -/
theorem hold_ofTest_iff {beginDepth joinDepth : Nat} {t : Term Symbol Origin} :
    (ofTest beginDepth joinDepth t).Hold I joinDepth ↔
      ∃ v, t.value? I (fun o => some (o.value I)) = some v ∧ I.isTrue v = true := by
  have hvalue (deferred : Bool) := Term.value?_eq_eval_test (I := I) (d := joinDepth) t
    fun o _ => Origin.eval_joinValue beginDepth joinDepth deferred o
  cases hdeferred : t.notes.any (·.isOutside beginDepth) with
  | true =>
    rw [hvalue true]
    simp only [ofTest, hdeferred, if_true]
    constructor
    · rintro ⟨-, -, h⟩
      exact ⟨_, rfl, Test.satisfied_some.1 h⟩
    · rintro ⟨v, hv, h⟩
      obtain rfl := Option.some.inj hv
      exact ⟨Test.satisfied_none, Test.satisfied_none, Test.satisfied_some.2 h⟩
  | false =>
    rw [hvalue false]
    simp only [ofTest, hdeferred, Bool.false_eq_true, if_false]
    constructor
    · rintro ⟨-, h, -⟩
      exact ⟨_, rfl, Test.satisfied_some.1 h⟩
    · rintro ⟨v, hv, h⟩
      obtain rfl := Option.some.inj hv
      exact ⟨Test.satisfied_none, Test.satisfied_some.2 h, Test.satisfied_none⟩

end Outputs

end Antecedent
