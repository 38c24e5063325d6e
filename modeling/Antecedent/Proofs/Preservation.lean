import Antecedent.Proofs.FieldMeaning
import Antecedent.Proofs.NodeNotes

/-!
# Compilation preserves meaning

Under every interpretation, the tests that a compilation leaves in the notes of a left-hand side are
all true exactly if every field and every test condition is met.

* `FieldAt.hold_iff_means` and `Condition.hold_iff_means` compare the tests of a compiled field and of
  a compiled condition with what these demand.
* `Lhs.hold_collapse_iff` says that collapsing negated runs moves tests without changing what all of
  them say together.
* `Lhs.testsHold_iff_means` puts these together.
-/

namespace Antecedent

variable {α : Type} {E V : Type} [DecidableEq V] {I : Interpretation E V}

/-! ## Fields -/

theorem Outputs.hold_iff_forall_satisfied {out : Outputs} {d : Nat} :
    out.Hold I d ↔ ∀ stage, Test.Satisfied I d (out.test stage) := by
  constructor
  · rintro ⟨hcandidate, hjoin, hdeferred⟩ stage
    cases stage with
    | candidate => exact hcandidate
    | join => exact hjoin
    | deferred => exact hdeferred
  · intro h
    exact ⟨h .candidate, h .join, h .deferred⟩

/-- A conjunct holds exactly if the bound conjunct does. -/
theorem Conjunct.holds_iff_of_bound {k : Conjunct Note} {k' : Conjunct Origin}
    (h : k'.mapNotes some = k.mapNotes Note.origin) :
    k'.constraint.Holds I (fun o => some (o.value I)) (k'.site.value I) ↔
      k.constraint.Holds I (Note.value? I) (k.site.value I) := by
  have hsite : k'.site = k.site := congrArg site h
  have hconstraint : k'.constraint.mapNotes some = k.constraint.mapNotes Note.origin :=
    congrArg constraint h
  calc k'.constraint.Holds I (fun o => some (o.value I)) (k'.site.value I)
    _ ↔ (k'.constraint.mapNotes some).Holds I (Option.map (Origin.value I)) (k.site.value I) := by
      rw [Constraint.holds_mapNotes, hsite]
      rfl
    _ ↔ k.constraint.Holds I (Note.value? I) (k.site.value I) := by
      rw [hconstraint, Constraint.holds_mapNotes]
      rfl

/-- A plain field is met exactly if its variable agrees with its binding occurrence and some list of
conjuncts holds. -/
theorem FieldAt.means_iff_conjuncts {x : FieldAt Note} (hplain : x.field.isPlain = true)
    (hbinds : x.field.binds? = none → x.field.note.origin = none) :
    x.Means I ↔ (∀ o, x.field.note.origin = some o → x.place.site.value I = o.value I) ∧
      (x.conjuncts ≠ [] → ∃ ks ∈ x.conjuncts, ∀ k ∈ ks,
        k.constraint.Holds I (Note.value? I) (k.site.value I)) := by
  obtain ⟨p, id, f⟩ := x
  cases f with
  | multi ps as declared n => cases hplain
  | plain b as declared n =>
    refine and_congr ?_ ?_
    · cases b with
      | var y arity => simp [Field.note]
      | wildcard arity =>
        have hn : n.origin = none := hbinds rfl
        simp [Field.note, hn]
    · simp [conjuncts, Field.conjuncts]

/-- The alternatives of a plain field are not empty, and their conjuncts are about the field. -/
theorem FieldAt.mem_alternatives_of_isPlain {σ : Scope} {x : FieldAt α}
    (hplain : x.field.isPlain = true) {ks : List (Conjunct Note)} (hks : ks ∈ x.alternatives σ) :
    ks ≠ [] ∧ ∀ k ∈ ks, k.site = x.place.site := by
  obtain ⟨p, id, f⟩ := x
  cases f with
  | multi ps as declared n => cases hplain
  | plain b as declared n =>
    obtain ⟨a, -, rfl⟩ := List.mem_map.1 hks
    refine ⟨by simp [Alternative.constraints], fun k hk => ?_⟩
    obtain ⟨j, -, rfl⟩ := List.mem_map.1 hk
    rfl

/-- **The tests of a field** are true exactly if the field is met. -/
theorem FieldAt.hold_iff_means {c : Context} {σ : Scope} {x : FieldAt α}
    {bound : List (List (Conjunct Origin))} {spot : Spot} {restriction : Restriction}
    (hbound : Conjunct.bindAll c spot restriction (x.alternatives σ) = .ok bound)
    (hσ : σ.Around x.place) (hplain : x.field.isPlain = true) :
    (Outputs.ofField x.place (x.noted σ).note.origin bound).Hold I x.place.site.joinDepth ↔
      (⟨x.place, x.id, (x.outcome c σ bound).result⟩ : FieldAt Note).Means I := by
  have hpairs := Conjunct.forall₂_of_bindAll hbound
  have hown : ∀ o, (x.noted σ).note.origin = some o → o.Around x.place :=
    fun o ho => hσ o (origin_mem ho)
  have hsite : ∀ ks ∈ bound, ∀ k ∈ ks, k.site = x.place.site := by
    refine (forall_mem_iff_of_forall₂ hpairs fun ks ks' hks =>
      forall_mem_iff_of_forall₂ hks fun k k' hk => ?_).1
      fun ks hks => (mem_alternatives_of_isPlain hplain hks).2
    have hk : k'.site = k.site := congrArg Conjunct.site hk
    rw [hk]
  have hne : ∀ ks ∈ bound, ks ≠ [] := by
    refine (forall_mem_iff_of_forall₂ hpairs fun ks ks' hks => ?_).1
      fun ks hks => (mem_alternatives_of_isPlain hplain hks).1
    cases hks <;> simp
  have hholds : (∃ ks ∈ x.alternatives σ, ∀ k ∈ ks,
      k.constraint.Holds I (Note.value? I) (k.site.value I)) ↔ ∃ ks ∈ bound, ∀ k ∈ ks,
        k.constraint.Holds I (fun o => some (o.value I)) (k.site.value I) :=
    exists_mem_iff_of_forall₂ hpairs fun ks ks' hks =>
      forall_mem_iff_of_forall₂ hks fun k k' hk => (Conjunct.holds_iff_of_bound hk).symm
  have hnil : x.alternatives σ ≠ [] ↔ bound ≠ [] := by
    rw [← List.length_pos_iff, hpairs.length_eq, List.length_pos_iff]
  let y : FieldAt Note := ⟨x.place, x.id, (x.outcome c σ bound).result⟩
  have hconjuncts : y.conjuncts = x.alternatives σ := by
    simp [y, conjuncts, outcome, alternatives]
  have horigin : y.field.note.origin = (x.noted σ).note.origin := by
    simp [y, outcome]
  have hy : y.field.isPlain = true ∧ (y.field.binds? = none → y.field.note.origin = none) := by
    obtain ⟨p, id, f⟩ := x
    cases f with
    | multi ps as declared n => cases hplain
    | plain b as declared n =>
      refine ⟨rfl, fun hb => ?_⟩
      cases b with
      | var z arity => cases hb
      | wildcard arity => rfl
  rw [Outputs.hold_iff_forall_satisfied,
    Outputs.forall_satisfied_ofField_iff hown (around_of_bindAll hbound hσ) hsite hne,
    means_iff_conjuncts hy.1 hy.2, ← hholds, ← hnil, ← hconjuncts, ← horigin]

/-! ## Conditions -/

theorem JoinOutput.conjunctive_satisfied (I : Interpretation E V) (d : Nat) :
    Conjunctive fun o => Test.Satisfied I d o.test where
  empty := Test.satisfied_none
  append _ _ := Test.satisfied_conjoin

theorem JoinOutput.conjunctive_satisfied_everywhere (I : Interpretation E V) :
    Conjunctive fun o => ∀ d, Test.Satisfied I d o.test where
  empty _ := Test.satisfied_none
  append _ _ := by simp only [test_append, Test.satisfied_conjoin, forall_and]

theorem JoinOutput.conjunctive_fixed :
    Conjunctive fun o => ∀ f ∈ Test.reads o.test, f.Fixed where
  empty := by simp
  append _ _ := by rw [test_append, Test.reads_conjoin, List.forall_mem_append]

theorem FieldVisit.satisfied_iff_means {c : Context} {t : FieldVisit α}
    (h : t.source.Compiles c t.scope t.visited) (hσ : t.scope.Around t.source.place)
    (hplain : t.source.field.isPlain = true) {d : Nat} (hd : t.source.place.site.joinDepth = d) :
    (Test.Satisfied I d t.visited.join.test ∧ Test.Satisfied I d t.visited.deferred.test) ∧
      t.result.field.note.out.Hold I d ↔ t.result.Means I := by
  obtain ⟨bound, hbound, hv⟩ := h
  have hiff := FieldAt.hold_iff_means (I := I) hbound hσ hplain
  rw [hd, ← hv] at hiff
  refine Iff.trans ?_ hiff
  have hout : t.result.field.note.out =
      { candidate := (Outputs.ofField t.source.place
          (t.source.noted t.scope).note.origin bound).candidate
        lookup := (Outputs.ofField t.source.place
          (t.source.noted t.scope).note.origin bound).lookup } := by
    simp [result, hv, FieldAt.outcome]
  rw [hout, hv]
  constructor
  · rintro ⟨⟨hjoin, hdeferred⟩, hcandidate, -, -⟩
    exact ⟨hcandidate, hjoin, hdeferred⟩
  · rintro ⟨hcandidate, hjoin, hdeferred⟩
    exact ⟨⟨hjoin, hdeferred⟩, hcandidate, Test.satisfied_none, Test.satisfied_none⟩

/-- The tests in the notes of a condition and of its fields are true. -/
structure ConditionAt.Hold (I : Interpretation E V) (y : ConditionAt Note) : Prop where
  condition : y.condition.note.out.Hold I y.joinDepth
  fields : ∀ x ∈ y.fields, x.field.note.out.Hold I y.joinDepth

/-- The tests of a condition that are not deferred and those of its fields are true. -/
def ConditionAt.HoldUndeferred (I : Interpretation E V) (y : ConditionAt Note) : Prop :=
  Test.Satisfied I y.joinDepth y.condition.note.out.candidate ∧
    Test.Satisfied I y.joinDepth y.condition.note.out.join.test ∧
    ∀ x ∈ y.fields, x.field.note.out.Hold I y.joinDepth

theorem ConditionAt.hold_iff {y : ConditionAt Note} :
    y.Hold I ↔ y.HoldUndeferred I ∧ Test.Satisfied I y.joinDepth y.condition.deferred.test := by
  constructor
  · rintro ⟨⟨hcandidate, hjoin, hdeferred⟩, hfields⟩
    exact ⟨⟨hcandidate, hjoin, hfields⟩, hdeferred⟩
  · rintro ⟨⟨hcandidate, hjoin, hfields⟩, hdeferred⟩
    exact ⟨⟨hcandidate, hjoin, hdeferred⟩, hfields⟩

/-- The tests that some fields leave to their condition are true together exactly if those of each
field are. -/
theorem FieldVisit.hold_collected_iff {d : Nat} (ts : List (FieldVisit α)) :
    ({ join := Visited.allJoin (ts.map visited)
       deferred := Visited.allDeferred (ts.map visited) } : Outputs).Hold I d ↔
      ∀ t ∈ ts, Test.Satisfied I d t.visited.join.test ∧
        Test.Satisfied I d t.visited.deferred.test := by
  have hconjunctive := JoinOutput.conjunctive_satisfied I d
  have hjoin := hconjunctive.allJoin_iff (ts.map visited)
  have hdeferred := hconjunctive.allDeferred_iff (ts.map visited)
  rw [List.forall_mem_map] at hjoin hdeferred
  constructor
  · rintro ⟨-, h₁, h₂⟩ t ht
    exact ⟨hjoin.1 h₁ t ht, hdeferred.1 h₂ t ht⟩
  · intro h
    exact ⟨Test.satisfied_none, hjoin.2 fun t ht => (h t ht).1, hdeferred.2 fun t ht => (h t ht).2⟩

/-- The tests of a compiled pattern and of its fields are true exactly if every field is met. -/
theorem Condition.hold_iff_means_of_pattern {c : Context} {pattern joins id : Nat} {σ : Scope}
    {rest : Lhs Symbol α} {k : Condition Symbol α} {v : VisitedCondition} {mode : Mode}
    {q : Pattern Symbol α} (hk : k.element = .pattern mode q)
    (h : k.visit c pattern joins id σ rest = .ok v) (hσ : σ.Before pattern joins)
    (hflat : k.isFlat = true) :
    (⟨pattern, joins, id, v.condition⟩ : ConditionAt Note).Hold I ↔
      (⟨pattern, joins, id, v.condition⟩ : ConditionAt Note).Means I := by
  have hbare := bare_of_visit h
  obtain ⟨ts, hts, hresult, hout, -⟩ := exists_run_around_of_visit hk h hσ
  have htest := element_ne_test_of_bare hbare hk
  have hdepth : (⟨pattern, joins, id, v.condition⟩ : ConditionAt Note).joinDepth = joins + 1 :=
    (joinsAfter_of_bare hbare joins).trans (by rw [joinsAfter, hk])
  have hfields : (⟨pattern, joins, id, v.condition⟩ : ConditionAt Note).fields =
      ts.map FieldVisit.result := hresult.symm
  have hcondition : v.condition.note.out.Hold I (joins + 1) ↔
      ∀ t ∈ ts, Test.Satisfied I (joins + 1) t.visited.join.test ∧
        Test.Satisfied I (joins + 1) t.visited.deferred.test := by
    rw [hout]
    exact FieldVisit.hold_collected_iff ts
  have hfield : ∀ t ∈ ts, (Test.Satisfied I (joins + 1) t.visited.join.test ∧
      Test.Satisfied I (joins + 1) t.visited.deferred.test) ∧
        t.result.field.note.out.Hold I (joins + 1) ↔ t.result.Means I := by
    intro t ht
    obtain ⟨hcompiles, haround, hmem, hsame⟩ := hts t ht
    exact FieldVisit.satisfied_iff_means hcompiles haround (isPlain_of_mem_fieldsAt hflat hmem)
      hsame.joinDepth_eq
  constructor
  · rintro ⟨hc, hf⟩
    rw [hdepth] at hc hf
    refine ⟨fun x hx => ?_, fun t ht => absurd ht (htest t)⟩
    obtain ⟨t, ht, rfl⟩ := List.mem_map.1 (hfields ▸ hx)
    exact (hfield t ht).1 ⟨hcondition.1 hc t ht, hf _ hx⟩
  · rintro ⟨hf, -⟩
    have hmeans : ∀ t ∈ ts, t.result.Means I :=
      fun t ht => hf t.result (hfields ▸ List.mem_map_of_mem ht)
    refine ⟨?_, fun x hx => ?_⟩
    · rw [hdepth]
      exact hcondition.2 fun t ht => ((hfield t ht).2 (hmeans t ht)).1
    · rw [hdepth]
      obtain ⟨t, ht, rfl⟩ := List.mem_map.1 (hfields ▸ hx)
      exact ((hfield t ht).2 (hmeans t ht)).2

/-- **The tests of a compiled condition** and of its fields are true exactly if the condition is
met. -/
theorem Condition.hold_iff_means {c : Context} {pattern joins id : Nat} {σ : Scope}
    {rest : Lhs Symbol α} {k : Condition Symbol α} {v : VisitedCondition}
    (h : k.visit c pattern joins id σ rest = .ok v) (hσ : σ.Before pattern joins)
    (hflat : k.isFlat = true) :
    (⟨pattern, joins, id, v.condition⟩ : ConditionAt Note).Hold I ↔
      (⟨pattern, joins, id, v.condition⟩ : ConditionAt Note).Means I := by
  cases hk : k.element with
  | pattern mode q => exact hold_iff_means_of_pattern hk h hσ hflat
  | test t =>
    obtain ⟨u, hu, hv, -⟩ := exists_bind_of_visit hk h
    have hvalue := Term.value?_of_bind (I := I) hu
    rw [hv]
    constructor
    · rintro ⟨hc, -⟩
      refine ⟨(fun x hx => by cases hx), fun t' ht => ?_⟩
      obtain rfl := Element.test.inj ht
      rw [hvalue]
      exact Outputs.hold_ofTest_iff.1 hc
    · rintro ⟨-, htest⟩
      refine ⟨Outputs.hold_ofTest_iff.2 ?_, fun x hx => by cases hx⟩
      rw [← hvalue]
      exact htest _ rfl

/-! ## Nodes -/

/-- The tests in the note of a node are true. -/
def Node.TestsHold (I : Interpretation E V) (_ : Nat) (_ : NodeKind) (p : Position) (n : Note) :
    Prop :=
  n.out.Hold I p.joinDepth

/-- Only the node of a compiled condition and those of its fields hold tests, whatever becomes of the
deferred ones. -/
theorem Condition.allNodes_iff_hold {c : Context} {pattern joins id : Nat} {σ : Scope}
    {rest : Lhs Symbol α} {k : Condition Symbol α} {v : VisitedCondition}
    (h : k.visit c pattern joins id σ rest = .ok v) (hflat : k.isFlat = true) (d : JoinOutput) :
    (⟨pattern, joins, id, v.condition.withDeferred d⟩ : ConditionAt Note).AllNodes
        (Node.TestsHold I) ↔
      (⟨pattern, joins, id, v.condition.withDeferred d⟩ : ConditionAt Note).Hold I := by
  refine (allNodes_outputs_iff (H := fun depth out => out.Hold I depth)
    (fun _ => Outputs.hold_empty I) h hflat d).trans ?_
  exact ⟨fun ⟨hcondition, hfields⟩ => ⟨hcondition, hfields⟩,
    fun ⟨hcondition, hfields⟩ => ⟨hcondition, hfields⟩⟩

/-! ## Left-hand sides -/

/-- What a compiled condition defers reads the same entities at every depth. -/
theorem Condition.fixed_of_visit {c : Context} {pattern joins id : Nat} {σ : Scope}
    {rest : Lhs Symbol α} {k : Condition Symbol α} {v : VisitedCondition}
    (h : k.visit c pattern joins id σ rest = .ok v) :
    ∀ f ∈ Test.reads v.condition.deferred.test, f.Fixed := by
  cases hk : k.element with
  | pattern mode q =>
    obtain ⟨ts, hrun, -, -, -, hout, -⟩ := exists_run_of_visit hk h
    rw [deferred, hout, JoinOutput.conjunctive_fixed.allDeferred_iff, List.forall_mem_map]
    intro t ht
    obtain ⟨bound, -, hv⟩ := hrun.compiles t ht
    rw [hv]
    exact Outputs.fixed_ofField
  | test t =>
    obtain ⟨u, -, hv, -⟩ := exists_bind_of_visit hk h
    rw [hv]
    exact Outputs.fixed_ofTest

namespace Lhs

theorem fixed_of_compileFrom {c : Context} {pattern joins id : Nat} {σ : Scope} {l : Lhs Symbol α}
    {u : Lhs Symbol Note} (h : compileFrom c pattern joins id σ l = .ok u) :
    ∀ k ∈ u, ∀ f ∈ Test.reads k.deferred.test, f.Fixed := by
  induction l generalizing pattern joins id σ u with
  | nil =>
    rw [compileFrom] at h
    obtain rfl := pure_eq_ok.1 h
    simp
  | cons k ks ih =>
    obtain ⟨v, us, hv, hus, rfl⟩ := compileFrom_cons_eq_ok.1 h
    exact List.forall_mem_cons.2 ⟨Condition.fixed_of_visit hv, ih hus⟩

theorem map_condition_conditionsFrom (pattern joins id : Nat) (l : Lhs Symbol α) :
    (conditionsFrom pattern joins id l).map ConditionAt.condition = l := by
  induction l generalizing pattern joins id with
  | nil => rfl
  | cons k ks ih => rw [conditionsFrom, List.map_cons, ih]

/-- Deferred tests that can be moved are true where they are exactly if they are true anywhere. -/
theorem forall_satisfied_deferred_iff {l : Lhs Symbol Note}
    (hl : ∀ k ∈ l, ∀ f ∈ Test.reads k.deferred.test, f.Fixed) :
    (∀ y ∈ l.conditionsAt, Test.Satisfied I y.joinDepth y.condition.deferred.test) ↔
      ∀ k ∈ l, ∀ d, Test.Satisfied I d k.deferred.test := by
  have hmem : ∀ y ∈ l.conditionsAt, y.condition ∈ l := by
    intro y hy
    rw [← map_condition_conditionsFrom 1 0 0 l]
    exact List.mem_map_of_mem hy
  constructor
  · intro h k hk d
    rw [← map_condition_conditionsFrom 1 0 0 l] at hk
    obtain ⟨y, hy, rfl⟩ := List.mem_map.1 hk
    exact (Test.satisfied_iff_of_fixed (hl _ (hmem y hy))).1 (h y hy)
  · intro h y hy
    exact h y.condition (hmem y hy) y.joinDepth

/-- **Collapsing negated runs** moves tests without changing what all of them say together. -/
theorem hold_collapse_iff {u : Lhs Symbol Note}
    (hu : ∀ k ∈ u, ∀ f ∈ Test.reads k.deferred.test, f.Fixed) :
    (∀ y ∈ (collapse u).conditionsAt, y.Hold I) ↔ ∀ z ∈ u.conditionsAt, z.Hold I := by
  have hrest : (∀ y ∈ (collapse u).conditionsAt, y.HoldUndeferred I) ↔
      ∀ z ∈ u.conditionsAt, z.HoldUndeferred I :=
    forall_conditionsAt_collapse (fun z d => Iff.rfl) u
  -- A deferred test ends up at another join depth, on which what it reads does not depend.
  have hmoved := (forall_deferred_collapse JoinOutput.conjunctive_fixed u).2 hu
  have hdeferred := forall_deferred_collapse (JoinOutput.conjunctive_satisfied_everywhere I) u
  simp only [ConditionAt.hold_iff, forall_and]
  rw [hrest, forall_satisfied_deferred_iff hu, forall_satisfied_deferred_iff hmoved, hdeferred]

theorem testsHold_iff_allFrom {r : Lhs Symbol Note} :
    r.TestsHold I ↔ Node.AllFrom (Node.TestsHold I) 0 r.nodes := by
  constructor
  · intro h i n hn
    exact h n (List.mem_of_getElem? hn)
  · intro h n hn
    obtain ⟨i, hi⟩ := List.mem_iff_getElem?.1 hn
    exact h i n hi

/-- **Compilation preserves meaning**: if no multifield slot is directly inside another one, the
compiled left-hand side differs from the source in its notes only, and under every interpretation the
tests in the notes are all true exactly if every field and every test condition is met. -/
theorem testsHold_iff_means {c : Context} {l : Lhs Symbol α} {r : Lhs Symbol Note}
    (hflat : l.isFlat = true) (h : l.compile c = .ok r) (I : Interpretation E V) :
    r.bare = l.bare ∧ (r.TestsHold I ↔ r.Means I) := by
  have hmultislot : ∀ i p n, n.out = {} → Node.TestsHold I i .multislot p n := by
    intro i p n hn
    rw [Node.TestsHold, hn]
    exact Outputs.hold_empty I
  have hnodes := allFrom_nodes_iff h hmultislot
  obtain ⟨u, hu, rfl⟩ := exists_compileFrom_of_compile h
  refine ⟨(bare_collapse u).trans (bare_of_compileFrom hu), ?_⟩
  have hconditions : ∀ z ∈ u.conditionsAt,
      (∀ d, (⟨z.pattern, z.joins, z.id, z.condition.withDeferred d⟩ : ConditionAt Note).AllNodes
          (Node.TestsHold I) ↔
        (⟨z.pattern, z.joins, z.id, z.condition.withDeferred d⟩ : ConditionAt Note).Hold I) ∧
      (z.Hold I ↔ z.Means I) := by
    intro z hz
    obtain ⟨k, σ, rest, v, hk, hv, hcondition, hσ⟩ := exists_visit_of_mem hu Scope.before_nil hz
    have hkflat : k.isFlat = true := List.all_eq_true.1 hflat k hk
    have hnodes := Condition.allNodes_iff_hold (I := I) hv hkflat
    have hmeans := Condition.hold_iff_means (I := I) hv hσ hkflat
    rw [hcondition] at hnodes hmeans
    exact ⟨hnodes, hmeans⟩
  have hhold : ∀ y ∈ (collapse u).conditionsAt, (y.AllNodes (Node.TestsHold I) ↔ y.Hold I) := by
    intro y hy
    have hy := (forall_conditionsAt_collapse (fun z d => Iff.rfl) u).2
      (fun z hz => (hconditions z hz).1) y hy
    exact hy y.condition.deferred
  calc (collapse u).TestsHold I
    _ ↔ ∀ y ∈ (collapse u).conditionsAt, y.AllNodes (Node.TestsHold I) :=
      testsHold_iff_allFrom.trans hnodes
    _ ↔ ∀ y ∈ (collapse u).conditionsAt, y.Hold I := forall₂_congr hhold
    _ ↔ ∀ z ∈ u.conditionsAt, z.Hold I := hold_collapse_iff (fixed_of_compileFrom hu)
    _ ↔ ∀ z ∈ u.conditionsAt, z.Means I := forall₂_congr fun z hz => (hconditions z hz).2
    _ ↔ (collapse u).Means I := (forall_conditionsAt_collapse (fun z d => Iff.rfl) u).symm

/-- Numbers as values: the first entity has the value 2 in every field, and the others have in a field
its number. -/
def fieldNumbers : Interpretation Nat Nat where
  entity d := d
  value
    | 1, _ => 2
    | _, .entity => 0
    | _, .field index _ _ => index
  constant _ := 0
  call _ _ := 0
  global _ := 0
  ofBool := Bool.toNat
  isTrue v := v ≠ 0
  isTrue_ofBool b := by cases b <;> rfl

/-- The second field of the second entity has the value of `y`, so the alternation is met. -/
theorem alternation_met :
    ∃ r, compiledSteps (alternation ["x", "y"]) = .ok r ∧ r.TestsHold fieldNumbers ∧
      r.Means fieldNumbers := by
  obtain ⟨r, hr, hcheck⟩ := exists_ok_of_check (e := compiledSteps (alternation ["x", "y"]))
    (p := fun r => decide (r.TestsHold fieldNumbers)) (by decide +kernel)
  have hflat : ((ofSteps (alternation ["x", "y"])).intern .empty).1.isFlat = true := by
    decide +kernel
  have hhold := of_decide_eq_true hcheck
  exact ⟨r, hr, hhold, (testsHold_iff_means hflat hr fieldNumbers).2.1 hhold⟩

end Lhs

end Antecedent
