import Antecedent.FieldTests

/-!
# The tests of a field, stage by stage

`Outputs.ofField` makes one test for each stage, out of the comparison of the field's own variable
and the tests of the conjuncts. Each of these goes to exactly one stage.

* `StageTests.test` and `Outputs.test` take the test of one stage out of a collection, with one
  equation for every way in which collections are put together.
* `Test.fetches_node`, `Test.reads_conjoin`, ... say what the tests read.
* `Outputs.mem_reads_ofField` says what a field reads at a stage.
-/

namespace Antecedent

/-! ## What tests read -/

namespace Test

theorem subtestsAll_eq_flatMap (ts : List Test) : subtestsAll ts = ts.flatMap subtests := by
  induction ts with
  | nil => rfl
  | cons t ts ih => rw [subtestsAll, ih, List.flatMap_cons]

theorem fetches_node (op : Op) (args : List Test) :
    (node op args).fetches = opFetches op ++ args.flatMap fetches := by
  rw [fetches, subtests, List.flatMap_cons, subtestsAll_eq_flatMap, List.flatMap_assoc]
  rfl

@[simp] theorem fetches_const (v : Literal Symbol) : (const v).fetches = [] := rfl

@[simp] theorem fetches_global (x : Symbol) : (global x).fetches = [] := rfl

@[simp] theorem fetches_get (f : Fetch) : (get f).fetches = [f] := rfl

@[simp] theorem fetches_call (f : Symbol) (args : List Test) :
    (call f args).fetches = args.flatMap fetches :=
  fetches_node ..

@[simp] theorem fetches_negateIf (negated : Bool) (t : Test) :
    (negateIf negated t).fetches = t.fetches := by
  cases negated
  · rfl
  · simp [negateIf, not, fetches_node, opFetches]

@[simp] theorem fetches_equality (negated : Bool) (a b : Test) :
    (equality negated a b).fetches = a.fetches ++ b.fetches := by
  cases negated <;> simp [equality, fetches_node, opFetches]

theorem flatMap_fetches_conjuncts (t : Test) : t.conjuncts.flatMap fetches = t.fetches := by
  obtain ⟨op, args⟩ := t
  cases op <;> simp [conjuncts, fetches_node, opFetches]

/-- The conjuncts of a test that may be absent. -/
def allConjuncts (t : Option Test) : List Test := t.elim [] conjuncts

theorem mem_allConjuncts {t : Option Test} {u : Test} :
    u ∈ allConjuncts t ↔ ∃ s, t = some s ∧ u ∈ s.conjuncts := by
  cases t <;> simp [allConjuncts]

@[simp] theorem allConjuncts_conjoin (a b : Option Test) :
    allConjuncts (conjoin a b) = allConjuncts a ++ allConjuncts b := by
  cases a <;> cases b <;> simp [allConjuncts, conjoin]

/-- The fetches of a test that may be absent. -/
def reads (t : Option Test) : List Fetch := t.toList.flatMap fetches

@[simp] theorem reads_none : reads none = [] := rfl

@[simp] theorem reads_some (t : Test) : reads (some t) = t.fetches := by
  simp [reads]

@[simp] theorem reads_conjoin (a b : Option Test) : reads (conjoin a b) = reads a ++ reads b := by
  cases a with
  | none => simp
  | some a =>
    cases b with
    | none => simp
    | some b =>
      simp [conjoin, fetches_node, opFetches, List.flatMap_append, flatMap_fetches_conjuncts]

@[simp] theorem reads_anyOf (ts : List Test) : reads (anyOf ts) = ts.flatMap fetches := by
  match ts with
  | [] => rfl
  | [t] => simp [anyOf]
  | t :: t' :: ts => simp [anyOf, fetches_node, opFetches]

end Test

/-! ## What is read of a site -/

namespace Site

theorem fetchAs_eq_fetch {s : Site} {kind : EntityKind} (h : s.kind = kind) (side : Side) :
    s.fetchAs kind side = s.fetch side := by
  rw [fetch, h]

@[simp] theorem fetches_joinValue (s : Site) (r : Role) :
    (s.joinValue r).fetches = [s.fetch (s.side r)] := rfl

@[simp] theorem fetches_constantTest (s : Site) (negated : Bool) (v : Literal Symbol) (side : Side) :
    (s.constantTest negated v side).fetches = [s.fetch side] := by
  cases hk : s.kind with
  | object => simp [constantTest, EntityKind.constantTest?, hk]
  | fact =>
    by_cases hs : s.segment.any Segment.sequence
    · simp [constantTest, EntityKind.constantTest?, hk, hs]
    · simp [constantTest, EntityKind.constantTest?, hk, hs, Test.fetches_node, Test.opFetches,
        fetchAs_eq_fetch hk]

@[simp] theorem fetches_compareJoin (s : Site) (negated : Bool) (origin : Site)
    (role originRole : Role) :
    (s.compareJoin negated origin role originRole).fetches =
      [s.fetch (s.side role), origin.fetch (origin.side originRole)] := by
  by_cases h : s.kind = origin.kind
  · simp [compareJoin, h, EntityKind.compareJoin, Test.leaf, Test.fetches_node, Test.opFetches,
      fetchAs_eq_fetch h, fetchAs_eq_fetch rfl]
  · simp [compareJoin, h]

end Site

namespace Term

mutual

/-- An expression reads its variables and nothing else. -/
theorem fetches_test (read : Origin → Test) (t : Term Symbol Origin) :
    (t.test read).fetches = t.notes.flatMap fun o => (read o).fetches := by
  cases t with
  | call f args => simpa [test, notes] using flatMap_fetches_testAll read args
  | var x arity o => simp [test, notes]
  | lit v => rfl
  | global x => rfl

theorem flatMap_fetches_testAll (read : Origin → Test) (ts : List (Term Symbol Origin)) :
    (testAll read ts).flatMap Test.fetches = (notesAll ts).flatMap fun o => (read o).fetches := by
  cases ts with
  | nil => rfl
  | cons t ts =>
    rw [testAll, notesAll, List.flatMap_cons, List.flatMap_append, fetches_test read t,
      flatMap_fetches_testAll read ts]

end

end Term

/-! ## Collections of tests by stage -/

namespace StageTests

/-- The test at a stage. -/
def test (s : StageTests) : Stage → Option Test
  | .candidate => s.candidate
  | .join => s.join
  | .deferred => s.deferred

@[simp] theorem test_append (a b : StageTests) (stage : Stage) :
    (a.append b).test stage = Test.conjoin (a.test stage) (b.test stage) := by
  cases stage <;> rfl

@[simp] theorem test_empty (stage : Stage) : ({} : StageTests).test stage = none := by
  cases stage <;> rfl

theorem mem_reads_all {ss : List StageTests} {stage : Stage} {f : Fetch} :
    f ∈ Test.reads ((all ss).test stage) ↔ ∃ s ∈ ss, f ∈ Test.reads (s.test stage) := by
  induction ss with
  | nil => simp [all]
  | cons s ss ih => simp [all, ih]

end StageTests

namespace Staging

/-- A conjunct has a test at its own stage only. -/
theorem test_conjunct (s : Staging) (k : Conjunct Origin) (stage : Stage) :
    (s.conjunct k).test stage =
      if s.stage k.origins = stage then some (s.conjunctTest k stage) else none := by
  have hlookups (t : StageTests) (ls : List ConstantLookup) :
      ({ t with lookups := ls } : StageTests).test stage = t.test stage := by
    cases stage <;> rfl
  rw [conjunct, hlookups]
  by_cases h : s.stage k.origins = stage
  · rw [if_pos h, h]
    cases stage <;> rfl
  · rw [if_neg h]
    cases hk : s.stage k.origins <;> cases stage <;> simp_all [StageTests.single, StageTests.test]

theorem mem_reads_alternative {s : Staging} {ks : List (Conjunct Origin)} {stage : Stage}
    {f : Fetch} :
    f ∈ Test.reads ((s.alternative ks).test stage) ↔
      ∃ k ∈ ks, s.stage k.origins = stage ∧ f ∈ (s.conjunctTest k stage).fetches := by
  rw [alternative, StageTests.mem_reads_all]
  constructor
  · rintro ⟨t, ht, hf⟩
    obtain ⟨k, hk, rfl⟩ := List.mem_map.1 ht
    rw [test_conjunct] at hf
    split at hf
    · next hstage => exact ⟨k, hk, hstage, by simpa using hf⟩
    · simp at hf
  · rintro ⟨k, hk, hstage, hf⟩
    refine ⟨s.conjunct k, List.mem_map_of_mem hk, ?_⟩
    rw [test_conjunct, if_pos hstage]
    simpa using hf

/-- The staging of a field's own variable, which goes by its own binding occurrence alone. -/
def ofOwn (p : Place) (o : Origin) : Staging := ⟨p, true, o.isOutside p.beginDepth⟩

end Staging

namespace Outputs

/-- The test at a stage. -/
def test (out : Outputs) : Stage → Option Test
  | .candidate => out.candidate
  | .join => out.join.test
  | .deferred => out.deferred.test

theorem test_ofAlternatives (ts : List StageTests) (stage : Stage) :
    (ofAlternatives ts).test stage = Test.anyOf (ts.filterMap (·.test stage)) := by
  cases stage <;> rfl

/-- The comparison of a field's own variable is added at its own stage only. -/
theorem test_compareOwn (p : Place) (o : Origin) (out : Outputs) (stage : Stage) :
    (out.compareOwn p o).test stage =
      Test.conjoin
        (if (Staging.ofOwn p o).stage [o] = stage then
          some ((Staging.ofOwn p o).comparison p.site false o stage) else none)
        (out.test stage) := by
  have hs : (⟨p, true, o.isOutside p.beginDepth⟩ : Staging) = Staging.ofOwn p o := rfl
  unfold compareOwn
  simp only [hs]
  split <;> rename_i h <;> cases stage <;> simp [h, test]

/-- What a field reads at a stage. -/
theorem mem_reads_ofField {p : Place} {own : Option Origin} {as : List (List (Conjunct Origin))}
    {stage : Stage} {f : Fetch} :
    f ∈ Test.reads ((ofField p own as).test stage) ↔
      (∃ o, own = some o ∧ (Staging.ofOwn p o).stage [o] = stage ∧
        f ∈ ((Staging.ofOwn p o).comparison p.site false o stage).fetches) ∨
      ∃ ks ∈ as, ∃ k ∈ ks, (Staging.ofField p own as).stage k.origins = stage ∧
        f ∈ ((Staging.ofField p own as).conjunctTest k stage).fetches := by
  have has : f ∈ Test.reads
      ((ofAlternatives (as.map (Staging.ofField p own as).alternative)).test stage) ↔
      ∃ ks ∈ as, ∃ k ∈ ks, (Staging.ofField p own as).stage k.origins = stage ∧
        f ∈ ((Staging.ofField p own as).conjunctTest k stage).fetches := by
    rw [test_ofAlternatives, Test.reads_anyOf]
    simp only [← Staging.mem_reads_alternative, List.mem_flatMap, List.mem_filterMap, List.mem_map,
      Test.reads, Option.mem_toList]
    constructor
    · rintro ⟨t, ⟨-, ⟨ks, hks, rfl⟩, ht⟩, hf⟩
      exact ⟨ks, hks, t, ht, hf⟩
    · rintro ⟨ks, hks, t, ht, hf⟩
      exact ⟨t, ⟨_, ⟨ks, hks, rfl⟩, ht⟩, hf⟩
  cases own with
  | none =>
    rw [ofField, has]
    simp
  | some o =>
    rw [ofField, test_compareOwn, Test.reads_conjoin, List.mem_append, has]
    refine or_congr ?_ Iff.rfl
    by_cases hstage : (Staging.ofOwn p o).stage [o] = stage <;> simp [hstage]

end Outputs

end Antecedent
