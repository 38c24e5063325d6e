import Antecedent.Proofs.Renaming
import Antecedent.Proofs.Stages

/-!
# Tests of renamed fields

The tests that are made from a field or a test condition depend on symbols only in that they hold them:
making them commutes with every renaming, also with one that makes different symbols equal. At which
stage a test runs, and which entities it reads, stays as it is.

* `Field.conjuncts_rename` is about the conjuncts of a field, `Staging.alternative_rename` about the
  tests of an alternative by their stages.
* `Outputs.ofField_rename` and `Outputs.ofTest_rename` are the results for a whole field and for a test
  condition.
-/

namespace Antecedent

variable {α β : Type} (ρ : Symbol → Symbol)

/-! ## Sites -/

namespace Site

theorem address_rename (kind : EntityKind) (s : Site) :
    (s.rename ρ).address kind = (s.address kind).rename ρ := by
  have hindex : (s.rename ρ).index = s.index := rfl
  unfold address
  rw [hindex]
  split
  · rfl
  · cases kind <;> rfl

theorem fetchAs_rename (kind : EntityKind) (s : Site) (side : Side) :
    (s.rename ρ).fetchAs kind side = (s.fetchAs kind side).rename ρ := by
  rw [fetchAs, address_rename]
  rfl

theorem side_rename (s : Site) (r : Role) : (s.rename ρ).side r = s.side r := by
  cases r <;> rfl

end Site

theorem Test.get_rename (f : Fetch) : get (f.rename ρ) = (get f).rename ρ := rfl

theorem EntityKind.compareCandidate_rename (k : EntityKind) (s : Site) (negated : Bool) (origin : Site) :
    k.compareCandidate (s.rename ρ) negated (origin.rename ρ) =
      (k.compareCandidate s negated origin).rename ρ := by
  simp only [compareCandidate, Site.fetchAs_rename]
  rfl

namespace Site

theorem candidateValue_rename (s : Site) : (s.rename ρ).candidateValue = s.candidateValue.rename ρ := by
  simp only [candidateValue, EntityKind.candidateValue, fetchAs_rename, Test.get_rename]
  rfl

theorem joinValue_rename (s : Site) (r : Role) :
    (s.rename ρ).joinValue r = (s.joinValue r).rename ρ := by
  simp only [joinValue, EntityKind.joinValue, fetchAs_rename, side_rename, Test.get_rename]
  rfl

theorem constantTest_rename (s : Site) (negated : Bool) (v : Literal Symbol) (side : Side) :
    (s.rename ρ).constantTest negated (v.map ρ) side = (s.constantTest negated v side).rename ρ := by
  obtain ⟨kind, index, name, segment, joinDepth⟩ := s
  -- Facts have a constant test of their own, except for sequences; otherwise the values are compared.
  have hgeneral : ∀ s : Site, Test.equality negated (.get ((s.rename ρ).fetch side)) (.const (v.map ρ)) =
      (Test.equality negated (.get (s.fetch side)) (.const v)).rename ρ := by
    intro s
    have hconst : Test.const (v.map ρ) = (Test.const v).rename ρ := rfl
    rw [fetch, fetchAs_rename, Test.get_rename, hconst, Test.equality_rename]
    rfl
  cases kind with
  | object => exact hgeneral _
  | fact =>
    simp only [constantTest, EntityKind.constantTest?, fetchAs_rename]
    by_cases h : segment.any Segment.sequence
    · simpa [rename, h] using hgeneral ⟨.fact, index, name, segment, joinDepth⟩
    · simp [rename, h, Test.rename, Test.renameAll, Op.rename, Test.const, Test.leaf]

theorem compareJoin_rename (s : Site) (negated : Bool) (origin : Site) (role originRole : Role) :
    (s.rename ρ).compareJoin negated (origin.rename ρ) role originRole =
      (s.compareJoin negated origin role originRole).rename ρ := by
  have hkind : ∀ s : Site, (s.rename ρ).kind = s.kind := fun _ => rfl
  rw [compareJoin, compareJoin, hkind, hkind]
  split
  · simp only [EntityKind.compareJoin, fetchAs_rename, side_rename]
    rfl
  · rw [joinValue_rename, joinValue_rename, Test.equality_rename]

end Site

/-! ## Expressions -/

theorem Origin.candidateValue_rename (o : Origin) :
    (o.rename ρ).candidateValue = o.candidateValue.rename ρ :=
  Site.candidateValue_rename ρ o.place.site

theorem Origin.joinValue_rename (depth joinDepth : Nat) (deferred : Bool) (o : Origin) :
    (o.rename ρ).joinValue depth joinDepth deferred = (o.joinValue depth joinDepth deferred).rename ρ :=
  Site.joinValue_rename ρ o.place.site (o.role depth joinDepth deferred)

namespace Term

variable {read read' : Origin → Test}

mutual

theorem test_rename (hread : ∀ o, read' (o.rename ρ) = (read o).rename ρ) (t : Term Symbol Origin) :
    (t.rename ρ (Origin.rename ρ)).test read' = (t.test read).rename ρ := by
  cases t with
  | call f args =>
    rw [rename, test, test, testAll_renameAll hread args]
    rfl
  | var x arity o => exact hread o
  | lit v => rfl
  | global x => rfl

theorem testAll_renameAll (hread : ∀ o, read' (o.rename ρ) = (read o).rename ρ)
    (ts : List (Term Symbol Origin)) :
    testAll read' (renameAll ρ (Origin.rename ρ) ts) = Test.renameAll ρ (testAll read ts) := by
  cases ts with
  | nil => rfl
  | cons t ts =>
    rw [renameAll, testAll, testAll, Test.renameAll, test_rename hread t, testAll_renameAll hread ts]

end

end Term

/-! ## Conjuncts -/

def Conjunct.rename (g : α → β) (k : Conjunct α) : Conjunct β :=
  ⟨k.site.rename ρ, k.constraint.rename ρ g⟩

theorem Conjunct.origins_rename (k : Conjunct Origin) :
    (k.rename ρ (Origin.rename ρ)).origins = k.origins.map (Origin.rename ρ) := by
  obtain ⟨site, shape, negated⟩ := k
  cases shape with
  | literal v => rfl
  | var x arity o => rfl
  | predicate t => exact Term.notes_rename ρ (Origin.rename ρ) t
  | returnValue t => exact Term.notes_rename ρ (Origin.rename ρ) t

@[simp] theorem Site.part_rename (g : α → β) (s : Site) (f : Field Symbol α) (position : Nat) :
    (s.rename ρ).part (f.rename ρ g) position = (s.part f position).rename ρ := by
  simp [part, rename, Field.segment]

namespace Field

variable (g : α → β)

theorem asConjunct?_rename (site : Site) (position : Nat) (f : Field Symbol α) :
    (f.rename ρ g).asConjunct? (site.rename ρ) position =
      (f.asConjunct? site position).map (Conjunct.rename ρ g) := by
  cases f with
  | plain b as declared n => cases b <;> rfl
  | multi ps as declared n => rfl

theorem asConjuncts_rename (site : Site) (position : Nat) (fs : List (Field Symbol α)) :
    asConjuncts (site.rename ρ) position (renameAll ρ g fs) =
      (asConjuncts site position fs).map (Conjunct.rename ρ g) := by
  induction fs generalizing position with
  | nil => rfl
  | cons f fs ih =>
    rw [renameAll, asConjuncts, asConjuncts, asConjunct?_rename, ih, List.map_append, Option.toList_map]

mutual

@[simp] theorem conjuncts_rename (site : Site) (f : Field Symbol α) :
    (f.rename ρ g).conjuncts (site.rename ρ) =
      (f.conjuncts site).map (List.map (Conjunct.rename ρ g)) := by
  cases f with
  | plain b as declared n =>
    simp [rename, conjuncts, Alternative.constraints_rename, Function.comp_def, Conjunct.rename]
  | multi ps as declared n => rw [rename, conjuncts, conjuncts, conjunctsOfParts_renameAll site ps]

theorem conjunctsOfParts_renameAll (site : Site) (fs : List (Field Symbol α)) :
    conjunctsOfParts (site.rename ρ) (renameAll ρ g fs) =
      (conjunctsOfParts site fs).map (List.map (Conjunct.rename ρ g)) := by
  cases fs with
  | nil => rfl
  | cons f fs =>
    have hparts := asConjuncts_rename ρ g site 0 (f :: fs)
    rw [renameAll] at hparts ⊢
    rw [conjunctsOfParts, conjunctsOfParts, hparts, Site.part_rename, conjuncts_rename, List.map_cons]

end

end Field

/-! ## Stages -/

namespace StageTests

def rename (s : StageTests) : StageTests where
  candidate := s.candidate.map (Test.rename ρ)
  join := s.join.map (Test.rename ρ)
  deferred := s.deferred.map (Test.rename ρ)
  lookups := s.lookups.map (ConstantLookup.rename ρ)

theorem append_rename (a b : StageTests) : (a.rename ρ).append (b.rename ρ) = (a.append b).rename ρ := by
  simp [append, rename]

theorem all_map_rename (ss : List StageTests) : all (ss.map (rename ρ)) = (all ss).rename ρ := by
  induction ss with
  | nil => rfl
  | cons s ss ih => rw [List.map_cons, all, all, ih, append_rename]

end StageTests

namespace Staging

def rename (s : Staging) : Staging := { s with place := s.place.rename ρ }

theorem stage_rename (s : Staging) (os : List Origin) :
    (s.rename ρ).stage (os.map (Origin.rename ρ)) = s.stage os := by
  simp only [stage, binds, List.all_map]
  rfl

theorem ownSide_rename (s : Staging) (site : Site) (stage : Stage) :
    (s.rename ρ).ownSide (site.rename ρ) stage = s.ownSide site stage := by
  cases stage <;> rfl

theorem termTest_rename (s : Staging) (t : Term Symbol Origin) (stage : Stage) :
    (s.rename ρ).termTest (t.rename ρ (Origin.rename ρ)) stage = (s.termTest t stage).rename ρ := by
  cases stage with
  | candidate => exact Term.test_rename ρ (Origin.candidateValue_rename ρ) t
  | join => exact Term.test_rename ρ (Origin.joinValue_rename ρ _ _ _) t
  | deferred => exact Term.test_rename ρ (Origin.joinValue_rename ρ _ _ _) t

theorem comparison_rename (s : Staging) (site : Site) (negated : Bool) (o : Origin) (stage : Stage) :
    (s.rename ρ).comparison (site.rename ρ) negated (o.rename ρ) stage =
      (s.comparison site negated o stage).rename ρ := by
  cases stage with
  | candidate => exact EntityKind.compareCandidate_rename ρ site.kind site negated o.place.site
  | join => exact Site.compareJoin_rename ρ site negated o.place.site s.ownRole (s.originRole o)
  | deferred => exact Site.compareJoin_rename ρ site negated o.place.site s.ownRole (s.originRole o)

theorem conjunctTest_rename (s : Staging) (k : Conjunct Origin) (stage : Stage) :
    (s.rename ρ).conjunctTest (k.rename ρ (Origin.rename ρ)) stage =
      (s.conjunctTest k stage).rename ρ := by
  obtain ⟨site, shape, negated⟩ := k
  cases shape with
  | literal v =>
    simp only [conjunctTest, Conjunct.rename, Constraint.rename, ownSide_rename,
      Site.constantTest_rename]
  | var x arity o => exact comparison_rename ρ s site negated o stage
  | predicate t =>
    simp only [conjunctTest, Conjunct.rename, Constraint.rename, termTest_rename, Test.negateIf_rename]
  | returnValue t =>
    simp only [conjunctTest, Conjunct.rename, Constraint.rename, ownSide_rename, termTest_rename,
      Site.fetch, Site.fetchAs_rename, Test.get_rename, Test.equality_rename]
    rfl

theorem lookups_rename (k : Conjunct Origin) (stage : Stage) :
    lookups (k.rename ρ (Origin.rename ρ)) stage = (lookups k stage).map (ConstantLookup.rename ρ) := by
  obtain ⟨site, shape, negated⟩ := k
  cases stage with
  | candidate =>
    cases shape with
    | literal v =>
      cases negated with
      | false =>
        simp only [lookups, Conjunct.rename, Constraint.rename, Site.candidateValue_rename]
        rfl
      | true => rfl
    | var x arity o => rfl
    | predicate t => rfl
    | returnValue t => rfl
  | join => rfl
  | deferred => rfl

theorem conjunct_rename (s : Staging) (k : Conjunct Origin) :
    (s.rename ρ).conjunct (k.rename ρ (Origin.rename ρ)) = (s.conjunct k).rename ρ := by
  simp only [conjunct, Conjunct.origins_rename, stage_rename, conjunctTest_rename, lookups_rename]
  cases s.stage k.origins <;> rfl

theorem alternative_rename (s : Staging) (ks : List (Conjunct Origin)) :
    (s.rename ρ).alternative (ks.map (Conjunct.rename ρ (Origin.rename ρ))) =
      (s.alternative ks).rename ρ := by
  rw [alternative, alternative, ← StageTests.all_map_rename, List.map_map, List.map_map]
  exact congrArg StageTests.all (List.map_congr_left fun k _ => conjunct_rename ρ s k)

theorem ofField_rename (p : Place) (own : Option Origin) (as : List (List (Conjunct Origin))) :
    ofField (p.rename ρ) (own.map (Origin.rename ρ))
        (as.map (List.map (Conjunct.rename ρ (Origin.rename ρ)))) =
      (ofField p own as).rename ρ := by
  have hreferred : (as.map (List.map (Conjunct.rename ρ (Origin.rename ρ)))).flatMap
        (fun ks => ks.flatMap Conjunct.origins) =
      (as.flatMap fun ks => ks.flatMap Conjunct.origins).map (Origin.rename ρ) := by
    simp only [List.flatMap_map, List.map_flatMap, Conjunct.origins_rename]
  simp only [ofField, hreferred, List.length_map, List.all_map, List.any_map, Option.any_map]
  rfl

end Staging

/-! ## Fields and test conditions -/

namespace Outputs

theorem ofAlternatives_rename (ts : List StageTests) :
    ofAlternatives (ts.map (StageTests.rename ρ)) = (ofAlternatives ts).rename ρ := by
  have hlookup : (ofAlternatives (ts.map (StageTests.rename ρ))).lookup =
      (ofAlternatives ts).lookup.map (ConstantLookup.rename ρ) := by
    match ts with
    | [] => rfl
    | [t] =>
      obtain ⟨candidate, join, deferred, lookups⟩ := t
      match lookups with
      | [] => rfl
      | [l] => rfl
      | l :: l' :: ls => rfl
    | t :: u :: ts => rfl
  have htests : ∀ stage : StageTests → Option Test,
      (∀ s : StageTests, stage (s.rename ρ) = (stage s).map (Test.rename ρ)) →
      Test.anyOf ((ts.map (StageTests.rename ρ)).filterMap stage) =
        (Test.anyOf (ts.filterMap stage)).map (Test.rename ρ) := by
    intro stage hstage
    rw [← Test.anyOf_map_rename, List.filterMap_map, List.map_filterMap]
    simp only [Function.comp_def, hstage]
  have hcandidate := htests StageTests.candidate fun _ => rfl
  have hjoin := htests StageTests.join fun _ => rfl
  have hdeferred := htests StageTests.deferred fun _ => rfl
  rw [rename, ← hlookup]
  simp only [ofAlternatives, hcandidate, hjoin, hdeferred, JoinOutput.rename, List.map_nil]

theorem compareOwn_rename (p : Place) (o : Origin) (out : Outputs) :
    (out.rename ρ).compareOwn (p.rename ρ) (o.rename ρ) = (out.compareOwn p o).rename ρ := by
  have hown : ∀ p o, (⟨p, true, o.isOutside p.beginDepth⟩ : Staging) = Staging.ofOwn p o :=
    fun _ _ => rfl
  have hplace : Staging.ofOwn (p.rename ρ) (o.rename ρ) = (Staging.ofOwn p o).rename ρ := rfl
  have hstage : ((Staging.ofOwn p o).rename ρ).stage [o.rename ρ] = (Staging.ofOwn p o).stage [o] :=
    Staging.stage_rename ρ (Staging.ofOwn p o) [o]
  have horigin : (o.rename ρ).place.site = o.place.site.rename ρ := rfl
  simp only [compareOwn, hown, hplace, hstage, horigin, Place.site_rename, Staging.comparison_rename,
    Site.joinValue_rename, Site.candidateValue_rename]
  have hjoin : ∀ (t x y : Test) (j : JoinOutput),
      JoinOutput.mk (some (t.rename ρ)) [⟨x.rename ρ, y.rename ρ⟩] ++ j.rename ρ =
        (JoinOutput.mk (some t) [⟨x, y⟩] ++ j).rename ρ :=
    fun t x y j => JoinOutput.append_rename ρ ⟨some t, [⟨x, y⟩]⟩ j
  cases (Staging.ofOwn p o).stage [o] with
  | candidate => simp only [rename, ← Test.conjoin_rename, Option.map_some]
  | join => simp only [rename, hjoin]
  | deferred => simp only [rename, hjoin]

/-- The tests of a renamed field are those of the field, renamed. -/
theorem ofField_rename (p : Place) (own : Option Origin) (as : List (List (Conjunct Origin))) :
    ofField (p.rename ρ) (own.map (Origin.rename ρ))
        (as.map (List.map (Conjunct.rename ρ (Origin.rename ρ)))) =
      (ofField p own as).rename ρ := by
  have halternatives : (as.map (List.map (Conjunct.rename ρ (Origin.rename ρ)))).map
        ((Staging.ofField p own as).rename ρ).alternative =
      (as.map (Staging.ofField p own as).alternative).map (StageTests.rename ρ) := by
    simp only [List.map_map, Function.comp_def, Staging.alternative_rename]
  simp only [ofField, Staging.ofField_rename, halternatives, ofAlternatives_rename]
  cases own with
  | none => rfl
  | some o => exact compareOwn_rename ρ p o _

/-- The test of a renamed test condition is that of the condition, renamed. -/
theorem ofTest_rename (beginDepth joinDepth : Nat) (t : Term Symbol Origin) :
    ofTest beginDepth joinDepth (t.rename ρ (Origin.rename ρ)) =
      (ofTest beginDepth joinDepth t).rename ρ := by
  have hdeferred : (t.rename ρ (Origin.rename ρ)).notes.any (·.isOutside beginDepth) =
      t.notes.any (·.isOutside beginDepth) := by
    rw [Term.notes_rename, List.any_map]
    rfl
  simp only [ofTest, hdeferred, Term.test_rename ρ (Origin.joinValue_rename ρ _ _ _)]
  split <;> rfl

end Outputs

end Antecedent
