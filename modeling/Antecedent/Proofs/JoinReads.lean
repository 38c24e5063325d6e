import Antecedent.Proofs.NegatedRuns
import Antecedent.Proofs.Origins
import Antecedent.Proofs.Stages

/-!
# What a join reads

The join of a condition sees the entity that enters it and the partial match of the joins before it.
Its test and the left sides of its hash pairs read nothing else, but for one kind of field.

A field with several alternatives is tested in the join as a whole if any of them refers to another
pattern. An alternative that names a variable of the field's own pattern is then compared with the
partial match, where the pattern's entity is not yet.

* `Fetch.Available` says that a join sees what a fetch reads.
* `FieldAt.MixedAlternation` says that a field is of that kind.
* `Lhs.join_available_iff_not_mixed` says that a join reads only what it sees exactly if no field of
  its condition is.
-/

namespace Antecedent

variable {α : Type}

/-! ## Reads of a join -/

/-- The fetch reads the entity that enters the join, or one that entered at an earlier join. -/
def Fetch.Available (joinDepth : Nat) (f : Fetch) : Prop :=
  f.side = .joining ∨ ∃ d, f.side = .matched d ∧ 1 ≤ d ∧ d < joinDepth

/-- What the test of a join and the left sides of its hash pairs read. -/
def JoinOutput.leftReads (o : JoinOutput) : List Fetch :=
  Test.reads o.test ++ o.hash.flatMap fun h => h.left.fetches

theorem JoinOutput.conjunctive_leftReads (P : Fetch → Prop) :
    Conjunctive fun o => ∀ f ∈ o.leftReads, P f where
  empty := by simp [leftReads]
  append a b := by
    simp only [leftReads, test_append, hash_append, Test.reads_conjoin, List.flatMap_append,
      List.mem_append]
    grind

/-! ## Reads of a field -/

theorem Staging.stage_eq_join_iff {s : Staging} {os : List Origin} :
    s.stage os = .join ↔ ¬ (s.inPattern = true ∧ s.binds os = true) ∧ s.deferred = false := by
  unfold stage
  split
  · simp_all
  · split <;> simp_all

namespace Outputs

/-- The hash pair of a field comes from the comparison of its own variable in the join. -/
theorem left_of_mem_hash_join {p : Place} {own : Option Origin} {as : List (List (Conjunct Origin))}
    {h : HashPair} (hh : h ∈ (ofField p own as).join.hash) :
    ∃ o, own = some o ∧ (Staging.ofOwn p o).stage [o] = .join ∧
      h.left = o.place.site.joinValue .matched := by
  cases own with
  | none => cases hh
  | some o =>
    refine ⟨o, rfl, ?_⟩
    rw [ofField, compareOwn] at hh
    split at hh
    · cases hh
    · next hstage =>
      obtain rfl := List.mem_singleton.1 hh
      exact ⟨hstage, rfl⟩
    · cases hh

end Outputs

/-- An expression reads a variable where the join sees it: from the entering entity if that is where
it is bound, else from the partial match. -/
theorem Origin.available_of_mem_joinValue {o : Origin} {depth joinDepth : Nat}
    (ho : o.place.site.joinDepth = joinDepth ∨
      1 ≤ o.place.site.joinDepth ∧ o.place.site.joinDepth < joinDepth)
    {f : Fetch} (hf : f ∈ (o.joinValue depth joinDepth false).fetches) : f.Available joinDepth := by
  rw [joinValue, Site.fetches_joinValue, List.mem_singleton] at hf
  subst hf
  by_cases h : joinDepth = o.place.site.joinDepth
  · exact .inl (by simp [role, h, Site.fetch, Site.fetchAs, Site.side])
  · obtain ⟨hpos, hlt⟩ := ho.resolve_left (Ne.symm h)
    exact .inr ⟨o.place.site.joinDepth, by simp [role, h, Site.fetch, Site.fetchAs, Site.side],
      hpos, hlt⟩

/-- A comparison reads a binding occurrence from the partial match, which is right for another
pattern only. -/
theorem Origin.Around.available_matched_iff {p : Place} {o : Origin} (ho : o.Around p) :
    (o.place.site.fetch (o.place.site.side .matched)).Available p.site.joinDepth ↔
      o.place.pattern ≠ p.pattern := by
  rw [← ho.joinDepth_lt_iff]
  constructor
  · rintro (h | ⟨d, hd, -, hlt⟩)
    · cases h
    · obtain rfl := Side.matched.inj hd
      exact hlt
  · intro hlt
    cases ho with
    | before _ joinDepth_pos _ => exact .inr ⟨_, rfl, joinDepth_pos, hlt⟩
    | beside same => exact absurd same.joinDepth_eq (Nat.ne_of_lt hlt)

theorem Origin.Around.joinDepth_cases {p : Place} {o : Origin} (ho : o.Around p) :
    o.place.site.joinDepth = p.site.joinDepth ∨
      1 ≤ o.place.site.joinDepth ∧ o.place.site.joinDepth < p.site.joinDepth := by
  cases ho with
  | before _ joinDepth_pos joinDepth_lt => exact .inr ⟨joinDepth_pos, joinDepth_lt⟩
  | beside same => exact .inl same.joinDepth_eq

namespace Staging

theorem fetches_comparison_join {s : Staging} (hs : s.deferred = false) (site : Site)
    (negated : Bool) (o : Origin) :
    (s.comparison site negated o .join).fetches =
      [site.fetch (site.side .joining), o.place.site.fetch (o.place.site.side .matched)] := by
  simp [comparison, ownRole, originRole, hs]

/-- A conjunct that is tested in the join reads only what the join sees, unless it names a variable
of its own pattern. -/
theorem available_conjunctTest_join {s : Staging} (hs : s.deferred = false) {k : Conjunct Origin}
    (hk : ∀ o ∈ k.origins, o.Around s.place)
    (hvar : ∀ x arity o, k.constraint.shape = .var x arity o → o.place.pattern ≠ s.place.pattern)
    {f : Fetch} (hf : f ∈ (s.conjunctTest k .join).fetches) :
    f.Available s.place.site.joinDepth := by
  have hterm : ∀ t : Term Symbol Origin, (∀ o ∈ t.notes, o.Around s.place) →
      f ∈ (s.termTest t .join).fetches → f.Available s.place.site.joinDepth := by
    intro t ht hf
    rw [termTest, Term.fetches_test, hs] at hf
    obtain ⟨o, ho, hf⟩ := List.mem_flatMap.1 hf
    exact Origin.available_of_mem_joinValue (ht o ho).joinDepth_cases hf
  obtain ⟨site, shape, negated⟩ := k
  cases shape with
  | literal v =>
    simp only [conjunctTest, Site.fetches_constantTest, ownSide, ownRole, hs, List.mem_singleton] at hf
    exact .inl (by rw [hf]; rfl)
  | var x arity o =>
    simp only [conjunctTest, fetches_comparison_join hs, List.mem_cons, List.not_mem_nil, or_false]
      at hf
    rcases hf with rfl | rfl
    · exact .inl rfl
    · exact (hk o (by simp [Conjunct.origins])).available_matched_iff.2 (hvar x arity o rfl)
  | predicate t =>
    simp only [conjunctTest, Test.fetches_negateIf] at hf
    exact hterm t hk hf
  | returnValue t =>
    simp only [conjunctTest, Test.fetches_equality, Test.fetches_get, List.mem_append,
      List.mem_singleton, ownSide, ownRole, hs] at hf
    rcases hf with rfl | hf
    · exact .inl rfl
    · exact hterm t hk hf

end Staging

namespace Outputs

/-- A field reads in the join only what the join sees, exactly if no conjunct that is tested there
names a variable of the field's own pattern. -/
theorem available_ofField_iff {p : Place} {own : Option Origin} {as : List (List (Conjunct Origin))}
    (hown : ∀ o, own = some o → o.Around p)
    (has : ∀ ks ∈ as, ∀ k ∈ ks, ∀ o ∈ k.origins, o.Around p) :
    (∀ f ∈ (ofField p own as).join.leftReads, f.Available p.site.joinDepth) ↔
      ∀ ks ∈ as, ∀ k ∈ ks, (Staging.ofField p own as).stage k.origins = .join →
        ∀ x arity o, k.constraint.shape = .var x arity o → o.place.pattern ≠ p.pattern := by
  -- the field's own variable is compared in the join only if it is bound in another pattern
  have hother : ∀ o, own = some o → (Staging.ofOwn p o).stage [o] = .join →
      (o.place.site.fetch (o.place.site.side .matched)).Available p.site.joinDepth := by
    intro o ho hstage
    rw [(hown o ho).available_matched_iff]
    intro heq
    exact (Staging.stage_eq_join_iff.1 hstage).1 ⟨rfl, by simp [Staging.ofOwn, Staging.binds, heq]⟩
  constructor
  · intro h ks hks k hk hstage x arity o hshape
    have ho : o.Around p := has ks hks k hk o (by simp [Conjunct.origins, hshape])
    rw [← ho.available_matched_iff]
    refine h _ (List.mem_append_left _ (mem_reads_ofField.2 (.inr ⟨ks, hks, k, hk, hstage, ?_⟩)))
    have hdeferred := (Staging.stage_eq_join_iff.1 hstage).2
    simp [Staging.conjunctTest, hshape, Staging.fetches_comparison_join hdeferred]
  · intro h f hf
    rcases List.mem_append.1 hf with hf | hf
    · change f ∈ Test.reads ((ofField p own as).test .join) at hf
      rcases mem_reads_ofField.1 hf with ⟨o, ho, hstage, hf⟩ | ⟨ks, hks, k, hk, hstage, hf⟩
      · rw [Staging.fetches_comparison_join (Staging.stage_eq_join_iff.1 hstage).2] at hf
        rcases List.mem_cons.1 hf with rfl | hf
        · exact .inl rfl
        · rw [List.mem_singleton.1 hf]
          exact hother o ho hstage
      · exact Staging.available_conjunctTest_join (Staging.stage_eq_join_iff.1 hstage).2
          (has ks hks k hk) (h ks hks k hk hstage) hf
    · obtain ⟨pair, hpair, hf⟩ := List.mem_flatMap.1 hf
      obtain ⟨o, ho, hstage, hleft⟩ := left_of_mem_hash_join hpair
      rw [hleft, Site.fetches_joinValue, List.mem_singleton] at hf
      exact hf ▸ hother o ho hstage

end Outputs

/-! ## Mixed alternations -/

namespace Conjunct

/-- The binding occurrence that a conjunct compares its value with. -/
def compared (k : Conjunct Note) : Option Origin :=
  match k.constraint.shape with
  | .var _ _ n => n.origin
  | _ => none

theorem compared_of_bound {k : Conjunct Note} {k' : Conjunct Origin}
    (h : k'.mapNotes some = k.mapNotes Note.origin) {o : Origin} :
    k.compared = some o ↔ ∃ x arity, k'.constraint.shape = .var x arity o := by
  obtain ⟨site, shape, negated⟩ := k
  obtain ⟨site', shape', negated'⟩ := k'
  cases shape <;> cases shape' <;>
    simp_all [mapNotes, Constraint.mapNotes, compared, eq_comm]

end Conjunct

namespace FieldAt

/-- The binding occurrences that the alternatives of a compiled field refer to. -/
def references (x : FieldAt Note) : List Origin :=
  x.conjuncts.flatMap fun ks => ks.flatMap Conjunct.references

theorem references_eq {x : FieldAt Note} {bound : List (List (Conjunct Origin))}
    (h : List.Forall₂ (List.Forall₂ fun k k' => k'.mapNotes some = k.mapNotes Note.origin)
      x.conjuncts bound) : x.references = bound.flatMap fun ks => ks.flatMap Conjunct.origins := by
  rw [references, List.flatMap_def, List.flatMap_def]
  refine congrArg List.flatten (map_eq_map_of_forall₂ h fun ks ks' hks => ?_)
  rw [List.flatMap_def, List.flatMap_def]
  exact congrArg List.flatten
    (map_eq_map_of_forall₂ hks fun k k' hk => (Conjunct.origins_of_bound hk).symm)

/-- The field has several alternatives, some of them refer to another pattern, nothing is bound
outside of the negated group, and some conjunct names a variable of the field's own pattern. -/
@[mk_iff]
structure MixedAlternation (x : FieldAt Note) : Prop where
  alternated : 2 ≤ x.conjuncts.length
  elsewhere : ∃ o ∈ x.references, o.place.pattern ≠ x.place.pattern
  level : ∀ o ∈ x.field.note.origin.toList ++ x.references,
    x.place.beginDepth ≤ o.place.beginDepth
  within : ∃ ks ∈ x.conjuncts, ∃ k ∈ ks, ∃ o ∈ k.compared, o.place.pattern = x.place.pattern

instance (x : FieldAt Note) : Decidable x.MixedAlternation :=
  decidable_of_iff' _ (mixedAlternation_iff x)

end FieldAt

/-- A conjunct that names a variable of its own pattern is tested in the join exactly if the field has
several alternatives that refer to another pattern and to nothing outside of the negated group. -/
theorem Staging.ofField_stage_eq_join_iff {p : Place} {own : Option Origin}
    {as : List (List (Conjunct Origin))} {o : Origin} (ho : o.place.pattern = p.pattern) :
    (ofField p own as).stage [o] = .join ↔
      2 ≤ as.length ∧
        (∃ o ∈ as.flatMap fun ks => ks.flatMap Conjunct.origins, o.place.pattern ≠ p.pattern) ∧
        ∀ o ∈ own.toList ++ as.flatMap fun ks => ks.flatMap Conjunct.origins,
          p.beginDepth ≤ o.place.beginDepth := by
  have hbinds : (ofField p own as).binds [o] = true := by simp [ofField, binds, ho]
  have hin : ¬ (ofField p own as).inPattern = true ↔ 2 ≤ as.length ∧
      ∃ o ∈ as.flatMap fun ks => ks.flatMap Conjunct.origins, o.place.pattern ≠ p.pattern := by
    simp only [ofField, Bool.or_eq_true, decide_eq_true_eq, List.all_eq_true, not_or, not_forall,
      Nat.not_lt, exists_prop]
  have hdeferred : (ofField p own as).deferred = false ↔
      ∀ o ∈ own.toList ++ as.flatMap fun ks => ks.flatMap Conjunct.origins,
        p.beginDepth ≤ o.place.beginDepth := by
    simp only [ofField, Origin.isOutside, Bool.or_eq_false_iff, List.any_eq_false,
      List.forall_mem_append, decide_eq_true_eq, Nat.not_lt]
    cases own <;> simp
  rw [stage_eq_join_iff, hbinds, hdeferred, and_iff_left rfl, hin, and_assoc]

namespace FieldVisit

/-- **The reads of a compiled field in its join** are available exactly if it is not a mixed
alternation. -/
theorem available_iff_not_mixed {c : Context} {t : FieldVisit α}
    (h : t.source.Compiles c t.scope t.visited) (hσ : t.scope.Around t.source.place) :
    (∀ f ∈ t.visited.join.leftReads, f.Available t.source.place.site.joinDepth) ↔
      ¬ t.result.MixedAlternation := by
  have hconjuncts := conjuncts_result h
  have horigin := origin_result h
  obtain ⟨bound, hbound, hv⟩ := h
  have hpairs := Conjunct.forall₂_of_bindAll hbound
  have hlength : t.result.conjuncts.length = bound.length := by
    rw [hconjuncts, hpairs.length_eq]
  have hreferences : t.result.references = bound.flatMap fun ks => ks.flatMap Conjunct.origins :=
    FieldAt.references_eq (hconjuncts ▸ hpairs)
  have hown : ∀ o, (t.source.noted t.scope).note.origin = some o → o.Around t.source.place :=
    fun o ho => hσ o (FieldAt.origin_mem ho)
  have has := FieldAt.around_of_bindAll hbound hσ
  have hwithin : (∃ ks ∈ t.source.alternatives t.scope, ∃ k ∈ ks, ∃ o ∈ k.compared,
      o.place.pattern = t.source.place.pattern) ↔ ∃ ks ∈ bound, ∃ k ∈ ks, ∃ x arity o,
        k.constraint.shape = .var x arity o ∧ o.place.pattern = t.source.place.pattern := by
    refine exists_mem_iff_of_forall₂ hpairs fun ks ks' hks =>
      exists_mem_iff_of_forall₂ hks fun k k' hk => ?_
    simp only [Option.mem_def, Conjunct.compared_of_bound hk]
    grind
  rw [hv, FieldAt.outcome, Outputs.available_ofField_iff hown has, FieldAt.mixedAlternation_iff,
    hlength, hreferences, horigin, hconjuncts]
  constructor
  · rintro h ⟨hlength, helsewhere, hlevel, hmixed⟩
    obtain ⟨ks, hks, k, hk, x, arity, o, hshape, ho⟩ := hwithin.1 hmixed
    have horigins : k.origins = [o] := by rw [Conjunct.origins, hshape]
    have hstage := (Staging.ofField_stage_eq_join_iff ho).2 ⟨hlength, helsewhere, hlevel⟩
    exact h ks hks k hk (horigins ▸ hstage) x arity o hshape ho
  · intro h ks hks k hk hstage x arity o hshape ho
    have horigins : k.origins = [o] := by rw [Conjunct.origins, hshape]
    rw [horigins, Staging.ofField_stage_eq_join_iff ho] at hstage
    obtain ⟨hlength, helsewhere, hlevel⟩ := hstage
    exact h ⟨hlength, helsewhere, hlevel,
      hwithin.2 ⟨ks, hks, k, hk, x, arity, o, hshape, ho⟩⟩

end FieldVisit

/-! ## Conditions and left-hand sides -/

/-- A test condition reads in its join only what the join sees. -/
theorem Outputs.available_ofTest {c : Context} {σ : Scope} {v : Viewpoint} {spot : Spot}
    {pattern joins depth : Nat} {t : Term Symbol α} {u : Term Symbol Origin}
    (hσ : σ.Before pattern joins) (hu : (t.resolve σ v).bind c spot = .ok u) :
    ∀ f ∈ (ofTest depth joins u).join.leftReads, f.Available joins := by
  intro f hf
  cases hdeferred : u.notes.any (·.isOutside depth) with
  | true =>
    simp only [ofTest, hdeferred, if_true] at hf
    cases hf
  | false =>
    simp only [ofTest, hdeferred, Bool.false_eq_true, if_false, JoinOutput.leftReads,
      Test.reads_some, List.flatMap_nil, List.append_nil, Term.fetches_test] at hf
    obtain ⟨o, ho, hf⟩ := List.mem_flatMap.1 hf
    have hbefore := hσ o (Term.mem_allOrigins_of_bind hu ho)
    refine Origin.available_of_mem_joinValue ?_ hf
    have hpos := hbefore.joinDepth_pos
    have hle := hbefore.joinDepth_le
    omega

/-- **The reads of a compiled condition in its join** are available exactly if none of its fields is
a mixed alternation. -/
theorem Condition.available_iff_not_mixed {c : Context} {pattern joins id : Nat} {σ : Scope}
    {rest : Lhs Symbol α} {k : Condition Symbol α} {v : VisitedCondition}
    (h : k.visit c pattern joins id σ rest = .ok v) (hσ : σ.Before pattern joins) :
    (∀ f ∈ v.condition.note.out.join.leftReads, f.Available (v.condition.joinsAfter joins)) ↔
      ∀ x ∈ v.condition.fieldsAt pattern joins id, ¬ x.MixedAlternation := by
  have hjoins := joinsAfter_of_bare (bare_of_visit h) joins
  cases hk : k.element with
  | pattern mode q =>
    obtain ⟨ts, hts, hresult, hout, -⟩ := exists_run_around_of_visit hk h hσ
    have hdepth : k.joinsAfter joins = joins + 1 := by rw [joinsAfter, hk]
    rw [hout, hjoins, hdepth, (JoinOutput.conjunctive_leftReads _).allJoin_iff, ← hresult,
      List.forall_mem_map, List.forall_mem_map]
    refine forall₂_congr fun t ht => ?_
    obtain ⟨hcompiles, haround, -, hsame⟩ := hts t ht
    rw [← FieldVisit.available_iff_not_mixed hcompiles haround, hsame.joinDepth_eq]
    rfl
  | test t =>
    obtain ⟨u, hu, hv, -⟩ := exists_bind_of_visit hk h
    have hdepth : k.joinsAfter joins = joins := by rw [joinsAfter, hk]
    rw [hjoins, hdepth, hv]
    exact iff_of_true (Outputs.available_ofTest hσ hu) (by simp [fieldsAt])

namespace Lhs

/-- **A join reads only what it sees**, the entity that enters it and the partial match of the joins
before it, exactly if no field of its condition is a mixed alternation. -/
theorem join_available_iff_not_mixed {c : Context} {l : Lhs Symbol α} {r : Lhs Symbol Note}
    (h : l.compile c = .ok r) {y : ConditionAt Note} (hy : y ∈ r.conditionsAt) :
    (∀ f ∈ y.condition.note.out.join.leftReads, f.Available y.joinDepth) ↔
      ∀ x ∈ y.fields, ¬ x.MixedAlternation := by
  obtain ⟨u, hu, rfl⟩ := exists_compileFrom_of_compile h
  refine (forall_conditionsAt_collapse
    (P := fun y => (∀ f ∈ y.condition.note.out.join.leftReads, f.Available y.joinDepth) ↔
      ∀ x ∈ y.fields, ¬ x.MixedAlternation) (fun z d => Iff.rfl) u).2 (fun z hz => ?_) y hy
  obtain ⟨k, σ, rest, v, -, hv, hcondition, hσ⟩ := exists_visit_of_mem hu Scope.before_nil hz
  have hiff := Condition.available_iff_not_mixed hv hσ
  rw [hcondition] at hiff
  exact hiff

/-- An alternation that names a variable of the other pattern only reads what the join sees. -/
theorem alternation_elsewhere_available :
    ∃ r y, compiledSteps (alternation ["y", "y"]) = .ok r ∧ y ∈ r.conditionsAt ∧
      y.condition.note.out.join.leftReads ≠ [] ∧
      ∀ f ∈ y.condition.note.out.join.leftReads, f.Available y.joinDepth := by
  obtain ⟨r, hr, hcheck⟩ := exists_ok_of_check (e := compiledSteps (alternation ["y", "y"]))
    (p := fun r => r.conditionsAt.any fun y =>
      decide (y.condition.note.out.join.leftReads ≠ [] ∧ ∀ x ∈ y.fields, ¬ x.MixedAlternation))
    (by decide +kernel)
  obtain ⟨y, hy, hcheck⟩ := List.any_eq_true.1 hcheck
  obtain ⟨hreads, hfields⟩ := of_decide_eq_true hcheck
  exact ⟨r, y, hr, hy, hreads, (join_available_iff_not_mixed hr hy).2 hfields⟩

/-- With a variable of each pattern among its alternatives, the field is compared with an entity that
is not in the partial match yet. -/
theorem alternation_mixed_unavailable :
    ∃ r y, compiledSteps (alternation ["x", "y"]) = .ok r ∧ y ∈ r.conditionsAt ∧
      ¬ ∀ f ∈ y.condition.note.out.join.leftReads, f.Available y.joinDepth := by
  obtain ⟨r, hr, hcheck⟩ := exists_ok_of_check (e := compiledSteps (alternation ["x", "y"]))
    (p := fun r => r.conditionsAt.any fun y =>
      y.condition.note.out.join.leftReads.any fun f => decide (f.side = .matched y.joinDepth))
    (by decide +kernel)
  obtain ⟨y, hy, hcheck⟩ := List.any_eq_true.1 hcheck
  obtain ⟨f, hf, hside⟩ := List.any_eq_true.1 hcheck
  refine ⟨r, y, hr, hy, fun hall => ?_⟩
  rcases hall f hf with hjoining | ⟨d, hd, -, hlt⟩
  · rw [of_decide_eq_true hside] at hjoining
    cases hjoining
  · rw [of_decide_eq_true hside] at hd
    obtain rfl := Side.matched.inj hd
    exact Nat.lt_irrefl _ hlt

end Lhs

end Antecedent
