import Antecedent.Proofs.FieldMeaning
import Antecedent.Proofs.JoinReads

/-!
# Which side a stage reads

A test on the candidate reads the candidate and nothing else. A test in the join reads the entity that
enters it and the partial match, and of the partial match only what is bound no less deep than the
field. A deferred test reads the members of the negated group and the partial match, and of the partial
match only what is bound at another depth than the field.

* `Staging.references` lists the binding occurrences that a field refers to.
* `Outputs.side_candidate_ofField`, `Outputs.side_join_ofField` and `Outputs.side_deferred_ofField` say
  from which sides a field reads at the three stages, and `Outputs.side_join_ofTest` and
  `Outputs.side_deferred_ofTest` say the same of a test condition.
* `Outputs.test_ofField_eq_none_iff` says when a field has no test at a stage, and
  `Outputs.ofField_of_within` that a field has none in a join if it refers to its own pattern only.
* `Outputs.exists_outer_read_ofField` says that a field defers something only if it reads something
  that is bound less deep.
-/

namespace Antecedent

variable {α : Type}

/-! ## What a field refers to -/

/-- The binding occurrences that a field refers to: that of its own variable, and those of the variables
in its alternatives. -/
def Staging.references (own : Option Origin) (as : List (List (Conjunct Origin))) : List Origin :=
  own.toList ++ as.flatMap fun ks => ks.flatMap Conjunct.origins

namespace Staging

theorem own_mem_references {own : Option Origin} {as : List (List (Conjunct Origin))} {o : Origin}
    (ho : own = some o) : o ∈ references own as :=
  List.mem_append_left _ (Option.mem_toList.2 ho)

theorem origin_mem_references (own : Option Origin) {as : List (List (Conjunct Origin))}
    {ks : List (Conjunct Origin)} (hks : ks ∈ as) {k : Conjunct Origin} (hk : k ∈ ks) {o : Origin}
    (ho : o ∈ k.origins) : o ∈ references own as :=
  List.mem_append_right _ (List.mem_flatMap.2 ⟨ks, hks, List.mem_flatMap.2 ⟨k, hk, ho⟩⟩)

/-- A field's join tests are deferred if it refers to something that is bound less deep. -/
theorem deferred_ofField_iff {p : Place} {own : Option Origin} {as : List (List (Conjunct Origin))} :
    (ofField p own as).deferred = true ↔
      ∃ o ∈ references own as, o.place.beginDepth < p.beginDepth := by
  simp only [ofField, references, Origin.isOutside, Bool.or_eq_true, List.any_eq_true,
    decide_eq_true_eq, List.mem_append, or_and_right, exists_or]
  refine or_congr ?_ Iff.rfl
  cases own <;> simp

theorem level_of_not_deferred {p : Place} {own : Option Origin} {as : List (List (Conjunct Origin))}
    (h : (ofField p own as).deferred = false) {o : Origin} (ho : o ∈ references own as) :
    p.beginDepth ≤ o.place.beginDepth := by
  by_contra hlt
  have hdeferred := deferred_ofField_iff.2 ⟨o, ho, Nat.lt_of_not_le hlt⟩
  rw [h] at hdeferred
  cases hdeferred

theorem stage_eq_deferred {s : Staging} (hs : s.deferred = true) {os : List Origin} {o : Origin}
    (ho : o ∈ os) (hne : o.place.pattern ≠ s.place.pattern) : s.stage os = .deferred := by
  have hbinds : s.binds os = false := by
    rw [binds, List.all_eq_false]
    exact ⟨o, ho, by simpa using hne⟩
  simp [stage, hbinds, hs]

end Staging

/-! ## On the candidate -/

theorem EntityKind.fetches_compareCandidate (kind : EntityKind) (s : Site) (negated : Bool)
    (origin : Site) : (kind.compareCandidate s negated origin).fetches =
      [s.fetchAs kind .candidate, origin.fetchAs kind .candidate] := rfl

namespace Staging

theorem side_comparison_candidate {s : Staging} {site : Site} {negated : Bool} {o : Origin} {f : Fetch}
    (hf : f ∈ (s.comparison site negated o .candidate).fetches) : f.side = .candidate := by
  rw [comparison, EntityKind.fetches_compareCandidate, List.mem_cons, List.mem_singleton] at hf
  rcases hf with rfl | rfl <;> rfl

theorem side_termTest_candidate {s : Staging} {t : Term Symbol Origin} {f : Fetch}
    (hf : f ∈ (s.termTest t .candidate).fetches) : f.side = .candidate := by
  rw [termTest, Term.fetches_test] at hf
  obtain ⟨o, -, hf⟩ := List.mem_flatMap.1 hf
  obtain rfl := List.mem_singleton.1 hf
  rfl

theorem side_conjunctTest_candidate {s : Staging} {k : Conjunct Origin} {f : Fetch}
    (hf : f ∈ (s.conjunctTest k .candidate).fetches) : f.side = .candidate := by
  obtain ⟨site, shape, negated⟩ := k
  cases shape with
  | literal v =>
    rw [conjunctTest, Site.fetches_constantTest, List.mem_singleton] at hf
    rw [hf]
    rfl
  | var x arity o =>
    rw [conjunctTest] at hf
    exact side_comparison_candidate hf
  | predicate t =>
    rw [conjunctTest, Test.fetches_negateIf] at hf
    exact side_termTest_candidate hf
  | returnValue t =>
    rw [conjunctTest, Test.fetches_equality, Test.fetches_get, List.mem_append,
      List.mem_singleton] at hf
    rcases hf with rfl | hf
    · rfl
    · exact side_termTest_candidate hf

end Staging

/-! ### Look-ups -/

theorem StageTests.mem_lookups_all {ss : List StageTests} {l : ConstantLookup} :
    l ∈ (all ss).lookups ↔ ∃ s ∈ ss, l ∈ s.lookups := by
  induction ss with
  | nil => simp [all]
  | cons s ss ih =>
    have happend : (s.append (all ss)).lookups = s.lookups ++ (all ss).lookups := rfl
    rw [all, happend, List.mem_append, ih, List.exists_mem_cons_iff]

/-- A look-up compares the value of a conjunct with a literal. -/
theorem Staging.eq_of_mem_lookups {k : Conjunct Origin} {stage : Stage} {l : ConstantLookup}
    (hl : l ∈ lookups k stage) : ∃ v, l = ⟨k.site.candidateValue, .const v⟩ := by
  unfold lookups at hl
  split at hl
  · split at hl
    · next v _ _ => exact ⟨v, List.mem_singleton.1 hl⟩
    · cases hl
  · cases hl
  · cases hl

namespace Outputs

theorem mem_lookups_of_ofAlternatives {ts : List StageTests} {l : ConstantLookup}
    (h : (ofAlternatives ts).lookup = some l) : ∃ t ∈ ts, l ∈ t.lookups := by
  unfold ofAlternatives at h
  dsimp only at h
  split at h
  · next t =>
    split at h
    · next l' hl =>
      obtain rfl := Option.some.inj h
      exact ⟨t, List.mem_cons_self, hl ▸ List.mem_cons_self⟩
    · cases h
  · cases h

@[simp] theorem lookup_compareOwn (p : Place) (o : Origin) (out : Outputs) :
    (out.compareOwn p o).lookup = out.lookup := by
  unfold compareOwn
  dsimp only
  split <;> rfl

/-- The look-up of a field comes from a literal among its conjuncts. -/
theorem exists_of_lookup_ofField {p : Place} {own : Option Origin}
    {as : List (List (Conjunct Origin))} {l : ConstantLookup}
    (hl : (ofField p own as).lookup = some l) :
    ∃ ks ∈ as, ∃ k ∈ ks, ∃ v, l = ⟨k.site.candidateValue, .const v⟩ := by
  have hlookup : (ofField p own as).lookup =
      (ofAlternatives (as.map (Staging.ofField p own as).alternative)).lookup := by
    cases own with
    | none => rfl
    | some o => exact lookup_compareOwn p o _
  rw [hlookup] at hl
  obtain ⟨t, ht, hl⟩ := mem_lookups_of_ofAlternatives hl
  obtain ⟨ks, hks, rfl⟩ := List.mem_map.1 ht
  obtain ⟨s, hs, hl⟩ := StageTests.mem_lookups_all.1 hl
  obtain ⟨k, hk, rfl⟩ := List.mem_map.1 hs
  exact ⟨ks, hks, k, hk, Staging.eq_of_mem_lookups hl⟩

/-- The selector of a look-up reads the candidate. -/
theorem side_selector_ofField {p : Place} {own : Option Origin} {as : List (List (Conjunct Origin))}
    {l : ConstantLookup} (hl : (ofField p own as).lookup = some l) {f : Fetch}
    (hf : f ∈ l.selector.fetches) : f.side = .candidate := by
  obtain ⟨ks, -, k, -, v, rfl⟩ := exists_of_lookup_ofField hl
  obtain rfl := List.mem_singleton.1 hf
  rfl

/-- On the candidate, a field reads nothing but the candidate. -/
theorem side_candidate_ofField {p : Place} {own : Option Origin} {as : List (List (Conjunct Origin))}
    {f : Fetch} (hf : f ∈ Test.reads (ofField p own as).candidate) : f.side = .candidate := by
  change f ∈ Test.reads ((ofField p own as).test .candidate) at hf
  rcases mem_reads_ofField.1 hf with ⟨o, -, -, hf⟩ | ⟨ks, -, k, -, -, hf⟩
  · exact Staging.side_comparison_candidate hf
  · exact Staging.side_conjunctTest_candidate hf

end Outputs

/-! ## In the join -/

/-- A join reads a binding occurrence from the entering entity or from the partial match. -/
theorem Origin.side_of_mem_joinValue {o : Origin} {depth joinDepth : Nat} {f : Fetch}
    (hf : f ∈ (o.joinValue depth joinDepth false).fetches) :
    f.side = .joining ∨ f.side = .matched o.place.site.joinDepth := by
  rw [joinValue, Site.fetches_joinValue, List.mem_singleton] at hf
  subst hf
  by_cases h : joinDepth = o.place.site.joinDepth
  · exact .inl (by simp [role, h, Site.fetch, Site.fetchAs, Site.side])
  · exact .inr (by simp [role, h, Site.fetch, Site.fetchAs, Site.side])

namespace Staging

theorem side_termTest_join {s : Staging} (hs : s.deferred = false) {t : Term Symbol Origin} {f : Fetch}
    (hf : f ∈ (s.termTest t .join).fetches) :
    f.side = .joining ∨ ∃ o ∈ t.notes, f.side = .matched o.place.site.joinDepth := by
  rw [termTest, Term.fetches_test, hs] at hf
  obtain ⟨o, ho, hf⟩ := List.mem_flatMap.1 hf
  exact (Origin.side_of_mem_joinValue hf).imp_right fun hside => ⟨o, ho, hside⟩

theorem side_conjunctTest_join {s : Staging} (hs : s.deferred = false) {k : Conjunct Origin} {f : Fetch}
    (hf : f ∈ (s.conjunctTest k .join).fetches) :
    f.side = .joining ∨ ∃ o ∈ k.origins, f.side = .matched o.place.site.joinDepth := by
  obtain ⟨site, shape, negated⟩ := k
  cases shape with
  | literal v =>
    rw [conjunctTest, Site.fetches_constantTest, List.mem_singleton] at hf
    subst hf
    exact .inl (by simp [ownSide, ownRole, hs, Site.fetch, Site.fetchAs, Site.side])
  | var x arity o =>
    rw [conjunctTest, fetches_comparison_join hs, List.mem_cons, List.mem_singleton] at hf
    rcases hf with rfl | rfl
    · exact .inl rfl
    · exact .inr ⟨o, List.mem_cons_self, rfl⟩
  | predicate t =>
    rw [conjunctTest, Test.fetches_negateIf] at hf
    exact side_termTest_join hs hf
  | returnValue t =>
    rw [conjunctTest, Test.fetches_equality, Test.fetches_get, List.mem_append,
      List.mem_singleton] at hf
    rcases hf with rfl | hf
    · exact .inl (by simp [ownSide, ownRole, hs, Site.fetch, Site.fetchAs, Site.side])
    · exact side_termTest_join hs hf

end Staging

namespace Outputs

/-- In the join, a field reads the entering entity, and from the partial match what it refers to and is
bound no less deep. -/
theorem side_join_ofField {p : Place} {own : Option Origin} {as : List (List (Conjunct Origin))}
    {f : Fetch} (hf : f ∈ (ofField p own as).join.leftReads) :
    f.side = .joining ∨ ∃ o ∈ Staging.references own as,
      f.side = .matched o.place.site.joinDepth ∧ p.beginDepth ≤ o.place.beginDepth := by
  -- a field's own variable goes to the join by its own depth, whatever its alternatives refer to
  have hlevel : ∀ o, own = some o → (Staging.ofOwn p o).stage [o] = .join →
      p.beginDepth ≤ o.place.beginDepth := by
    intro o _ hstage
    have hoff : o.isOutside p.beginDepth = false := (Staging.stage_eq_join_iff.1 hstage).2
    simpa [Origin.isOutside] using hoff
  rcases List.mem_append.1 hf with hf | hf
  · change f ∈ Test.reads ((ofField p own as).test .join) at hf
    rcases mem_reads_ofField.1 hf with ⟨o, ho, hstage, hf⟩ | ⟨ks, hks, k, hk, hstage, hf⟩
    · rw [Staging.fetches_comparison_join (Staging.stage_eq_join_iff.1 hstage).2, List.mem_cons,
        List.mem_singleton] at hf
      rcases hf with rfl | rfl
      · exact .inl rfl
      · exact .inr ⟨o, Staging.own_mem_references ho, rfl, hlevel o ho hstage⟩
    · have hoff := (Staging.stage_eq_join_iff.1 hstage).2
      rcases Staging.side_conjunctTest_join hoff hf with hside | ⟨o, ho, hside⟩
      · exact .inl hside
      · have hmem := Staging.origin_mem_references own hks hk ho
        exact .inr ⟨o, hmem, hside, Staging.level_of_not_deferred hoff hmem⟩
  · obtain ⟨pair, hpair, hf⟩ := List.mem_flatMap.1 hf
    obtain ⟨o, ho, hstage, hleft⟩ := left_of_mem_hash_join hpair
    rw [hleft, Site.fetches_joinValue, List.mem_singleton] at hf
    subst hf
    exact .inr ⟨o, Staging.own_mem_references ho, rfl, hlevel o ho hstage⟩

/-- A test condition reads in its join the entering entity, and from the partial match what is bound no
less deep. -/
theorem side_join_ofTest {beginDepth joinDepth : Nat} {t : Term Symbol Origin} {f : Fetch}
    (hf : f ∈ (ofTest beginDepth joinDepth t).join.leftReads) :
    f.side = .joining ∨ ∃ o ∈ t.notes,
      f.side = .matched o.place.site.joinDepth ∧ beginDepth ≤ o.place.beginDepth := by
  cases hdeferred : t.notes.any (·.isOutside beginDepth) with
  | true =>
    simp only [ofTest, hdeferred, if_true] at hf
    cases hf
  | false =>
    simp only [ofTest, hdeferred, Bool.false_eq_true, if_false, JoinOutput.leftReads,
      Test.reads_some, List.flatMap_nil, List.append_nil, Term.fetches_test] at hf
    obtain ⟨o, ho, hf⟩ := List.mem_flatMap.1 hf
    refine (Origin.side_of_mem_joinValue hf).imp_right fun hside => ⟨o, ho, hside, ?_⟩
    simpa [Origin.isOutside] using List.any_eq_false.1 hdeferred o ho

end Outputs

/-! ## In the join of the negated group -/

/-- A fetch reads a binding occurrence for a deferred test at the given depth: from a member of the
group if it is bound there or deeper, from the partial match only if it is bound at another depth. -/
inductive Origin.ReadDeferred (depth : Nat) (o : Origin) (f : Fetch) : Prop where
  | nested (side : f.side = .nested o.place.site.joinDepth) (level : depth ≤ o.place.beginDepth)
  | matched (side : f.side = .matched o.place.site.joinDepth) (level : o.place.beginDepth ≠ depth)

/-- What is bound outside is read from the partial match. -/
theorem Origin.joinValue_of_outside {o : Origin} {depth joinDepth : Nat}
    (h : o.place.beginDepth < depth) :
    (o.joinValue depth joinDepth true).fetches =
      [o.place.site.fetch (o.place.site.side .matched)] := by
  simp [joinValue, role, isOutside, h]

theorem Origin.readDeferred_of_mem_joinValue {o : Origin} {depth joinDepth : Nat} {f : Fetch}
    (hf : f ∈ (o.joinValue depth joinDepth true).fetches) : o.ReadDeferred depth f := by
  by_cases h : o.place.beginDepth < depth
  · rw [joinValue_of_outside h, List.mem_singleton] at hf
    subst hf
    exact .matched rfl (Nat.ne_of_lt h)
  · rw [joinValue, Site.fetches_joinValue, List.mem_singleton] at hf
    subst hf
    exact .nested (by simp [role, isOutside, h, Site.fetch, Site.fetchAs, Site.side])
      (Nat.le_of_not_lt h)

namespace Staging

variable {s : Staging} (hs : s.deferred = true)

include hs

theorem fetches_comparison_deferred (site : Site) (negated : Bool) (o : Origin) :
    (s.comparison site negated o .deferred).fetches =
      [site.fetch (.nested site.joinDepth),
        o.place.site.fetch (o.place.site.side (s.originRole o))] := by
  simp [comparison, ownRole, hs, Site.side]

theorem side_comparison_deferred {site : Site} {negated : Bool} {o : Origin} {f : Fetch}
    (hf : f ∈ (s.comparison site negated o .deferred).fetches) :
    f.side = .nested site.joinDepth ∨ o.ReadDeferred s.place.beginDepth f := by
  rw [fetches_comparison_deferred hs, List.mem_cons, List.mem_singleton] at hf
  rcases hf with rfl | rfl
  · exact .inl rfl
  · by_cases h : s.place.beginDepth = o.place.beginDepth
    · exact .inr (.nested (by simp [originRole, hs, h, Site.fetch, Site.fetchAs, Site.side])
        (Nat.le_of_eq h))
    · exact .inr (.matched (by simp [originRole, hs, h, Site.fetch, Site.fetchAs, Site.side])
        (Ne.symm h))

theorem readDeferred_of_mem_termTest {t : Term Symbol Origin} {f : Fetch}
    (hf : f ∈ (s.termTest t .deferred).fetches) :
    ∃ o ∈ t.notes, o.ReadDeferred s.place.beginDepth f := by
  rw [termTest, Term.fetches_test, hs] at hf
  obtain ⟨o, ho, hf⟩ := List.mem_flatMap.1 hf
  exact ⟨o, ho, Origin.readDeferred_of_mem_joinValue hf⟩

theorem side_conjunctTest_deferred {k : Conjunct Origin} {f : Fetch}
    (hf : f ∈ (s.conjunctTest k .deferred).fetches) :
    f.side = .nested k.site.joinDepth ∨ ∃ o ∈ k.origins, o.ReadDeferred s.place.beginDepth f := by
  have hown (site : Site) : (site.fetch (s.ownSide site .deferred)).side = .nested site.joinDepth := by
    simp [ownSide, ownRole, hs, Site.fetch, Site.fetchAs, Site.side]
  obtain ⟨site, shape, negated⟩ := k
  cases shape with
  | literal v =>
    rw [conjunctTest, Site.fetches_constantTest, List.mem_singleton] at hf
    exact .inl (hf ▸ hown site)
  | var x arity o =>
    exact (side_comparison_deferred hs hf).imp_right fun h => ⟨o, List.mem_cons_self, h⟩
  | predicate t =>
    rw [conjunctTest, Test.fetches_negateIf] at hf
    exact .inr (readDeferred_of_mem_termTest hs hf)
  | returnValue t =>
    rw [conjunctTest, Test.fetches_equality, Test.fetches_get, List.mem_append,
      List.mem_singleton] at hf
    rcases hf with rfl | hf
    · exact .inl (hown site)
    · exact .inr (readDeferred_of_mem_termTest hs hf)

/-- A deferred conjunct reads from the partial match whatever it refers to and is bound less deep. -/
theorem outer_mem_conjunctTest_deferred {k : Conjunct Origin} {o : Origin} (ho : o ∈ k.origins)
    (hlt : o.place.beginDepth < s.place.beginDepth) :
    o.place.site.fetch (o.place.site.side .matched) ∈ (s.conjunctTest k .deferred).fetches := by
  have hterm (t : Term Symbol Origin) (ht : o ∈ t.notes) :
      o.place.site.fetch (o.place.site.side .matched) ∈ (s.termTest t .deferred).fetches := by
    rw [termTest, Term.fetches_test, hs]
    refine List.mem_flatMap.2 ⟨o, ht, ?_⟩
    rw [Origin.joinValue_of_outside hlt]
    exact List.mem_singleton_self _
  obtain ⟨site, shape, negated⟩ := k
  cases shape with
  | literal v => cases ho
  | var x arity o' =>
    obtain rfl := List.mem_singleton.1 ho
    have hne : s.place.beginDepth ≠ o.place.beginDepth := by omega
    rw [conjunctTest, fetches_comparison_deferred hs]
    simp [originRole, hne]
  | predicate t =>
    rw [conjunctTest, Test.fetches_negateIf]
    exact hterm t ho
  | returnValue t =>
    rw [conjunctTest, Test.fetches_equality]
    exact List.mem_append_right _ (hterm t ho)

end Staging

namespace Outputs

/-- A deferred test of a field reads the field's own entity from the members of the group, and what the
field refers to from them or from the partial match. -/
theorem side_deferred_ofField {p : Place} {own : Option Origin} {as : List (List (Conjunct Origin))}
    (hsite : ∀ ks ∈ as, ∀ k ∈ ks, k.site.joinDepth = p.site.joinDepth) {f : Fetch}
    (hf : f ∈ Test.reads (ofField p own as).deferred.test) :
    f.side = .nested p.site.joinDepth ∨
      ∃ o ∈ Staging.references own as, o.ReadDeferred p.beginDepth f := by
  change f ∈ Test.reads ((ofField p own as).test .deferred) at hf
  rcases mem_reads_ofField.1 hf with ⟨o, ho, hstage, hf⟩ | ⟨ks, hks, k, hk, hstage, hf⟩
  · refine (Staging.side_comparison_deferred (Staging.deferred_of_stage hstage) hf).imp_right
      fun h => ⟨o, Staging.own_mem_references ho, h⟩
  · rcases Staging.side_conjunctTest_deferred (Staging.deferred_of_stage hstage) hf with
      hside | ⟨o, ho, h⟩
    · exact .inl (hsite ks hks k hk ▸ hside)
    · exact .inr ⟨o, Staging.origin_mem_references own hks hk ho, h⟩

theorem side_deferred_ofTest {beginDepth joinDepth : Nat} {t : Term Symbol Origin} {f : Fetch}
    (hf : f ∈ Test.reads (ofTest beginDepth joinDepth t).deferred.test) :
    ∃ o ∈ t.notes, o.ReadDeferred beginDepth f := by
  cases hdeferred : t.notes.any (·.isOutside beginDepth) with
  | true =>
    simp only [ofTest, hdeferred, if_true, Test.reads_some, Term.fetches_test] at hf
    obtain ⟨o, ho, hf⟩ := List.mem_flatMap.1 hf
    exact ⟨o, ho, Origin.readDeferred_of_mem_joinValue hf⟩
  | false =>
    simp only [ofTest, hdeferred, Bool.false_eq_true, if_false] at hf
    cases hf

/-! ## Stages without a test -/

/-- A field has a test at a stage only if its own variable or one of its conjuncts is tested there. -/
theorem test_ofField_eq_none_iff {p : Place} {own : Option Origin}
    {as : List (List (Conjunct Origin))} {stage : Stage} :
    (ofField p own as).test stage = none ↔
      (∀ o, own = some o → (Staging.ofOwn p o).stage [o] ≠ stage) ∧
        ∀ ks ∈ as, ∀ k ∈ ks, (Staging.ofField p own as).stage k.origins ≠ stage := by
  have hanyOf (ts : List Test) : Test.anyOf ts = none ↔ ts = [] := by
    match ts with
    | [] => simp [Test.anyOf]
    | [t] => simp [Test.anyOf]
    | t :: t' :: ts => simp [Test.anyOf]
  have has : (ofAlternatives (as.map (Staging.ofField p own as).alternative)).test stage = none ↔
      ∀ ks ∈ as, ∀ k ∈ ks, (Staging.ofField p own as).stage k.origins ≠ stage := by
    rw [test_ofAlternatives, hanyOf, List.filterMap_eq_nil_iff, List.forall_mem_map]
    exact forall₂_congr fun ks _ => Staging.alternative_test_eq_none_iff
  cases own with
  | none =>
    rw [ofField, has]
    simp
  | some o =>
    rw [ofField, test_compareOwn, Test.conjoin_eq_none_iff, has]
    simp

/-- A field that refers to nothing outside of its pattern is tested on the candidate only. -/
theorem ofField_of_within {p : Place} {own : Option Origin} {as : List (List (Conjunct Origin))}
    (h : ∀ o ∈ Staging.references own as, o.place.pattern = p.pattern) :
    (ofField p own as).join = {} ∧ (ofField p own as).deferred = {} := by
  have hstage : ∀ ks ∈ as, ∀ k ∈ ks, (Staging.ofField p own as).stage k.origins = .candidate := by
    intro ks hks k hk
    have hbinds : (Staging.ofField p own as).binds k.origins = true := by
      rw [Staging.binds, List.all_eq_true]
      exact fun o ho => decide_eq_true (h o (Staging.origin_mem_references own hks hk ho))
    have hin : (Staging.ofField p own as).inPattern = true := by
      rw [Staging.ofField, Bool.or_eq_true, List.all_eq_true]
      exact .inr fun o ho => decide_eq_true (h o (List.mem_append_right _ ho))
    rw [Staging.stage, hin, hbinds]
    rfl
  have hown : ∀ o, own = some o → (Staging.ofOwn p o).stage [o] = .candidate := by
    intro o ho
    simp [Staging.stage, Staging.ofOwn, Staging.binds, h o (Staging.own_mem_references ho)]
  have htest : ∀ stage ≠ .candidate, (ofField p own as).test stage = none := by
    intro stage hne
    refine test_ofField_eq_none_iff.2 ⟨fun o ho hst => ?_, fun ks hks k hk hst => ?_⟩
    · exact hne (hst ▸ hown o ho)
    · exact hne (hst ▸ hstage ks hks k hk)
  have hhash : (ofField p own as).join.hash = [] ∧ (ofField p own as).deferred.hash = [] := by
    cases own with
    | none => exact ⟨rfl, rfl⟩
    | some o =>
      have hcandidate : (⟨p, true, o.isOutside p.beginDepth⟩ : Staging).stage [o] = .candidate :=
        hown o rfl
      rw [ofField, compareOwn]
      simp only [hcandidate]
      exact ⟨rfl, rfl⟩
  have hempty (out : JoinOutput) (ht : out.test = none) (hh : out.hash = []) : out = {} := by
    obtain ⟨test, hash⟩ := out
    obtain rfl : test = none := ht
    obtain rfl : hash = [] := hh
    rfl
  exact ⟨hempty _ (htest .join (by decide)) hhash.1, hempty _ (htest .deferred (by decide)) hhash.2⟩

/-- If the field's own variable is bound less deep, in another pattern, the deferred test reads what it
is bound to. -/
theorem exists_outer_read_own {p : Place} {own : Option Origin} {as : List (List (Conjunct Origin))}
    {o : Origin} (ho : own = some o) (hpattern : o.place.pattern ≠ p.pattern)
    (hlt : o.place.beginDepth < p.beginDepth) :
    ∃ f ∈ Test.reads ((ofField p own as).test .deferred),
      f.side = .matched o.place.site.joinDepth := by
  have hs : (Staging.ofOwn p o).deferred = true := by simp [Staging.ofOwn, Origin.isOutside, hlt]
  refine ⟨o.place.site.fetch (o.place.site.side .matched), mem_reads_ofField.2 (.inl ⟨o, ho,
    Staging.stage_eq_deferred hs List.mem_cons_self hpattern, ?_⟩), rfl⟩
  have hdepth : p.beginDepth ≠ o.place.beginDepth := by omega
  rw [Staging.fetches_comparison_deferred hs]
  simp [Staging.originRole, Staging.ofOwn, hdepth]

/-- If a conjunct refers to something bound less deep, in another pattern, the deferred test reads it. -/
theorem exists_outer_read_conjunct {p : Place} {own : Option Origin}
    {as : List (List (Conjunct Origin))} {ks : List (Conjunct Origin)} (hks : ks ∈ as)
    {k : Conjunct Origin} (hk : k ∈ ks) {o : Origin} (ho : o ∈ k.origins)
    (hpattern : o.place.pattern ≠ p.pattern) (hlt : o.place.beginDepth < p.beginDepth) :
    ∃ f ∈ Test.reads ((ofField p own as).test .deferred),
      f.side = .matched o.place.site.joinDepth := by
  have hs := Staging.deferred_ofField_iff.2 ⟨o, Staging.origin_mem_references own hks hk ho, hlt⟩
  exact ⟨o.place.site.fetch (o.place.site.side .matched), mem_reads_ofField.2 (.inr ⟨ks, hks, k, hk,
    Staging.stage_eq_deferred hs ho hpattern,
    Staging.outer_mem_conjunctTest_deferred hs ho hlt⟩), rfl⟩

/-- A field defers something only if it refers to something bound less deep. -/
theorem exists_outer_reference {p : Place} {own : Option Origin} {as : List (List (Conjunct Origin))}
    (h : (ofField p own as).test .deferred ≠ none) :
    ∃ o ∈ Staging.references own as, o.place.beginDepth < p.beginDepth := by
  by_contra hnone
  refine h (test_ofField_eq_none_iff.2 ⟨fun o ho hstage => ?_, fun ks _ k _ hstage => ?_⟩)
  · have hoff := Staging.deferred_of_stage hstage
    refine hnone ⟨o, Staging.own_mem_references ho, ?_⟩
    simpa [Staging.ofOwn, Origin.isOutside] using hoff
  · exact hnone (Staging.deferred_ofField_iff.1 (Staging.deferred_of_stage hstage))

/-- What a field defers includes a read of the partial match, of something bound less deep. -/
theorem exists_outer_read_ofField {p : Place} {own : Option Origin}
    {as : List (List (Conjunct Origin))}
    (hlevel : ∀ o ∈ Staging.references own as, o.place.pattern = p.pattern →
      o.place.beginDepth = p.beginDepth)
    (h : (ofField p own as).deferred.test ≠ none) :
    ∃ f ∈ Test.reads (ofField p own as).deferred.test, ∃ o ∈ Staging.references own as,
      f.side = .matched o.place.site.joinDepth ∧ o.place.beginDepth < p.beginDepth := by
  obtain ⟨o, ho, hlt⟩ := exists_outer_reference h
  -- what is bound less deep is bound in another pattern
  have hpattern : o.place.pattern ≠ p.pattern := by
    intro heq
    have := hlevel o ho heq
    omega
  rcases List.mem_append.1 ho with hmem | hmem
  · obtain ⟨f, hf, hside⟩ := exists_outer_read_own (Option.mem_toList.1 hmem) hpattern hlt
    exact ⟨f, hf, o, ho, hside, hlt⟩
  · obtain ⟨ks, hks, hmem⟩ := List.mem_flatMap.1 hmem
    obtain ⟨k, hk, hmem⟩ := List.mem_flatMap.1 hmem
    obtain ⟨f, hf, hside⟩ := exists_outer_read_conjunct hks hk hmem hpattern hlt
    exact ⟨f, hf, o, ho, hside, hlt⟩

/-- What a test condition defers includes a read of the partial match, of something bound less deep. -/
theorem exists_outer_read_ofTest {beginDepth joinDepth : Nat} {t : Term Symbol Origin}
    (h : (ofTest beginDepth joinDepth t).deferred.test ≠ none) :
    ∃ f ∈ Test.reads (ofTest beginDepth joinDepth t).deferred.test, ∃ o ∈ t.notes,
      f.side = .matched o.place.site.joinDepth ∧ o.place.beginDepth < beginDepth := by
  cases hdeferred : t.notes.any (·.isOutside beginDepth) with
  | true =>
    obtain ⟨o, ho, hout⟩ := List.any_eq_true.1 hdeferred
    have hlt : o.place.beginDepth < beginDepth := of_decide_eq_true hout
    simp only [ofTest, hdeferred, if_true, Test.reads_some, Term.fetches_test]
    refine ⟨o.place.site.fetch (o.place.site.side .matched), List.mem_flatMap.2 ⟨o, ho, ?_⟩, o, ho,
      rfl, hlt⟩
    rw [Origin.joinValue_of_outside hlt]
    exact List.mem_singleton_self _
  | false =>
    simp only [ofTest, hdeferred, Bool.false_eq_true, if_false] at h
    exact absurd rfl h

end Outputs

end Antecedent
