import Antecedent.Proofs.Contributions
import Antecedent.Proofs.Recompilation

/-!
# Look-ups by constants

The candidates for a field may be looked up by a constant before the field is tested. No candidate is
lost by that if the test on the candidate demands the constant: one of its conjuncts, not one of its
alternatives, compares the value of the field with it.

* `Constraint.required?` is the constant that a constraint demands, and `Conjunct.lookup?` the look-up
  that this allows.
* `Outputs.lookup_ofField_eq_some_iff` says which fields have a look-up, and
  `Outputs.exists_conjunct_ofField` finds the conjunct behind it.
* `Lhs.lookups_exact` says both of a compiled left-hand side.
-/

namespace Antecedent

variable {α β : Type}

/-! ## Required constants -/

/-- The constant that a constraint demands of its field: a literal that is not negated. -/
def Constraint.required? (k : Constraint Symbol α) : Option (Literal Symbol) :=
  match k.shape, k.negated with
  | .literal v, false => some v
  | _, _ => none

theorem Constraint.required?_eq_some_iff {k : Constraint Symbol α} {v : Literal Symbol} :
    k.required? = some v ↔ k = .literal v := by
  obtain ⟨shape, negated⟩ := k
  cases shape <;> cases negated <;> simp [required?, literal]

theorem Constraint.required?_mapNotes (g : α → β) (k : Constraint Symbol α) :
    (k.mapNotes g).required? = k.required? := by
  obtain ⟨shape, negated⟩ := k
  cases shape <;> cases negated <;> rfl

namespace Conjunct

/-- The look-up that a conjunct allows. -/
def lookup? (k : Conjunct α) : Option ConstantLookup :=
  k.constraint.required?.map fun v => ⟨k.site.candidateValue, .const v⟩

/-- Binding the variables of a conjunct changes neither its site nor what it demands. -/
theorem required?_of_bound {k : Conjunct Note} {k' : Conjunct Origin}
    (h : k'.mapNotes some = k.mapNotes Note.origin) :
    k'.site = k.site ∧ k'.constraint.required? = k.constraint.required? := by
  obtain ⟨hsite, hconstraint⟩ := mk.inj h
  refine ⟨hsite, ?_⟩
  rw [← Constraint.required?_mapNotes some, hconstraint, Constraint.required?_mapNotes]

theorem filterMap_lookup?_of_bound {ks : List (Conjunct Note)} {ks' : List (Conjunct Origin)}
    (h : List.Forall₂ (fun k k' => k'.mapNotes some = k.mapNotes Note.origin) ks ks') :
    ks'.filterMap lookup? = ks.filterMap lookup? := by
  induction h with
  | nil => rfl
  | cons hk _ ih =>
    obtain ⟨hsite, hrequired⟩ := required?_of_bound hk
    rw [List.filterMap_cons, List.filterMap_cons, ih, lookup?, lookup?, hsite, hrequired]

end Conjunct

/-! ## Which fields have a look-up -/

theorem StageTests.lookups_all (ss : List StageTests) : (all ss).lookups = ss.flatMap lookups := by
  induction ss with
  | nil => rfl
  | cons s ss ih =>
    rw [List.flatMap_cons, ← ih]
    rfl

namespace Staging

theorem inPattern_ofField {p : Place} {own : Option Origin} {as : List (List (Conjunct Origin))}
    (has : as.length < 2) : (ofField p own as).inPattern = true := by
  simp [ofField, has]

variable {s : Staging} (hs : s.inPattern = true)

include hs

/-- A literal refers to nothing, so it is tested on the candidate. -/
theorem stage_literal {k : Conjunct Origin} {v : Literal Symbol} (hk : k.constraint.required? = some v) :
    s.stage k.origins = .candidate := by
  have horigins : k.origins = [] := by
    rw [Conjunct.origins, Constraint.required?_eq_some_iff.1 hk]
    rfl
  simp [stage, hs, horigins, binds]

theorem lookups_conjunct (k : Conjunct Origin) : (s.conjunct k).lookups = k.lookup?.toList := by
  change lookups k (s.stage k.origins) = _
  cases hk : k.constraint.required? with
  | some v =>
    rw [stage_literal hs hk, Conjunct.lookup?, hk]
    simp [lookups, Constraint.required?_eq_some_iff.1 hk, Constraint.literal]
  | none =>
    rw [Conjunct.lookup?, hk, Option.map_none, Option.toList_none, List.eq_nil_iff_forall_not_mem]
    intro l hl
    unfold lookups at hl
    split at hl
    · split at hl
      · next hshape hnegated => simp [Constraint.required?, hshape, hnegated] at hk
      · cases hl
    · cases hl
    · cases hl

theorem lookups_alternative (ks : List (Conjunct Origin)) :
    (s.alternative ks).lookups = ks.filterMap Conjunct.lookup? := by
  rw [alternative, StageTests.lookups_all, List.flatMap_map, List.filterMap_eq_flatMap_toList]
  exact List.flatMap_congr fun k _ => lookups_conjunct hs k

end Staging

namespace Outputs

theorem lookup_ofField (p : Place) (own : Option Origin) (as : List (List (Conjunct Origin))) :
    (ofField p own as).lookup =
      (ofAlternatives (as.map (Staging.ofField p own as).alternative)).lookup := by
  cases own with
  | none => rfl
  | some o => exact lookup_compareOwn p o _

/-- **A field has a look-up** if it has one alternative, and exactly one of the conjuncts of that demands
a constant. -/
theorem lookup_ofField_eq_some_iff {p : Place} {own : Option Origin}
    {as : List (List (Conjunct Origin))} {l : ConstantLookup} :
    (ofField p own as).lookup = some l ↔ ∃ ks, as = [ks] ∧ ks.filterMap Conjunct.lookup? = [l] := by
  rw [lookup_ofField]
  match as with
  | [] => simp [ofAlternatives]
  | [ks] =>
    have hin : (Staging.ofField p own [ks]).inPattern = true := Staging.inPattern_ofField (by simp)
    have hks := Staging.lookups_alternative hin ks
    simp only [ofAlternatives, List.map_cons, List.map_nil, hks, List.cons.injEq, and_true,
      exists_eq_left']
    split
    · next l' hl => simp [hl]
    · next hne =>
      simp only [reduceCtorEq, false_iff]
      exact hne l
  | ks :: ks' :: as => simp [ofAlternatives]

end Outputs

/-! ## The conjunct behind a look-up -/

theorem StageTests.allConjuncts_all (ss : List StageTests) (stage : Stage) :
    Test.allConjuncts ((all ss).test stage) = ss.flatMap fun s => Test.allConjuncts (s.test stage) := by
  induction ss with
  | nil => simp [all, Test.allConjuncts]
  | cons s ss ih => rw [all, test_append, Test.allConjuncts_conjoin, ih, List.flatMap_cons]

namespace Site

/-- A comparison with a constant is not a conjunction. -/
theorem conjuncts_constantTest (s : Site) (negated : Bool) (v : Literal Symbol) (side : Side) :
    (s.constantTest negated v side).conjuncts = [s.constantTest negated v side] := by
  unfold constantTest EntityKind.constantTest?
  cases negated <;> split <;> try split
  all_goals rfl

theorem constantTest_cases (s : Site) (v : Literal Symbol) (side : Side) :
    s.constantTest false v side = .node (.testConstant (s.fetch side) false) [.const v] ∨
      s.constantTest false v side = .equality false (.get (s.fetch side)) (.const v) := by
  cases hk : s.kind with
  | object => exact .inr (by simp [constantTest, EntityKind.constantTest?, hk])
  | fact =>
    by_cases hs : s.segment.any Segment.sequence
    · exact .inr (by simp [constantTest, EntityKind.constantTest?, hk, hs])
    · exact .inl (by simp [constantTest, EntityKind.constantTest?, hk, hs, fetchAs_eq_fetch hk])

end Site

namespace Outputs

/-- The comparison of a constant that the only alternative of a field demands is a conjunct of the test
on the candidate. -/
theorem exists_conjunct_ofField {p : Place} {own : Option Origin} {ks : List (Conjunct Origin)}
    {k : Conjunct Origin} (hk : k ∈ ks) {v : Literal Symbol} (hv : k.constraint.required? = some v) :
    ∃ t, (ofField p own [ks]).candidate = some t ∧
      k.site.constantTest false v .candidate ∈ t.conjuncts := by
  let s := Staging.ofField p own [ks]
  have hs : s.inPattern = true := Staging.inPattern_ofField (by simp)
  have htest : s.conjunctTest k .candidate = k.site.constantTest false v .candidate := by
    rw [Staging.conjunctTest, Constraint.required?_eq_some_iff.1 hv]
    rfl
  have halternative : k.site.constantTest false v .candidate ∈
      Test.allConjuncts ((ofAlternatives [s.alternative ks]).test .candidate) := by
    rw [test_ofAlternatives_singleton, Staging.alternative, StageTests.allConjuncts_all]
    refine List.mem_flatMap.2 ⟨s.conjunct k, List.mem_map_of_mem hk, ?_⟩
    rw [Staging.test_conjunct, if_pos (Staging.stage_literal hs hv), htest, Test.allConjuncts,
      Option.elim_some, Site.conjuncts_constantTest]
    exact List.mem_cons_self
  refine Test.mem_allConjuncts.1 ?_
  change _ ∈ Test.allConjuncts ((ofField p own [ks]).test .candidate)
  cases own with
  | none => exact halternative
  | some o =>
    -- the comparison of the field's own variable stands beside the alternative
    rw [ofField, test_compareOwn, Test.allConjuncts_conjoin]
    exact List.mem_append_right _ halternative

end Outputs

/-! ## Compiled fields -/

/-- The alternatives of a field. -/
def Field.alternatives {ν : Type} : Field ν α → List (Alternative ν α)
  | plain _ as _ _ => as
  | multi _ as _ _ => as

/-- The look-up of a compiled field is the one that its alternatives allow, and its test on the
candidate demands the same constant. -/
structure FieldAt.LooksUpExactly (z : FieldAt Note) : Prop where
  lookup_iff : ∀ l, z.field.note.out.lookup = some l ↔ ∃ a v, z.field.alternatives = [a] ∧
    a.constraints.filterMap Constraint.required? = [v] ∧ l = ⟨z.place.site.candidateValue, .const v⟩
  conjunct : ∀ a v, z.field.alternatives = [a] → a.constraints.filterMap Constraint.required? = [v] →
    ∃ t, z.field.note.out.candidate = some t ∧
      z.place.site.constantTest false v .candidate ∈ t.conjuncts

/-- The look-ups that the conjuncts of an alternative allow. -/
theorem Alternative.filterMap_lookup? (site : Site) (a : Alternative Symbol α) :
    (a.constraints.map (Conjunct.mk site)).filterMap Conjunct.lookup? =
      (a.constraints.filterMap Constraint.required?).map fun v => ⟨site.candidateValue, .const v⟩ := by
  rw [List.filterMap_map, List.map_filterMap]
  rfl

/-- Lists that are related member by member are singletons together. -/
theorem exists_singleton_iff_of_forall₂ {R : α → β → Prop} {as : List α} {bs : List β}
    (h : List.Forall₂ R as bs) {P : α → Prop} {Q : β → Prop} (hPQ : ∀ a b, R a b → (Q b ↔ P a)) :
    (∃ b, bs = [b] ∧ Q b) ↔ ∃ a, as = [a] ∧ P a := by
  cases h with
  | nil => simp
  | cons hab htail =>
    cases htail with
    | nil => simpa using hPQ _ _ hab
    | cons _ _ => simp

/-- A plain field with the outputs of its bound alternatives looks up exactly. -/
theorem FieldAt.looksUpExactly_of_bound {z : FieldAt Note} (hplain : z.field.isPlain = true)
    {bound : List (List (Conjunct Origin))}
    (hbound : List.Forall₂ (List.Forall₂ fun k k' => k'.mapNotes some = k.mapNotes Note.origin)
      z.conjuncts bound)
    (hout : z.field.note.out =
      { candidate := (Outputs.ofField z.place z.field.note.origin bound).candidate
        lookup := (Outputs.ofField z.place z.field.note.origin bound).lookup }) :
    z.LooksUpExactly := by
  obtain ⟨p, id, f⟩ := z
  cases f with
  | multi ps as declared n => cases hplain
  | plain b as declared n =>
    have hconjuncts : (⟨p, id, .plain b as declared n⟩ : FieldAt Note).conjuncts =
        as.map fun a => a.constraints.map (Conjunct.mk p.site) := rfl
    rw [hconjuncts] at hbound
    refine ⟨fun l => ?_, fun a v ha hv => ?_⟩
    · rw [hout]
      change (Outputs.ofField _ _ bound).lookup = some l ↔ ∃ a v, as = [a] ∧ _
      rw [Outputs.lookup_ofField_eq_some_iff, exists_singleton_iff_of_forall₂ hbound fun ks ks' hks =>
        Eq.congr_left (Conjunct.filterMap_lookup?_of_bound hks)]
      simp only [List.map_eq_singleton_iff]
      constructor
      · rintro ⟨_, ⟨a, ha, rfl⟩, hl⟩
        rw [Alternative.filterMap_lookup?, List.map_eq_singleton_iff] at hl
        obtain ⟨v, hv, rfl⟩ := hl
        exact ⟨a, v, ha, hv, rfl⟩
      · rintro ⟨a, v, ha, hv, rfl⟩
        refine ⟨_, ⟨a, ha, rfl⟩, ?_⟩
        rw [Alternative.filterMap_lookup?, hv, List.map_singleton]
    · obtain rfl : as = [a] := ha
      obtain ⟨ks, hks, rfl⟩ : ∃ ks, List.Forall₂ _ _ ks ∧ bound = [ks] := by
        cases hbound with
        | cons hks htail =>
          cases htail
          exact ⟨_, hks, rfl⟩
      obtain ⟨e, he, hrequired⟩ := List.mem_filterMap.1 (hv ▸ List.mem_singleton_self v)
      obtain ⟨k, hk, heq⟩ := exists_of_mem_forall₂ hks (List.mem_map_of_mem he)
      obtain ⟨hsite, hk'⟩ := Conjunct.required?_of_bound heq
      rw [hout, ← show k.site = p.site from hsite]
      exact Outputs.exists_conjunct_ofField hk (hk'.trans hrequired)

theorem FieldVisit.looksUpExactly_result {c : Context} {t : FieldVisit α}
    (h : t.source.Compiles c t.scope t.visited) (hplain : t.result.field.isPlain = true) :
    t.result.LooksUpExactly := by
  have horigin := origin_result h
  have hconjuncts := conjuncts_result h
  obtain ⟨bound, hbound, hv⟩ := h
  have hpairs := Conjunct.forall₂_of_bindAll hbound
  rw [← hconjuncts] at hpairs
  refine FieldAt.looksUpExactly_of_bound hplain hpairs ?_
  rw [horigin, result, hv]
  simp [FieldAt.outcome]

/-! ## Multifield slots -/

/-- A multifield slot that was compiled has neither alternatives nor tests of its own. -/
theorem Slot.multi_of_visitAll {c : Context} {p : Place} {beyond : List Occurrence} {j id : Nat}
    {σ : Scope} {ss : List (Slot Symbol α)} {ws : List (Visited (Slot Symbol Note))}
    (h : visitAll c p beyond j id σ ss = .ok ws) :
    ∀ s ∈ ws.map Visited.result, s.field.isPlain = false →
      s.field.alternatives = [] ∧ s.field.note.out = {} := by
  induction ss generalizing j id σ ws with
  | nil =>
    rw [visitAll] at h
    obtain rfl := pure_eq_ok.1 h
    intro s hs
    cases hs
  | cons s ss ih =>
    obtain ⟨w, ws, hw, hws, rfl⟩ := visitAll_cons_eq_ok.1 h
    refine List.forall_mem_cons.2 ⟨fun hmulti => ?_, ih hws⟩
    obtain ⟨name, f⟩ := s
    cases f with
    | plain b as declared n =>
      obtain ⟨v, hv, hw⟩ := bind_eq_ok.1 hw
      obtain rfl := pure_eq_ok.1 hw
      have hbare : v.result.bare = (Field.plain b as declared n).bare :=
        (FieldAt.compiles_of_visit (x := ⟨_, id, .plain b as declared n⟩) hv).bare_result
      have hplain : v.result.isPlain = true := Field.isPlain_eq_of_bare hbare
      rw [show v.result.isPlain = false from hmulti] at hplain
      cases hplain
    | multi ps as declared n =>
      obtain ⟨vs, -, hw⟩ := bind_eq_ok.1 hw
      obtain rfl := pure_eq_ok.1 hw
      exact ⟨rfl, rfl⟩

/-! ## Left-hand sides -/

/-- The look-ups of a compiled condition are exact. -/
theorem Condition.looksUpExactly_of_visit {c : Context} {pattern joins id : Nat} {σ : Scope}
    {rest : Lhs Symbol α} {k : Condition Symbol α} {v : VisitedCondition} (hflat : k.isFlat = true)
    (h : k.visit c pattern joins id σ rest = .ok v) :
    (∀ z ∈ v.condition.fieldsAt pattern joins id, z.LooksUpExactly) ∧
      ∀ mode q, v.condition.element = .pattern mode q → ∀ s ∈ q.slots, s.field.isPlain = false →
        s.field.alternatives = [] ∧ s.field.note.out = {} := by
  cases hk : k.element with
  | pattern mode q =>
    constructor
    · obtain ⟨ts, hrun, hsource, hresult, -⟩ := exists_run_of_visit hk h
      rw [← hresult, List.forall_mem_map]
      intro t ht
      have hcompiles := hrun.compiles t ht
      refine FieldVisit.looksUpExactly_result hcompiles ?_
      have hbare : t.result.field.bare = t.source.field.bare := hcompiles.bare_result
      rw [Field.isPlain_eq_of_bare hbare]
      exact isPlain_of_mem_fieldsAt hflat (hsource ▸ List.mem_map_of_mem ht)
    · obtain ⟨element, beginDepth, endDepth, n⟩ := k
      obtain rfl : element = .pattern mode q := hk
      obtain ⟨-, -, h⟩ := bind_eq_ok.1 h
      obtain ⟨-, -, h⟩ := bind_eq_ok.1 h
      obtain ⟨ws, hws, h⟩ := bind_eq_ok.1 h
      obtain rfl := pure_eq_ok.1 h
      rintro mode' q' ⟨⟩
      exact Slot.multi_of_visitAll hws
  | test t =>
    obtain ⟨u, -, hv, -⟩ := exists_bind_of_visit hk h
    rw [hv]
    refine ⟨fun z hz => ?_, fun mode q hq => ?_⟩
    · cases hz
    · cases hq

namespace Lhs

/-- **The look-ups of a compiled left-hand side are exact.** Compiling keeps the fields as they are
written. A field has a look-up if it has exactly one alternative, and exactly one conjunct of that is
a literal that is not negated. The look-up then is for that literal in the field's own value, and the
test on the candidate has a conjunct that compares the two. A multifield slot has no alternatives and
no look-up. -/
theorem lookups_exact {c : Context} {l : Lhs Symbol α} {r : Lhs Symbol Note} (hflat : l.isFlat = true)
    (h : l.compile c = .ok r) :
    r.bare = l.bare ∧ ∀ y ∈ r.conditionsAt,
      (∀ z ∈ y.fields,
        (z.field.note.out.lookup.isSome = true ↔ ∃ a v, z.field.alternatives = [a] ∧
          a.constraints.filterMap Constraint.required? = [v]) ∧
        ∀ a v, z.field.alternatives = [a] → a.constraints.filterMap Constraint.required? = [v] →
          z.field.note.out.lookup = some ⟨.get (z.place.site.fetch .candidate), .const v⟩ ∧
          ∃ t, z.field.note.out.candidate = some t ∧ ∃ u ∈ t.conjuncts,
            u = .node (.testConstant (z.place.site.fetch .candidate) false) [.const v] ∨
              u = .node .eq [.get (z.place.site.fetch .candidate), .const v]) ∧
      ∀ mode q, y.condition.element = .pattern mode q → ∀ s ∈ q.slots, s.field.isPlain = false →
        s.field.alternatives = [] ∧ s.field.note.out.lookup = none := by
  refine ⟨bare_of_compile h, ?_⟩
  obtain ⟨u, hu, rfl⟩ := exists_compileFrom_of_compile h
  refine (forall_conditionsAt_collapse (fun z d => Iff.rfl) u).2 fun y hy => ?_
  obtain ⟨k, σ, rest, v, hmem, hv, hcondition, -⟩ := exists_visit_of_mem hu Scope.before_nil hy
  obtain ⟨hfields, hslots⟩ :=
    Condition.looksUpExactly_of_visit (List.all_eq_true.1 hflat k hmem) hv
  rw [hcondition] at hfields hslots
  refine ⟨fun z hz => ?_, fun mode q hq s hs hmulti => ?_⟩
  · obtain ⟨hlookup, hconjunct⟩ := hfields z hz
    refine ⟨?_, fun a v ha hv => ⟨(hlookup _).2 ⟨a, v, ha, hv, rfl⟩, ?_⟩⟩
    · rw [Option.isSome_iff_exists]
      simp only [hlookup]
      constructor
      · rintro ⟨l, a, v, ha, hv, -⟩
        exact ⟨a, v, ha, hv⟩
      · rintro ⟨a, v, ha, hv⟩
        exact ⟨_, a, v, ha, hv, rfl⟩
    · obtain ⟨t, ht, hmem⟩ := hconjunct a v ha hv
      exact ⟨t, ht, _, hmem, Site.constantTest_cases _ v .candidate⟩
  · obtain ⟨hnone, hout⟩ := hslots mode q hq s hs hmulti
    exact ⟨hnone, by rw [hout]⟩

/-- A pattern over facts with three fields: a variable that is 3 and not 4, a slot of which the only
part is a sequence that is a symbol, and a field that is 1 or 2. -/
def literalFields : List (Step String Unit) :=
  [.pattern
      { kind := .fact
        handle := none
        slots :=
          [⟨none, .plain (.var "x" .single)
            [⟨.literal (.integer 3), [(Constraint.literal (.integer 4)).not]⟩] none ()⟩,
            ⟨none, .multi [.plain (.wildcard .sequence) [⟨.literal (.symbol "a"), []⟩] none ()] []
              none ()⟩,
            ⟨none, .plain (.wildcard .single)
              [⟨.literal (.integer 1), []⟩, ⟨.literal (.integer 2), []⟩] none ()⟩] }]

/-- The variable is looked up by 3, and the field with two alternatives is not looked up. -/
theorem literalFields_looked_up :
    ∃ r, compiledSteps literalFields = .ok r ∧
      ∃ y ∈ r.conditionsAt,
        (∃ z ∈ y.fields,
          z.field.note.out.lookup =
              some ⟨.get (z.place.site.fetch .candidate), .const (.integer 3)⟩ ∧
            ∃ t, z.field.note.out.candidate = some t ∧ ∃ u ∈ t.conjuncts,
              u = .node (.testConstant (z.place.site.fetch .candidate) false) [.const (.integer 3)] ∨
                u = .node .eq [.get (z.place.site.fetch .candidate), .const (.integer 3)]) ∧
        ∃ z ∈ y.fields, z.field.alternatives.length = 2 ∧ z.field.note.out.lookup.isSome = false := by
  obtain ⟨r, hr, hcheck⟩ := exists_ok_of_check (e := compiledSteps literalFields)
    (p := fun r => decide (∃ y ∈ r.conditionsAt,
      (∃ z ∈ y.fields, z.field.alternatives.map (fun a => a.constraints.filterMap Constraint.required?) =
        [[.integer 3]]) ∧ ∃ z ∈ y.fields, z.field.alternatives.length = 2)) (by decide +kernel)
  obtain ⟨y, hy, ⟨z, hz, hthree⟩, z', hz', htwo⟩ := of_decide_eq_true hcheck
  have hflat : ((ofSteps literalFields).intern .empty).1.isFlat = true := by decide +kernel
  have hfields := ((lookups_exact hflat hr).2 y hy).1
  obtain ⟨a, ha, hv⟩ := List.map_eq_singleton_iff.1 hthree
  refine ⟨r, hr, y, hy, ⟨z, hz, (hfields z hz).2 a _ ha hv⟩, z', hz', htwo, ?_⟩
  rw [← Bool.not_eq_true, (hfields z' hz').1]
  rintro ⟨a, v, ha, -⟩
  rw [ha] at htwo
  cases htwo

end Lhs

end Antecedent
