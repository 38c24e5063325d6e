import Antecedent.Proofs.Ahead
import Antecedent.Proofs.OptionFilter
import Antecedent.Proofs.Preservation

/-!
# Restrictions of a compiled left-hand side

While a left-hand side is compiled, fields, alternatives, literals and expressions are checked against
the restrictions that were found so far. These are also the restrictions that the compiled left-hand
side notes, so the checks hold of its notes.

* `Term.singles` lists the notes of the single-value variables in an expression, and
  `Term.matchable_of_bindAt` says that they are checked where the expression is bound.
* `FieldAt.Checked` says what was checked of a compiled field, and `FieldVisit.checked_result` proves it.
* `Lhs.final_restrictions` says it for a left-hand side.
-/

namespace Antecedent

variable {α : Type}

/-! ## What is checked where references are bound -/

namespace Term

mutual

/-- The notes of the single-value variables in an expression, from left to right. -/
def singles : Term Symbol Note → List Note
  | call _ args => singlesAll args
  | var _ .single n => [n]
  | var _ .sequence _ => []
  | lit _ => []
  | global _ => []

def singlesAll : List (Term Symbol Note) → List Note
  | [] => []
  | t :: ts => singles t ++ singlesAll ts

end

mutual

/-- The single-value variables of an expression that was bound can match. -/
theorem matchable_of_bindAt {c : Context} (hstatic : c.options.staticChecks = true) {spot : Spot}
    {enclosing : Option Symbol} {depth : Nat} {t : Term Symbol Note} {u : Term Symbol Origin}
    (h : t.bindAt c spot enclosing depth = .ok u) :
    ∀ n ∈ t.singles, Restriction.unmatchable? n.restriction = false := by
  cases t with
  | call f args =>
    rw [bindAt] at h
    obtain ⟨-, -, h⟩ := bind_eq_ok.1 h
    obtain ⟨us, hus, -⟩ := bind_eq_ok.1 h
    exact matchable_of_bindAllAt hstatic hus
  | var x arity n =>
    cases arity with
    | sequence =>
      intro n hn
      cases hn
    | single =>
      rw [bindAt] at h
      obtain ⟨-, -, h⟩ := bind_eq_ok.1 h
      obtain ⟨o, ho, -⟩ := bind_eq_ok.1 h
      refine List.forall_mem_singleton.2 (Bool.eq_false_iff.2 fun hunmatchable => ?_)
      unfold Note.bindReference at ho
      split at ho
      · cases ho
      · rw [if_pos ⟨rfl, hunmatchable, hstatic⟩] at ho
        cases ho
  | lit value =>
    intro n hn
    cases hn
  | global x =>
    intro n hn
    cases hn

theorem matchable_of_bindAllAt {c : Context} (hstatic : c.options.staticChecks = true) {spot : Spot}
    {enclosing : Option Symbol} {depth : Nat} {ts : List (Term Symbol Note)}
    {us : List (Term Symbol Origin)} (h : bindAllAt c spot enclosing depth ts = .ok us) :
    ∀ n ∈ singlesAll ts, Restriction.unmatchable? n.restriction = false := by
  cases ts with
  | nil =>
    intro n hn
    cases hn
  | cons t ts =>
    rw [bindAllAt] at h
    obtain ⟨u, hu, h⟩ := bind_eq_ok.1 h
    obtain ⟨us', hus, -⟩ := bind_eq_ok.1 h
    exact List.forall_mem_append.2
      ⟨matchable_of_bindAt hstatic hu, matchable_of_bindAllAt hstatic hus⟩

end

end Term

namespace Constraint

variable {c : Context} (hstatic : c.options.staticChecks = true) {spot : Spot} {field : Restriction}
  {k : Constraint Symbol Note} {k' : Constraint Symbol Origin} (h : k.bind c spot field = .ok k')

include hstatic h

/-- A literal that was bound obeys the restriction of its field. -/
theorem check_of_bind {v : Literal Symbol} (hk : k.shape = .literal v) : field.check v = none := by
  rw [bind, hk] at h
  dsimp only at h
  rw [if_pos hstatic] at h
  cases hcheck : field.check v with
  | none => rfl
  | some violation =>
    rw [hcheck] at h
    cases h

theorem matchable_of_bind {t : Term Symbol Note} (hk : k.expression? = some t) :
    ∀ n ∈ t.singles, Restriction.unmatchable? n.restriction = false := by
  obtain ⟨shape, negated⟩ := k
  cases shape with
  | literal v => cases hk
  | var x arity n => cases hk
  | predicate t' =>
    obtain rfl := Option.some.inj hk
    obtain ⟨u, hu, -⟩ := bind_eq_ok.1 h
    exact Term.matchable_of_bindAt hstatic hu
  | returnValue t' =>
    obtain rfl := Option.some.inj hk
    obtain ⟨u, hu, -⟩ := bind_eq_ok.1 h
    exact Term.matchable_of_bindAt hstatic hu

end Constraint

namespace Conjunct

theorem exists_bind_of_bindAll {c : Context} {spot : Spot} {field : Restriction}
    {as : List (List (Conjunct Note))} {bound : List (List (Conjunct Origin))}
    (h : bindAll c spot field as = .ok bound) {ks : List (Conjunct Note)} (hks : ks ∈ as)
    {k : Conjunct Note} (hk : k ∈ ks) : ∃ k', k.constraint.bind c spot field = .ok k' := by
  obtain ⟨ks', -, hks'⟩ := exists_of_mem_forall₂ (forall₂_of_mapM h) hks
  obtain ⟨k', -, hk'⟩ := exists_of_mem_forall₂ (forall₂_of_mapM hks') hk
  obtain ⟨j, hj, -⟩ := bind_eq_ok.1 hk'
  exact ⟨j, hj⟩

/-- A field passes if its own variable can match and one of its alternatives can be satisfied. -/
theorem checkSatisfiable_eq_ok {c : Context} {spot : Spot} {own : Option Symbol}
    {restriction : Option Restriction} {as : List (List (Conjunct Note))} {u : Unit}
    (h : checkSatisfiable c spot own restriction as = .ok u) :
    (own ≠ none → Restriction.unmatchable? restriction = false) ∧
      (as ≠ [] → ∃ ks ∈ as, satisfiable (restriction.getD .any) ks = true) := by
  unfold checkSatisfiable at h
  split at h
  · cases h
  · next hnot =>
    refine ⟨fun hown => ?_, fun hne => ?_⟩
    · obtain ⟨x, rfl⟩ := Option.ne_none_iff_exists'.1 hown
      exact Bool.eq_false_iff.2 fun htrue => hnot x rfl htrue
    · split at h
      · next hsome =>
        rcases Bool.or_eq_true_iff.1 hsome with hempty | hany
        · exact absurd (List.isEmpty_iff.1 hempty) hne
        · exact List.any_eq_true.1 hany
      · cases h

end Conjunct

/-! ## Fields -/

/-- What was checked of a compiled field. -/
structure FieldAt.Checked (c : Context) (z : FieldAt Note) : Prop where
  /-- A variable of the field can match. -/
  own : z.field.binds? ≠ none → Restriction.unmatchable? z.field.note.restriction = false
  /-- Some alternative has variables that can match together with the field. -/
  alternative : z.conjuncts ≠ [] → ∃ ks ∈ z.conjuncts,
    ((ks.filterMap Conjunct.restriction?).foldl (· ∩ ·)
      (z.field.note.restriction.getD .any)).isUnmatchable = false
  /-- The literals obey the restriction of the field. -/
  literal : c.options.staticChecks = true → ∀ ks ∈ z.conjuncts, ∀ k ∈ ks, ∀ v,
    k.constraint.shape = .literal v → (z.field.note.restriction.getD .any).check v = none
  /-- The single-value variables in expressions can match. -/
  expression : c.options.staticChecks = true → ∀ ks ∈ z.conjuncts, ∀ k ∈ ks, ∀ t,
    k.constraint.expression? = some t →
      ∀ n ∈ t.singles, Restriction.unmatchable? n.restriction = false

namespace FieldVisit

theorem restriction_result {c : Context} {t : FieldVisit α}
    (h : t.source.Compiles c t.scope t.visited) :
    t.result.field.note.restriction = (t.source.noted t.scope).note.restriction := by
  obtain ⟨bound, -, hv⟩ := h
  simp [result, hv, FieldAt.outcome]

/-- A field that was compiled was checked, with the restrictions that it has in the end. -/
theorem checked_result {c : Context} {t : FieldVisit α} {ahead : List Occurrence}
    (h : t.source.field.visit c t.source.place t.source.id t.scope ahead = .ok t.visited) :
    t.result.Checked c := by
  obtain ⟨-, hcompiles, hsatisfiable, -⟩ := FieldAt.visit_eq_ok.1 h
  have hbinds : t.result.field.binds? = t.source.field.binds? :=
    Field.binds?_eq_of_bare hcompiles.bare_result
  have hrestriction := restriction_result hcompiles
  have hconjuncts := conjuncts_result hcompiles
  obtain ⟨hown, halternative⟩ := Conjunct.checkSatisfiable_eq_ok hsatisfiable
  obtain ⟨bound, hbound, -⟩ := hcompiles
  rw [← hrestriction, ← hconjuncts] at hbound
  rw [← hrestriction, ← hconjuncts] at halternative
  rw [← hrestriction] at hown
  refine ⟨fun hne => hown ?_, fun hne => ?_, fun hstatic ks hks k hk v hv => ?_,
    fun hstatic ks hks k hk e he => ?_⟩
  · rw [hbinds] at hne
    simpa using hne
  · obtain ⟨ks, hks, hok⟩ := halternative hne
    exact ⟨ks, hks, by simpa [Conjunct.satisfiable] using hok⟩
  · obtain ⟨k', hk'⟩ := Conjunct.exists_bind_of_bindAll hbound hks hk
    exact Constraint.check_of_bind hstatic hk' hv
  · obtain ⟨k', hk'⟩ := Conjunct.exists_bind_of_bindAll hbound hks hk
    exact Constraint.matchable_of_bind hstatic hk' he

end FieldVisit

/-! ## Conditions -/

/-- The fields of a compiled condition were checked, and so was its expression if it is a test. -/
theorem Condition.checked_of_visit {c : Context} {pattern joins id : Nat} {σ : Scope}
    {rest : Lhs Symbol α} {k : Condition Symbol α} {v : VisitedCondition}
    (h : k.visit c pattern joins id σ rest = .ok v) :
    (∀ z ∈ v.condition.fieldsAt pattern joins id, z.Checked c) ∧
      (c.options.staticChecks = true → ∀ t, v.condition.element = .test t →
        ∀ n ∈ t.singles, Restriction.unmatchable? n.restriction = false) := by
  cases hk : k.element with
  | pattern mode q =>
    have htest := element_ne_test_of_bare (bare_of_visit h) hk
    refine ⟨fun z hz => ?_, fun _ t ht => absurd ht (htest t)⟩
    obtain ⟨ts, hrun, hsource, hresult, -⟩ := exists_run_of_visit hk h
    rw [← hresult] at hz
    obtain ⟨t, ht, rfl⟩ := List.mem_map.1 hz
    obtain ⟨us, ws, rfl⟩ := List.append_of_mem ht
    obtain ⟨ahead, hvisit, -⟩ := (permitted_of_visit hk h hrun hsource).2.exists_visit
    exact FieldVisit.checked_result hvisit
  | test t =>
    obtain ⟨u, hu, hv, -⟩ := exists_bind_of_visit hk h
    rw [hv]
    refine ⟨(fun z hz => by cases hz), fun hstatic t' ht' => ?_⟩
    obtain rfl := Element.test.inj ht'
    exact Term.matchable_of_bindAt hstatic hu

/-! ## Left-hand sides -/

namespace Lhs

theorem checked_of_compile {c : Context} {l : Lhs Symbol α} {r : Lhs Symbol Note}
    (h : l.compile c = .ok r) : ∀ y ∈ r.conditionsAt, (∀ z ∈ y.fields, z.Checked c) ∧
      (c.options.staticChecks = true → ∀ t, y.condition.element = .test t →
        ∀ n ∈ t.singles, Restriction.unmatchable? n.restriction = false) := by
  obtain ⟨u, hu, rfl⟩ := exists_compileFrom_of_compile h
  refine (forall_conditionsAt_collapse (fun z d => Iff.rfl) u).2 fun z hz => ?_
  obtain ⟨pre, k, rest, τ, v, -, hv, -, rfl⟩ := exists_visit_following Scope.follows_nil hu hz
  exact Condition.checked_of_visit hv

/-- The expressions of a compiled left-hand side are tests or are read in a field. -/
theorem exists_of_mem_expressions {c : Context} {l : Lhs Symbol α} {r : Lhs Symbol Note}
    (hflat : l.isFlat = true) (h : l.compile c = .ok r) {t : Term Symbol Note}
    (ht : t ∈ r.expressions) :
    ∃ y ∈ r.conditionsAt, y.condition.element = .test t ∨
      ∃ z ∈ y.fields, ∃ ks ∈ z.conjuncts, ∃ k ∈ ks, k.constraint.expression? = some t := by
  obtain ⟨k, hk, ht⟩ := List.mem_flatMap.1 ht
  rw [← map_condition_conditionsFrom 1 0 0 r] at hk
  obtain ⟨y, hy, rfl⟩ := List.mem_map.1 hk
  refine ⟨y, hy, ?_⟩
  unfold Condition.expressions at ht
  split at ht
  · next mode q hq =>
    have hfields : ∃ z ∈ y.fields, t ∈ z.field.expressions := by
      simp only [ConditionAt.fields, Condition.fieldsAt, hq]
      exact Slot.exists_mem_fieldsAtAll ht
    obtain ⟨z, hz, ht⟩ := hfields
    have hplain : ∀ y ∈ r.conditionsAt, ∀ z ∈ y.fields, z.field.isPlain = true := by
      obtain ⟨u, hu, rfl⟩ := exists_compileFrom_of_compile h
      exact (forall_conditionsAt_collapse (fun z d => Iff.rfl) u).2
        fun y hy z hz => isPlain_of_compileFrom hflat hu hy hz
    exact .inr ⟨z, hz, Field.exists_mem_conjuncts z.place.site (hplain y hy z hz) ht⟩
  · next t' ht' =>
    obtain rfl := List.mem_singleton.1 ht
    exact .inl ht'

/-- **The restrictions of a compiled left-hand side can be met.** The variable of a field can match; some
alternative of a field that has any can be satisfied, as far as its variables are concerned; and with
static checks the literals obey the restrictions of their fields and the single-value variables in
expressions can match. -/
theorem final_restrictions {c : Context} {l : Lhs Symbol α} {r : Lhs Symbol Note}
    (hflat : l.isFlat = true) (h : l.compile c = .ok r) :
    (∀ y ∈ r.conditionsAt, ∀ z ∈ y.fields,
      (z.field.binds? ≠ none → Restriction.unmatchable? z.field.note.restriction = false) ∧
      (z.conjuncts ≠ [] → ∃ ks ∈ z.conjuncts,
        ((ks.filterMap Conjunct.restriction?).foldl (· ∩ ·)
          (z.field.note.restriction.getD .any)).isUnmatchable = false) ∧
      (c.options.staticChecks = true → ∀ ks ∈ z.conjuncts, ∀ k ∈ ks, ∀ v,
        k.constraint.shape = .literal v → (z.field.note.restriction.getD .any).check v = none)) ∧
    (c.options.staticChecks = true → ∀ t ∈ r.expressions, ∀ n ∈ t.singles,
      Restriction.unmatchable? n.restriction = false) := by
  refine ⟨fun y hy z hz => ?_, fun hstatic t ht => ?_⟩
  · have hchecked := (checked_of_compile h y hy).1 z hz
    exact ⟨hchecked.own, hchecked.alternative, hchecked.literal⟩
  · obtain ⟨y, hy, htest | ⟨z, hz, ks, hks, k, hk, hexpression⟩⟩ :=
      exists_of_mem_expressions hflat h ht
    · exact (checked_of_compile h y hy).2 hstatic t htest
    · exact ((checked_of_compile h y hy).1 z hz).expression hstatic ks hks k hk t hexpression

/-- A field for a number up to 10 that is constrained to 3 or 4, and a test of it. -/
def threeOrFour : List (Step String Unit) :=
  [.pattern
      { kind := .fact
        handle := none
        slots := [⟨none, .plain (.var "x" .single)
          [⟨.literal (.integer 3), []⟩, ⟨.literal (.integer 4), []⟩]
          (some (Restriction.any.withRange ⟨none, some (.ofInt 10)⟩)) ()⟩] },
    .test (.call "odd" [.var "x" .single ()])]

theorem threeOrFour_checked :
    ∃ r, compiledSteps threeOrFour = .ok r ∧
      (∃ y ∈ r.conditionsAt, ∃ z ∈ y.fields, z.conjuncts.length = 2 ∧
        ∀ ks ∈ z.conjuncts, ∀ k ∈ ks, ∀ v, k.constraint.shape = .literal v →
          (z.field.note.restriction.getD .any).check v = none) ∧
      ∃ t ∈ r.expressions, t.singles.length = 1 ∧
        ∀ n ∈ t.singles, Restriction.unmatchable? n.restriction = false := by
  obtain ⟨r, hr, hcheck⟩ := exists_ok_of_check (e := compiledSteps threeOrFour)
    (p := fun r => decide ((∃ y ∈ r.conditionsAt, ∃ z ∈ y.fields, z.conjuncts.length = 2) ∧
      ∃ t ∈ r.expressions, t.singles.length = 1)) (by decide +kernel)
  obtain ⟨⟨y, hy, z, hz, hlength⟩, t, ht, hsingle⟩ := of_decide_eq_true hcheck
  have hflat : ((ofSteps threeOrFour).intern .empty).1.isFlat = true := by decide +kernel
  obtain ⟨hfields, hexpressions⟩ := final_restrictions hflat hr
  exact ⟨r, hr, ⟨y, hy, z, hz, hlength, (hfields y hy z hz).2.2 rfl⟩, t, ht, hsingle,
    hexpressions rfl t ht⟩

end Lhs

end Antecedent
