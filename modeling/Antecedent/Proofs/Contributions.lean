import Antecedent.Proofs.StageSides
import Antecedent.Proofs.Visibility

/-!
# What the parts of a condition contribute

The tests of a compiled condition can be read off the notes of its parts. Each field contributes the
tests that its variables and their binding occurrences make, and the outputs of a condition are these
contributions in order.

* `FieldAt.outputs` are the tests that a compiled field contributes.
* `Lhs.outputs_of_pattern` and `Lhs.outputs_of_test` say that the outputs of a compiled condition are
  what its fields, or its expression, contribute, and that these refer to what is in sight of it.
* `Lhs.patternAt?` finds the pattern whose entities enter at a join, and
  `Lhs.patternAt?_of_mem_binders` says that the binding occurrences of that join stand in it.
-/

namespace Antecedent

variable {α β : Type}

/-! ## Outputs of a compiled field -/

namespace JoinOutput

/-- Some join outputs together. -/
def all : List JoinOutput → JoinOutput
  | [] => {}
  | o :: os => o ++ all os

end JoinOutput

theorem Visited.allJoin_eq_all (vs : List (Visited β)) : allJoin vs = .all (vs.map join) := by
  induction vs with
  | nil => rfl
  | cons v vs ih => rw [allJoin, ih, List.map_cons, JoinOutput.all]

theorem Visited.allDeferred_eq_all (vs : List (Visited β)) :
    allDeferred vs = .all (vs.map deferred) := by
  induction vs with
  | nil => rfl
  | cons v vs ih => rw [allDeferred, ih, List.map_cons, JoinOutput.all]

namespace FieldAt

/-- The alternatives of a compiled field with the binding occurrences that they refer to. -/
def bound (x : FieldAt Note) : List (List (Conjunct Origin)) :=
  (Conjunct.traverseAll Note.origin x.conjuncts).getD []

/-- The tests that a compiled field contributes. -/
def outputs (x : FieldAt Note) : Outputs := Outputs.ofField x.place x.field.note.origin x.bound

theorem bound_eq {x : FieldAt Note} {bound : List (List (Conjunct Origin))}
    (h : List.Forall₂ (List.Forall₂ fun k k' => k'.mapNotes some = k.mapNotes Note.origin)
      x.conjuncts bound) : x.bound = bound := by
  have hbound : Conjunct.traverseAll Note.origin x.conjuncts = some bound :=
    Conjunct.traverseAll_of_forall₂ h fun _ _ _ _ _ _ _ hb => hb
  rw [FieldAt.bound, hbound, Option.getD_some]

end FieldAt

namespace Field

theorem joinDepth_of_mem_asConjuncts {site : Site} {position : Nat} {fs : List (Field Symbol α)}
    {k : Conjunct α} (hk : k ∈ asConjuncts site position fs) : k.site.joinDepth = site.joinDepth := by
  induction fs generalizing position with
  | nil => cases hk
  | cons f fs ih =>
    rcases List.mem_append.1 hk with hk | hk
    · cases f with
      | plain b as declared n =>
        cases b with
        | var x arity =>
          obtain rfl := List.mem_singleton.1 hk
          rfl
        | wildcard arity => cases hk
      | multi ps as declared n => cases hk
    · exact ih hk

mutual

/-- The conjuncts of a field are about its own entity. -/
theorem joinDepth_of_mem_conjuncts {site : Site} (f : Field Symbol α) {ks : List (Conjunct α)}
    (hks : ks ∈ f.conjuncts site) {k : Conjunct α} (hk : k ∈ ks) :
    k.site.joinDepth = site.joinDepth := by
  cases f with
  | plain b as declared n =>
    obtain ⟨a, -, rfl⟩ := List.mem_map.1 hks
    obtain ⟨j, -, rfl⟩ := List.mem_map.1 hk
    rfl
  | multi ps as declared n => exact joinDepth_of_mem_conjunctsOfParts ps hks hk

theorem joinDepth_of_mem_conjunctsOfParts {site : Site} (fs : List (Field Symbol α))
    {ks : List (Conjunct α)} (hks : ks ∈ conjunctsOfParts site fs) {k : Conjunct α} (hk : k ∈ ks) :
    k.site.joinDepth = site.joinDepth := by
  cases fs with
  | nil => cases hks
  | cons f fs =>
    rcases List.mem_cons.1 hks with rfl | hks
    · have hk : k ∈ asConjuncts site 0 (f :: fs) := hk
      exact joinDepth_of_mem_asConjuncts hk
    · exact joinDepth_of_mem_conjuncts f hks hk

end

end Field

/-! ## What is in sight -/

/-- A binding occurrence is visible somewhere in condition number `pattern`. -/
def Lhs.InSight (l : Lhs Symbol α) (pattern : Nat) (o : Origin) : Prop :=
  ∃ i x, o ∈ l.visible pattern i x

theorem Scope.exists_mem_binders {σ : Scope} {o : Origin} (ho : o ∈ σ.allOrigins) :
    ∃ x, (x, o) ∈ σ.binders := by
  obtain ⟨b, hb, hbo⟩ := List.mem_filterMap.1 ho
  exact ⟨b.name, List.mem_filterMap.2 ⟨b, hb, by rw [hbo, Option.map_some]⟩⟩

/-- What is in scope at the end of a condition is in sight of it. -/
theorem Condition.inSight_of_visit {c : Context} {pre rest : Lhs Symbol α} {k : Condition Symbol α}
    {τ : Scope} {v : VisitedCondition} (hτ : τ.Follows pre)
    (h : k.visit c (pre.length + 1) pre.joins pre.nodeCount τ rest = .ok v) {o : Origin}
    (ho : o ∈ v.inside.allOrigins) : (pre ++ k :: rest).InSight (pre.length + 1) o := by
  obtain ⟨x, hx⟩ := Scope.exists_mem_binders ho
  rw [binders_inside h, hτ.binders] at hx
  have hcons : Lhs.conditionsFrom (pre.length + 1) pre.joins pre.nodeCount (k :: rest) =
      pre.next k :: Lhs.conditionsFrom (pre.length + 1 + 1) (k.joinsAfter pre.joins)
        (pre.nodeCount + k.size) rest := rfl
  refine ⟨o.id + 1, x, List.mem_map.2 ⟨(x, o), List.mem_filter.2 ⟨?_, decide_eq_true ⟨rfl, ?_⟩⟩, rfl⟩⟩
  · rw [Lhs.binders_append, hcons, List.flatMap_cons]
    rcases List.mem_append.1 hx with hx | hx
    · exact List.mem_append_left _ (List.mem_filter.1 hx).1
    · exact List.mem_append_right _ (List.mem_append_left _ hx)
  · rcases List.mem_append.1 hx with hx | hx
    · obtain ⟨hmem, hreaches⟩ := List.mem_filter.1 hx
      exact (Lhs.sees_iff_reaches hmem).2 (of_decide_eq_true hreaches)
    · exact (Lhs.sees_iff_lt hx).2 (Nat.lt_succ_self _)

/-- What a field of a run finds or binds is in scope behind the run. -/
theorem FieldVisit.Run.mem_allOrigins {c : Context} {σ : Scope} {ts : List (FieldVisit α)}
    (h : Run c σ ts) {t : FieldVisit α} (ht : t ∈ ts) {o : Origin}
    (ho : o ∈ (t.scope ++ (t.source.own t.scope).toList).allOrigins) :
    o ∈ (σ ++ bindings ts).allOrigins := by
  induction h with
  | nil σ => cases ht
  | @cons s ts head tail ih =>
    rw [bindings_cons, ← List.append_assoc, Scope.allOrigins_append]
    rcases List.mem_cons.1 ht with rfl | ht
    · refine List.mem_append_left _ ?_
      rw [Scope.allOrigins_append] at ho ⊢
      rwa [head.allOrigins_bindings]
    · rw [← Scope.allOrigins_append]
      exact ih ht

/-! ## Conditions -/

/-- A compiled field carries the tests on the candidate that it contributes, and refers to what is in
sight. -/
structure FieldAt.Settled (l : Lhs Symbol α) (x : FieldAt Note) : Prop where
  out_eq : x.field.note.out = { candidate := x.outputs.candidate, lookup := x.outputs.lookup }
  references_eq : Staging.references x.field.note.origin x.bound =
    x.field.note.origin.toList ++ x.references
  inSight : ∀ o ∈ x.field.note.origin.toList ++ x.references, l.InSight x.place.pattern o
  site_mem : ∀ ks ∈ x.bound, ∀ k ∈ ks, ∃ js ∈ x.conjuncts, ∃ j ∈ js, k.site = j.site

namespace FieldAt.Settled

variable {l : Lhs Symbol α} {x : FieldAt Note}

theorem joinDepth_eq (h : x.Settled l) :
    ∀ ks ∈ x.bound, ∀ k ∈ ks, k.site.joinDepth = x.place.site.joinDepth := by
  intro ks hks k hk
  obtain ⟨js, hjs, j, hj, hsite⟩ := h.site_mem ks hks k hk
  rw [hsite]
  exact Field.joinDepth_of_mem_conjuncts x.field hjs hj

/-- The conjuncts of a plain field are about the field itself. -/
theorem site_eq (h : x.Settled l) (hplain : x.field.isPlain = true) :
    ∀ ks ∈ x.bound, ∀ k ∈ ks, k.site = x.place.site := by
  intro ks hks k hk
  obtain ⟨js, hjs, j, hj, hsite⟩ := h.site_mem ks hks k hk
  rw [hsite]
  obtain ⟨p, id, f⟩ := x
  cases f with
  | multi ps as declared n => cases hplain
  | plain b as declared n =>
    obtain ⟨a, -, rfl⟩ := List.mem_map.1 hjs
    obtain ⟨e, -, rfl⟩ := List.mem_map.1 hj
    rfl

end FieldAt.Settled

namespace FieldVisit

/-- A field of a run contributes the outputs that can be read off its notes. -/
theorem contributes {c : Context} {t : FieldVisit α} (h : t.source.Compiles c t.scope t.visited) :
    t.visited.join = t.result.outputs.join ∧ t.visited.deferred = t.result.outputs.deferred := by
  have horigin := origin_result h
  have hconjuncts := conjuncts_result h
  obtain ⟨bound, hbound, hv⟩ := h
  have hpairs := Conjunct.forall₂_of_bindAll hbound
  rw [← hconjuncts] at hpairs
  rw [FieldAt.outputs, horigin, FieldAt.bound_eq hpairs, hv]
  exact ⟨rfl, rfl⟩

/-- What a field of a run refers to is in its scope, or is the field itself. -/
theorem mem_allOrigins_of_references {c : Context} {t : FieldVisit α}
    (h : t.source.Compiles c t.scope t.visited) {o : Origin}
    (ho : o ∈ t.result.field.note.origin.toList ++ t.result.references) :
    o ∈ (t.scope ++ (t.source.own t.scope).toList).allOrigins := by
  rw [origin_result h] at ho
  rcases List.mem_append.1 ho with ho | ho
  · rw [Scope.allOrigins_append]
    exact List.mem_append_left _ (FieldAt.origin_mem (Option.mem_toList.1 ho))
  · rw [FieldAt.references, conjuncts_result h] at ho
    obtain ⟨ks, hks, ho⟩ := List.mem_flatMap.1 ho
    obtain ⟨k, hk, ho⟩ := List.mem_flatMap.1 ho
    obtain ⟨n, hn, hno⟩ := List.mem_filterMap.1 ho
    exact FieldAt.reference_mem hks hk hn hno

theorem settled {c : Context} {l : Lhs Symbol α} {t : FieldVisit α}
    (h : t.source.Compiles c t.scope t.visited)
    (hsight : ∀ o ∈ (t.scope ++ (t.source.own t.scope).toList).allOrigins,
      l.InSight t.source.place.pattern o) : t.result.Settled l := by
  have horigin := origin_result h
  have hconjuncts := conjuncts_result h
  have hreferences := fun o ho => hsight o (mem_allOrigins_of_references h ho)
  obtain ⟨bound, hbound, hv⟩ := h
  have hpairs := Conjunct.forall₂_of_bindAll hbound
  have hresult := hconjuncts ▸ hpairs
  have hboundEq := FieldAt.bound_eq hresult
  refine ⟨?_, ?_, hreferences, ?_⟩
  · rw [FieldAt.outputs, horigin, hboundEq, result, hv]
    simp [FieldAt.outcome]
  · rw [Staging.references, hboundEq, FieldAt.references_eq hresult]
  · rw [hboundEq]
    intro ks hks k hk
    obtain ⟨js, hjs, hpair⟩ := exists_of_mem_forall₂ hresult.flip hks
    obtain ⟨j, hj, hkj⟩ := exists_of_mem_forall₂ hpair.flip hk
    exact ⟨js, hjs, j, hj, congrArg Conjunct.site hkj⟩

end FieldVisit

namespace Lhs

/-- **The outputs of a compiled pattern** are what its fields contribute. -/
theorem outputs_of_pattern {c : Context} {l : Lhs Symbol α} {u : Lhs Symbol Note}
    (hu : compileFrom c 1 0 0 [] l = .ok u) {y : ConditionAt Note} (hy : y ∈ u.conditionsAt)
    {mode : Mode} {q : Pattern Symbol Note} (hq : y.condition.element = .pattern mode q) :
    y.condition.note.out =
        { join := .all (y.fields.map fun x => x.outputs.join)
          deferred := .all (y.fields.map fun x => x.outputs.deferred) } ∧
      ∀ x ∈ y.fields, x.Settled l := by
  obtain ⟨pre, k, rest, τ, v, heq, hv, hτ, rfl⟩ := exists_visit_following Scope.follows_nil hu hy
  have heq : l = pre ++ k :: rest := heq
  subst heq
  cases hk : k.element with
  | test t =>
    obtain ⟨e, -, hcondition, -⟩ := Condition.exists_bind_of_visit hk hv
    rw [hcondition] at hq
    cases hq
  | pattern mode' q' =>
    obtain ⟨ts, hrun, hsource, hresult, hinside, hout, -⟩ := Condition.exists_run_of_visit hk hv
    have hfields : ts.map FieldVisit.result =
        (⟨pre.length + 1, pre.joins, pre.nodeCount, v.condition⟩ : ConditionAt Note).fields := hresult
    rw [← hfields, List.forall_mem_map]
    constructor
    · have hjoin : (ts.map FieldVisit.visited).map Visited.join =
          (ts.map FieldVisit.result).map fun x => x.outputs.join := by
        rw [List.map_map, List.map_map]
        exact List.map_congr_left fun t ht => (FieldVisit.contributes (hrun.compiles t ht)).1
      have hdeferred : (ts.map FieldVisit.visited).map Visited.deferred =
          (ts.map FieldVisit.result).map fun x => x.outputs.deferred := by
        rw [List.map_map, List.map_map]
        exact List.map_congr_left fun t ht => (FieldVisit.contributes (hrun.compiles t ht)).2
      rw [hout, Visited.allJoin_eq_all, Visited.allDeferred_eq_all, hjoin, hdeferred]
    · intro t ht
      have hmem : t.source ∈ k.fieldsAt (pre.length + 1) pre.joins pre.nodeCount :=
        hsource ▸ List.mem_map_of_mem ht
      refine FieldVisit.settled (hrun.compiles t ht) fun o ho => ?_
      rw [(Condition.samePattern_of_mem_fieldsAt hk hmem).pattern_eq]
      refine Condition.inSight_of_visit hτ hv ?_
      rw [hinside]
      exact hrun.mem_allOrigins ht ho

/-- **The outputs of a compiled test** are what its expression contributes. -/
theorem outputs_of_test {c : Context} {l : Lhs Symbol α} {u : Lhs Symbol Note}
    (hu : compileFrom c 1 0 0 [] l = .ok u) {y : ConditionAt Note} (hy : y ∈ u.conditionsAt)
    {t : Term Symbol Note} (ht : y.condition.element = .test t) :
    ∃ e, t.traverse Note.origin = some e ∧
      y.condition.note.out = Outputs.ofTest y.condition.beginDepth y.joins e ∧
      ∀ o ∈ e.notes, l.InSight y.pattern o := by
  obtain ⟨pre, k, rest, τ, v, heq, hv, hτ, rfl⟩ := exists_visit_following Scope.follows_nil hu hy
  have heq : l = pre ++ k :: rest := heq
  subst heq
  cases hk : k.element with
  | pattern mode q => exact absurd ht (Condition.element_ne_test_of_bare (Condition.bare_of_visit hv) hk t)
  | test t' =>
    obtain ⟨e, he, hcondition, hinside⟩ := Condition.exists_bind_of_visit hk hv
    have hterm : t'.resolve τ ⟨pre.length + 1, none⟩ = t := by
      rw [hcondition] at ht
      exact Element.test.inj ht
    refine ⟨e, ?_, by rw [hcondition], fun o ho => Condition.inSight_of_visit hτ hv ?_⟩
    · rw [← hterm]
      exact Term.traverse_of_mapNotes _ (Term.mapNotes_of_bind he) fun _ _ _ ho => ho
    · rw [hinside, Scope.allOrigins_append]
      exact List.mem_append_left _ (Term.mem_allOrigins_of_bind he ho)

/-! ## Patterns by the joins at which they enter -/

/-- The pattern whose entities enter at the join at the given depth. -/
def patternAt? (l : Lhs Symbol α) (joinDepth : Nat) : Option (ConditionAt α) :=
  l.conditionsAt.find? fun y => y.condition.pattern?.isSome && y.joinDepth = joinDepth

theorem joins_le_of_mem_conditionsFrom {pattern joins id : Nat} {l : Lhs Symbol α} {y : ConditionAt α}
    (hy : y ∈ conditionsFrom pattern joins id l) : joins ≤ y.joins := by
  induction l generalizing pattern joins id with
  | nil => cases hy
  | cons k ks ih =>
    rcases List.mem_cons.1 hy with rfl | hy
    · exact Nat.le_refl _
    · have hle := ih hy
      have hjoins : joins ≤ k.joinsAfter joins := by
        unfold Condition.joinsAfter
        split <;> omega
      omega

/-- No two patterns enter at the same join. -/
theorem find?_conditionsFrom {pattern joins id : Nat} {l : Lhs Symbol α} {y : ConditionAt α}
    (hy : y ∈ conditionsFrom pattern joins id l) (hpattern : y.condition.pattern?.isSome = true) :
    (conditionsFrom pattern joins id l).find? (fun z =>
      z.condition.pattern?.isSome && z.joinDepth = y.joinDepth) = some y := by
  induction l generalizing pattern joins id with
  | nil => cases hy
  | cons k ks ih =>
    rcases List.mem_cons.1 hy with rfl | hy
    · exact List.find?_cons_of_pos (by simp [hpattern])
    · rw [conditionsFrom, List.find?_cons_of_neg, ih hy]
      have hle := joins_le_of_mem_conditionsFrom hy
      have hlt : y.joins < y.joinDepth := by
        unfold ConditionAt.joinDepth Condition.joinsAfter
        unfold Condition.pattern? at hpattern
        split <;> simp_all
      simp only [Bool.and_eq_true, decide_eq_true_eq, not_and]
      intro _ heq
      have hhead : k.joinsAfter joins = y.joinDepth := heq
      omega

theorem patternAt?_eq {l : Lhs Symbol α} {y : ConditionAt α} (hy : y ∈ l.conditionsAt)
    (hpattern : y.condition.pattern?.isSome = true) : l.patternAt? y.joinDepth = some y :=
  find?_conditionsFrom hy hpattern

end Lhs

/-- The entity that a binding occurrence reads enters at the join of its condition. -/
theorem ConditionAt.joinDepth_of_mem_binders {y : ConditionAt α} {b : Symbol × Origin}
    (hb : b ∈ y.binders) :
    y.condition.pattern?.isSome = true ∧ b.2.place.site.joinDepth = y.joinDepth := by
  obtain ⟨pattern, joins, id, k⟩ := y
  cases hk : k.element with
  | pattern mode q =>
    have hdepth : (⟨pattern, joins, id, k⟩ : ConditionAt α).joinDepth = joins + 1 := by
      simp [joinDepth, Condition.joinsAfter, hk]
    rw [hdepth]
    refine ⟨by simp [Condition.pattern?, hk], ?_⟩
    rcases List.mem_append.1 hb with hb | hb
    · simp only [handle, hk, Option.mem_toList, Option.map_eq_some_iff] at hb
      obtain ⟨h, -, rfl⟩ := hb
      rfl
    · obtain ⟨x, hx, hxb⟩ := List.mem_filterMap.1 hb
      rw [(FieldAt.binder_eq_some_iff.1 hxb).2]
      exact (Condition.samePattern_of_mem_fieldsAt hk hx).joinDepth_eq
  | test t => simp [binders, handle, fields, Condition.fieldsAt, hk] at hb

/-- A binding occurrence stands in the pattern of its join. -/
theorem Lhs.patternAt?_of_mem_binders {l : Lhs Symbol α} {b : Symbol × Origin} (hb : b ∈ l.binders) :
    ∃ z, l.patternAt? b.2.place.site.joinDepth = some z ∧ z.pattern = b.2.place.pattern ∧
      z.condition.beginDepth = b.2.place.beginDepth := by
  obtain ⟨z, hz, hb⟩ := List.mem_flatMap.1 hb
  obtain ⟨hpattern, hdepth⟩ := ConditionAt.joinDepth_of_mem_binders hb
  obtain ⟨hnumber, hbegin⟩ := ConditionAt.place_of_mem_binders hb
  exact ⟨z, hdepth ▸ patternAt?_eq hz hpattern, hnumber.symm, hbegin.symm⟩

end Antecedent
