import Antecedent.Proofs.Visits

/-!
# Where binding occurrences stand

The binding occurrence that a variable refers to stands in its own pattern or in an earlier one. If
in an earlier one, the entity that it is bound in entered at an earlier join.

* `Scope.Before` says this of the scope before a condition, and `Scope.Around` of a scope inside a
  pattern. Compiling keeps both.
* `FieldAt.origin_mem` and `FieldAt.reference_mem` say that what a field refers to is in its scope.
* `Lhs.exists_visit_of_mem` gives for every compiled condition the step that compiled it, and the
  scope before it.
-/

namespace Antecedent

variable {α β : Type}

/-! ## Positions -/

/-- Two places are in the same pattern. -/
structure Place.SamePattern (p p' : Place) : Prop where
  pattern_eq : p.pattern = p'.pattern
  beginDepth_eq : p.beginDepth = p'.beginDepth
  kind_eq : p.site.kind = p'.site.kind
  joinDepth_eq : p.site.joinDepth = p'.site.joinDepth

/-- A binding occurrence stands before condition number `pattern`, in one of the first `joins`
patterns. -/
structure Origin.Before (pattern joins : Nat) (o : Origin) : Prop where
  pattern_lt : o.place.pattern < pattern
  joinDepth_pos : 1 ≤ o.place.site.joinDepth
  joinDepth_le : o.place.site.joinDepth ≤ joins

/-- A binding occurrence stands in the pattern of a place or in an earlier one. -/
inductive Origin.Around (p : Place) (o : Origin) : Prop where
  | before (pattern_lt : o.place.pattern < p.pattern) (joinDepth_pos : 1 ≤ o.place.site.joinDepth)
      (joinDepth_lt : o.place.site.joinDepth < p.site.joinDepth)
  | beside (same : o.place.SamePattern p)

namespace Origin.Around

theorem samePattern {p : Place} {o : Origin} (h : o.Around p)
    (hpattern : o.place.pattern = p.pattern) : o.place.SamePattern p := by
  cases h with
  | before pattern_lt _ _ => omega
  | beside same => exact same

theorem joinDepth_lt_iff {p : Place} {o : Origin} (h : o.Around p) :
    o.place.site.joinDepth < p.site.joinDepth ↔ o.place.pattern ≠ p.pattern := by
  cases h with
  | before pattern_lt _ joinDepth_lt => omega
  | beside same =>
    have := same.pattern_eq
    have := same.joinDepth_eq
    omega

theorem of_samePattern {p p' : Place} (hp : p.SamePattern p') {o : Origin} (h : o.Around p) :
    o.Around p' := by
  cases h with
  | before pattern_lt joinDepth_pos joinDepth_lt =>
    exact .before (hp.pattern_eq ▸ pattern_lt) joinDepth_pos (hp.joinDepth_eq ▸ joinDepth_lt)
  | beside same =>
    exact .beside ⟨same.pattern_eq.trans hp.pattern_eq, same.beginDepth_eq.trans hp.beginDepth_eq,
      same.kind_eq.trans hp.kind_eq, same.joinDepth_eq.trans hp.joinDepth_eq⟩

end Origin.Around

theorem Field.samePattern_of_mem_partsAt {p : Place} {k id : Nat} {fs : List (Field Symbol α)}
    {x : FieldAt α} (h : x ∈ partsAt p k id fs) : x.place.SamePattern p := by
  induction fs generalizing k id with
  | nil => cases h
  | cons f fs ih =>
    rcases List.mem_cons.1 h with rfl | h
    · exact ⟨rfl, rfl, rfl, rfl⟩
    · exact ih h

theorem Slot.samePattern_of_mem_fieldsAt {p : Place} {id : Nat} {s : Slot Symbol α} {x : FieldAt α}
    (h : x ∈ s.fieldsAt p id) : x.place.SamePattern p := by
  obtain ⟨name, f⟩ := s
  cases f with
  | plain b as declared n =>
    obtain rfl := List.mem_singleton.1 h
    exact ⟨rfl, rfl, rfl, rfl⟩
  | multi ps as declared n => exact Field.samePattern_of_mem_partsAt h

theorem Slot.samePattern_of_mem_fieldsAtAll {p : Place} {j id : Nat} {ss : List (Slot Symbol α)}
    {x : FieldAt α} (h : x ∈ fieldsAtAll p j id ss) : x.place.SamePattern p := by
  induction ss generalizing j id with
  | nil => cases h
  | cons s ss ih =>
    rcases List.mem_append.1 h with h | h
    · obtain ⟨h₁, h₂, h₃, h₄⟩ := samePattern_of_mem_fieldsAt h
      exact ⟨h₁, h₂, h₃, h₄⟩
    · exact ih h

/-! ## What a scope holds -/

/-- The binding occurrences in a scope, of whatever name. -/
def Scope.allOrigins (σ : Scope) : List Origin := σ.filterMap Binding.origin

@[simp] theorem Scope.allOrigins_append (σ τ : Scope) :
    allOrigins (σ ++ τ) = σ.allOrigins ++ τ.allOrigins :=
  List.filterMap_append

theorem Scope.origins_subset (σ : Scope) (x : Symbol) : σ.origins x ⊆ σ.allOrigins := by
  intro o ho
  obtain ⟨b, hb, hbo⟩ := List.mem_filterMap.1 ho
  exact List.mem_filterMap.2 ⟨b, (mem_named.1 hb).1, hbo⟩

theorem Viewpoint.mem_of_foldl_choose {v : Viewpoint} {os : List Origin} {old : Option Origin}
    {o : Origin} (h : os.foldl v.choose old = some o) : o ∈ os ∨ old = some o := by
  induction os generalizing old with
  | nil => exact .inr h
  | cons o' os ih =>
    rcases ih h with h | h
    · exact .inl (List.mem_cons_of_mem _ h)
    · cases old with
      | none =>
        obtain rfl := Option.some.inj h
        exact .inl List.mem_cons_self
      | some old =>
        rw [choose] at h
        split at h
        · obtain rfl := Option.some.inj h
          exact .inl List.mem_cons_self
        · exact .inr h

/-- What a variable refers to is in the scope. -/
theorem Scope.mem_allOrigins_of_origin? {σ : Scope} {v : Viewpoint} {x : Symbol} {o : Origin}
    (h : σ.origin? v x = some o) : o ∈ σ.allOrigins :=
  σ.origins_subset x ((Viewpoint.mem_of_foldl_choose h).resolve_right (by simp))

mutual

theorem Term.exists_origin?_of_mem_notes {σ : Scope} {v : Viewpoint} {t : Term Symbol α} {n : Note}
    (h : n ∈ (t.resolve σ v).notes) : ∃ x, n = σ.note v x false none := by
  cases t with
  | call f args => exact Term.exists_origin?_of_mem_notesAll h
  | var x arity m => exact ⟨x, List.mem_singleton.1 h⟩
  | lit value => cases h
  | global x => cases h

theorem Term.exists_origin?_of_mem_notesAll {σ : Scope} {v : Viewpoint}
    {ts : List (Term Symbol α)} {n : Note} (h : n ∈ Term.notesAll (Term.resolveAll σ v ts)) :
    ∃ x, n = σ.note v x false none := by
  cases ts with
  | nil => cases h
  | cons t ts =>
    rcases List.mem_append.1 h with h | h
    · exact Term.exists_origin?_of_mem_notes h
    · exact Term.exists_origin?_of_mem_notesAll h

end

/-- What a bound expression refers to is in the scope it was resolved in. -/
theorem Term.mem_allOrigins_of_bind {c : Context} {spot : Spot} {σ : Scope} {v : Viewpoint}
    {t : Term Symbol α} {u : Term Symbol Origin} (h : (t.resolve σ v).bind c spot = .ok u)
    {o : Origin} (ho : o ∈ u.notes) : o ∈ σ.allOrigins := by
  have hnotes : u.notes.map some = (t.resolve σ v).notes.map Note.origin := by
    rw [← notes_mapNotes, ← notes_mapNotes, mapNotes_of_bind h]
  obtain ⟨n, hn, hno⟩ := List.mem_map.1 (hnotes ▸ List.mem_map_of_mem ho)
  obtain ⟨x, rfl⟩ := exists_origin?_of_mem_notes hn
  exact Scope.mem_allOrigins_of_origin? hno

theorem Constraint.exists_note_of_mem_notes {σ : Scope} {v : Viewpoint} {site : Site}
    {k : Constraint Symbol α} {n : Note} (h : n ∈ (Conjunct.mk site (k.resolve σ v)).notes) :
    ∃ x negated, n = σ.note v x negated none := by
  obtain ⟨shape, negated⟩ := k
  cases shape with
  | literal value => cases h
  | var x arity m => exact ⟨x, negated, List.mem_singleton.1 h⟩
  | predicate t =>
    obtain ⟨x, hx⟩ := Term.exists_origin?_of_mem_notes h
    exact ⟨x, false, hx⟩
  | returnValue t =>
    obtain ⟨x, hx⟩ := Term.exists_origin?_of_mem_notes h
    exact ⟨x, false, hx⟩

namespace Field

/-- A part that is read as a conjunct refers to what its own variable does. -/
theorem exists_origin?_of_mem_asConjuncts {σ : Scope} {v : Viewpoint} {site : Site} {position : Nat}
    {fs : List (Field Symbol α)} {k : Conjunct Note} {n : Note}
    (hk : k ∈ asConjuncts site position (resolveAll σ v fs)) (hn : n ∈ k.notes) :
    ∃ x, n.origin = σ.origin? v x := by
  induction fs generalizing position with
  | nil => cases hk
  | cons f fs ih =>
    rcases List.mem_append.1 hk with hk | hk
    · cases f with
      | plain b as declared m =>
        cases b with
        | var x arity =>
          obtain rfl := List.mem_singleton.1 hk
          exact ⟨x, by rw [List.mem_singleton.1 hn]; rfl⟩
        | wildcard arity => cases hk
      | multi ps as declared m => cases hk
    · exact ih hk

mutual

/-- The variables in the alternatives of a field refer to what is in one of its two scopes. -/
theorem exists_origin?_of_mem_conjuncts {σ inner : Scope} {v : Viewpoint} {site : Site}
    (f : Field Symbol α) {ks : List (Conjunct Note)} {k : Conjunct Note} {n : Note}
    (hks : ks ∈ (f.resolve σ inner v).conjuncts site) (hk : k ∈ ks) (hn : n ∈ k.notes) :
    ∃ x, n.origin = σ.origin? v x ∨ n.origin = inner.origin? v x := by
  cases f with
  | plain b as declared m =>
    simp only [resolve, conjuncts, List.map_map, List.mem_map, Function.comp_apply] at hks
    obtain ⟨a, -, rfl⟩ := hks
    have hmem : ∃ j : Constraint Symbol α, k = ⟨site, j.resolve inner v⟩ := by
      simp only [Alternative.resolve, Alternative.constraints, List.mem_map, List.mem_cons] at hk
      obtain ⟨j, rfl | ⟨i, -, rfl⟩, rfl⟩ := hk
      · exact ⟨a.first, rfl⟩
      · exact ⟨i, rfl⟩
    obtain ⟨j, rfl⟩ := hmem
    obtain ⟨x, negated, rfl⟩ := Constraint.exists_note_of_mem_notes hn
    exact ⟨x, .inr rfl⟩
  | multi ps as declared m =>
    obtain ⟨x, hx⟩ := exists_origin?_of_mem_conjunctsOfParts ps hks hk hn
    exact ⟨x, .inl hx⟩

theorem exists_origin?_of_mem_conjunctsOfParts {σ : Scope} {v : Viewpoint} {site : Site}
    (fs : List (Field Symbol α)) {ks : List (Conjunct Note)} {k : Conjunct Note} {n : Note}
    (hks : ks ∈ conjunctsOfParts site (resolveAll σ v fs)) (hk : k ∈ ks) (hn : n ∈ k.notes) :
    ∃ x, n.origin = σ.origin? v x := by
  cases fs with
  | nil => cases hks
  | cons f fs =>
    rcases List.mem_cons.1 hks with rfl | hks
    · have hk : k ∈ asConjuncts site 0 (resolveAll σ v (f :: fs)) := hk
      exact exists_origin?_of_mem_asConjuncts hk hn
    · obtain ⟨x, hx⟩ := exists_origin?_of_mem_conjuncts f hks hk hn
      exact ⟨x, hx.elim id id⟩

end

end Field

/-! ## What a field refers to -/

namespace FieldAt

/-- What the variable of a field refers to is in the field's scope. -/
theorem origin_mem {σ : Scope} {x : FieldAt α} {o : Origin}
    (h : (x.noted σ).note.origin = some o) : o ∈ σ.allOrigins := by
  obtain ⟨p, id, f⟩ := x
  cases f with
  | plain b as declared n =>
    cases b with
    | var y arity => exact Scope.mem_allOrigins_of_origin? h
    | wildcard arity => cases h
  | multi ps as declared n => cases h

/-- What the alternatives of a field refer to is in the field's scope, or is the field itself. -/
theorem reference_mem {σ : Scope} {x : FieldAt α} {ks : List (Conjunct Note)} {k : Conjunct Note}
    {n : Note} {o : Origin} (hks : ks ∈ x.alternatives σ) (hk : k ∈ ks) (hn : n ∈ k.notes)
    (ho : n.origin = some o) : o ∈ (σ ++ (x.own σ).toList).allOrigins := by
  obtain ⟨y, hy | hy⟩ := Field.exists_origin?_of_mem_conjuncts x.field hks hk hn
  · rw [Scope.allOrigins_append]
    exact List.mem_append_left _ (Scope.mem_allOrigins_of_origin? (hy.symm.trans ho))
  · exact Scope.mem_allOrigins_of_origin? (hy.symm.trans ho)

/-- The only binding occurrence that a field makes is itself. -/
theorem eq_of_mem_own {σ : Scope} {x : FieldAt α} {o : Origin}
    (h : o ∈ Scope.allOrigins (x.own σ).toList) : o = ⟨x.id, x.place⟩ := by
  obtain ⟨b, hb, hbo⟩ := List.mem_filterMap.1 h
  obtain ⟨⟨y, arity⟩, -, rfl⟩ := Option.map_eq_some_iff.1 (Option.mem_toList.1 hb)
  exact (Option.some.inj hbo).symm

/-- Demands bind nothing. -/
theorem allOrigins_demands (floor : Nat) (ds : List Demand) :
    Scope.allOrigins (ds.map (Demand.binding floor)) = [] := by
  simp [Scope.allOrigins, Demand.binding]

theorem Compiles.allOrigins_bindings {c : Context} {σ : Scope} {x : FieldAt α}
    {v : Visited (Field Symbol Note)} (h : x.Compiles c σ v) :
    Scope.allOrigins v.bindings = Scope.allOrigins (x.own σ).toList := by
  obtain ⟨bound, -, rfl⟩ := h
  simp [outcome, allOrigins_demands]

end FieldAt

/-! ## Scopes of a compilation -/

/-- All binding occurrences in the scope stand before condition number `pattern`, in one of the
first `joins` patterns. -/
def Scope.Before (pattern joins : Nat) (σ : Scope) : Prop :=
  ∀ o ∈ σ.allOrigins, o.Before pattern joins

/-- All binding occurrences in the scope stand in the pattern of a place or in an earlier one. -/
def Scope.Around (p : Place) (σ : Scope) : Prop := ∀ o ∈ σ.allOrigins, o.Around p

namespace Scope

theorem before_nil {pattern joins : Nat} : Before pattern joins [] := by
  intro o ho
  cases ho

theorem Around.append {p : Place} {σ τ : Scope} (hσ : σ.Around p) (hτ : τ.Around p) :
    Around p (σ ++ τ) := by
  intro o ho
  rw [allOrigins_append, List.mem_append] at ho
  exact ho.elim (hσ o) (hτ o)

theorem Before.around {p : Place} {joins : Nat} {σ : Scope} (h : σ.Before p.pattern joins)
    (hp : p.site.joinDepth = joins + 1) : σ.Around p := by
  intro o ho
  have ho := h o ho
  exact .before ho.pattern_lt ho.joinDepth_pos (by have := ho.joinDepth_le; omega)

end Scope

theorem FieldAt.own_around {p : Place} {x : FieldAt α} (hx : x.place.SamePattern p) (σ : Scope) :
    Scope.Around p (x.own σ).toList := by
  intro o ho
  rw [eq_of_mem_own ho]
  exact .beside hx

/-- What the bound alternatives of a field refer to stands around it. -/
theorem FieldAt.around_of_bindAll {c : Context} {spot : Spot} {restriction : Restriction} {σ : Scope}
    {x : FieldAt α} {bound : List (List (Conjunct Origin))}
    (hbound : Conjunct.bindAll c spot restriction (x.alternatives σ) = .ok bound)
    (hσ : σ.Around x.place) : ∀ ks ∈ bound, ∀ k ∈ ks, ∀ o ∈ k.origins, o.Around x.place := by
  have hnoted : ∀ ks ∈ x.alternatives σ, ∀ k ∈ ks, ∀ o ∈ k.references, o.Around x.place := by
    intro ks hks k hk o ho
    obtain ⟨n, hn, hno⟩ := List.mem_filterMap.1 ho
    have hmem := reference_mem hks hk hn hno
    exact (hσ.append (own_around ⟨rfl, rfl, rfl, rfl⟩ σ)) o hmem
  refine (forall_mem_iff_of_forall₂ (Conjunct.forall₂_of_bindAll hbound) fun ks ks' hks =>
    forall_mem_iff_of_forall₂ hks fun k k' hk => ?_).1 hnoted
  rw [Conjunct.origins_of_bound hk]

namespace FieldVisit.Run

/-- Every field of a pattern is compiled in a scope around it, and so is what comes after them. -/
theorem around {c : Context} {σ : Scope} {ts : List (FieldVisit α)} (h : Run c σ ts) {p : Place}
    (hσ : σ.Around p) (hts : ∀ t ∈ ts, t.source.place.SamePattern p) :
    (∀ t ∈ ts, t.scope.Around p) ∧ Scope.Around p (σ ++ bindings ts) := by
  induction h with
  | nil σ => simpa using hσ
  | @cons t ts head tail ih =>
    obtain ⟨ht, hts⟩ := List.forall_mem_cons.1 hts
    have hbindings : Scope.Around p t.visited.bindings := by
      intro o ho
      rw [head.allOrigins_bindings] at ho
      exact FieldAt.own_around ht t.scope o ho
    obtain ⟨hscopes, hrest⟩ := ih (hσ.append hbindings) hts
    refine ⟨List.forall_mem_cons.2 ⟨hσ, hscopes⟩, ?_⟩
    rwa [bindings_cons, ← List.append_assoc]

end FieldVisit.Run

namespace Condition

theorem samePattern_of_mem_fieldsAt {pattern joins id : Nat} {k : Condition Symbol α} {mode : Mode}
    {q : Pattern Symbol α} (hk : k.element = .pattern mode q) {x : FieldAt α}
    (hx : x ∈ k.fieldsAt pattern joins id) :
    x.place.SamePattern (q.place pattern (joins + 1) k.beginDepth) := by
  rw [fieldsAt, hk] at hx
  exact Slot.samePattern_of_mem_fieldsAtAll hx

/-- The run behind a compiled pattern, with the scopes of its fields. -/
theorem exists_run_around_of_visit {c : Context} {pattern joins id : Nat} {σ : Scope}
    {rest : Lhs Symbol α} {k : Condition Symbol α} {v : VisitedCondition} {mode : Mode}
    {q : Pattern Symbol α} (hk : k.element = .pattern mode q)
    (h : k.visit c pattern joins id σ rest = .ok v) (hσ : σ.Before pattern joins) :
    ∃ ts : List (FieldVisit α),
      (∀ t ∈ ts, t.source.Compiles c t.scope t.visited ∧ t.scope.Around t.source.place ∧
        t.source ∈ k.fieldsAt pattern joins id ∧
        t.source.place.SamePattern (q.place pattern (joins + 1) k.beginDepth)) ∧
      ts.map FieldVisit.result = v.condition.fieldsAt pattern joins id ∧
      v.condition.note.out =
        { join := Visited.allJoin (ts.map FieldVisit.visited)
          deferred := Visited.allDeferred (ts.map FieldVisit.visited) } ∧
      v.inside.Around (q.place pattern (joins + 1) k.beginDepth) := by
  obtain ⟨ts, hrun, hsource, hresult, hinside, hout, -⟩ := exists_run_of_visit hk h
  have hmem : ∀ t ∈ ts, t.source ∈ k.fieldsAt pattern joins id :=
    fun t ht => hsource ▸ List.mem_map_of_mem ht
  have hplaces : ∀ t ∈ ts, t.source.place.SamePattern (q.place pattern (joins + 1) k.beginDepth) :=
    fun t ht => samePattern_of_mem_fieldsAt hk (hmem t ht)
  have hown : Scope.Around (q.place pattern (joins + 1) k.beginDepth)
      (q.binding? (q.place pattern (joins + 1) k.beginDepth) id).toList := by
    intro o ho
    obtain ⟨b, hb, hbo⟩ := List.mem_filterMap.1 ho
    obtain ⟨y, -, rfl⟩ := Option.map_eq_some_iff.1 (Option.mem_toList.1 hb)
    obtain rfl := Option.some.inj hbo
    exact .beside ⟨rfl, rfl, rfl, rfl⟩
  obtain ⟨hscopes, hend⟩ := hrun.around ((Scope.Before.around hσ rfl).append hown) hplaces
  refine ⟨ts, fun t ht => ⟨hrun.compiles t ht, ?_, hmem t ht, hplaces t ht⟩, hresult, hout,
    hinside ▸ hend⟩
  obtain ⟨h₁, h₂, h₃, h₄⟩ := hplaces t ht
  exact fun o ho => (hscopes t ht o ho).of_samePattern ⟨h₁.symm, h₂.symm, h₃.symm, h₄.symm⟩

/-- Everything in scope behind a condition stands in it or before it. -/
theorem before_leave {c : Context} {pattern joins id : Nat} {σ : Scope} {rest : Lhs Symbol α}
    {k : Condition Symbol α} {v : VisitedCondition}
    (h : k.visit c pattern joins id σ rest = .ok v) (hσ : σ.Before pattern joins) :
    (σ.leave v.inside k).Before (pattern + 1) (k.joinsAfter joins) := by
  have hjoins : joins ≤ k.joinsAfter joins := by
    unfold joinsAfter
    split <;> omega
  have hbefore : σ.Before (pattern + 1) (k.joinsAfter joins) := by
    intro o ho
    obtain ⟨hlt, hpos, hle⟩ := hσ o ho
    exact ⟨by omega, hpos, Nat.le_trans hle hjoins⟩
  have hinside : v.inside.Before (pattern + 1) (k.joinsAfter joins) := by
    cases hk : k.element with
    | pattern mode q =>
      obtain ⟨-, -, -, -, haround⟩ := exists_run_around_of_visit hk h hσ
      have hjoin : k.joinsAfter joins = joins + 1 := by rw [joinsAfter, hk]
      intro o ho
      rw [hjoin]
      cases haround o ho with
      | before pattern_lt joinDepth_pos joinDepth_lt =>
        exact ⟨Nat.lt_succ_of_lt pattern_lt, joinDepth_pos, Nat.le_of_lt joinDepth_lt⟩
      | beside same =>
        have hp : o.place.pattern = pattern := same.pattern_eq
        have hj : o.place.site.joinDepth = joins + 1 := same.joinDepth_eq
        exact ⟨by omega, by omega, by omega⟩
    | test t =>
      obtain ⟨u, -, -, hv⟩ := exists_bind_of_visit hk h
      intro o ho
      rw [hv, Scope.allOrigins_append, FieldAt.allOrigins_demands, List.append_nil] at ho
      exact hbefore o ho
  intro o ho
  obtain ⟨b, hb, hbo⟩ := List.mem_filterMap.1 ho
  have hb := (List.mem_filter.1 hb).1
  split at hb
  · exact hinside o (List.mem_filterMap.2 ⟨b, hb, hbo⟩)
  · exact hbefore o (List.mem_filterMap.2 ⟨b, hb, hbo⟩)

theorem joinsAfter_of_bare {k : Condition Symbol α} {k' : Condition Symbol β}
    (h : k.bare = k'.bare) (joins : Nat) : k.joinsAfter joins = k'.joinsAfter joins := by
  have hbare (γ : Type) (z : Condition Symbol γ) : z.bare.joinsAfter joins = z.joinsAfter joins := by
    obtain ⟨element, _, _, _⟩ := z
    cases element <;> rfl
  rw [← hbare α k, ← hbare β k', h]

theorem mode_of_bare {k : Condition Symbol α} {k' : Condition Symbol β} (h : k.bare = k'.bare) :
    k.mode = k'.mode := by
  have hbare (γ : Type) (z : Condition Symbol γ) : z.bare.mode = z.mode := by
    obtain ⟨element, _, _, _⟩ := z
    cases element <;> rfl
  rw [← hbare α k, ← hbare β k', h]

theorem element_ne_test_of_bare {k : Condition Symbol α} {k' : Condition Symbol Note}
    (h : k'.bare = k.bare) {mode : Mode} {q : Pattern Symbol α} (hk : k.element = .pattern mode q)
    (t : Term Symbol Note) : k'.element ≠ .test t := by
  intro ht
  have helement := congrArg Condition.element h
  simp [bare, mapNotes, Element.mapNotes, hk, ht] at helement

theorem size_of_bare {k : Condition Symbol α} {k' : Condition Symbol β} (h : k.bare = k'.bare) :
    k.size = k'.size := by
  rw [← size_mapNotes (fun _ => ()) k, ← size_mapNotes (fun _ => ()) k']
  exact congrArg size h

end Condition

/-- **Every compiled condition** comes from a step of the compilation, in a scope whose binding
occurrences all stand before it. -/
theorem Lhs.exists_visit_of_mem {c : Context} {pattern joins id : Nat} {σ : Scope}
    {l : Lhs Symbol α} {u : Lhs Symbol Note} (h : compileFrom c pattern joins id σ l = .ok u)
    (hσ : σ.Before pattern joins) {y : ConditionAt Note} (hy : y ∈ conditionsFrom pattern joins id u) :
    ∃ (k : Condition Symbol α) (τ : Scope) (rest : Lhs Symbol α) (v : VisitedCondition),
      k ∈ l ∧ k.visit c y.pattern y.joins y.id τ rest = .ok v ∧ v.condition = y.condition ∧
        τ.Before y.pattern y.joins := by
  induction l generalizing pattern joins id σ u with
  | nil =>
    rw [compileFrom] at h
    obtain rfl := pure_eq_ok.1 h
    cases hy
  | cons k ks ih =>
    obtain ⟨v, us, hv, hus, rfl⟩ := compileFrom_cons_eq_ok.1 h
    have hbare := Condition.bare_of_visit hv
    rw [conditionsFrom, Condition.joinsAfter_of_bare hbare, Condition.size_of_bare hbare] at hy
    rcases List.mem_cons.1 hy with rfl | hy
    · exact ⟨k, σ, ks, v, List.mem_cons_self, hv, rfl, hσ⟩
    · obtain ⟨k', τ, rest, w, hmem, h⟩ := ih hus (Condition.before_leave hv hσ) hy
      exact ⟨k', τ, rest, w, List.mem_cons_of_mem _ hmem, h⟩

theorem Field.isPlain_eq_of_bare {f : Field Symbol α} {g : Field Symbol β} (h : f.bare = g.bare) :
    f.isPlain = g.isPlain := by
  have hbare (γ : Type) (e : Field Symbol γ) : e.bare.isPlain = e.isPlain := by
    cases e <;> rfl
  rw [← hbare α f, ← hbare β g, h]

/-- The compiled fields of a flat left-hand side are plain. -/
theorem Lhs.isPlain_of_compileFrom {c : Context} {l : Lhs Symbol α} {u : Lhs Symbol Note}
    (hflat : l.isFlat = true) (h : compileFrom c 1 0 0 [] l = .ok u) {y : ConditionAt Note}
    (hy : y ∈ u.conditionsAt) {x : FieldAt Note} (hx : x ∈ y.fields) : x.field.isPlain = true := by
  obtain ⟨k, σ, rest, v, hmem, hv, hcondition, -⟩ := exists_visit_of_mem h Scope.before_nil hy
  have hkflat : k.isFlat = true := List.all_eq_true.1 hflat k hmem
  rw [ConditionAt.fields, ← hcondition] at hx
  cases hk : k.element with
  | pattern mode q =>
    obtain ⟨ts, hrun, hsource, hresult, -, -, -⟩ := Condition.exists_run_of_visit hk hv
    obtain ⟨t, ht, rfl⟩ := List.mem_map.1 (hresult ▸ hx)
    have hbare : t.result.field.bare = t.source.field.bare := (hrun.compiles t ht).bare_result
    rw [Field.isPlain_eq_of_bare hbare]
    exact Condition.isPlain_of_mem_fieldsAt hkflat (hsource ▸ List.mem_map_of_mem ht)
  | test t =>
    obtain ⟨e, -, hv, -⟩ := Condition.exists_bind_of_visit hk hv
    rw [hv] at hx
    cases hx

end Antecedent
