import Antecedent.Proofs.Ahead

/-!
# Handles and arities

In a left-hand side that compiles, a match handle has a name of which no binding occurrence is visible,
and a variable has the arity of all visible binding occurrences of its name.

* `ConditionAt.Binds` gives the binding occurrences of a condition with their arities, and
  `ConditionAt.Uses` the variables of its fields and constraints with the numbers of their nodes.
* `Condition.agrees_of_visit` says with what a binding occurrence of a compiled condition agrees.
* `Lhs.handles_and_arities` says this for a left-hand side, and what a compilation that stops at a
  handle blames.
-/

namespace Antecedent

variable {α : Type}

/-! ## Binding occurrences with arities -/

namespace ConditionAt

/-- A binding occurrence of a condition, its name and its arity; a match handle is a single value. -/
inductive Binds (y : ConditionAt α) : Symbol → Arity → Origin → Prop where
  | handle {x : Symbol} {o : Origin} (h : y.handle = some (x, o)) : y.Binds x .single o
  | field {z : FieldAt α} (hz : z ∈ y.fields) {x : Symbol} {arity : Arity}
      (h : z.field.binds? = some (x, arity)) : y.Binds x arity ⟨z.id, z.place⟩

/-- Node number `i` is a variable outside of expressions, namely that of a field or one in a
constraint. A constraint stands behind the node of its field. -/
inductive Uses (y : ConditionAt α) : Nat → Symbol → Arity → Prop where
  | field {z : FieldAt α} (hz : z ∈ y.fields) {x : Symbol} {arity : Arity}
      (h : z.field.binds? = some (x, arity)) : y.Uses z.id x arity
  | conjunct {z : FieldAt α} (hz : z ∈ y.fields) {b : Binder Symbol}
      {as : List (Alternative Symbol α)} {declared : Option Restriction} {n : α}
      (hfield : z.field = .plain b as declared n) {a : Alternative Symbol α} (ha : a ∈ as)
      {k : Constraint Symbol α} (hk : k ∈ a.constraints) {x : Symbol} {arity : Arity} {m : α}
      (h : k.shape = .var x arity m) {i : Nat} (hlo : z.id < i) (hhi : i < z.id + z.field.size) :
      y.Uses i x arity

theorem Binds.mem_binders {y : ConditionAt α} {x : Symbol} {arity : Arity} {o : Origin}
    (h : y.Binds x arity o) : (x, o) ∈ y.binders := by
  cases h with
  | handle h => exact List.mem_append_left _ (Option.mem_toList.2 h)
  | field hz h =>
    refine List.mem_append_right _ (List.mem_filterMap.2 ⟨_, hz, ?_⟩)
    exact FieldAt.binder_eq_some_iff.2 ⟨⟨arity, h⟩, rfl⟩

/-- A used variable is an occurrence in a field, and one inside of it unless it is the field's own. -/
theorem Uses.exists_occurrence {y : ConditionAt α} {i : Nat} {x : Symbol} {arity : Arity}
    (h : y.Uses i x arity) : ∃ z ∈ y.fields, z.id ≤ i ∧ i < z.id + z.field.size ∧
      ∃ o ∈ z.occurrences, o.name = x ∧ o.arity = arity ∧
        (z.id < i → o ∈ z.field.inside z.place.spot) := by
  cases h with
  | @field z hz _ _ h =>
    refine ⟨z, hz, Nat.le_refl _, Nat.lt_add_of_pos_right z.field.size_pos,
      ⟨x, .var arity, z.place.spot⟩, ?_, rfl, rfl, fun hlt => absurd hlt (Nat.lt_irrefl _)⟩
    rw [FieldAt.occurrences, Field.ownOccurrence_of_binds? h]
    exact List.mem_cons_self
  | @conjunct z hz b as declared n hfield a ha k hk _ _ m h _ hlo hhi =>
    have hinside : ⟨x, .var arity, z.place.spot⟩ ∈ z.field.inside z.place.spot := by
      rw [hfield, Field.inside]
      refine List.mem_flatMap.2 ⟨a, ha, List.mem_flatMap.2 ⟨k, hk, ?_⟩⟩
      rw [Constraint.occurrences, h]
      exact List.mem_singleton_self _
    exact ⟨z, hz, Nat.le_of_lt hlo, hhi, _, List.mem_append_right _ hinside, rfl, rfl,
      fun _ => hinside⟩

end ConditionAt

/-! ## Handles and fields -/

theorem Field.index_of_mem_partsAt {p : Place} {k id : Nat} {fs : List (Field Symbol α)}
    {x : FieldAt α} (hx : x ∈ partsAt p k id fs) : x.place.site.index = p.site.index := by
  induction fs generalizing k id with
  | nil => cases hx
  | cons f fs ih =>
    rcases List.mem_cons.1 hx with rfl | hx
    · rfl
    · exact ih hx

theorem Slot.index_of_mem_fieldsAt {p : Place} {id : Nat} {s : Slot Symbol α} {x : FieldAt α}
    (hx : x ∈ s.fieldsAt p id) : x.place.site.index = p.site.index := by
  obtain ⟨name, f⟩ := s
  cases f with
  | plain b as declared n =>
    obtain rfl := List.mem_singleton.1 hx
    rfl
  | multi ps as declared n => exact Field.index_of_mem_partsAt hx

theorem Slot.le_index_of_mem_fieldsAtAll {p : Place} {j id : Nat} {ss : List (Slot Symbol α)}
    {x : FieldAt α} (hx : x ∈ fieldsAtAll p j id ss) : j ≤ x.place.site.index := by
  induction ss generalizing j id with
  | nil => cases hx
  | cons s ss ih =>
    rcases List.mem_append.1 hx with hx | hx
    · exact Nat.le_of_eq (index_of_mem_fieldsAt hx).symm
    · exact Nat.le_of_succ_le (ih hx)

namespace ConditionAt

theorem handle_eq_some_iff {y : ConditionAt α} {mode : Mode} {q : Pattern Symbol α}
    (hq : y.condition.element = .pattern mode q) {x : Symbol} {o : Origin} :
    y.handle = some (x, o) ↔
      q.handle = some x ∧ o = ⟨y.id, q.place y.pattern (y.joins + 1) y.condition.beginDepth⟩ := by
  simp only [handle, hq, Option.map_eq_some_iff, Prod.mk.injEq]
  constructor
  · rintro ⟨x', hx', rfl, rfl⟩
    exact ⟨hx', rfl⟩
  · rintro ⟨hx, rfl⟩
    exact ⟨x, hx, rfl, rfl⟩

theorem isHandle_of_mem_handle {y : ConditionAt α} {x : Symbol} {o : Origin}
    (h : y.handle = some (x, o)) : o.isHandle = true := by
  unfold handle at h
  split at h
  · obtain ⟨x', -, heq⟩ := Option.map_eq_some_iff.1 h
    obtain ⟨rfl, rfl⟩ := Prod.mk.inj heq
    rfl
  · cases h

theorem not_isHandle_of_mem_fields {y : ConditionAt α} {z : FieldAt α} (hz : z ∈ y.fields) :
    (⟨z.id, z.place⟩ : Origin).isHandle = false := by
  unfold fields Condition.fieldsAt at hz
  split at hz
  · have hindex := Slot.le_index_of_mem_fieldsAtAll hz
    simp only [Origin.isHandle, decide_eq_false_iff_not]
    omega
  · cases hz

end ConditionAt

namespace Condition

variable {c : Context} {pre rest : Lhs Symbol α} {k : Condition Symbol α} {τ : Scope}

/-- **What a compiled condition binds agrees** with what lies beyond it and with the variables behind
it in the same condition. -/
theorem agrees_of_visit {v : VisitedCondition}
    (h : k.visit c (pre.length + 1) pre.joins pre.nodeCount τ rest = .ok v) {x : Symbol}
    {arity : Arity} {o : Origin} (hbinds : (pre.next k).Binds x arity o) :
    (∀ o' ∈ Lhs.reachAfter (pre.length + 1) k rest, o'.Agrees x arity) ∧
      ∀ i arity', (pre.next k).Uses i x arity' → o.id < i → arity' = arity := by
  cases hk : k.element with
  | test t =>
    have hnone : (pre.next k).binders = [] := by
      simp [ConditionAt.binders, ConditionAt.handle, ConditionAt.fields, fieldsAt, Lhs.next, hk]
    have hmem := hbinds.mem_binders
    rw [hnone] at hmem
    cases hmem
  | pattern mode q =>
    obtain ⟨ts, hrun, hsource, -⟩ := exists_run_of_visit hk h
    obtain ⟨hhandle, hpermitted⟩ := permitted_of_visit hk h hrun hsource
    have hfields : (pre.next k).fields = ts.map FieldVisit.source := hsource.symm
    cases hbinds with
    | @handle _ o hx =>
      have hq := ((ConditionAt.handle_eq_some_iff (y := pre.next k) hk).1 hx).1
      obtain ⟨-, hlater, hbeyond⟩ := hhandle x hq
      refine ⟨hbeyond, fun i arity' huse _ => ?_⟩
      obtain ⟨z, hz, -, -, o', ho', hname, rfl, -⟩ := huse.exists_occurrence
      rw [hfields] at hz
      obtain ⟨t, ht, rfl⟩ := List.mem_map.1 hz
      exact hlater t ht o' ho' hname
    | @field z hz _ _ hx =>
      rw [hfields] at hz
      obtain ⟨t, ht, rfl⟩ := List.mem_map.1 hz
      obtain ⟨us, ws, rfl⟩ := List.append_of_mem ht
      obtain ⟨ahead, hvisit, hlater, hbeyond⟩ := hpermitted.exists_visit
      have hagrees := FieldAt.agrees_of_visit hvisit hx
      refine ⟨fun o' ho' => hagrees o' (List.mem_append_right _ (hbeyond ho')),
        fun i arity' huse hlt => ?_⟩
      obtain ⟨z, hz, -, hhi, o', ho', hname, rfl, hbelow⟩ := huse.exists_occurrence
      -- the field of the use stands before, at or behind that of the binding; before is impossible
      have hspread := (pre.next k).spread_fields.pairwise
      rw [hfields, List.map_append, List.map_cons] at hz hspread
      rcases List.mem_append.1 hz with hz | hz
      · have hle := (List.pairwise_append.1 hspread).2.2 z hz t.source List.mem_cons_self
        exact absurd hhi (Nat.not_lt.2 (Nat.le_trans hle (Nat.le_of_lt hlt)))
      rcases List.mem_cons.1 hz with rfl | hz
      · exact hagrees o' (List.mem_append_left _ (hbelow hlt)) hname
      · obtain ⟨w, hw, rfl⟩ := List.mem_map.1 hz
        exact hagrees o' (List.mem_append_right _ (hlater w hw ho')) hname

/-- A condition that stops at a handle is a pattern whose handle is bound before. -/
theorem checkHandle_of_visit {pattern joins id : Nat} {d : Diagnostic}
    (h : k.visit c pattern joins id τ rest = .error d) {conflict : HandleConflict}
    (hfault : d.fault = .illegalHandle conflict) :
    ∃ mode q, k.element = .pattern mode q ∧
      q.checkHandle c (q.place pattern (joins + 1) k.beginDepth) τ = .error d := by
  have hreading : d.fault.inReading = false := by rw [hfault, Fault.inReading]
  have hpermit : ∀ ahead b, c.permit ahead b ≠ .error d := by
    intro ahead b hb
    rw [Context.fault_of_permit hb] at hfault
    cases hfault
  cases hk : k.element with
  | test t =>
    have htrue := Term.inReading_of_bindAt (bind_eq_error_of_visit hk h)
    exact absurd (htrue.symm.trans hreading) (by simp)
  | pattern mode q =>
    refine ⟨mode, q, rfl, ?_⟩
    rcases exists_stop_of_visit hk h with hhandle | ⟨ahead, b, hb⟩ | hstops
    · exact hhandle
    · exact absurd hb (hpermit ahead b)
    obtain ⟨ts, x, ys, ahead, -, -, hx⟩ := hstops
    rcases FieldAt.visit_eq_error hx with ⟨ahead', b, hb⟩ | hbound | hsatisfiable
    · exact absurd hb (hpermit ahead' b)
    · have htrue := Conjunct.inReading_of_bindAll hbound
      exact absurd (htrue.symm.trans hreading) (by simp)
    · rw [Conjunct.fault_of_checkSatisfiable hsatisfiable] at hfault
      cases hfault

end Condition

/-! ## Left-hand sides -/

namespace Lhs

/-- The last visible binding occurrence has the greatest number. -/
theorem id_le_of_getLast?_visible {l : Lhs Symbol α} {pattern i : Nat} {x : Symbol} {o : Origin}
    (ho : (l.visible pattern i x).getLast? = some o) :
    ∀ o' ∈ l.visible pattern i x, o'.id ≤ o.id := by
  have hsorted := l.pairwise_visible pattern i x
  obtain ⟨os, hos⟩ := List.getLast?_eq_some_iff.1 ho
  rw [hos] at hsorted ⊢
  intro o' ho'
  rcases List.mem_append.1 ho' with ho' | ho'
  · exact Nat.le_of_lt ((List.pairwise_append.1 hsorted).2.2 o' ho' o List.mem_cons_self)
  · obtain rfl := List.mem_singleton.1 ho'
    exact Nat.le_refl _

/-- A variable has the arity of the binding occurrences that are visible at it. -/
theorem arity_eq_of_sees {c : Context} {l : Lhs Symbol α} {r : Lhs Symbol Note}
    (h : l.compile c = .ok r) {y y' : ConditionAt α} (hy : y ∈ l.conditionsAt)
    (hy' : y' ∈ l.conditionsAt) {i : Nat} {x : Symbol} {arity arity' : Arity} {o : Origin}
    (huse : y.Uses i x arity) (hbinds : y'.Binds x arity' o) (hsees : l.Sees y.pattern i o) :
    arity = arity' := by
  obtain ⟨u, hu, -⟩ := exists_compileFrom_of_compile h
  obtain ⟨pre, k, rest, heq, rfl⟩ := exists_split_of_mem_conditionsFrom (l := []) hy'
  obtain rfl : l = pre ++ k :: rest := heq
  obtain ⟨τ, v, hτ, hv⟩ := exists_visit_of_split Scope.follows_nil hu
  obtain ⟨hbeyond, hsame⟩ := Condition.agrees_of_visit hv hbinds
  have hpattern : o.place.pattern = pre.length + 1 :=
    (ConditionAt.place_of_mem_binders hbinds.mem_binders).1
  rcases hsees with ⟨heq, hlt⟩ | ⟨hlt, hreaches⟩
  · obtain rfl := eq_of_pattern_eq hy' hy (hpattern.symm.trans heq)
    exact hsame i arity huse hlt
  · have hget : (pre ++ k :: rest)[o.place.pattern - 1]? = some k := by simp [hpattern]
    obtain ⟨hmode, hdepths⟩ := (reaches_iff_of_getElem? hget).1 hreaches
    obtain ⟨z, hz, -, -, o', ho', hname, rfl, -⟩ := huse.exists_occurrence
    rw [hpattern] at hlt hdepths
    exact hbeyond o' (mem_reachAfter_iff.2 ⟨y, hy, hlt,
      ConditionAt.mem_occurrences_iff.2 (.inr ⟨z, hz, ho'⟩), hmode, hdepths⟩) hname

/-- **The discipline of handles and arities.** If a left-hand side compiles, then at no match handle is
a binding occurrence of its name visible, and every variable of a field or a constraint has the arity
of every binding occurrence of its name that is visible at it. If the compilation stops at a match
handle, then the diagnostic blames the handle of a pattern at which a binding occurrence of its name is
visible, and says whether the latest of these is a match handle or a field. -/
theorem handles_and_arities (c : Context) (l : Lhs Symbol α) :
    (∀ r, l.compile c = .ok r →
      (∀ y ∈ l.conditionsAt, ∀ x o, y.handle = some (x, o) → l.visible y.pattern y.id x = []) ∧
      ∀ y ∈ l.conditionsAt, ∀ i x arity, y.Uses i x arity →
        ∀ y' ∈ l.conditionsAt, ∀ arity' o, y'.Binds x arity' o → l.Sees y.pattern i o →
          arity = arity') ∧
    ∀ d conflict, l.compile c = .error d → d.fault = .illegalHandle conflict →
      ∃ y ∈ l.conditionsAt, ∃ x o, y.handle = some (x, o) ∧
        d = c.blame (.illegalHandle conflict) ⟨y.pattern, 0, none⟩ x ∧
        ∃ o' ∈ l.visible y.pattern y.id x, (∀ o'' ∈ l.visible y.pattern y.id x, o''.id ≤ o'.id) ∧
          ((∃ y' ∈ l.conditionsAt, y'.handle = some (x, o')) → conflict = .alreadyMatchHandle) ∧
          ((∃ y' ∈ l.conditionsAt, ∃ z ∈ y'.fields, z.binder = some (x, o')) →
            conflict = .boundInPattern) := by
  refine ⟨fun r hr => ⟨fun y hy x o hx => visible_handle_eq_nil hr hy hx,
    fun y hy i x arity huse y' hy' arity' o hbinds hsees =>
      arity_eq_of_sees hr hy hy' huse hbinds hsees⟩, fun d conflict hd hfault => ?_⟩
  obtain ⟨pre, k, rest, τ, rfl, hτ, hk⟩ := exists_visit_of_compile_error hd
  obtain ⟨mode, q, hq, hcheck⟩ := Condition.checkHandle_of_visit hk hfault
  obtain ⟨x, o', hx, hlast, rfl⟩ := Pattern.checkHandle_eq_error hcheck
  obtain rfl := Fault.illegalHandle.inj hfault
  rw [← visible_eq_origins hτ k rest] at hlast
  have hhandle := (ConditionAt.handle_eq_some_iff (y := pre.next k) hq).2 ⟨hx, rfl⟩
  refine ⟨pre.next k, mem_conditionsAt_split.2 (.inr (.inl rfl)), x, _, hhandle, rfl, o',
    List.mem_of_getLast? hlast, id_le_of_getLast?_visible hlast, ?_, ?_⟩
  · rintro ⟨y', -, hy'⟩
    rw [if_pos (ConditionAt.isHandle_of_mem_handle hy')]
  · rintro ⟨y', -, z, hz, hbinder⟩
    obtain rfl : o' = ⟨z.id, z.place⟩ := (FieldAt.binder_eq_some_iff.1 hbinder).2
    rw [ConditionAt.not_isHandle_of_mem_fields hz]
    rfl

/-- A pattern that binds `x` in a field, then one with the given handle that does so again. -/
def handleBehindField (handle : String) : List (Step String Unit) :=
  [.pattern (factPattern [some "x"]), .pattern { factPattern [some "x"] with handle := some handle }]

/-- With the handle `f` the two fields agree; the handle `x` is refused because of the first field. -/
theorem handleBehindField_only_other_name :
    let l := fun handle => ((ofSteps (handleBehindField handle)).intern .empty).1
    (∃ r, compiledSteps (handleBehindField "f") = .ok r ∧
      ∀ y ∈ (l "f").conditionsAt, ∀ i x arity, y.Uses i x arity → ∀ y' ∈ (l "f").conditionsAt,
        ∀ arity' o, y'.Binds x arity' o → (l "f").Sees y.pattern i o → arity = arity') ∧
    ∃ d, compiledSteps (handleBehindField "x") = .error d ∧
      d.fault = .illegalHandle .boundInPattern ∧
      ∃ y ∈ (l "x").conditionsAt, ∃ x o, y.handle = some (x, o) ∧
        ∃ o' ∈ (l "x").visible y.pattern y.id x, ∀ y' ∈ (l "x").conditionsAt,
          y'.handle ≠ some (x, o') := by
  intro l
  obtain ⟨r, hr, -⟩ := exists_ok_of_check (e := compiledSteps (handleBehindField "f"))
    (p := fun _ => true) (by decide +kernel)
  obtain ⟨d, hd, hfault⟩ := exists_error_of_check (e := compiledSteps (handleBehindField "x"))
    (p := fun d => decide (d.fault = .illegalHandle .boundInPattern)) (by decide +kernel)
  refine ⟨⟨r, hr, ((handles_and_arities _ (l "f")).1 r hr).2⟩, d, hd, of_decide_eq_true hfault, ?_⟩
  obtain ⟨y, hy, x, o, hx, -, o', ho', -, hhandle, -⟩ :=
    (handles_and_arities _ (l "x")).2 d _ hd (of_decide_eq_true hfault)
  exact ⟨y, hy, x, o, hx, o', ho', fun y' hy' hx' => by cases hhandle ⟨y', hy', hx'⟩⟩

end Lhs

end Antecedent
