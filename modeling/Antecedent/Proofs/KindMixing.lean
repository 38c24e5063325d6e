import Antecedent.Proofs.Ahead

/-!
# Clashes of arities

A compilation that reports a variable as both a single and a sequence variable has found two arities of
it. The one it blames is that of an occurrence outside of expressions. The other one is mostly so, too:
that of a binding occurrence, or of a variable conjoined with a literal. But it may be the arity with
which an expression passes the variable to a function, since what the function demands of it is looked
up ahead like a binding.

* `Term.Passes` and `FieldAt.Passes` say with which arity an expression, or the only alternative of a
  field, passes a variable to a function.
* `FieldAt.exists_of_mem_demands` says where the demands of a field come from.
* `Diagnostic.Clash` says that a diagnostic blames an occurrence whose name has another arity as well.
  `FieldAt.clash_of_visit` and `Condition.clash_of_visit` give this for the steps of a failed compilation,
  and `Lhs.kindMixing_has_two_arities` for a left-hand side.
-/

namespace Antecedent

variable {α : Type}

/-! ## Where demands come from -/

namespace Demand

theorem exists_of_mem_insert {ds : List Demand} {d e : Demand} (he : e ∈ insert ds d) :
    ∃ e' ∈ d :: ds, e'.name = e.name ∧ e'.arity = e.arity := by
  induction ds with
  | nil => exact ⟨e, he, rfl, rfl⟩
  | cons a ds ih =>
    rw [insert] at he
    split at he
    · rcases List.mem_cons.1 he with rfl | he
      · exact ⟨a, by simp, rfl, rfl⟩
      · exact ⟨e, by simp [he], rfl, rfl⟩
    · rcases List.mem_cons.1 he with rfl | he
      · exact ⟨e, by simp, rfl, rfl⟩
      · obtain ⟨e', he', hsame⟩ := ih he
        refine ⟨e', ?_, hsame⟩
        rcases List.mem_cons.1 he' with rfl | he' <;> simp [*]

theorem exists_of_mem_foldl_insert {ds es : List Demand} {e : Demand} (he : e ∈ ds.foldl insert es) :
    ∃ e' ∈ es ++ ds, e'.name = e.name ∧ e'.arity = e.arity := by
  induction ds generalizing es with
  | nil => exact ⟨e, by simpa using he, rfl, rfl⟩
  | cons d ds ih =>
    obtain ⟨e₁, he₁, hname, harity⟩ := ih he
    rcases List.mem_append.1 he₁ with he₁ | he₁
    · obtain ⟨e₂, he₂, hname', harity'⟩ := exists_of_mem_insert he₁
      refine ⟨e₂, ?_, hname'.trans hname, harity'.trans harity⟩
      rcases List.mem_cons.1 he₂ with rfl | he₂ <;> simp [*]
    · exact ⟨e₁, by simp [he₁], hname, harity⟩

/-- A collected demand has the arity of one of those that were collected. -/
theorem exists_of_mem_collect {ds : List Demand} {e : Demand} (he : e ∈ collect ds) :
    ∃ e' ∈ ds, e'.name = e.name ∧ e'.arity = e.arity :=
  exists_of_mem_foldl_insert he

end Demand

namespace Term

/-- An expression passes a variable with the given arity, as an argument of its own, to a function that
restricts this argument. -/
def Passes (e : Environment) (t : Term Symbol α) (x : Symbol) (arity : Arity) : Prop :=
  ∃ call ∈ t.calls, ∃ s, e.signature? call.1 = some s ∧
    ∃ i n, call.2[i]? = some (.var x arity n) ∧ s.arg i ≠ none

section Resolved

variable (σ : Scope) (v : Viewpoint)

mutual

theorem calls_resolve (t : Term Symbol α) :
    (t.resolve σ v).calls = t.calls.map fun call => (call.1, resolveAll σ v call.2) := by
  cases t with
  | call f args => rw [resolve, calls, calls, callsAll_resolveAll args, List.map_cons]
  | var x arity n => rfl
  | lit value => rfl
  | global x => rfl

theorem callsAll_resolveAll (ts : List (Term Symbol α)) :
    callsAll (resolveAll σ v ts) = (callsAll ts).map fun call => (call.1, resolveAll σ v call.2) := by
  cases ts with
  | nil => rfl
  | cons t ts =>
    rw [resolveAll, callsAll, callsAll, calls_resolve t, callsAll_resolveAll ts, List.map_append]

end

theorem callDemands_resolveAll (s : Signature) (i : Nat) (ts : List (Term Symbol α)) :
    callDemands s i (resolveAll σ v ts) = callDemands s i ts := by
  induction ts generalizing i with
  | nil => rfl
  | cons t ts ih =>
    have hhead : argDemand s i (t.resolve σ v) = argDemand s i t := by cases t <;> rfl
    rw [resolveAll, callDemands, callDemands, hhead, ih]

/-- What an expression demands does not depend on what its variables refer to. -/
theorem rawDemands_resolve (e : Environment) (t : Term Symbol α) :
    (t.resolve σ v).rawDemands e = t.rawDemands e := by
  simp only [rawDemands, calls_resolve, List.flatMap_map, callDemands_resolveAll]

end Resolved

theorem exists_of_mem_callDemands {s : Signature} {i : Nat} {ts : List (Term Symbol α)} {d : Demand}
    (hd : d ∈ callDemands s i ts) :
    ∃ j n, ts[j]? = some (.var d.name d.arity n) ∧ s.arg (i + j) ≠ none := by
  induction ts generalizing i with
  | nil => cases hd
  | cons t ts ih =>
    rcases List.mem_append.1 hd with hd | hd
    · cases t with
      | var x arity n =>
        obtain ⟨r, hr, rfl⟩ := Option.map_eq_some_iff.1 (Option.mem_toList.1 hd)
        exact ⟨0, n, rfl, by simp [hr]⟩
      | call f args => cases hd
      | lit value => cases hd
      | global x => cases hd
    · obtain ⟨j, n, hget, harg⟩ := ih hd
      refine ⟨j + 1, n, hget, ?_⟩
      rwa [Nat.add_comm j, ← Nat.add_assoc]

/-- A demand of an expression comes from a variable that it passes to a function. -/
theorem passes_of_mem_rawDemands {e : Environment} {t : Term Symbol α} {d : Demand}
    (hd : d ∈ t.rawDemands e) : t.Passes e d.name d.arity := by
  obtain ⟨call, hcall, hd⟩ := List.mem_flatMap.1 hd
  dsimp only at hd
  split at hd
  · next s hs =>
    obtain ⟨j, n, hget, harg⟩ := exists_of_mem_callDemands hd
    exact ⟨call, hcall, s, hs, j, n, hget, by simpa using harg⟩
  · cases hd

end Term

/-- The only alternative of a field has an expression that passes a variable with the given arity to a
function. -/
def FieldAt.Passes (e : Environment) (z : FieldAt α) (x : Symbol) (arity : Arity) : Prop :=
  ∃ b a declared n, z.field = .plain b [a] declared n ∧
    ∃ k ∈ a.constraints, ∃ t, k.expression? = some t ∧ t.Passes e x arity

/-- What a conjunct demands comes from its variable or from its expression. -/
theorem Constraint.exists_of_mem_demands {e : Environment} {literals : Option Restriction} {σ : Scope}
    {v : Viewpoint} {k : Constraint Symbol α} {d : Demand}
    (hd : d ∈ (k.resolve σ v).demands e literals) :
    (∃ n, k.shape = .var d.name d.arity n) ∨
      ∃ t, k.expression? = some t ∧ t.Passes e d.name d.arity := by
  have hterm {t : Term Symbol α} (hd : d ∈ (t.resolve σ v).demands e) : t.Passes e d.name d.arity := by
    obtain ⟨d', hd', hname, harity⟩ := Demand.exists_of_mem_collect hd
    rw [Term.rawDemands_resolve] at hd'
    rw [← hname, ← harity]
    exact Term.passes_of_mem_rawDemands hd'
  obtain ⟨shape, negated⟩ := k
  cases shape with
  | literal value => cases hd
  | var x arity n =>
    cases negated with
    | true => cases hd
    | false =>
      obtain ⟨r, -, rfl⟩ := Option.map_eq_some_iff.1 (Option.mem_toList.1 hd)
      exact .inl ⟨n, rfl⟩
  | predicate t => exact .inr ⟨t, rfl, hterm hd⟩
  | returnValue t => exact .inr ⟨t, rfl, hterm hd⟩

namespace Field

theorem demands_asConjuncts (e : Environment) (site : Site) (position : Nat)
    (fs : List (Field Symbol Note)) : demands e [asConjuncts site position fs] = [] := by
  -- these are variables only, and no literals are there to narrow them
  have hvar : ∀ k ∈ asConjuncts site position fs,
      ∃ x arity n, k.constraint = Constraint.var x arity n := by
    induction fs generalizing position with
    | nil =>
      intro k hk
      cases hk
    | cons f fs ih =>
      refine List.forall_mem_append.2 ⟨fun k hk => ?_, ih (position + 1)⟩
      unfold asConjunct? at hk
      split at hk
      · obtain rfl := Option.some.inj (Option.mem_toList.1 hk)
        exact ⟨_, _, _, rfl⟩
      · cases hk
  have hliterals : ((asConjuncts site position fs).map Conjunct.constraint).filterMap
      Constraint.literalRestriction? = [] := by
    rw [List.filterMap_map, List.filterMap_eq_nil_iff]
    intro k hk
    obtain ⟨x, arity, n, hvar⟩ := hvar k hk
    rw [Function.comp_apply, hvar]
    rfl
  have hdemands : ((asConjuncts site position fs).map Conjunct.constraint).flatMap
      (Constraint.demands e none) = [] := by
    rw [List.flatMap_map, List.flatMap_eq_nil_iff]
    intro k hk
    obtain ⟨x, arity, n, hvar⟩ := hvar k hk
    rw [hvar]
    rfl
  rw [demands, Demand.ofConjuncts, hliterals, Restriction.interAll]
  simp only [hdemands]
  rfl

end Field

/-- A field demands something of a variable that is conjoined in its only alternative, or that this
passes to a function. -/
theorem FieldAt.exists_of_mem_demands {e : Environment} {σ : Scope} {x : FieldAt α} {d : Demand}
    (hd : d ∈ Field.demands e (x.alternatives σ)) :
    ⟨d.name, .var d.arity, x.place.spot⟩ ∈ x.field.inside x.place.spot ∨
      x.Passes e d.name d.arity := by
  cases hx : x.field with
  | multi ps as declared n =>
    -- a slot inside a slot demands nothing
    have hnone : Field.demands e (x.alternatives σ) = [] := by
      rw [alternatives, noted, hx, Field.resolve, Field.conjuncts]
      cases hps : Field.resolveAll σ x.place.viewpoint ps with
      | nil => rfl
      | cons f fs =>
        rw [Field.conjunctsOfParts]
        cases Field.conjuncts (x.place.site.part f 0) f with
        | nil => exact Field.demands_asConjuncts e x.place.site 0 (f :: fs)
        | cons ks kss => rfl
    rw [hnone] at hd
    cases hd
  | plain b as declared n =>
    rw [alternatives_eq_of_plain hx] at hd
    cases as with
    | nil => cases hd
    | cons a as =>
      cases as with
      | cons a' as => cases hd
      | nil =>
        obtain ⟨d', hd', hname, harity⟩ := Demand.exists_of_mem_collect hd
        obtain ⟨k', hk', hd'⟩ := List.mem_flatMap.1 hd'
        simp only [List.map_map, List.mem_map, Function.comp_apply] at hk'
        obtain ⟨k, hk, rfl⟩ := hk'
        rw [hname.symm, harity.symm]
        rcases Constraint.exists_of_mem_demands hd' with ⟨m, hvar⟩ | ⟨t, ht, hpasses⟩
        · refine .inl ?_
          rw [Field.inside, List.flatMap_singleton]
          refine List.mem_flatMap.2 ⟨k, hk, ?_⟩
          rw [Constraint.occurrences, hvar]
          exact List.mem_singleton_self _
        · exact .inr ⟨b, a, declared, n, hx, k, hk, t, ht, hpasses⟩

/-! ## Steps that clash -/

theorem Binding.arity_ne_of_clashes {b : Binding} {o : Occurrence} (h : b.clashes o = true) :
    o.name = b.name ∧ b.arity ≠ o.arity := by
  have hnot : ¬ o.Agrees b.name b.arity := by
    intro hagrees
    rw [clashes_eq_false_iff.2 (.inr hagrees)] at h
    cases h
  obtain ⟨hname, hne⟩ := Classical.not_imp.1 hnot
  exact ⟨hname, Ne.symm hne⟩

/-- A variable has the given arity in a condition: in an occurrence outside of expressions, or where it
is passed to a function. -/
def ConditionAt.Gives (e : Environment) (y : ConditionAt α) (x : Symbol) (arity : Arity) : Prop :=
  (∃ o ∈ y.occurrences, o.name = x ∧ o.arity = arity) ∨ ∃ z ∈ y.fields, z.Passes e x arity

/-- The diagnostic blames one of some occurrences, and the condition gives its name another arity. -/
def Diagnostic.Clash (c : Context) (y : ConditionAt α) (ahead : List Occurrence) (d : Diagnostic) :
    Prop :=
  ∃ o ∈ ahead, d = c.blame .kindMixing o.spot o.name ∧
    ∃ arity, y.Gives c.env o.name arity ∧ arity ≠ o.arity

theorem Context.clash_of_permit {c : Context} {y : ConditionAt α} {ahead : List Occurrence}
    {b : Binding} {d : Diagnostic} (hb : y.Gives c.env b.name b.arity)
    (h : c.permit ahead b = .error d) : d.Clash c y ahead := by
  obtain ⟨o, ho, hclash, rfl⟩ := permit_eq_error h
  obtain ⟨hname, hne⟩ := Binding.arity_ne_of_clashes hclash
  exact ⟨o, ho, rfl, b.arity, hname ▸ hb, hne⟩

theorem Diagnostic.Clash.mono {c : Context} {y : ConditionAt α} {ahead ahead' : List Occurrence}
    {d : Diagnostic} (h : d.Clash c y ahead) (hsubset : ahead ⊆ ahead') : d.Clash c y ahead' := by
  obtain ⟨o, ho, hrest⟩ := h
  exact ⟨o, hsubset ho, hrest⟩

theorem ConditionAt.occurrences_subset {y : ConditionAt α} {x : FieldAt α} (hx : x ∈ y.fields) :
    x.occurrences ⊆ y.occurrences :=
  fun _ ho => mem_occurrences_iff.2 (.inr ⟨x, hx, ho⟩)

/-- What a field binds has an arity that its condition gives it. -/
theorem FieldAt.gives_of_mem_own {e : Environment} {σ : Scope} {y : ConditionAt α} {x : FieldAt α}
    (hx : x ∈ y.fields) {b : Binding} (hb : b ∈ x.own σ) : y.Gives e b.name b.arity := by
  obtain ⟨⟨name, arity⟩, hbinds, rfl⟩ := Option.map_eq_some_iff.1 hb
  refine .inl ⟨⟨name, .var arity, x.place.spot⟩, ConditionAt.occurrences_subset hx
    (List.mem_append_left _ ?_), rfl, rfl⟩
  rw [Field.ownOccurrence_of_binds? hbinds]
  exact List.mem_singleton_self _

/-- If a field reports a clash, then with what is inside of it or lies ahead. -/
theorem FieldAt.clash_of_visit {c : Context} {σ : Scope} {ahead beyond : List Occurrence}
    {y : ConditionAt α} {x : FieldAt α} (hx : x ∈ y.fields) {d : Diagnostic}
    (h : x.field.visit c x.place x.id σ ahead = .error d) (hfault : d.fault = .kindMixing)
    (hahead : ahead ⊆ y.occurrences ++ beyond) : d.Clash c y (y.occurrences ++ beyond) := by
  have hinside : x.field.inside x.place.spot ⊆ y.occurrences := fun o ho =>
    ConditionAt.occurrences_subset hx (List.mem_append_right _ ho)
  have hown {ahead' : List Occurrence} (h : (x.own σ).forM (c.permit ahead') = .error d) :
      d.Clash c y ahead' := by
    obtain ⟨b, hb, h⟩ := exists_error_of_option_forM h
    exact Context.clash_of_permit (gives_of_mem_own hx hb) h
  rcases bind_eq_error.1 h with h | ⟨-, -, h⟩
  · exact (hown h).mono (List.subset_append_of_subset_left _ hinside)
  rcases bind_eq_error.1 h with h | ⟨-, -, h⟩
  · obtain ⟨b, hb, h⟩ := exists_error_of_forM h
    obtain ⟨e, he, rfl⟩ := List.mem_map.1 hb
    refine (Context.clash_of_permit ?_ h).mono hahead
    rcases exists_of_mem_demands he with hmem | hpasses
    · exact .inl ⟨_, hinside hmem, rfl, rfl⟩
    · exact .inr ⟨x, hx, hpasses⟩
  rcases bind_eq_error.1 h with h | ⟨bound, -, h⟩
  · have hreading := Conjunct.inReading_of_bindAll h
    rw [hfault] at hreading
    cases hreading
  rcases bind_eq_error.1 h with h | ⟨-, -, h⟩
  · rw [Conjunct.fault_of_checkSatisfiable h] at hfault
    cases hfault
  rcases bind_eq_error.1 h with h | ⟨-, -, h⟩
  · exact (hown h).mono hahead
  · exact absurd h pure_ne_error

theorem Field.clash_of_visitParts {c : Context} {y : ConditionAt α} {p : Place}
    {slotsAhead beyond : List Occurrence} {k id : Nat} {σ : Scope} {fs : List (Field Symbol α)}
    {d : Diagnostic} (h : visitParts c p slotsAhead beyond k id σ fs = .error d)
    (hfault : d.fault = .kindMixing) (hfields : ∀ x ∈ partsAt p k id fs, x ∈ y.fields)
    (hahead : slotsAhead ⊆ y.occurrences) : d.Clash c y (y.occurrences ++ beyond) := by
  induction fs generalizing k id σ with
  | nil => exact absurd h pure_ne_error
  | cons f fs ih =>
    rw [visitParts] at h
    obtain ⟨hx, hfs⟩ := List.forall_mem_cons.1 hfields
    rcases bind_eq_error.1 h with h | ⟨v, -, h⟩
    · have hlater : occurrencesAll p.spot fs ⊆ y.occurrences := by
        intro o ho
        obtain ⟨z, hz, ho⟩ := (mem_occurrencesAll_iff (k + 1) (id + f.size)).1 ho
        exact ConditionAt.occurrences_subset (hfs z hz) ho
      exact FieldAt.clash_of_visit hx h hfault
        (append_subset_append (List.append_subset.2 ⟨hahead, hlater⟩) (List.Subset.refl _))
    rcases bind_eq_error.1 h with h | ⟨vs, -, h⟩
    · exact ih h hfs
    · exact absurd h pure_ne_error

namespace Slot

theorem clash_of_visit {c : Context} {y : ConditionAt α} {p : Place} {id : Nat} {σ : Scope}
    {slotsAhead beyond : List Occurrence} {s : Slot Symbol α} {d : Diagnostic}
    (h : s.visit c p id σ slotsAhead beyond = .error d) (hfault : d.fault = .kindMixing)
    (hfields : ∀ x ∈ s.fieldsAt p id, x ∈ y.fields) (hahead : slotsAhead ⊆ y.occurrences) :
    d.Clash c y (y.occurrences ++ beyond) := by
  obtain ⟨name, f⟩ := s
  cases f with
  | plain b as declared n =>
    have hx := hfields _ List.mem_cons_self
    rcases bind_eq_error.1 h with h | ⟨v, -, h⟩
    · exact FieldAt.clash_of_visit hx h hfault (append_subset_append hahead (List.Subset.refl _))
    · exact absurd h pure_ne_error
  | multi ps as declared n =>
    rcases bind_eq_error.1 h with h | ⟨vs, -, h⟩
    · exact Field.clash_of_visitParts h hfault hfields hahead
    · exact absurd h pure_ne_error

theorem clash_of_visitAll {c : Context} {y : ConditionAt α} {p : Place} {beyond : List Occurrence}
    {j id : Nat} {σ : Scope} {ss : List (Slot Symbol α)} {d : Diagnostic}
    (h : visitAll c p beyond j id σ ss = .error d) (hfault : d.fault = .kindMixing)
    (hfields : ∀ x ∈ fieldsAtAll p j id ss, x ∈ y.fields) :
    d.Clash c y (y.occurrences ++ beyond) := by
  induction ss generalizing j id σ with
  | nil => exact absurd h pure_ne_error
  | cons s ss ih =>
    rw [visitAll] at h
    obtain ⟨hs, hss⟩ := List.forall_mem_append.1 hfields
    rcases bind_eq_error.1 h with h | ⟨w, -, h⟩
    · refine clash_of_visit h hfault hs fun o ho => ?_
      obtain ⟨z, hz, ho⟩ := (mem_occurrencesAll_iff (id + s.field.size)).1 ho
      exact ConditionAt.occurrences_subset (hss z hz) ho
    rcases bind_eq_error.1 h with h | ⟨ws, -, h⟩
    · exact ih h hss
    · exact absurd h pure_ne_error

end Slot

/-- If a condition reports a clash, then with one of its own occurrences or of those beyond it. -/
theorem Condition.clash_of_visit {c : Context} {pattern joins id : Nat} {σ : Scope}
    {rest : Lhs Symbol α} {k : Condition Symbol α} {d : Diagnostic}
    (h : k.visit c pattern joins id σ rest = .error d) (hfault : d.fault = .kindMixing)
    {y : ConditionAt α} (hy : y = ⟨pattern, joins, id, k⟩) :
    d.Clash c y (y.occurrences ++ Lhs.reachAfter pattern k rest) := by
  cases hk : k.element with
  | test t =>
    have hreading := Term.inReading_of_bindAt (bind_eq_error_of_visit hk h)
    rw [hfault] at hreading
    cases hreading
  | pattern mode q =>
    obtain ⟨element, beginDepth, endDepth, n⟩ := k
    obtain rfl : element = .pattern mode q := hk
    rcases bind_eq_error.1 h with h | ⟨-, -, h⟩
    · obtain ⟨x, o, -, -, rfl⟩ := Pattern.checkHandle_eq_error h
      cases hfault
    rcases bind_eq_error.1 h with h | ⟨-, -, h⟩
    · obtain ⟨b, hb, h⟩ := exists_error_of_option_forM h
      obtain ⟨x, hx, rfl⟩ := Option.map_eq_some_iff.1 hb
      have hhandle : ⟨x, .handle, ⟨pattern, 0, none⟩⟩ ∈ y.occurrences := by
        rw [hy]
        exact List.mem_append_left _ (Option.mem_toList.2 (Option.map_eq_some_iff.2 ⟨x, hx, rfl⟩))
      refine (Context.clash_of_permit (.inl ⟨_, hhandle, rfl, rfl⟩) h).mono
        (append_subset_append (fun o ho => ?_) (List.Subset.refl _))
      rw [hy]
      exact List.mem_append_right _ ho
    rcases bind_eq_error.1 h with h | ⟨vs, -, h⟩
    · refine Slot.clash_of_visitAll h hfault fun x hx => ?_
      rw [hy]
      exact hx
    · exact absurd h pure_ne_error

/-! ## Left-hand sides -/

namespace Lhs

/-- **A clash of arities has two sides.** If a compilation reports a variable as both a single and a
sequence variable, then it blames an occurrence outside of expressions, and the variable has another
arity in another such occurrence, or where the only alternative of a field passes it to a function.
Tests, fields with several alternatives, and expressions that do not pass the variable to a function
which restricts it, never are the other side. -/
theorem kindMixing_has_two_arities {c : Context} {l : Lhs Symbol α} {d : Diagnostic}
    (h : l.compile c = .error d) (hfault : d.fault = .kindMixing) :
    ∃ o ∈ l.occurrences, d = c.blame .kindMixing o.spot o.name ∧
      ((∃ o' ∈ l.occurrences, o'.name = o.name ∧ o'.arity ≠ o.arity) ∨
        ∃ y ∈ l.conditionsAt, ∃ z ∈ y.fields, ∃ arity, z.Passes c.env o.name arity ∧
          arity ≠ o.arity) := by
  obtain ⟨pre, k, rest, τ, rfl, -, hk⟩ := exists_visit_of_compile_error h
  have hy : pre.next k ∈ conditionsAt (pre ++ k :: rest) :=
    mem_conditionsAt_split.2 (.inr (.inl rfl))
  obtain ⟨o, ho, hblame, arity, hgives, hne⟩ := Condition.clash_of_visit hk hfault (y := pre.next k) rfl
  refine ⟨o, ?_, hblame, ?_⟩
  · rcases List.mem_append.1 ho with ho | ho
    · exact List.mem_flatMap.2 ⟨_, hy, ho⟩
    · obtain ⟨y, hy, -, ho, -⟩ := mem_reachAfter_iff.1 ho
      exact List.mem_flatMap.2 ⟨y, hy, ho⟩
  · rcases hgives with ⟨o', ho', hname, rfl⟩ | ⟨z, hz, hpasses⟩
    · exact .inl ⟨o', List.mem_flatMap.2 ⟨_, hy, ho'⟩, hname, hne⟩
    · exact .inr ⟨_, hy, z, hz, arity, hpasses, hne⟩

/-- A context in which addition takes numbers. -/
def addingNumbers : Context :=
  ⟨(Environment.empty.defineFunction "+" (.uniform .numeric)).2, .standard⟩

/-- A pattern with the field `x`, a field with the given constraints, and a field `x` again. -/
def betweenFields (constraints : Alternative String Unit) : List (Step String Unit) :=
  [.pattern
    { kind := .fact
      handle := none
      slots :=
        [⟨none, .plain (.var "x" .single) [] none ()⟩,
          ⟨none, .plain (.wildcard .single) [constraints] none ()⟩,
          ⟨none, .plain (.var "x" .single) [] none ()⟩] }]

/-- Where the field in between is constrained to `$?x`, this is the other side of the clash. -/
theorem betweenFields_constraint_clashes :
    let l := ((ofSteps (betweenFields ⟨.var "x" .sequence (), []⟩)).intern addingNumbers.env.symbols).1
    ∃ d, l.compile addingNumbers = .error d ∧ d.fault = .kindMixing ∧
      ∃ o ∈ l.occurrences, d = addingNumbers.blame .kindMixing o.spot o.name ∧
        ∃ o' ∈ l.occurrences, o'.name = o.name ∧ o'.arity ≠ o.arity := by
  intro l
  obtain ⟨d, hd, hfault⟩ := exists_error_of_check (e := l.compile addingNumbers)
    (p := fun d => decide (d.fault = .kindMixing)) (by decide +kernel)
  have hfault := of_decide_eq_true hfault
  refine ⟨d, hd, hfault, ?_⟩
  obtain ⟨o, ho, hblame, hother | ⟨y, hy, z, hz, arity, hpasses, -⟩⟩ :=
    kindMixing_has_two_arities hd hfault
  · exact ⟨o, ho, hblame, hother⟩
  · have hnone : ∀ y ∈ l.conditionsAt, ∀ z ∈ y.fields, z.field.expressions.length = 0 := by
      decide +kernel
    obtain ⟨b, a, declared, n, hz', k, hk, t, ht, -⟩ := hpasses
    have hmem : t ∈ z.field.expressions := by
      rw [hz']
      exact List.mem_flatMap.2 ⟨a, List.mem_cons_self, List.mem_filterMap.2 ⟨k, hk, ht⟩⟩
    rw [List.length_eq_zero_iff.1 (hnone y hy z hz)] at hmem
    cases hmem

/-- Where it is constrained by a call of a function with `$?x` as its argument, the compilation reports
a clash although no two occurrences outside of expressions have different arities. -/
theorem betweenFields_call_clashes :
    let l := ((ofSteps (betweenFields ⟨.predicate (.call "+" [.var "x" .sequence ()]), []⟩)).intern
      addingNumbers.env.symbols).1
    (∃ d, l.compile addingNumbers = .error d ∧ d.fault = .kindMixing) ∧
      ∀ o ∈ l.occurrences, ∀ o' ∈ l.occurrences, o'.name = o.name → o'.arity = o.arity := by
  intro l
  obtain ⟨d, hd, hfault⟩ := exists_error_of_check (e := l.compile addingNumbers)
    (p := fun d => decide (d.fault = .kindMixing)) (by decide +kernel)
  exact ⟨⟨d, hd, of_decide_eq_true hfault⟩, by decide +kernel⟩

end Lhs

end Antecedent
