import Antecedent.Proofs.Relaxation

/-!
# Options as filters

The options of a compilation decide whether it succeeds, and never what it gives.

* `Lhs.compile_of_options` carries a result over to options that ask less.
* `Lhs.height_le_of_compile` says that a flat left-hand side only compiles if every expression in it
  fits into the permitted depth. In a slot inside a slot some expressions are never read.
* `Lhs.options_filter_results` puts these together: two sets of options under which a left-hand side
  compiles give the same result, and the permitted depth matters by the heights of expressions only.
-/

namespace Antecedent

variable {α : Type} {c : Context}

/-! ## Expressions that are read -/

/-- The expressions of a plain field are those that are read in it. -/
theorem Field.exists_mem_conjuncts (site : Site) {f : Field Symbol α} (hplain : f.isPlain = true)
    {t : Term Symbol α} (ht : t ∈ f.expressions) :
    ∃ ks ∈ f.conjuncts site, ∃ k ∈ ks, k.constraint.expression? = some t := by
  cases f with
  | plain b as declared n =>
    obtain ⟨a, ha, ht⟩ := List.mem_flatMap.1 ht
    obtain ⟨k, hk, ht⟩ := List.mem_filterMap.1 ht
    exact ⟨_, List.mem_map_of_mem ha, _, List.mem_map_of_mem hk, ht⟩
  | multi ps as declared n => cases hplain

theorem Field.exists_mem_partsAt {p : Place} {k id : Nat} {fs : List (Field Symbol α)}
    {t : Term Symbol α} (ht : t ∈ expressionsAll fs) :
    ∃ x ∈ partsAt p k id fs, t ∈ x.field.expressions := by
  induction fs generalizing k id with
  | nil => cases ht
  | cons f fs ih =>
    rcases List.mem_append.1 ht with ht | ht
    · exact ⟨_, List.mem_cons_self, ht⟩
    · obtain ⟨x, hx, ht⟩ := ih ht
      exact ⟨x, List.mem_cons_of_mem _ hx, ht⟩

theorem Slot.exists_mem_fieldsAtAll {p : Place} {j id : Nat} {ss : List (Slot Symbol α)}
    {t : Term Symbol α} (ht : t ∈ ss.flatMap fun s => s.field.expressions) :
    ∃ x ∈ fieldsAtAll p j id ss, t ∈ x.field.expressions := by
  induction ss generalizing j id with
  | nil => cases ht
  | cons s ss ih =>
    rw [List.flatMap_cons] at ht
    rcases List.mem_append.1 ht with ht | ht
    · obtain ⟨name, f⟩ := s
      cases f with
      | plain b as declared n => exact ⟨_, List.mem_append_left _ (List.mem_singleton_self _), ht⟩
      | multi ps as declared n =>
        obtain ⟨x, hx, ht⟩ := Field.exists_mem_partsAt ht
        exact ⟨x, List.mem_append_left _ hx, ht⟩
    · obtain ⟨x, hx, ht⟩ := ih ht
      exact ⟨x, List.mem_append_right _ hx, ht⟩

/-! ## Heights of compiled expressions -/

theorem Conjunct.height_le_of_bind {spot : Spot} {field : Restriction} {k : Conjunct Note}
    {k' : Conjunct Origin} (h : k.bind c spot field = .ok k') {t : Term Symbol Note}
    (ht : k.constraint.expression? = some t) : t.height ≤ c.options.maxDepth := by
  obtain ⟨site, shape, negated⟩ := k
  obtain ⟨a, ha, -⟩ := bind_eq_ok.1 h
  cases shape with
  | literal v => cases ht
  | var x arity n => cases ht
  | predicate u =>
    obtain rfl := Option.some.inj ht
    obtain ⟨u', hu, -⟩ := bind_eq_ok.1 ha
    exact Term.height_of_bind hu
  | returnValue u =>
    obtain rfl := Option.some.inj ht
    obtain ⟨u', hu, -⟩ := bind_eq_ok.1 ha
    exact Term.height_of_bind hu

theorem FieldAt.Compiles.height_le {σ : Scope} {x : FieldAt α} {v : Visited (Field Symbol Note)}
    (h : x.Compiles c σ v) (hplain : x.field.isPlain = true) {t : Term Symbol α}
    (ht : t ∈ x.field.expressions) : t.height ≤ c.options.maxDepth := by
  obtain ⟨bound, hbound, -⟩ := h
  have hnoted : (x.noted σ).isPlain = true := by
    obtain ⟨p, id, f⟩ := x
    cases f with
    | plain b as declared n => rfl
    | multi ps as declared n => cases hplain
  -- The notes of the scope leave the heights as they are, but not the expressions.
  have hheight : t.height ∈ (x.noted σ).heights := by
    rw [noted, Field.heights_resolve]
    exact List.mem_map_of_mem ht
  obtain ⟨u, hu, hut⟩ := List.mem_map.1 hheight
  obtain ⟨ks, hks, k, hk, hku⟩ := Field.exists_mem_conjuncts x.place.site hnoted hu
  obtain ⟨ks', -, hpairs⟩ := exists_of_mem_forall₂ (forall₂_of_mapM hbound) hks
  obtain ⟨k', -, hpair⟩ := exists_of_mem_forall₂ (forall₂_of_mapM hpairs) hk
  rw [← hut]
  exact Conjunct.height_le_of_bind hpair hku

theorem Condition.height_le_of_visit {k : Condition Symbol α} (hflat : k.isFlat = true)
    {pattern joins id : Nat} {σ : Scope} {rest : Lhs Symbol α} {v : VisitedCondition}
    (h : k.visit c pattern joins id σ rest = .ok v) {t : Term Symbol α} (ht : t ∈ k.expressions) :
    t.height ≤ c.options.maxDepth := by
  cases hk : k.element with
  | pattern mode q =>
    obtain ⟨ts, hrun, hsource, -⟩ := exists_run_of_visit hk h
    have hmem : ∃ x ∈ k.fieldsAt pattern joins id, t ∈ x.field.expressions := by
      simp only [expressions, hk] at ht
      simp only [fieldsAt, hk]
      exact Slot.exists_mem_fieldsAtAll ht
    obtain ⟨x, hx, ht⟩ := hmem
    have hplain := isPlain_of_mem_fieldsAt hflat hx
    rw [← hsource] at hx
    obtain ⟨visit, hvisit, rfl⟩ := List.mem_map.1 hx
    exact (hrun.compiles visit hvisit).height_le hplain ht
  | test u =>
    simp only [expressions, hk, List.mem_singleton] at ht
    obtain ⟨u', hu, -⟩ := exists_bind_of_visit hk h
    rw [ht, ← Term.height_resolve σ ⟨pattern, none⟩]
    exact Term.height_of_bind hu

namespace Lhs

theorem height_le_of_compileFrom {l : Lhs Symbol α} (hflat : l.isFlat = true)
    {pattern joins id : Nat} {σ : Scope} {u : Lhs Symbol Note}
    (h : compileFrom c pattern joins id σ l = .ok u) :
    ∀ t ∈ l.expressions, t.height ≤ c.options.maxDepth := by
  induction l generalizing pattern joins id σ u with
  | nil => simp [expressions]
  | cons k ks ih =>
    rw [isFlat, List.all_cons, Bool.and_eq_true] at hflat
    obtain ⟨v, us, hv, hus, -⟩ := compileFrom_cons_eq_ok.1 h
    intro t ht
    rw [expressions, List.flatMap_cons] at ht
    rcases List.mem_append.1 ht with ht | ht
    · exact Condition.height_le_of_visit hflat.1 hv ht
    · exact ih hflat.2 hus t ht

/-- Every expression of a flat left-hand side that compiles fits into the permitted depth. -/
theorem height_le_of_compile {l : Lhs Symbol α} (hflat : l.isFlat = true) {r : Lhs Symbol Note}
    (h : l.compile c = .ok r) : ∀ t ∈ l.expressions, t.height ≤ c.options.maxDepth := by
  obtain ⟨u, hu, -⟩ := exists_compileFrom_of_compile h
  exact height_le_of_compileFrom hflat hu

/-! ## The options -/

/-- **A result** is kept under options that check no more and permit the depth of every expression
that they permitted before. -/
theorem compile_of_options {e : Environment} {o : Options} {l : Lhs Symbol α} {r : Lhs Symbol Note}
    (h : l.compile ⟨e, o⟩ = .ok r) (o' : Options)
    (hchecks : o'.staticChecks = true → o.staticChecks = true)
    (hdepth : ∀ t ∈ l.expressions, t.height ≤ o.maxDepth → t.height ≤ o'.maxDepth) :
    l.compile ⟨e, o'⟩ = .ok r := by
  have hc : Context.Relaxes ⟨e, o⟩ (l.expressions.map Term.height) ⟨e, o'⟩ :=
    ⟨rfl, rfl, hchecks, List.forall_mem_map.2 hdepth⟩
  obtain ⟨u, hu, rfl⟩ := exists_compileFrom_of_compile h
  obtain ⟨us, vs, hus, rfl⟩ := compileFrom_of_relaxes (m := []) hc (by rwa [List.append_nil])
  have hlength : (us ++ vs).length = us.length :=
    (length_of_compileFrom hu).trans (length_of_compileFrom hus).symm
  obtain rfl : vs = [] := by simpa using hlength
  rw [List.append_nil]
  exact bind_eq_ok.2 ⟨us, hus, rfl⟩

/-- A result does not depend on the options under which it was reached. -/
theorem compile_unique {e : Environment} {o₁ o₂ : Options} {l : Lhs Symbol α}
    {r₁ r₂ : Lhs Symbol Note} (h₁ : l.compile ⟨e, o₁⟩ = .ok r₁) (h₂ : l.compile ⟨e, o₂⟩ = .ok r₂) : r₁ = r₂ := by
  -- Both results are kept without static checks and at the greater depth.
  let o : Options := ⟨false, max o₁.maxDepth o₂.maxDepth⟩
  have hr₁ := compile_of_options h₁ o nofun fun _ _ hm => Nat.le_trans hm (Nat.le_max_left ..)
  have hr₂ := compile_of_options h₂ o nofun fun _ _ hm => Nat.le_trans hm (Nat.le_max_right ..)
  exact Except.ok.inj (hr₁.symm.trans hr₂)

/-- **Options filter results.** Two sets of options under which a left-hand side compiles give the same
result. What compiles with static checks compiles without them. And a flat left-hand side that compiles
at some permitted depth does so at another one if and only if each of its expressions fits into it. -/
theorem options_filter_results (e : Environment) (l : Lhs Symbol α) :
    (∀ o₁ o₂ r₁ r₂, l.compile ⟨e, o₁⟩ = .ok r₁ → l.compile ⟨e, o₂⟩ = .ok r₂ → r₁ = r₂) ∧
      (∀ m r, l.compile ⟨e, ⟨true, m⟩⟩ = .ok r → l.compile ⟨e, ⟨false, m⟩⟩ = .ok r) ∧
      (l.isFlat = true → ∀ s m₀ r, l.compile ⟨e, ⟨s, m₀⟩⟩ = .ok r → ∀ m,
        (∃ r', l.compile ⟨e, ⟨s, m⟩⟩ = .ok r') ↔ ∀ t ∈ l.expressions, t.height ≤ m) := by
  refine ⟨fun o₁ o₂ r₁ r₂ => compile_unique, fun m r h => ?_, fun hflat s m₀ r h m => ⟨?_, ?_⟩⟩
  · exact compile_of_options h ⟨false, m⟩ nofun fun _ _ hm => hm
  · rintro ⟨r', hr'⟩
    exact height_le_of_compile hflat hr'
  · intro hfits
    exact ⟨r, compile_of_options h ⟨s, m⟩ (fun hs => hs) fun t ht _ => hfits t ht⟩

/-- A pattern with a predicate on its field, and a test of height three. -/
def nestedTest : List (Step String Unit) :=
  [.pattern
      { kind := .fact
        handle := none
        slots := [⟨none, .plain (.var "x" .single)
          [⟨⟨.predicate (.call "even" [.var "x" .single ()]), false⟩, []⟩] none ()⟩] },
    .test (.call "less" [.call "double" [.var "x" .single ()], .lit (.integer 3)])]

theorem nestedTest_needs_depth_three :
    let l := ((ofSteps nestedTest).intern .empty).1
    ∃ r, l.compile ⟨.empty, .standard⟩ = .ok r ∧ l.compile ⟨.empty, ⟨false, 128⟩⟩ = .ok r ∧
      l.compile ⟨.empty, ⟨true, 3⟩⟩ = .ok r ∧ ¬∃ r', l.compile ⟨.empty, ⟨true, 2⟩⟩ = .ok r' := by
  intro l
  obtain ⟨r, hr, -⟩ := exists_ok_of_check (e := l.compile ⟨.empty, .standard⟩) (p := fun _ => true)
    (by decide +kernel)
  obtain ⟨hsame, hchecks, hdepth⟩ := options_filter_results .empty l
  have hfits := hdepth (by decide +kernel) true 128 r hr
  obtain ⟨r', hr'⟩ := (hfits 3).2 (by decide +kernel)
  obtain rfl := hsame _ _ _ _ hr' hr
  refine ⟨r', hr, hchecks 128 r' hr, hr', fun hshallow => ?_⟩
  exact absurd ((hfits 2).1 hshallow) (by decide +kernel)

end Lhs

end Antecedent
