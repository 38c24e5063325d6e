import Antecedent.Proofs.Recompilation

/-!
# Compiling under weaker demands

A compilation that succeeds also succeeds where less is asked of it, and with the same result: under
options that check less, in an environment with other symbols, and with fewer occurrences ahead.

* `Term.height` counts the nodes on the longest way down an expression, and `Lhs.expressions` lists the
  expressions of a left-hand side. `Term.height_of_bindAt` says that the depth check is exact.
* `Context.Relaxes` says that a context asks no more than another one, and no less nesting of some
  heights.
* `Field.visit_of_relaxes`, `Slot.visitAll_of_relaxes` and `Condition.visit_of_relaxes` go through the
  steps of a compilation, and `Lhs.compileFrom_of_relaxes` through the first conditions of a left-hand
  side.
-/

namespace Antecedent

variable {ν α β : Type}

/-! ## Expressions and their heights -/

namespace Term

mutual

/-- The number of nodes on the longest way down an expression. -/
def height : Term ν α → Nat
  | call _ args => heightAll args + 1
  | var _ _ _ => 1
  | lit _ => 1
  | global _ => 1

/-- The greatest height of some expressions; zero if there are none. -/
def heightAll : List (Term ν α) → Nat
  | [] => 0
  | t :: ts => max (height t) (heightAll ts)

end

mutual

@[simp] theorem height_mapNotes (g : α → β) (t : Term ν α) : (t.mapNotes g).height = t.height := by
  cases t with
  | call f args => rw [mapNotes, height, height, heightAll_mapNotesAll g args]
  | var x arity n => rfl
  | lit v => rfl
  | global x => rfl

theorem heightAll_mapNotesAll (g : α → β) (ts : List (Term ν α)) :
    heightAll (mapNotesAll g ts) = heightAll ts := by
  cases ts with
  | nil => rfl
  | cons t ts =>
    rw [mapNotesAll, heightAll, heightAll, height_mapNotes g t, heightAll_mapNotesAll g ts]

end

@[simp] theorem height_resolve (σ : Scope) (v : Viewpoint) (t : Term Symbol α) :
    (t.resolve σ v).height = t.height := by
  rw [← height_mapNotes (fun _ => ()), mapNotes_resolve, height_mapNotes]

end Term

/-- The expression of a predicate or return value. -/
def Constraint.expression? (k : Constraint ν α) : Option (Term ν α) :=
  match k.shape with
  | .literal _ | .var _ _ _ => none
  | .predicate t | .returnValue t => some t

/-- The expressions in an alternative. -/
def Alternative.expressions (a : Alternative ν α) : List (Term ν α) :=
  a.constraints.filterMap Constraint.expression?

namespace Field

mutual

/-- The expressions in a field. -/
def expressions : Field ν α → List (Term ν α)
  | plain _ as _ _ => as.flatMap Alternative.expressions
  | multi ps _ _ _ => expressionsAll ps

def expressionsAll : List (Field ν α) → List (Term ν α)
  | [] => []
  | f :: fs => expressions f ++ expressionsAll fs

end

end Field

/-- The expressions in a condition; a test is one. -/
def Condition.expressions (k : Condition ν α) : List (Term ν α) :=
  match k.element with
  | .pattern _ q => q.slots.flatMap fun s => s.field.expressions
  | .test t => [t]

/-- The expressions of all tests, predicates and return values of a left-hand side. -/
def Lhs.expressions (l : Lhs ν α) : List (Term ν α) := l.flatMap Condition.expressions

section Expressions

variable (g : α → β)

theorem Constraint.expression?_mapNotes (k : Constraint ν α) :
    (k.mapNotes g).expression? = k.expression?.map (Term.mapNotes g) := by
  obtain ⟨shape, negated⟩ := k
  cases shape <;> rfl

theorem Alternative.expressions_mapNotes (a : Alternative ν α) :
    (a.mapNotes g).expressions = a.expressions.map (Term.mapNotes g) := by
  rw [expressions, expressions, constraints_mapNotes, List.filterMap_map, List.map_filterMap]
  exact List.filterMap_congr fun k _ => Constraint.expression?_mapNotes g k

namespace Field

mutual

theorem expressions_mapNotes (f : Field ν α) :
    (f.mapNotes g).expressions = f.expressions.map (Term.mapNotes g) := by
  cases f with
  | plain b as declared n =>
    simp only [mapNotes, expressions, List.flatMap_map, List.map_flatMap,
      Alternative.expressions_mapNotes]
  | multi ps as declared n => exact expressionsAll_mapNotesAll ps

theorem expressionsAll_mapNotesAll (fs : List (Field ν α)) :
    expressionsAll (mapNotesAll g fs) = (expressionsAll fs).map (Term.mapNotes g) := by
  cases fs with
  | nil => rfl
  | cons f fs =>
    rw [mapNotesAll, expressionsAll, expressionsAll, expressions_mapNotes f,
      expressionsAll_mapNotesAll fs, List.map_append]

end

/-- The heights of the expressions in a field. -/
def heights (f : Field ν α) : List Nat := f.expressions.map Term.height

theorem heights_mapNotes (f : Field ν α) : (f.mapNotes g).heights = f.heights := by
  rw [heights, heights, expressions_mapNotes, List.map_map]
  exact List.map_congr_left fun t _ => Term.height_mapNotes g t

theorem heights_resolve (σ inner : Scope) (v : Viewpoint) (f : Field Symbol α) :
    (f.resolve σ inner v).heights = f.heights := by
  rw [← heights_mapNotes (fun _ => ()), mapNotes_resolve, heights_mapNotes]

/-- A part that is read as a conjunct has no expression. -/
theorem expression?_of_mem_asConjuncts {site : Site} {position : Nat} {fs : List (Field Symbol α)}
    {k : Conjunct α} (hk : k ∈ asConjuncts site position fs) : k.constraint.expression? = none := by
  induction fs generalizing position with
  | nil => cases hk
  | cons f fs ih =>
    rcases List.mem_append.1 hk with hk | hk
    · rw [Option.mem_toList] at hk
      unfold asConjunct? at hk
      split at hk
      · obtain rfl := Option.some.inj hk
        rfl
      · cases hk
    · exact ih hk

mutual

/-- The expressions that are read in a field are expressions in it. -/
theorem mem_expressions_of_mem_conjuncts {site : Site} {f : Field Symbol α} {ks : List (Conjunct α)}
    (hks : ks ∈ f.conjuncts site) {k : Conjunct α} (hk : k ∈ ks) {t : Term Symbol α}
    (ht : k.constraint.expression? = some t) : t ∈ f.expressions := by
  cases f with
  | plain b as declared n =>
    obtain ⟨a, ha, rfl⟩ := List.mem_map.1 hks
    obtain ⟨k', hk', rfl⟩ := List.mem_map.1 hk
    exact List.mem_flatMap.2 ⟨a, ha, List.mem_filterMap.2 ⟨k', hk', ht⟩⟩
  | multi ps as declared n => exact mem_expressionsAll_of_mem_conjunctsOfParts hks hk ht

theorem mem_expressionsAll_of_mem_conjunctsOfParts {site : Site} {fs : List (Field Symbol α)}
    {ks : List (Conjunct α)} (hks : ks ∈ conjunctsOfParts site fs) {k : Conjunct α} (hk : k ∈ ks)
    {t : Term Symbol α} (ht : k.constraint.expression? = some t) : t ∈ expressionsAll fs := by
  cases fs with
  | nil => cases hks
  | cons f fs =>
    rcases List.mem_cons.1 hks with rfl | hks
    · rw [expression?_of_mem_asConjuncts hk] at ht
      cases ht
    · exact List.mem_append_left _ (mem_expressions_of_mem_conjuncts hks hk ht)

end

end Field

end Expressions

/-! ## Contexts -/

/-- The context `c'` asks no more than `c`: it has the same functions and global variables, checks no
more, and permits expressions of the heights `hs` if `c` does. -/
structure Context.Relaxes (c : Context) (hs : List Nat) (c' : Context) : Prop where
  functions : c'.env.functions = c.env.functions
  globals : c'.env.globals = c.env.globals
  checks : c'.options.staticChecks = true → c.options.staticChecks = true
  nesting : ∀ h ∈ hs, h ≤ c.options.maxDepth → h ≤ c'.options.maxDepth

section Relaxes

variable {c c' : Context} {hs : List Nat}

theorem Context.Relaxes.refl (c : Context) (hs : List Nat) : c.Relaxes hs c :=
  ⟨rfl, rfl, fun h => h, fun _ _ h => h⟩

theorem Context.Relaxes.mono (hc : c.Relaxes hs c') {hs' : List Nat} (h : hs' ⊆ hs) :
    c.Relaxes hs' c' :=
  ⟨hc.functions, hc.globals, hc.checks, fun n hn => hc.nesting n (h hn)⟩

theorem Context.Relaxes.isGlobal (hc : c.Relaxes hs c') (x : Symbol) :
    c'.env.isGlobal x = c.env.isGlobal x := by
  rw [Environment.isGlobal, Environment.isGlobal, hc.globals]

/-- Demands come from the functions only. -/
theorem Term.demands_congr {e e' : Environment} (h : e'.functions = e.functions)
    (t : Term Symbol α) : t.demands e' = t.demands e := by
  simp only [demands, rawDemands, Environment.signature?, h]

theorem Field.demands_congr {e e' : Environment} (h : e'.functions = e.functions)
    (as : List (List (Conjunct Note))) : demands e' as = demands e as := by
  have hconstraint : Constraint.demands e' (α := Note) = Constraint.demands e := by
    funext literals k
    simp only [Constraint.demands, Term.demands_congr h]
  unfold demands
  split
  · simp only [Demand.ofConjuncts, hconstraint]
  · rfl

/-! ## References -/

theorem Context.checkDepth_eq_ok {spot : Spot} {enclosing : Option Symbol} {depth : Nat} {u : Unit} :
    c.checkDepth spot enclosing depth = .ok u ↔ depth ≤ c.options.maxDepth := by
  unfold checkDepth
  split <;> simp <;> omega

theorem Context.checkGlobal_eq_ok {spot : Spot} {enclosing : Option Symbol} {x : Symbol} {u : Unit} :
    c.checkGlobal spot enclosing x = .ok u ↔ c.env.isGlobal x = true := by
  unfold checkGlobal
  split <;> simp_all

theorem Note.bindReference_of_relaxes (hc : c.Relaxes hs c') {spot : Spot} {enclosing : Option Symbol}
    {x : Symbol} {arity : Arity} {n : Note} {o : Origin}
    (h : n.bindReference c spot enclosing x arity = .ok o) :
    n.bindReference c' spot enclosing x arity = .ok o := by
  unfold bindReference at h ⊢
  split at h
  · cases h
  · split at h
    · cases h
    · next hpass =>
      rw [if_neg fun hfail => hpass ⟨hfail.1, hfail.2.1, hc.checks hfail.2.2⟩]
      exact h

namespace Term

mutual

/-- **The depth check is exact**: an expression that passes it is no higher than the rest of the
permitted depth. -/
theorem height_of_bindAt {spot : Spot} {enclosing : Option Symbol} {depth : Nat}
    {t : Term Symbol Note} {u : Term Symbol Origin} (h : t.bindAt c spot enclosing depth = .ok u) :
    depth + t.height ≤ c.options.maxDepth + 1 := by
  cases t with
  | call f args =>
    rw [bindAt] at h
    obtain ⟨_, hdepth, h⟩ := bind_eq_ok.1 h
    obtain ⟨us, hus, -⟩ := bind_eq_ok.1 h
    have hdepth := Context.checkDepth_eq_ok.1 hdepth
    have hargs := heightAll_of_bindAllAt hus (by omega)
    rw [height]
    omega
  | var x arity n =>
    rw [bindAt] at h
    obtain ⟨_, hdepth, -⟩ := bind_eq_ok.1 h
    have hdepth := Context.checkDepth_eq_ok.1 hdepth
    rw [height]
    omega
  | lit v =>
    rw [bindAt] at h
    obtain ⟨_, hdepth, -⟩ := bind_eq_ok.1 h
    have hdepth := Context.checkDepth_eq_ok.1 hdepth
    rw [height]
    omega
  | global x =>
    rw [bindAt] at h
    obtain ⟨_, hdepth, -⟩ := bind_eq_ok.1 h
    have hdepth := Context.checkDepth_eq_ok.1 hdepth
    rw [height]
    omega

theorem heightAll_of_bindAllAt {spot : Spot} {enclosing : Option Symbol} {depth : Nat}
    {ts : List (Term Symbol Note)} {us : List (Term Symbol Origin)}
    (h : bindAllAt c spot enclosing depth ts = .ok us) (hdepth : depth ≤ c.options.maxDepth + 1) :
    depth + heightAll ts ≤ c.options.maxDepth + 1 := by
  cases ts with
  | nil => exact hdepth
  | cons t ts =>
    rw [bindAllAt] at h
    obtain ⟨u, hu, h⟩ := bind_eq_ok.1 h
    obtain ⟨us, hus, -⟩ := bind_eq_ok.1 h
    have ht := height_of_bindAt hu
    have hts := heightAll_of_bindAllAt hus hdepth
    rw [heightAll]
    omega

end

mutual

theorem bindAt_of_relaxes (hc : c.Relaxes hs c') {spot : Spot} {enclosing : Option Symbol}
    {depth : Nat} {t : Term Symbol Note} {u : Term Symbol Origin}
    (hdepth : depth + t.height ≤ c'.options.maxDepth + 1)
    (h : t.bindAt c spot enclosing depth = .ok u) : t.bindAt c' spot enclosing depth = .ok u := by
  cases t with
  | call f args =>
    rw [height] at hdepth
    rw [bindAt] at h ⊢
    obtain ⟨-, -, h⟩ := bind_eq_ok.1 h
    obtain ⟨us, hus, h⟩ := bind_eq_ok.1 h
    have hargs := bindAllAt_of_relaxes hc (by omega) hus
    exact bind_eq_ok.2 ⟨(), Context.checkDepth_eq_ok.2 (by omega), bind_eq_ok.2 ⟨us, hargs, h⟩⟩
  | var x arity n =>
    rw [height] at hdepth
    rw [bindAt] at h ⊢
    obtain ⟨-, -, h⟩ := bind_eq_ok.1 h
    obtain ⟨o, ho, h⟩ := bind_eq_ok.1 h
    have ho := Note.bindReference_of_relaxes hc ho
    exact bind_eq_ok.2 ⟨(), Context.checkDepth_eq_ok.2 (by omega), bind_eq_ok.2 ⟨o, ho, h⟩⟩
  | lit v =>
    rw [height] at hdepth
    rw [bindAt] at h ⊢
    obtain ⟨-, -, h⟩ := bind_eq_ok.1 h
    exact bind_eq_ok.2 ⟨(), Context.checkDepth_eq_ok.2 (by omega), h⟩
  | global x =>
    rw [height] at hdepth
    rw [bindAt] at h ⊢
    obtain ⟨-, -, h⟩ := bind_eq_ok.1 h
    obtain ⟨_, hx, h⟩ := bind_eq_ok.1 h
    have hx := Context.checkGlobal_eq_ok.1 hx
    rw [← hc.isGlobal] at hx
    exact bind_eq_ok.2 ⟨(), Context.checkDepth_eq_ok.2 (by omega),
      bind_eq_ok.2 ⟨(), Context.checkGlobal_eq_ok.2 hx, h⟩⟩

theorem bindAllAt_of_relaxes (hc : c.Relaxes hs c') {spot : Spot} {enclosing : Option Symbol}
    {depth : Nat} {ts : List (Term Symbol Note)} {us : List (Term Symbol Origin)}
    (hdepth : depth + heightAll ts ≤ c'.options.maxDepth + 1)
    (h : bindAllAt c spot enclosing depth ts = .ok us) :
    bindAllAt c' spot enclosing depth ts = .ok us := by
  cases ts with
  | nil => exact h
  | cons t ts =>
    rw [heightAll] at hdepth
    rw [bindAllAt] at h ⊢
    obtain ⟨u, hu, h⟩ := bind_eq_ok.1 h
    obtain ⟨us, hus, h⟩ := bind_eq_ok.1 h
    have hu := bindAt_of_relaxes hc (by omega) hu
    have hus := bindAllAt_of_relaxes hc (by omega) hus
    exact bind_eq_ok.2 ⟨u, hu, bind_eq_ok.2 ⟨us, hus, h⟩⟩

end

theorem height_of_bind {spot : Spot} {t : Term Symbol Note} {u : Term Symbol Origin}
    (h : t.bind c spot = .ok u) : t.height ≤ c.options.maxDepth := by
  have := height_of_bindAt h
  omega

theorem bind_of_relaxes (hc : c.Relaxes hs c') {spot : Spot} {t : Term Symbol Note}
    (ht : t.height ∈ hs) {u : Term Symbol Origin} (h : t.bind c spot = .ok u) :
    t.bind c' spot = .ok u := by
  have hheight := hc.nesting _ ht (height_of_bind h)
  exact bindAt_of_relaxes hc (by omega) h

end Term

namespace Conjunct

theorem bind_of_relaxes (hc : c.Relaxes hs c') {spot : Spot} {field : Restriction} {k : Conjunct Note}
    (hk : ∀ t, k.constraint.expression? = some t → t.height ∈ hs) {k' : Conjunct Origin}
    (h : k.bind c spot field = .ok k') : k.bind c' spot field = .ok k' := by
  obtain ⟨site, shape, negated⟩ := k
  obtain ⟨a, ha, h⟩ := bind_eq_ok.1 h
  refine bind_eq_ok.2 ⟨a, ?_, h⟩
  cases shape with
  | literal v =>
    have hcheck : ∀ violation, (if c'.options.staticChecks then field.check v else none) =
        some violation → (if c.options.staticChecks then field.check v else none) = some violation := by
      intro violation hv
      split at hv
      · next hstatic => rw [if_pos (hc.checks hstatic), hv]
      · cases hv
    simp only [Constraint.bind] at ha ⊢
    split at ha
    · cases ha
    · next hnone =>
      split
      · next violation hv =>
        rw [hcheck violation hv] at hnone
        cases hnone
      · exact ha
  | var x arity n =>
    simp only [Constraint.bind] at ha ⊢
    split at ha
    · cases ha
    · exact ha
  | predicate t =>
    obtain ⟨u, hu, ha⟩ := bind_eq_ok.1 ha
    exact bind_eq_ok.2 ⟨u, t.bind_of_relaxes hc (hk t rfl) hu, ha⟩
  | returnValue t =>
    obtain ⟨u, hu, ha⟩ := bind_eq_ok.1 ha
    exact bind_eq_ok.2 ⟨u, t.bind_of_relaxes hc (hk t rfl) hu, ha⟩

theorem bindAll_of_relaxes (hc : c.Relaxes hs c') {spot : Spot} {field : Restriction}
    {as : List (List (Conjunct Note))}
    (has : ∀ ks ∈ as, ∀ k ∈ ks, ∀ t, k.constraint.expression? = some t → t.height ∈ hs)
    {bound : List (List (Conjunct Origin))} (h : bindAll c spot field as = .ok bound) :
    bindAll c' spot field as = .ok bound := by
  refine mapM_eq_pure_of_forall₂ (forall₂_of_mapM h) fun ks hks ks' hpairs => ?_
  exact mapM_eq_pure_of_forall₂ (forall₂_of_mapM hpairs) fun k hk k' hpair =>
    bind_of_relaxes hc (has ks hks k hk) hpair

theorem checkSatisfiable_of_ok {spot : Spot} {own : Option Symbol} {restriction : Option Restriction}
    {as : List (List (Conjunct Note))} {u : Unit}
    (h : checkSatisfiable c spot own restriction as = .ok u) :
    checkSatisfiable c' spot own restriction as = .ok u := by
  unfold checkSatisfiable at h ⊢
  split at h
  · cases h
  · split at h
    · next hpass => rw [if_pos hpass]
    · cases h

end Conjunct

/-! ## Occurrences ahead -/

theorem forM_eq_ok {ε : Type} {f : α → Except ε Unit} {xs : List α} :
    xs.forM f = .ok () ↔ ∀ x ∈ xs, f x = .ok () := by
  induction xs with
  | nil => simp [List.forM, pure_eq_ok]
  | cons x xs ih =>
    rw [List.forM, bind_eq_ok, List.forall_mem_cons, ← ih]
    constructor
    · rintro ⟨⟨⟩, hx, hxs⟩
      exact ⟨hx, hxs⟩
    · rintro ⟨hx, hxs⟩
      exact ⟨⟨⟩, hx, hxs⟩

theorem option_forM_eq_ok {ε : Type} {f : α → Except ε Unit} {o : Option α} :
    o.forM f = .ok () ↔ ∀ x ∈ o, f x = .ok () := by
  cases o <;> simp [Option.forM, pure_eq_ok]

theorem append_subset_append {xs xs' ys ys' : List α} (hx : xs ⊆ xs') (hy : ys ⊆ ys') :
    xs ++ ys ⊆ xs' ++ ys' :=
  List.append_subset.2
    ⟨List.subset_append_of_subset_left _ hx, List.subset_append_of_subset_right _ hy⟩

theorem Context.permit_eq_ok {ahead : List Occurrence} {b : Binding} {u : Unit} :
    c.permit ahead b = .ok u ↔ ∀ o ∈ ahead, b.clashes o = false := by
  unfold permit
  split
  · next o ho =>
    have hclash := List.find?_some ho
    have hmem := List.mem_of_find?_eq_some ho
    simp only [reduceCtorEq, false_iff, not_forall]
    exact ⟨o, hmem, by simp [hclash]⟩
  · next hnone => simpa using hnone

/-- A binding that passes with some occurrences ahead passes with fewer. -/
theorem Context.permit_of_subset {ahead ahead' : List Occurrence} (hahead : ahead' ⊆ ahead)
    {b : Binding} {u : Unit} (h : c.permit ahead b = .ok u) : c'.permit ahead' b = .ok u :=
  permit_eq_ok.2 fun o ho => permit_eq_ok.1 h o (hahead ho)

theorem Context.forM_permit_of_subset {ahead ahead' : List Occurrence} (hahead : ahead' ⊆ ahead)
    {own : Option Binding} (h : own.forM (c.permit ahead) = .ok ()) :
    own.forM (c'.permit ahead') = .ok () :=
  option_forM_eq_ok.2 fun b hb => permit_of_subset hahead (option_forM_eq_ok.1 h b hb)

/-! ## Fields, slots and conditions -/

/-- A field compiles if its own variable agrees with its alternatives, these can be bound and
satisfied, and everything it binds agrees with what lies ahead. -/
theorem FieldAt.visit_eq_ok {σ : Scope} {ahead : List Occurrence} {x : FieldAt α}
    {v : Visited (Field Symbol Note)} :
    x.field.visit c x.place x.id σ ahead = .ok v ↔
      (∀ b ∈ x.own σ, c.permit (x.field.inside x.place.spot) b = .ok ()) ∧ x.Compiles c σ v ∧
        Conjunct.checkSatisfiable c x.place.spot (x.field.binds?.map Prod.fst)
          (x.noted σ).note.restriction (x.alternatives σ) = .ok () ∧
        ∀ b ∈ v.bindings, c.permit ahead b = .ok () := by
  constructor
  · intro h
    obtain ⟨⟨⟩, hinside, h⟩ := bind_eq_ok.1 h
    obtain ⟨⟨⟩, hdemanded, h⟩ := bind_eq_ok.1 h
    obtain ⟨bound, hbound, h⟩ := bind_eq_ok.1 h
    obtain ⟨⟨⟩, hsatisfiable, h⟩ := bind_eq_ok.1 h
    obtain ⟨⟨⟩, hown, h⟩ := bind_eq_ok.1 h
    obtain rfl := pure_eq_ok.1 h
    refine ⟨option_forM_eq_ok.1 hinside, ⟨bound, hbound, rfl⟩, hsatisfiable, fun b hb => ?_⟩
    rcases List.mem_append.1 hb with hb | hb
    · exact forM_eq_ok.1 hdemanded b hb
    · exact option_forM_eq_ok.1 hown b (Option.mem_toList.1 hb)
  · rintro ⟨hinside, ⟨bound, hbound, rfl⟩, hsatisfiable, hbindings⟩
    have hdemanded := forM_eq_ok.2 fun b hb => hbindings b (List.mem_append_left _ hb)
    have hown := option_forM_eq_ok.2 fun b hb =>
      hbindings b (List.mem_append_right _ (Option.mem_toList.2 hb))
    exact bind_eq_ok.2 ⟨⟨⟩, option_forM_eq_ok.2 hinside, bind_eq_ok.2 ⟨⟨⟩, hdemanded,
      bind_eq_ok.2 ⟨bound, hbound, bind_eq_ok.2 ⟨⟨⟩, hsatisfiable, bind_eq_ok.2 ⟨⟨⟩, hown, rfl⟩⟩⟩⟩⟩

theorem FieldAt.compiles_of_relaxes {σ : Scope} {x : FieldAt α} (hc : c.Relaxes x.field.heights c')
    {v : Visited (Field Symbol Note)} (h : x.Compiles c σ v) : x.Compiles c' σ v := by
  obtain ⟨bound, hbound, rfl⟩ := h
  refine ⟨bound, Conjunct.bindAll_of_relaxes hc (fun ks hks k hk t ht => ?_) hbound, ?_⟩
  · rw [← Field.heights_resolve]
    exact List.mem_map_of_mem (Field.mem_expressions_of_mem_conjuncts hks hk ht)
  · rw [outcome, outcome, Field.demands_congr hc.functions]

namespace Field

/-- **Compiling a field** succeeds where less is asked of it. -/
theorem visit_of_relaxes {f : Field Symbol α} (hc : c.Relaxes f.heights c') {p : Place} {id : Nat}
    {σ : Scope} {ahead ahead' : List Occurrence} (hahead : ahead' ⊆ ahead)
    {v : Visited (Field Symbol Note)} (h : f.visit c p id σ ahead = .ok v) :
    f.visit c' p id σ ahead' = .ok v := by
  let x : FieldAt α := ⟨p, id, f⟩
  obtain ⟨hinside, hcompiles, hsatisfiable, hbindings⟩ := FieldAt.visit_eq_ok (x := x).1 h
  refine FieldAt.visit_eq_ok (x := x).2 ⟨fun b hb => ?_, FieldAt.compiles_of_relaxes hc hcompiles,
    Conjunct.checkSatisfiable_of_ok hsatisfiable, fun b hb => ?_⟩
  · exact Context.permit_of_subset (List.Subset.refl _) (hinside b hb)
  · exact Context.permit_of_subset hahead (hbindings b hb)

theorem visitParts_of_relaxes {fs : List (Field Symbol α)}
    (hc : c.Relaxes ((expressionsAll fs).map Term.height) c') {p : Place}
    {slotsAhead slotsAhead' beyond beyond' : List Occurrence} (hslots : slotsAhead' ⊆ slotsAhead)
    (hbeyond : beyond' ⊆ beyond) {k id : Nat} {σ : Scope} {vs : List (Visited (Field Symbol Note))}
    (h : visitParts c p slotsAhead beyond k id σ fs = .ok vs) :
    visitParts c' p slotsAhead' beyond' k id σ fs = .ok vs := by
  induction fs generalizing k id σ vs with
  | nil => exact h
  | cons f fs ih =>
    rw [expressionsAll, List.map_append] at hc
    obtain ⟨v, vs, hv, hvs, rfl⟩ := visitParts_cons_eq_ok.1 h
    have hahead : slotsAhead' ++ occurrencesAll p.spot fs ++ beyond' ⊆
        slotsAhead ++ occurrencesAll p.spot fs ++ beyond :=
      append_subset_append (append_subset_append hslots (List.Subset.refl _)) hbeyond
    have hv := visit_of_relaxes (hc.mono (List.subset_append_left ..)) hahead hv
    have hvs := ih (hc.mono (List.subset_append_right ..)) hvs
    exact visitParts_cons_eq_ok.2 ⟨v, vs, hv, hvs, rfl⟩

end Field

namespace Slot

theorem visit_of_relaxes {s : Slot Symbol α} (hc : c.Relaxes s.field.heights c') {p : Place}
    {id : Nat} {σ : Scope} {slotsAhead slotsAhead' beyond beyond' : List Occurrence}
    (hslots : slotsAhead' ⊆ slotsAhead) (hbeyond : beyond' ⊆ beyond)
    {w : Visited (Slot Symbol Note)} (h : s.visit c p id σ slotsAhead beyond = .ok w) :
    s.visit c' p id σ slotsAhead' beyond' = .ok w := by
  obtain ⟨name, f⟩ := s
  cases f with
  | plain b as declared n =>
    obtain ⟨v, hv, h⟩ := bind_eq_ok.1 h
    have hv := Field.visit_of_relaxes hc (append_subset_append hslots hbeyond) hv
    exact bind_eq_ok.2 ⟨v, hv, h⟩
  | multi ps as declared n =>
    obtain ⟨vs, hvs, h⟩ := bind_eq_ok.1 h
    have hvs := Field.visitParts_of_relaxes hc hslots hbeyond hvs
    exact bind_eq_ok.2 ⟨vs, hvs, h⟩

theorem visitAll_of_relaxes {ss : List (Slot Symbol α)}
    (hc : c.Relaxes (ss.flatMap fun s => s.field.heights) c') {p : Place}
    {beyond beyond' : List Occurrence} (hbeyond : beyond' ⊆ beyond) {j id : Nat} {σ : Scope}
    {ws : List (Visited (Slot Symbol Note))} (h : visitAll c p beyond j id σ ss = .ok ws) :
    visitAll c' p beyond' j id σ ss = .ok ws := by
  induction ss generalizing j id σ ws with
  | nil => exact h
  | cons s ss ih =>
    rw [List.flatMap_cons] at hc
    obtain ⟨w, ws, hw, hws, rfl⟩ := visitAll_cons_eq_ok.1 h
    have hw := visit_of_relaxes (hc.mono (List.subset_append_left ..)) (List.Subset.refl _) hbeyond hw
    have hws := ih (hc.mono (List.subset_append_right ..)) hws
    exact visitAll_cons_eq_ok.2 ⟨w, ws, hw, hws, rfl⟩

end Slot

theorem Pattern.checkHandle_of_ok {p : Place} {σ : Scope} {q : Pattern Symbol α} {u : Unit}
    (h : q.checkHandle c p σ = .ok u) : q.checkHandle c' p σ = .ok u := by
  unfold checkHandle at h ⊢
  split at h
  · rfl
  · split at h
    · rfl
    · cases h

namespace Condition

/-- **Compiling a condition** succeeds where less is asked of it, also with other conditions after it
that hold fewer occurrences. -/
theorem visit_of_relaxes {k : Condition Symbol α} (hc : c.Relaxes (k.expressions.map Term.height) c')
    {pattern joins id : Nat} {σ : Scope} {rest rest' : Lhs Symbol α}
    (hrest : Lhs.reachAfter pattern k rest' ⊆ Lhs.reachAfter pattern k rest) {v : VisitedCondition}
    (h : k.visit c pattern joins id σ rest = .ok v) : k.visit c' pattern joins id σ rest' = .ok v := by
  obtain ⟨element, beginDepth, endDepth, n⟩ := k
  cases element with
  | pattern mode q =>
    obtain ⟨⟨⟩, hhandle, h⟩ := bind_eq_ok.1 h
    obtain ⟨⟨⟩, hown, h⟩ := bind_eq_ok.1 h
    obtain ⟨ws, hws, h⟩ := bind_eq_ok.1 h
    have hahead := append_subset_append (List.Subset.refl (Slot.occurrencesAll pattern 1 q.slots)) hrest
    rw [expressions, List.map_flatMap] at hc
    have hws := Slot.visitAll_of_relaxes hc hrest hws
    exact bind_eq_ok.2 ⟨⟨⟩, Pattern.checkHandle_of_ok hhandle,
      bind_eq_ok.2 ⟨⟨⟩, Context.forM_permit_of_subset hahead hown, bind_eq_ok.2 ⟨ws, hws, h⟩⟩⟩
  | test t =>
    obtain ⟨u, hu, h⟩ := bind_eq_ok.1 h
    have ht : (t.resolve σ ⟨pattern, none⟩).height ∈ [t].map Term.height := by simp
    have hu := Term.bind_of_relaxes hc ht hu
    refine bind_eq_ok.2 ⟨u, hu, ?_⟩
    rw [Term.demands_congr hc.functions]
    exact h

end Condition

namespace Lhs

theorem reach_append_subset (floor pattern : Nat) (l m : Lhs Symbol α) :
    reach floor pattern l ⊆ reach floor pattern (l ++ m) := by
  induction l generalizing pattern with
  | nil => exact List.nil_subset _
  | cons k ks ih =>
    rw [List.cons_append, reach, reach]
    refine append_subset_append (List.Subset.refl _) ?_
    split
    · exact ih (pattern + 1)
    · exact List.Subset.refl _

theorem reachAfter_append_subset (pattern : Nat) (k : Condition Symbol α) (l m : Lhs Symbol α) :
    reachAfter pattern k l ⊆ reachAfter pattern k (l ++ m) := by
  rw [reachAfter, reachAfter]
  split
  · exact reach_append_subset k.beginDepth (pattern + 1) l m
  · exact List.Subset.refl _

/-- **The first conditions** of a left-hand side compile as they do with the others behind them. -/
theorem compileFrom_of_relaxes {l m : Lhs Symbol α} (hc : c.Relaxes (l.expressions.map Term.height) c')
    {pattern joins id : Nat} {σ : Scope} {u : Lhs Symbol Note}
    (h : compileFrom c pattern joins id σ (l ++ m) = .ok u) :
    ∃ us vs, compileFrom c' pattern joins id σ l = .ok us ∧ u = us ++ vs := by
  induction l generalizing pattern joins id σ u with
  | nil => exact ⟨[], u, rfl, rfl⟩
  | cons k ks ih =>
    rw [expressions, List.flatMap_cons, List.map_append] at hc
    obtain ⟨v, us, hv, hus, rfl⟩ := compileFrom_cons_eq_ok.1 h
    have hrest := reachAfter_append_subset pattern k ks m
    have hv := Condition.visit_of_relaxes (hc.mono (List.subset_append_left ..)) hrest hv
    obtain ⟨us, vs, hks, rfl⟩ := ih (hc.mono (List.subset_append_right ..)) hus
    exact ⟨v.condition :: us, vs, compileFrom_cons_eq_ok.2 ⟨v, us, hv, hks, rfl⟩, rfl⟩

end Lhs

end Relaxes

end Antecedent
