import Antecedent.Proofs.Meets
import Antecedent.Proofs.Visibility

/-!
# What scopes hold

Besides binding occurrences a scope holds what fields and tests demand of variables. All of it is read
off the compiled conditions again.

* `ConditionAt.entries` lists what a compiled condition adds to the scope, each binding with the number
  of the first node of the condition that sees it.
* `Scope.Collects` says that a scope holds the entries of the conditions read so far that are still
  seen, and that their bounds are numbers; `Scope.Collects.leave` says that compiling a condition keeps
  it, and `Lhs.exists_visit_collecting` that a whole compilation does.
* `Lhs.InScope` says of a binding that it is in scope at a node, and `Lhs.inScope_iff` and
  `ConditionAt.exists_entry_iff` say what that means inside of a condition.
-/

namespace Antecedent

variable {α : Type}

/-! ## What a condition adds to the scope -/

/-- A binding, and the number of the first node of its own condition that sees it. -/
structure Entry where
  start : Nat
  binding : Binding

/-- The binding that a compiled field made. -/
def FieldAt.ownBinding (z : FieldAt Note) : Option Binding :=
  z.field.binds?.map fun b =>
    ⟨b.1, b.2, some ⟨z.id, z.place⟩, z.field.note.restriction, z.place.beginDepth⟩

/-- What a compiled field adds to the scope: its demands are seen behind it, its own binding below it
already. -/
def FieldAt.entries (e : Environment) (z : FieldAt Note) : List Entry :=
  (Field.demands e z.conjuncts).map
      (fun d => ⟨z.id + z.field.size, d.binding z.place.beginDepth⟩) ++
    z.ownBinding.toList.map (Entry.mk (z.id + 1))

namespace ConditionAt

/-- The binding of a match handle. -/
def handleBinding (y : ConditionAt α) : Option Binding :=
  y.handle.map fun h => ⟨h.1, .single, some h.2, some .address, y.condition.beginDepth⟩

/-- What a test demands. -/
def demands (e : Environment) (y : ConditionAt Note) : List Demand :=
  match y.condition.element with
  | .pattern _ _ => []
  | .test t => t.demands e

/-- What a compiled condition adds to the scope. -/
def entries (e : Environment) (y : ConditionAt Note) : List Entry :=
  y.handleBinding.toList.map (Entry.mk (y.id + 1)) ++ y.fields.flatMap (FieldAt.entries e) ++
    (y.demands e).map fun d => ⟨y.id + y.condition.size, d.binding y.condition.beginDepth⟩

end ConditionAt

theorem FieldAt.mem_entries_iff {e : Environment} {z : FieldAt Note} {m : Entry} :
    m ∈ z.entries e ↔ (∃ d ∈ Field.demands e z.conjuncts,
        m = ⟨z.id + z.field.size, d.binding z.place.beginDepth⟩) ∨
      ∃ b ∈ z.ownBinding, m = ⟨z.id + 1, b⟩ := by
  simp only [entries, List.mem_append, List.mem_map, Option.mem_toList,
    Option.mem_def, @eq_comm Entry]

theorem ConditionAt.mem_entries_iff {e : Environment} {y : ConditionAt Note} {m : Entry} :
    m ∈ y.entries e ↔ (∃ b ∈ y.handleBinding, m = ⟨y.id + 1, b⟩) ∨
      (∃ z ∈ y.fields, m ∈ z.entries e) ∨
      ∃ d ∈ y.demands e, m = ⟨y.id + y.condition.size, d.binding y.condition.beginDepth⟩ := by
  simp only [entries, List.mem_append, List.mem_map, List.mem_flatMap, Option.mem_toList,
    Option.mem_def, @eq_comm Entry, or_assoc]

theorem FieldVisit.ownBinding_result {c : Context} {t : FieldVisit α}
    (h : t.source.Compiles c t.scope t.visited) :
    t.result.ownBinding = t.source.own t.scope := by
  obtain ⟨σ, ⟨p, id, f⟩, visited⟩ := t
  obtain ⟨bound, -, hv⟩ := h
  dsimp only at hv
  subst hv
  cases f with
  | multi ps as declared n => rfl
  | plain b as declared n => cases b <;> rfl

theorem Entry.map_binding_mk (start : Nat) (bs : List Binding) :
    (bs.map (Entry.mk start)).map Entry.binding = bs := by
  rw [List.map_map]
  exact List.map_id bs

/-- A compiled field has entries for the bindings it made. -/
theorem FieldVisit.map_binding_entries {c : Context} {t : FieldVisit α}
    (h : t.source.Compiles c t.scope t.visited) :
    (t.result.entries c.env).map Entry.binding = t.visited.bindings := by
  rw [FieldAt.entries, conjuncts_result h, ownBinding_result h, List.map_append, List.map_map,
    Entry.map_binding_mk]
  obtain ⟨bound, -, hv⟩ := h
  rw [hv]
  rfl

theorem FieldVisit.Run.map_binding_entries {c : Context} {σ : Scope} {ts : List (FieldVisit α)}
    (h : Run c σ ts) :
    ((ts.map result).flatMap (FieldAt.entries c.env)).map Entry.binding = bindings ts := by
  induction h with
  | nil σ => rfl
  | cons head tail ih =>
    rw [List.map_cons, List.flatMap_cons, List.map_append, bindings_cons, ih,
      FieldVisit.map_binding_entries head]

namespace ConditionAt

theorem handleBinding_eq {y : ConditionAt α} {mode : Mode} {q : Pattern Symbol α}
    (hy : y.condition.element = .pattern mode q) :
    y.handleBinding =
      q.binding? (q.place y.pattern (y.joins + 1) y.condition.beginDepth) y.id := by
  rw [handleBinding, handle, hy]
  cases hq : q.handle <;> simp [Pattern.binding?, Pattern.place, hq]

theorem handleBinding_of_test {y : ConditionAt α} {t : Term Symbol α}
    (hy : y.condition.element = .test t) : y.handleBinding = none := by
  rw [handleBinding, handle, hy]
  rfl

end ConditionAt

namespace Condition

section

variable {c : Context} {pattern joins id : Nat} {σ : Scope} {rest : Lhs Symbol α}
  {k : Condition Symbol α} {v : VisitedCondition} (h : k.visit c pattern joins id σ rest = .ok v)
  {mode : Mode} {q : Pattern Symbol α} (hk : k.element = .pattern mode q)

include h hk

theorem handleBinding_of_visit :
    (⟨pattern, joins, id, v.condition⟩ : ConditionAt Note).handleBinding =
      q.binding? (q.place pattern (joins + 1) k.beginDepth) id := by
  have hdepth : v.condition.beginDepth = k.beginDepth :=
    congrArg Condition.beginDepth (bare_of_visit h)
  rw [← ConditionAt.handleBinding_eq (y := ⟨pattern, joins, id, k⟩) hk, ConditionAt.handleBinding,
    handle_of_visit h, hdepth]
  rfl

theorem demands_of_visit (e : Environment) :
    (⟨pattern, joins, id, v.condition⟩ : ConditionAt Note).demands e = [] := by
  rw [ConditionAt.demands]
  split
  · rfl
  · next t ht => exact absurd ht (element_ne_test_of_bare (bare_of_visit h) hk t)

end

/-- Compiling a condition adds its entries to the scope. -/
theorem inside_eq_entries {c : Context} {pattern joins id : Nat} {σ : Scope} {rest : Lhs Symbol α}
    {k : Condition Symbol α} {v : VisitedCondition}
    (h : k.visit c pattern joins id σ rest = .ok v) :
    v.inside = σ ++
      ((⟨pattern, joins, id, v.condition⟩ : ConditionAt Note).entries c.env).map Entry.binding := by
  cases hk : k.element with
  | pattern mode q =>
    obtain ⟨ts, hrun, -, hresult, hinside, -, -⟩ := exists_run_of_visit hk h
    have hfields : (⟨pattern, joins, id, v.condition⟩ : ConditionAt Note).fields =
        ts.map FieldVisit.result := hresult.symm
    rw [hinside, ConditionAt.entries, handleBinding_of_visit h hk, demands_of_visit h hk, hfields,
      List.map_append, List.map_append, hrun.map_binding_entries, Entry.map_binding_mk, List.map_nil,
      List.map_nil, List.append_nil, List.append_assoc]
  | test t =>
    obtain ⟨u, -, hv, hinside⟩ := exists_bind_of_visit hk h
    rw [hinside, hv, ConditionAt.entries, ConditionAt.handleBinding_of_test rfl, List.map_append,
      List.map_map]
    rfl

end Condition

/-! ## Bounds that are numbers -/

/-- The restrictions declared for the fields of a condition have bounds that are numbers. -/
def ConditionAt.Proper (y : ConditionAt α) : Prop :=
  ∀ x ∈ y.fields, ∀ a ∈ x.field.declared, a.Proper

instance (y : ConditionAt α) : Decidable y.Proper :=
  inferInstanceAs (Decidable (∀ x ∈ y.fields, ∀ a ∈ x.field.declared, a.Proper))

theorem FieldAt.Compiles.proper_bindings {c : Context} {σ : Scope} {x : FieldAt α}
    {v : Visited (Field Symbol Note)} (h : x.Compiles c σ v) (he : c.env.Proper) (hσ : σ.Proper)
    (hx : ∀ a ∈ x.field.declared, a.Proper) : Scope.Proper v.bindings := by
  obtain ⟨bound, -, rfl⟩ := h
  refine Scope.Proper.append (fun b hb => ?_) fun b hb => ?_
  · obtain ⟨d, hd, rfl⟩ := List.mem_map.1 hb
    rintro a ⟨⟩
    exact Field.proper_demands he _ d hd
  · obtain ⟨⟨y, arity⟩, -, rfl⟩ := Option.map_eq_some_iff.1 (Option.mem_toList.1 hb)
    exact Scope.proper_restriction? hσ hx y

theorem FieldVisit.Run.proper_bindings {c : Context} {σ : Scope} {ts : List (FieldVisit α)}
    (h : Run c σ ts) (he : c.env.Proper) (hσ : σ.Proper)
    (hts : ∀ t ∈ ts, ∀ a ∈ t.source.field.declared, a.Proper) : Scope.Proper (bindings ts) := by
  induction h with
  | nil σ =>
    intro b hb
    cases hb
  | cons head tail ih =>
    obtain ⟨ht, hts⟩ := List.forall_mem_cons.1 hts
    have hbindings := head.proper_bindings he hσ ht
    exact hbindings.append (ih (hσ.append hbindings) hts)

theorem Scope.proper_handle (p : Place) (id : Nat) (q : Pattern Symbol α) :
    Proper (q.binding? p id).toList := by
  intro b hb
  obtain ⟨x, -, rfl⟩ := Option.map_eq_some_iff.1 (Option.mem_toList.1 hb)
  rintro a ⟨⟩
  exact Restriction.proper_address

theorem Condition.proper_inside {c : Context} {pattern joins id : Nat} {σ : Scope}
    {rest : Lhs Symbol α} {k : Condition Symbol α} {v : VisitedCondition}
    (h : k.visit c pattern joins id σ rest = .ok v) (he : c.env.Proper) (hσ : σ.Proper)
    (hk : (⟨pattern, joins, id, k⟩ : ConditionAt α).Proper) : v.inside.Proper := by
  cases helement : k.element with
  | pattern mode q =>
    obtain ⟨ts, hrun, hsource, -, hinside, -, -⟩ := exists_run_of_visit helement h
    have hscope := hσ.append (Scope.proper_handle (q.place pattern (joins + 1) k.beginDepth) id q)
    rw [hinside]
    refine hscope.append (hrun.proper_bindings he hscope fun t ht => hk t.source ?_)
    exact (hsource ▸ List.mem_map_of_mem ht : t.source ∈ k.fieldsAt pattern joins id)
  | test t =>
    obtain ⟨u, -, -, hinside⟩ := exists_bind_of_visit helement h
    rw [hinside]
    refine hσ.append fun b hb => ?_
    obtain ⟨d, hd, rfl⟩ := List.mem_map.1 hb
    rintro a ⟨⟩
    exact Term.proper_demands he _ d hd

/-! ## Scopes collect entries -/

/-- What a condition adds to the scope is kept with the depth at which the condition begins. -/
theorem ConditionAt.floor_of_mem_entries {e : Environment} {y : ConditionAt Note} {m : Entry}
    (hm : m ∈ y.entries e) : m.binding.floor = y.condition.beginDepth := by
  rcases mem_entries_iff.1 hm with ⟨b, hb, rfl⟩ | ⟨z, hz, hm⟩ | ⟨d, -, rfl⟩
  · obtain ⟨h, -, rfl⟩ := Option.map_eq_some_iff.1 hb
    rfl
  · rw [← (place_of_mem_fields hz).2.1]
    rcases FieldAt.mem_entries_iff.1 hm with ⟨d, -, rfl⟩ | ⟨b, hb, rfl⟩
    · rfl
    · obtain ⟨x, -, rfl⟩ := Option.map_eq_some_iff.1 hb
      rfl
  · rfl

namespace Lhs

/-- What a condition adds to the scope is still seen in front of condition number `pattern`. -/
def Outlasts (l : Lhs Symbol α) (pattern : Nat) (y : ConditionAt α) : Prop :=
  y.condition.mode = .plain ∧
    ∀ k ∈ l.between (y.pattern - 1) (pattern - 1), y.condition.beginDepth ≤ k.endDepth

theorem conditionsAt_append (l l' : Lhs Symbol α) : conditionsAt (l ++ l') =
    l.conditionsAt ++ conditionsFrom (l.length + 1) l.joins l.nodeCount l' := by
  rw [conditionsAt, conditionsFrom_append, Nat.add_comm 1, Nat.zero_add]
  rfl

theorem exists_conditionsAt_concat {l : Lhs Symbol α} {k : Condition Symbol α}
    {P : ConditionAt α → Prop} :
    (∃ y ∈ conditionsAt (l ++ [k]), P y) ↔ (∃ y ∈ l.conditionsAt, P y) ∨ P (l.next k) := by
  rw [conditionsAt_append]
  simp [conditionsFrom, next, or_and_right, exists_or]

theorem pattern_of_mem_conditionsAt {l : Lhs Symbol α} {y : ConditionAt α}
    (hy : y ∈ l.conditionsAt) : 1 ≤ y.pattern ∧ y.pattern ≤ l.length := by
  obtain ⟨hle, hget⟩ := getElem?_of_mem_conditionsFrom hy
  have hlt := (List.getElem?_eq_some_iff.1 hget).1
  omega

/-- Whether an entry is seen in front of a condition depends on the conditions before that only. -/
theorem outlasts_append_iff {l l' : Lhs Symbol α} {y : ConditionAt α} :
    Outlasts (l ++ l') (l.length + 1) y ↔ l.Outlasts (l.length + 1) y := by
  have hbetween : between (l ++ l') (y.pattern - 1) (l.length + 1 - 1) =
      l.between (y.pattern - 1) (l.length + 1 - 1) := by
    simp [between]
  rw [Outlasts, Outlasts, hbetween]

theorem outlasts_concat_iff {l : Lhs Symbol α} {k : Condition Symbol α} {y : ConditionAt α}
    (hy : y ∈ l.conditionsAt) : Outlasts (l ++ [k]) (l.length + 2) y ↔
      l.Outlasts (l.length + 1) y ∧ y.condition.beginDepth ≤ k.endDepth := by
  have hpattern := pattern_of_mem_conditionsAt hy
  have hbetween : between (l ++ [k]) (y.pattern - 1) (l.length + 2 - 1) =
      l.between (y.pattern - 1) (l.length + 1 - 1) ++ [k] := by
    have hl : l.between (y.pattern - 1) (l.length + 1 - 1) = l.drop (y.pattern - 1) := by
      simp [between]
    rw [hl]
    exact between_concat l k (by omega)
  rw [Outlasts, Outlasts, hbetween, List.forall_mem_append, List.forall_mem_singleton, and_assoc]

theorem outlasts_next_iff {l : Lhs Symbol α} {k : Condition Symbol α} :
    Outlasts (l ++ [k]) (l.length + 2) (l.next k) ↔
      k.mode = .plain ∧ k.beginDepth ≤ k.endDepth := by
  have hbetween : between (l ++ [k]) ((l.next k).pattern - 1) (l.length + 2 - 1) = [k] :=
    (between_concat l k (Nat.le_refl _)).trans (by simp)
  rw [Outlasts, hbetween, List.forall_mem_singleton]
  rfl

end Lhs

namespace Scope

/-- A scope holds the entries of some compiled conditions that are still seen right behind them, and
their bounds are numbers. -/
structure Collects (e : Environment) (u : Lhs Symbol Note) (σ : Scope) : Prop where
  mem_iff : ∀ b, b ∈ σ ↔ ∃ y ∈ u.conditionsAt, u.Outlasts (u.length + 1) y ∧
    ∃ m ∈ y.entries e, m.binding = b
  proper : σ.Proper

theorem collects_nil (e : Environment) : Collects e [] [] := by
  refine ⟨fun b => ?_, fun b hb => ?_⟩
  · simp [Lhs.conditionsAt, Lhs.conditionsFrom]
  · cases hb

/-- What was in scope in front of a condition is seen behind it if its floor is not left. -/
theorem Collects.exists_outlasting_iff {e : Environment} {u : Lhs Symbol Note} {σ : Scope}
    (hσ : σ.Collects e u) {k : Condition Symbol Note} {b : Binding} :
    (∃ y ∈ u.conditionsAt, Lhs.Outlasts (u ++ [k]) (u.length + 2) y ∧ ∃ m ∈ y.entries e, m.binding = b) ↔
      b ∈ σ ∧ b.floor ≤ k.endDepth := by
  rw [hσ.mem_iff]
  constructor
  · rintro ⟨y, hy, houtlasts, m, hm, rfl⟩
    obtain ⟨hu, hle⟩ := (Lhs.outlasts_concat_iff hy).1 houtlasts
    rw [ConditionAt.floor_of_mem_entries hm]
    exact ⟨⟨y, hy, hu, m, hm, rfl⟩, hle⟩
  · rintro ⟨⟨y, hy, hu, m, hm, rfl⟩, hle⟩
    rw [ConditionAt.floor_of_mem_entries hm] at hle
    exact ⟨y, hy, (Lhs.outlasts_concat_iff hy).2 ⟨hu, hle⟩, m, hm, rfl⟩

/-- The entries of a condition itself are seen behind it only if it is plain. -/
theorem outlasting_next_iff {e : Environment} {u : Lhs Symbol Note} {k : Condition Symbol Note}
    {b : Binding} :
    (Lhs.Outlasts (u ++ [k]) (u.length + 2) (u.next k) ∧ ∃ m ∈ (u.next k).entries e, m.binding = b) ↔
      k.mode = .plain ∧ b ∈ ((u.next k).entries e).map Entry.binding ∧ b.floor ≤ k.endDepth := by
  rw [Lhs.outlasts_next_iff, List.mem_map, and_assoc]
  refine and_congr_right fun _ => ?_
  constructor
  · rintro ⟨hle, m, hm, rfl⟩
    exact ⟨⟨m, hm, rfl⟩, Nat.le_trans (Nat.le_of_eq (ConditionAt.floor_of_mem_entries hm)) hle⟩
  · rintro ⟨⟨m, hm, rfl⟩, hle⟩
    exact ⟨Nat.le_trans (Nat.le_of_eq (ConditionAt.floor_of_mem_entries hm).symm) hle, m, hm, rfl⟩

/-- Compiling a condition keeps the scope at the entries that are still seen. -/
theorem Collects.leave {c : Context} {u : Lhs Symbol Note} {rest : Lhs Symbol α}
    {k : Condition Symbol α} {σ : Scope} {v : VisitedCondition} (hσ : σ.Collects c.env u)
    (h : k.visit c (u.length + 1) u.joins u.nodeCount σ rest = .ok v) (he : c.env.Proper)
    (hk : (⟨u.length + 1, u.joins, u.nodeCount, k⟩ : ConditionAt α).Proper) :
    (σ.leave v.inside k).Collects c.env (u ++ [v.condition]) := by
  have hbare := Condition.bare_of_visit h
  have hmode : v.condition.mode = k.mode := Condition.mode_of_bare hbare
  have hend : v.condition.endDepth = k.endDepth := congrArg Condition.endDepth hbare
  have hlength : (u ++ [v.condition]).length + 1 = u.length + 2 := by simp
  have hinside : v.inside = σ ++ ((u.next v.condition).entries c.env).map Entry.binding :=
    Condition.inside_eq_entries h
  refine ⟨fun b => ?_, fun b hb => ?_⟩
  · rw [hlength, Lhs.exists_conditionsAt_concat, hσ.exists_outlasting_iff, outlasting_next_iff, hmode,
      hend, Scope.leave, List.mem_filter, decide_eq_true_eq]
    by_cases hplain : k.mode = .plain
    · rw [if_pos hplain, hinside, List.mem_append, or_and_right]
      exact or_congr_right (and_iff_right hplain).symm
    · rw [if_neg hplain]
      exact (or_iff_left fun hboth => hplain hboth.1).symm
  · have hb := (List.mem_filter.1 hb).1
    split at hb
    · exact Condition.proper_inside h he hσ.proper hk b hb
    · exact hσ.proper b hb

end Scope

namespace Lhs

/-- Every compiled condition comes from a step of the compilation, in a scope that collects the entries
of the compiled conditions before it. -/
theorem exists_visit_collecting {c : Context} (he : c.env.Proper) {u us : Lhs Symbol Note}
    {suffix : Lhs Symbol α} {σ : Scope} (hσ : σ.Collects c.env u)
    (hsuffix : ∀ y ∈ conditionsFrom (u.length + 1) u.joins u.nodeCount suffix, y.Proper)
    (h : compileFrom c (u.length + 1) u.joins u.nodeCount σ suffix = .ok us) {y : ConditionAt Note}
    (hy : y ∈ conditionsFrom (u.length + 1) u.joins u.nodeCount us) :
    ∃ (pre post : Lhs Symbol Note) (k : Condition Symbol α) (rest : Lhs Symbol α) (τ : Scope)
      (v : VisitedCondition), u ++ us = pre ++ v.condition :: post ∧ k ∈ suffix ∧
        (⟨pre.length + 1, pre.joins, pre.nodeCount, k⟩ : ConditionAt α).Proper ∧
        k.visit c (pre.length + 1) pre.joins pre.nodeCount τ rest = .ok v ∧
        τ.Collects c.env pre ∧ y = pre.next v.condition := by
  -- Each step moves a condition from the suffix to the compiled ones, whose entries the scope collects.
  induction suffix generalizing u us σ with
  | nil =>
    rw [compileFrom] at h
    obtain rfl := pure_eq_ok.1 h
    cases hy
  | cons k ks ih =>
    obtain ⟨v, us, hv, hus, rfl⟩ := compileFrom_cons_eq_ok.1 h
    obtain ⟨hk, hks⟩ := List.forall_mem_cons.1 hsuffix
    have hbare := Condition.bare_of_visit hv
    rcases List.mem_cons.1 hy with rfl | hy
    · exact ⟨u, us, k, ks, σ, v, rfl, List.mem_cons_self, hk, hv, hσ, rfl⟩
    · have hlength : (u ++ [v.condition]).length = u.length + 1 := by simp
      rw [← Condition.joinsAfter_of_bare hbare, ← Condition.size_of_bare hbare, ← joins_concat,
        ← nodeCount_concat, ← hlength] at hus hks
      rw [← joins_concat, ← nodeCount_concat, ← hlength] at hy
      obtain ⟨pre, post, k', rest, τ, w, heq, hmem, h⟩ := ih (hσ.leave hv he hk) hks hus hy
      refine ⟨pre, post, k', rest, τ, w, ?_, List.mem_cons_of_mem _ hmem, h⟩
      rw [← heq, List.append_assoc]
      rfl

/-- A binding is in scope at node number `i`, which belongs to condition number `pattern`. -/
def InScope (e : Environment) (u : Lhs Symbol Note) (pattern i : Nat) (b : Binding) : Prop :=
  ∃ y ∈ u.conditionsAt, ∃ m ∈ y.entries e, m.binding = b ∧
    ((y.pattern = pattern ∧ m.start ≤ i) ∨ (y.pattern < pattern ∧ u.Outlasts pattern y))

/-- In scope inside a condition are what the scope in front of it collects, and entries of its own. -/
theorem inScope_iff {e : Environment} {pre post : Lhs Symbol Note} {k : Condition Symbol Note}
    {τ : Scope} (hτ : τ.Collects e pre) {i : Nat} {b : Binding} :
    InScope e (pre ++ k :: post) (pre.length + 1) i b ↔
      b ∈ τ ∨ ∃ m ∈ (pre.next k).entries e, m.start ≤ i ∧ m.binding = b := by
  rw [InScope, conditionsAt_append, conditionsFrom]
  constructor
  · rintro ⟨y, hy, m, hm, rfl, hseen⟩
    rcases List.mem_append.1 hy with hy | hy
    · have hpattern := pattern_of_mem_conditionsAt hy
      rcases hseen with ⟨heq, -⟩ | ⟨-, houtlasts⟩
      · omega
      · exact .inl ((hτ.mem_iff _).2 ⟨y, hy, outlasts_append_iff.1 houtlasts, m, hm, rfl⟩)
    · rcases List.mem_cons.1 hy with rfl | hy
      · rcases hseen with ⟨-, hstart⟩ | ⟨hlt, -⟩
        · exact .inr ⟨m, hm, hstart, rfl⟩
        · exact absurd hlt (Nat.lt_irrefl _)
      · have hle := (getElem?_of_mem_conditionsFrom hy).1
        rcases hseen with ⟨heq, -⟩ | ⟨hlt, -⟩
        · omega
        · omega
  · rintro (hb | ⟨m, hm, hstart, rfl⟩)
    · obtain ⟨y, hy, houtlasts, m, hm, rfl⟩ := (hτ.mem_iff b).1 hb
      have hpattern := pattern_of_mem_conditionsAt hy
      exact ⟨y, List.mem_append_left _ hy, m, hm, rfl,
        .inr ⟨by omega, outlasts_append_iff.2 houtlasts⟩⟩
    · exact ⟨pre.next k, List.mem_append_right _ List.mem_cons_self, m, hm, rfl,
        .inl ⟨rfl, hstart⟩⟩

end Lhs

/-! ## The scopes of fields and tests -/

namespace FieldAt

/-- What a field adds to the scope is seen from below it on, at the latest from behind it on. -/
theorem start_of_mem_entries {e : Environment} {z : FieldAt Note} {m : Entry}
    (hm : m ∈ z.entries e) : z.id < m.start ∧ m.start ≤ z.id + z.field.size := by
  have hpos := z.field.size_pos
  rcases mem_entries_iff.1 hm with ⟨d, -, rfl⟩ | ⟨b, -, rfl⟩
  · exact ⟨Nat.lt_add_of_pos_right hpos, Nat.le_refl _⟩
  · exact ⟨Nat.lt_succ_self _, Nat.add_le_add_left hpos _⟩

/-- At a node of a field, of its own entries only its binding is in scope, and that below it. -/
theorem exists_entry_inside_iff {e : Environment} {z : FieldAt Note} {i : Nat}
    (hhi : i < z.id + z.field.size) {b : Binding} :
    (∃ m ∈ z.entries e, m.start ≤ i ∧ m.binding = b) ↔ z.id < i ∧ b ∈ z.ownBinding := by
  constructor
  · rintro ⟨m, hm, hstart, rfl⟩
    rcases mem_entries_iff.1 hm with ⟨d, -, rfl⟩ | ⟨b, hb, rfl⟩
    · exact absurd hstart (Nat.not_le.2 hhi)
    · exact ⟨hstart, hb⟩
  · rintro ⟨hlt, hb⟩
    exact ⟨⟨z.id + 1, b⟩, mem_entries_iff.2 (.inr ⟨b, hb, rfl⟩), hlt, rfl⟩

/-- At a node of a field, the entries of the fields before it are in scope, and its own binding
below it. -/
theorem Spread.exists_entry_iff {e : Environment} {lo hi i : Nat} {xs ys : List (FieldAt Note)}
    {z : FieldAt Note} (h : Spread hi lo (xs ++ z :: ys)) (hlo : z.id ≤ i)
    (hhi : i < z.id + z.field.size) {b : Binding} :
    (∃ m ∈ (xs ++ z :: ys).flatMap (entries e), m.start ≤ i ∧ m.binding = b) ↔
      b ∈ (xs.flatMap (entries e)).map Entry.binding ∨ (z.id < i ∧ b ∈ z.ownBinding) := by
  rw [List.flatMap_append, List.flatMap_cons, ← exists_entry_inside_iff hhi (e := e)]
  constructor
  · rintro ⟨m, hm, hstart, rfl⟩
    rcases List.mem_append.1 hm with hm | hm
    · exact .inl (List.mem_map_of_mem hm)
    · rcases List.mem_append.1 hm with hm | hm
      · exact .inr ⟨m, hm, hstart, rfl⟩
      · obtain ⟨w, hw, hm⟩ := List.mem_flatMap.1 hm
        have hle := h.tail.le_id hw
        have hlt := (start_of_mem_entries hm).1
        omega
  · rintro (hb | ⟨m, hm, hstart, rfl⟩)
    · obtain ⟨m, hm, rfl⟩ := List.mem_map.1 hb
      obtain ⟨w, hw, hmw⟩ := List.mem_flatMap.1 hm
      have hle := (List.pairwise_append.1 h.pairwise).2.2 w hw z List.mem_cons_self
      have hstart := (start_of_mem_entries hmw).2
      exact ⟨m, List.mem_append_left _ hm, by omega, rfl⟩
    · exact ⟨m, List.mem_append_right _ (List.mem_append_left _ hm), hstart, rfl⟩

end FieldAt

namespace ConditionAt

/-- At a node of a field, the handle and the entries of the fields before it are in scope, and the
field's own binding below it. -/
theorem exists_entry_iff {e : Environment} {y : ConditionAt Note} (hy : y.demands e = [])
    {xs ys : List (FieldAt Note)} {z : FieldAt Note} (hfields : y.fields = xs ++ z :: ys) {i : Nat}
    (hlo : z.id ≤ i) (hhi : i < z.id + z.field.size) {b : Binding} :
    (∃ m ∈ y.entries e, m.start ≤ i ∧ m.binding = b) ↔
      b ∈ y.handleBinding.toList ++ (xs.flatMap (FieldAt.entries e)).map Entry.binding ∨
        (z.id < i ∧ b ∈ z.ownBinding) := by
  have hspread : FieldAt.Spread (y.id + y.condition.size) (y.id + 1) (xs ++ z :: ys) :=
    hfields ▸ y.spread_fields
  have hid : y.id + 1 ≤ z.id := hspread.le_id (by simp)
  have hinside := hspread.exists_entry_iff hlo hhi (e := e) (b := b)
  rw [entries, hy, List.map_nil, List.append_nil, hfields, List.mem_append, or_assoc, ← hinside]
  constructor
  · rintro ⟨m, hm, hstart, rfl⟩
    rcases List.mem_append.1 hm with hm | hm
    · obtain ⟨b, hb, rfl⟩ := List.mem_map.1 hm
      exact .inl hb
    · exact .inr ⟨m, hm, hstart, rfl⟩
  · rintro (hb | ⟨m, hm, hstart, rfl⟩)
    · exact ⟨⟨y.id + 1, b⟩, List.mem_append_left _ (List.mem_map_of_mem hb), by dsimp only; omega, rfl⟩
    · exact ⟨m, List.mem_append_right _ hm, hstart, rfl⟩

/-- What a test demands is not seen inside of it. -/
theorem not_exists_entry_of_test {e : Environment} {y : ConditionAt Note} {t : Term Symbol Note}
    (hy : y.condition.element = .test t) {i : Nat} (hi : i < y.id + y.condition.size) {b : Binding} :
    ¬ ∃ m ∈ y.entries e, m.start ≤ i ∧ m.binding = b := by
  rintro ⟨m, hm, hstart, -⟩
  rcases mem_entries_iff.1 hm with ⟨b, hb, -⟩ | ⟨z, hz, -⟩ | ⟨d, -, rfl⟩
  · rw [handleBinding_of_test hy] at hb
    cases hb
  · rw [fields, Condition.fieldsAt, hy] at hz
    cases hz
  · exact absurd hstart (Nat.not_le.2 hi)

end ConditionAt

end Antecedent
