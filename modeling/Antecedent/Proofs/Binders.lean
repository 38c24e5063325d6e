import Antecedent.Proofs.Origins

/-!
# Binding occurrences

The binding occurrences of a left-hand side are its match handles and its variable fields. They can
be listed without compiling, and while the left-hand side is compiled the scope holds some of them, in
the order of the list.

* `ConditionAt.binders` and `Lhs.binders` list binding occurrences with their names, and
  `Scope.binders` those in a scope.
* `FieldVisit.Run.binders_bindings` says what the fields of a pattern add to the scope.
* `Condition.binders_leave` says what is in scope behind a condition.
* `FieldAt.Spread.filter_binders` says which binding occurrences of a pattern have a number below that
  of a node of one of its fields.
* `Lhs.pairwise_binders` says that the binding occurrences are listed in the order of their numbers.
-/

namespace Antecedent

variable {α : Type}

/-! ## Lists of binding occurrences -/

/-- The binding occurrence that a field is, if it binds a variable. -/
def FieldAt.binder (x : FieldAt α) : Option (Symbol × Origin) :=
  x.field.binds?.map fun b => (b.1, ⟨x.id, x.place⟩)

namespace ConditionAt

/-- The match handle of a condition. -/
def handle (y : ConditionAt α) : Option (Symbol × Origin) :=
  match y.condition.element with
  | .pattern _ q =>
    q.handle.map fun h => (h, ⟨y.id, q.place y.pattern (y.joins + 1) y.condition.beginDepth⟩)
  | .test _ => none

/-- The binding occurrences in a condition: its handle, then its variable fields. -/
def binders (y : ConditionAt α) : List (Symbol × Origin) :=
  y.handle.toList ++ y.fields.filterMap FieldAt.binder

end ConditionAt

/-- The binding occurrences of a left-hand side, in order. -/
def Lhs.binders (l : Lhs Symbol α) : List (Symbol × Origin) :=
  l.conditionsAt.flatMap ConditionAt.binders

namespace Scope

/-- The binding occurrences in a scope with their names, the oldest first. -/
def binders (σ : Scope) : List (Symbol × Origin) := σ.filterMap fun b => b.origin.map (b.name, ·)

@[simp] theorem binders_append (σ τ : Scope) : binders (σ ++ τ) = σ.binders ++ τ.binders :=
  List.filterMap_append

/-- The binding occurrences of a name are those in the list that have it. -/
theorem origins_eq_binders (σ : Scope) (x : Symbol) :
    σ.origins x = (σ.binders.filter (·.1 = x)).map Prod.snd := by
  induction σ with
  | nil => rfl
  | cons b σ ih =>
    obtain ⟨name, arity, origin, restriction, floor⟩ := b
    have hcons (o : Option Origin) : binders (⟨name, arity, o, restriction, floor⟩ :: σ) =
        (o.map (name, ·)).toList ++ binders σ := by
      cases o <;> rfl
    have horigins (o : Option Origin) : origins (⟨name, arity, o, restriction, floor⟩ :: σ) x =
        (if name = x then o.toList else []) ++ origins σ x := by
      by_cases h : name = x <;> cases o <;> simp [origins, named, h]
    rw [hcons, horigins, ih]
    by_cases h : name = x <;> cases origin <;> simp [h]

/-- Bindings are kept with the depth at which their conditions begin. -/
def Level (σ : Scope) : Prop := ∀ b ∈ σ, ∀ o, b.origin = some o → b.floor = o.place.beginDepth

theorem Level.append {σ τ : Scope} (hσ : σ.Level) (hτ : τ.Level) : Level (σ ++ τ) := by
  intro b hb
  exact (List.mem_append.1 hb).elim (hσ b) (hτ b)

/-- Bindings that go out of scope at a depth are binding occurrences in conditions that begin deeper. -/
theorem Level.binders_filter {σ : Scope} (hσ : σ.Level) (depth : Nat) :
    binders (σ.filter fun b => b.floor ≤ depth) =
      σ.binders.filter fun b => b.2.place.beginDepth ≤ depth := by
  induction σ with
  | nil => rfl
  | cons b σ ih =>
    have ih := ih fun b' hb' => hσ b' (List.mem_cons_of_mem _ hb')
    have hb := hσ b List.mem_cons_self
    obtain ⟨name, arity, origin, restriction, floor⟩ := b
    cases origin with
    | none => by_cases h : floor ≤ depth <;> simpa [binders, h] using ih
    | some o =>
      obtain rfl : floor = o.place.beginDepth := hb o rfl
      by_cases h : o.place.beginDepth ≤ depth <;> simpa [binders, h] using ih

end Scope

/-! ## What a field adds -/

namespace FieldAt

theorem binders_demands (floor : Nat) (ds : List Demand) :
    Scope.binders (ds.map (Demand.binding floor)) = [] := by
  simp [Scope.binders, Demand.binding]

theorem binders_own (σ : Scope) (x : FieldAt α) :
    Scope.binders (x.own σ).toList = x.binder.toList := by
  cases h : x.field.binds? <;> simp [own, Field.binding?, binder, h, Scope.binders]

theorem Compiles.binders_bindings {c : Context} {σ : Scope} {x : FieldAt α}
    {v : Visited (Field Symbol Note)} (h : x.Compiles c σ v) :
    Scope.binders v.bindings = x.binder.toList := by
  obtain ⟨bound, -, rfl⟩ := h
  rw [outcome, Scope.binders_append, binders_demands, binders_own, List.nil_append]

theorem level_demands (floor : Nat) (ds : List Demand) :
    Scope.Level (ds.map (Demand.binding floor)) := by
  intro b hb o ho
  obtain ⟨d, -, rfl⟩ := List.mem_map.1 hb
  cases ho

theorem Compiles.level_bindings {c : Context} {σ : Scope} {x : FieldAt α}
    {v : Visited (Field Symbol Note)} (h : x.Compiles c σ v) : Scope.Level v.bindings := by
  obtain ⟨bound, -, rfl⟩ := h
  refine (level_demands _ _).append fun b hb o ho => ?_
  obtain ⟨⟨y, arity⟩, -, rfl⟩ := Option.map_eq_some_iff.1 (Option.mem_toList.1 hb)
  obtain rfl := Option.some.inj ho
  rfl

end FieldAt

namespace FieldVisit

theorem Run.binders_bindings {c : Context} {σ : Scope} {ts : List (FieldVisit α)} (h : Run c σ ts) :
    Scope.binders (bindings ts) = (ts.map source).filterMap FieldAt.binder := by
  induction h with
  | nil σ => rfl
  | @cons t ts head tail ih =>
    rw [bindings_cons, Scope.binders_append, head.binders_bindings, ih, List.map_cons,
      List.filterMap_cons]
    cases t.source.binder <;> rfl

theorem Run.level_bindings {c : Context} {σ : Scope} {ts : List (FieldVisit α)} (h : Run c σ ts) :
    Scope.Level (bindings ts) := by
  induction h with
  | nil σ =>
    intro b hb
    cases hb
  | cons head tail ih => exact head.level_bindings.append ih

/-- A field sees what was in scope before the first field, and what the fields before it bind. -/
theorem Run.scope_eq {c : Context} {σ : Scope} {ts us : List (FieldVisit α)} {t : FieldVisit α}
    (h : Run c σ (ts ++ t :: us)) : Run c σ ts ∧ t.scope = σ ++ bindings ts := by
  induction ts generalizing σ with
  | nil =>
    cases h with
    | cons head tail => exact ⟨.nil _, by simp⟩
  | cons s ts ih =>
    cases h with
    | cons head tail =>
      obtain ⟨hrun, hscope⟩ := ih tail
      exact ⟨.cons head hrun, by rw [hscope, bindings_cons, List.append_assoc]⟩

end FieldVisit

/-! ## What a condition adds -/

theorem ConditionAt.binders_handle {y : ConditionAt α} {mode : Mode} {q : Pattern Symbol α}
    (hy : y.condition.element = .pattern mode q) :
    Scope.binders
        (q.binding? (q.place y.pattern (y.joins + 1) y.condition.beginDepth) y.id).toList =
      y.handle.toList := by
  cases hq : q.handle <;> simp [Pattern.binding?, handle, hy, hq, Scope.binders]

theorem ConditionAt.id_of_mem_handle {y : ConditionAt α} {b : Symbol × Origin}
    (hb : b ∈ y.handle.toList) : b.2.id = y.id := by
  unfold handle at hb
  split at hb
  · obtain ⟨h, -, rfl⟩ := Option.map_eq_some_iff.1 (Option.mem_toList.1 hb)
    rfl
  · cases hb

namespace Condition

theorem binders_inside {c : Context} {pattern joins id : Nat} {σ : Scope} {rest : Lhs Symbol α}
    {k : Condition Symbol α} {v : VisitedCondition}
    (h : k.visit c pattern joins id σ rest = .ok v) :
    v.inside.binders = σ.binders ++ (⟨pattern, joins, id, k⟩ : ConditionAt α).binders := by
  cases hk : k.element with
  | pattern mode q =>
    obtain ⟨ts, hrun, hsource, -, hinside, -, -⟩ := exists_run_of_visit hk h
    have hhandle := ConditionAt.binders_handle (y := ⟨pattern, joins, id, k⟩) hk
    rw [hinside, Scope.binders_append, Scope.binders_append, hrun.binders_bindings, hsource, hhandle,
      List.append_assoc]
    rfl
  | test t =>
    obtain ⟨u, -, -, hinside⟩ := exists_bind_of_visit hk h
    have hbinders : (⟨pattern, joins, id, k⟩ : ConditionAt α).binders = [] := by
      simp [ConditionAt.binders, ConditionAt.handle, ConditionAt.fields, fieldsAt, hk]
    rw [hinside, Scope.binders_append, FieldAt.binders_demands, hbinders]

theorem level_inside {c : Context} {pattern joins id : Nat} {σ : Scope} {rest : Lhs Symbol α}
    {k : Condition Symbol α} {v : VisitedCondition}
    (h : k.visit c pattern joins id σ rest = .ok v) (hσ : σ.Level) : v.inside.Level := by
  cases hk : k.element with
  | pattern mode q =>
    obtain ⟨ts, hrun, -, -, hinside, -, -⟩ := exists_run_of_visit hk h
    rw [hinside]
    refine (hσ.append fun b hb o ho => ?_).append hrun.level_bindings
    obtain ⟨x, -, rfl⟩ := Option.map_eq_some_iff.1 (Option.mem_toList.1 hb)
    obtain rfl := Option.some.inj ho
    rfl
  | test t =>
    obtain ⟨u, -, -, hinside⟩ := exists_bind_of_visit hk h
    rw [hinside]
    exact hσ.append (FieldAt.level_demands _ _)

/-- Behind a condition, the scope holds what was visible in front of it and, unless it is negated or
existential, its own binding occurrences, as far as they begin no deeper than it ends. -/
theorem binders_leave {c : Context} {pattern joins id : Nat} {σ : Scope} {rest : Lhs Symbol α}
    {k : Condition Symbol α} {v : VisitedCondition}
    (h : k.visit c pattern joins id σ rest = .ok v) (hσ : σ.Level) :
    (σ.leave v.inside k).binders =
      (σ.binders ++ if k.mode = .plain then (⟨pattern, joins, id, k⟩ : ConditionAt α).binders
        else []).filter fun b => b.2.place.beginDepth ≤ k.endDepth := by
  unfold Scope.leave
  by_cases hmode : k.mode = .plain
  · rw [if_pos hmode, if_pos hmode, (level_inside h hσ).binders_filter, binders_inside h]
  · rw [if_neg hmode, if_neg hmode, hσ.binders_filter, List.append_nil]

theorem level_leave {c : Context} {pattern joins id : Nat} {σ : Scope} {rest : Lhs Symbol α}
    {k : Condition Symbol α} {v : VisitedCondition}
    (h : k.visit c pattern joins id σ rest = .ok v) (hσ : σ.Level) :
    (σ.leave v.inside k).Level := by
  intro b hb
  have hb := (List.mem_filter.1 hb).1
  split at hb
  · exact level_inside h hσ b hb
  · exact hσ b hb

end Condition

/-! ## Numbers -/

theorem Field.size_pos (f : Field Symbol α) : 0 < f.size := by
  cases f with
  | plain b as declared n => rw [size]; omega
  | multi ps as declared n => rw [size]; omega

namespace FieldAt

/-- The nodes of the fields follow one another, from number `lo` to before number `hi`. -/
def Spread (hi : Nat) : Nat → List (FieldAt α) → Prop
  | lo, [] => lo ≤ hi
  | lo, x :: xs => lo ≤ x.id ∧ Spread hi (x.id + x.field.size) xs

namespace Spread

theorem mono {lo lo' hi : Nat} {xs : List (FieldAt α)} (hlo : lo' ≤ lo) (h : Spread hi lo xs) :
    Spread hi lo' xs := by
  cases xs with
  | nil => exact Nat.le_trans hlo h
  | cons x xs => exact ⟨Nat.le_trans hlo h.1, h.2⟩

theorem append {lo mid hi : Nat} {xs ys : List (FieldAt α)} (hxs : Spread mid lo xs)
    (hys : Spread hi mid ys) : Spread hi lo (xs ++ ys) := by
  induction xs generalizing lo with
  | nil => exact hys.mono hxs
  | cons x xs ih => exact ⟨hxs.1, ih hxs.2⟩

theorem le_id {lo hi : Nat} {xs : List (FieldAt α)} (h : Spread hi lo xs) {x : FieldAt α}
    (hx : x ∈ xs) : lo ≤ x.id := by
  induction xs generalizing lo with
  | nil => cases hx
  | cons y ys ih =>
    rcases List.mem_cons.1 hx with rfl | hx
    · exact h.1
    · have hy := h.1
      have hys := ih h.2 hx
      omega

theorem id_lt {lo hi : Nat} {xs ys : List (FieldAt α)} {y : FieldAt α}
    (h : Spread hi lo (xs ++ y :: ys)) {x : FieldAt α} (hx : x ∈ xs) : x.id < y.id := by
  induction xs generalizing lo with
  | nil => cases hx
  | cons z zs ih =>
    rcases List.mem_cons.1 hx with rfl | hx
    · have hy := h.2.le_id (x := y) (by simp)
      have hsize := x.field.size_pos
      omega
    · exact ih h.2 hx

theorem tail {lo hi : Nat} {xs ys : List (FieldAt α)} {y : FieldAt α}
    (h : Spread hi lo (xs ++ y :: ys)) : Spread hi (y.id + y.field.size) ys := by
  induction xs generalizing lo with
  | nil => exact h.2
  | cons z zs ih => exact ih h.2

end Spread

end FieldAt

theorem Field.spread_partsAt (p : Place) (k id : Nat) (fs : List (Field Symbol α)) :
    FieldAt.Spread (id + sizeAll fs) id (partsAt p k id fs) := by
  induction fs generalizing k id with
  | nil => simp [partsAt, FieldAt.Spread]
  | cons f fs ih =>
    refine ⟨Nat.le_refl id, ?_⟩
    rw [sizeAll, ← Nat.add_assoc]
    exact ih (k + 1) (id + f.size)

theorem Slot.spread_fieldsAt (p : Place) (id : Nat) (s : Slot Symbol α) :
    FieldAt.Spread (id + s.field.size) id (s.fieldsAt p id) := by
  obtain ⟨name, f⟩ := s
  cases f with
  | plain b as declared n => exact ⟨Nat.le_refl id, Nat.le_refl _⟩
  | multi ps as declared n =>
    rw [Field.size, ← Nat.add_assoc]
    exact (Field.spread_partsAt p 0 (id + 1) ps).mono (Nat.le_succ id)

theorem Slot.spread_fieldsAtAll (p : Place) (j id : Nat) (ss : List (Slot Symbol α)) :
    FieldAt.Spread (id + totalSize (fun s => s.field.size) ss) id (fieldsAtAll p j id ss) := by
  induction ss generalizing j id with
  | nil => simp [fieldsAtAll, FieldAt.Spread]
  | cons s ss ih =>
    rw [totalSize_cons, ← Nat.add_assoc]
    exact (spread_fieldsAt _ id s).append (ih (j + 1) (id + s.field.size))

/-- The fields of a condition have numbers after that of its own node. -/
theorem ConditionAt.spread_fields (y : ConditionAt α) :
    FieldAt.Spread (y.id + y.condition.size) (y.id + 1) y.fields := by
  obtain ⟨pattern, joins, id, element, beginDepth, endDepth, n⟩ := y
  cases element with
  | pattern mode q =>
    rw [Condition.size, ← Nat.add_assoc]
    exact Slot.spread_fieldsAtAll _ 1 (id + 1) q.slots
  | test t =>
    have hsize : (Condition.mk (.test t) beginDepth endDepth n).size = 1 + t.size := rfl
    simp only [fields, Condition.fieldsAt, FieldAt.Spread, hsize]
    omega

theorem FieldAt.binder_eq_some_iff {x : FieldAt α} {b : Symbol × Origin} :
    x.binder = some b ↔ (∃ arity, x.field.binds? = some (b.1, arity)) ∧ b.2 = ⟨x.id, x.place⟩ := by
  obtain ⟨y, o⟩ := b
  simp only [binder, Option.map_eq_some_iff, Prod.mk.injEq, Prod.exists]
  constructor
  · rintro ⟨z, arity, hz, rfl, rfl⟩
    exact ⟨⟨arity, hz⟩, rfl⟩
  · rintro ⟨⟨arity, hz⟩, rfl⟩
    exact ⟨y, arity, hz, rfl, rfl⟩

/-- Below the number of a node of a field there are the fields before it and, if the node is not that
of the field itself, the field. -/
theorem FieldAt.Spread.filter_binders {lo hi i : Nat} {xs ys : List (FieldAt α)} {x : FieldAt α}
    (h : Spread hi lo (xs ++ x :: ys)) (hlo : x.id ≤ i) (hhi : i ≤ x.id + x.field.size) :
    ((xs ++ x :: ys).filterMap binder).filter (fun b => b.2.id < i) =
      xs.filterMap binder ++ if x.id < i then x.binder.toList else [] := by
  have hbefore : (xs.filterMap binder).filter (fun b => decide (b.2.id < i)) = xs.filterMap binder := by
    rw [List.filter_eq_self]
    intro b hb
    obtain ⟨z, hz, hzb⟩ := List.mem_filterMap.1 hb
    have hid : b.2.id = z.id := by rw [(binder_eq_some_iff.1 hzb).2]
    have hlt := h.id_lt hz
    exact decide_eq_true (by omega)
  have hafter : (ys.filterMap binder).filter (fun b => decide (b.2.id < i)) = [] := by
    rw [List.filter_eq_nil_iff]
    intro b hb
    obtain ⟨z, hz, hzb⟩ := List.mem_filterMap.1 hb
    have hid : b.2.id = z.id := by rw [(binder_eq_some_iff.1 hzb).2]
    have hle := h.tail.le_id hz
    simp only [decide_eq_true_eq]
    omega
  have hown : x.binder.toList.filter (fun b => decide (b.2.id < i)) =
      if x.id < i then x.binder.toList else [] := by
    cases hx : x.binder with
    | none => simp
    | some b =>
      have hid : b.2.id = x.id := by rw [(binder_eq_some_iff.1 hx).2]
      by_cases hi : x.id < i <;> simp [hid, hi]
  have hcons : (x :: ys).filterMap binder = x.binder.toList ++ ys.filterMap binder := by
    rw [List.filterMap_cons]
    cases x.binder <;> rfl
  rw [List.filterMap_append, hcons, List.filter_append, List.filter_append, hbefore, hown, hafter,
    List.append_nil]

/-! ## Behind some conditions -/

namespace Lhs

/-- The number of patterns. -/
def joins (l : Lhs Symbol α) : Nat := l.foldl (fun joins k => k.joinsAfter joins) 0

/-- The number of nodes. -/
def nodeCount (l : Lhs Symbol α) : Nat := totalSize Condition.size l

/-- A condition with the numbers that it has right behind others. -/
def next (l : Lhs Symbol α) (k : Condition Symbol α) : ConditionAt α :=
  ⟨l.length + 1, l.joins, l.nodeCount, k⟩

@[simp] theorem joins_concat (l : Lhs Symbol α) (k : Condition Symbol α) :
    joins (l ++ [k]) = k.joinsAfter l.joins := by
  simp [joins]

@[simp] theorem nodeCount_concat (l : Lhs Symbol α) (k : Condition Symbol α) :
    nodeCount (l ++ [k]) = l.nodeCount + k.size := by
  simp [nodeCount]

theorem conditionsFrom_append (pattern joins id : Nat) (l l' : Lhs Symbol α) :
    conditionsFrom pattern joins id (l ++ l') = conditionsFrom pattern joins id l ++
      conditionsFrom (pattern + l.length) (l.foldl (fun joins k => k.joinsAfter joins) joins)
        (id + l.nodeCount) l' := by
  induction l generalizing pattern joins id with
  | nil => rfl
  | cons k ks ih =>
    have hcount : nodeCount (k :: ks) = k.size + nodeCount ks := by simp [nodeCount]
    have hlength : pattern + (k :: ks).length = pattern + 1 + ks.length := by
      rw [List.length_cons]
      omega
    rw [List.cons_append, conditionsFrom, ih, hcount, hlength, ← Nat.add_assoc]
    rfl

theorem binders_append (l l' : Lhs Symbol α) :
    binders (l ++ l') = l.binders ++
      (conditionsFrom (l.length + 1) l.joins l.nodeCount l').flatMap ConditionAt.binders := by
  rw [binders, conditionsAt, conditionsFrom_append, List.flatMap_append, Nat.add_comm 1, Nat.zero_add]
  rfl

theorem binders_concat (l : Lhs Symbol α) (k : Condition Symbol α) :
    binders (l ++ [k]) = l.binders ++ (l.next k).binders := by
  rw [binders_append]
  simp [conditionsFrom, next]

theorem getElem?_of_mem_conditionsFrom {pattern joins id : Nat} {l : Lhs Symbol α}
    {y : ConditionAt α} (hy : y ∈ conditionsFrom pattern joins id l) :
    pattern ≤ y.pattern ∧ l[y.pattern - pattern]? = some y.condition := by
  induction l generalizing pattern joins id with
  | nil => cases hy
  | cons k ks ih =>
    rcases List.mem_cons.1 hy with rfl | hy
    · simp
    · obtain ⟨hle, hget⟩ := ih hy
      have hsucc : y.pattern - pattern = y.pattern - (pattern + 1) + 1 := by omega
      rw [hsucc, List.getElem?_cons_succ]
      exact ⟨by omega, hget⟩

theorem id_le_of_mem_conditionsFrom {pattern joins id : Nat} {l : Lhs Symbol α} {y : ConditionAt α}
    (hy : y ∈ conditionsFrom pattern joins id l) : id ≤ y.id := by
  induction l generalizing pattern joins id with
  | nil => cases hy
  | cons k ks ih =>
    rcases List.mem_cons.1 hy with rfl | hy
    · exact Nat.le_refl _
    · have hid := ih hy
      omega

/-- The numbers of the conditions and of their nodes increase. -/
theorem pairwise_conditionsFrom (pattern joins id : Nat) (l : Lhs Symbol α) :
    (conditionsFrom pattern joins id l).Pairwise fun y z =>
      y.pattern < z.pattern ∧ y.id + y.condition.size ≤ z.id := by
  induction l generalizing pattern joins id with
  | nil => exact .nil
  | cons k ks ih =>
    refine List.pairwise_cons.2 ⟨fun z hz => ?_, ih _ _ _⟩
    exact ⟨(getElem?_of_mem_conditionsFrom hz).1, id_le_of_mem_conditionsFrom hz⟩

/-- No two conditions have the same number. -/
theorem eq_of_pattern_eq {l : Lhs Symbol α} {y z : ConditionAt α} (hy : y ∈ l.conditionsAt)
    (hz : z ∈ l.conditionsAt) (h : y.pattern = z.pattern) : y = z := by
  obtain ⟨i, hi, rfl⟩ := List.mem_iff_getElem.1 hy
  obtain ⟨j, hj, rfl⟩ := List.mem_iff_getElem.1 hz
  have hpair := List.pairwise_iff_getElem.1 (pairwise_conditionsFrom 1 0 0 l)
  rcases Nat.lt_trichotomy i j with hlt | rfl | hlt
  · exact absurd h (Nat.ne_of_lt (hpair i j hi hj hlt).1)
  · rfl
  · exact absurd h.symm (Nat.ne_of_lt (hpair j i hj hi hlt).1)

/-- Of two conditions, the one with the lower number has its nodes before the other. -/
theorem id_add_size_le_of_pattern_lt {l : Lhs Symbol α} {y z : ConditionAt α}
    (hy : y ∈ l.conditionsAt) (hz : z ∈ l.conditionsAt) (h : y.pattern < z.pattern) :
    y.id + y.condition.size ≤ z.id := by
  obtain ⟨i, hi, rfl⟩ := List.mem_iff_getElem.1 hy
  obtain ⟨j, hj, rfl⟩ := List.mem_iff_getElem.1 hz
  have hpair := List.pairwise_iff_getElem.1 (pairwise_conditionsFrom 1 0 0 l)
  rcases Nat.lt_trichotomy i j with hlt | rfl | hlt
  · exact (hpair i j hi hj hlt).2
  · exact absurd h (Nat.lt_irrefl _)
  · exact absurd h (Nat.lt_asymm (hpair j i hj hi hlt).1)

end Lhs

/-- The fields of a condition are at its places. -/
theorem ConditionAt.place_of_mem_fields {y : ConditionAt α} {x : FieldAt α} (hx : x ∈ y.fields) :
    x.place.pattern = y.pattern ∧ x.place.beginDepth = y.condition.beginDepth ∧
      x.place.site.joinDepth = y.joinDepth := by
  cases hq : y.condition.element with
  | pattern mode q =>
    have hplace := Condition.samePattern_of_mem_fieldsAt hq hx
    refine ⟨hplace.pattern_eq, hplace.beginDepth_eq, hplace.joinDepth_eq.trans ?_⟩
    rw [joinDepth, Condition.joinsAfter, hq]
    rfl
  | test t => simp [fields, Condition.fieldsAt, hq] at hx

/-- A binding occurrence stands in its condition. -/
theorem ConditionAt.place_of_mem_binders {y : ConditionAt α} {b : Symbol × Origin}
    (hb : b ∈ y.binders) :
    b.2.place.pattern = y.pattern ∧ b.2.place.beginDepth = y.condition.beginDepth := by
  obtain ⟨pattern, joins, id, k⟩ := y
  cases hk : k.element with
  | pattern mode q =>
    rcases List.mem_append.1 hb with hb | hb
    · simp only [handle, hk, Option.mem_toList, Option.map_eq_some_iff] at hb
      obtain ⟨h, -, rfl⟩ := hb
      exact ⟨rfl, rfl⟩
    · obtain ⟨x, hx, hxb⟩ := List.mem_filterMap.1 hb
      have hsame := Condition.samePattern_of_mem_fieldsAt hk hx
      rw [(FieldAt.binder_eq_some_iff.1 hxb).2]
      exact ⟨hsame.pattern_eq, hsame.beginDepth_eq⟩
  | test t => simp [binders, handle, fields, Condition.fieldsAt, hk] at hb

theorem Lhs.exists_of_mem_binders {l : Lhs Symbol α} {b : Symbol × Origin} (hb : b ∈ l.binders) :
    ∃ h, l[b.2.place.pattern - 1]? = some h ∧ 1 ≤ b.2.place.pattern ∧
      b.2.place.beginDepth = h.beginDepth := by
  obtain ⟨y, hy, hb⟩ := List.mem_flatMap.1 hb
  obtain ⟨hpattern, hdepth⟩ := ConditionAt.place_of_mem_binders hb
  obtain ⟨hle, hget⟩ := getElem?_of_mem_conditionsFrom hy
  rw [hpattern]
  exact ⟨y.condition, hget, hle, hdepth⟩

/-! ## Binding occurrences in the order of their numbers -/

namespace FieldAt.Spread

theorem lo_le {lo hi : Nat} {xs : List (FieldAt α)} (h : Spread hi lo xs) : lo ≤ hi := by
  induction xs generalizing lo with
  | nil => exact h
  | cons x xs ih =>
    have hlo := h.1
    have hhi := ih h.2
    omega

theorem id_add_size_le {lo hi : Nat} {xs : List (FieldAt α)} (h : Spread hi lo xs) {x : FieldAt α}
    (hx : x ∈ xs) : x.id + x.field.size ≤ hi := by
  induction xs generalizing lo with
  | nil => cases hx
  | cons y ys ih =>
    rcases List.mem_cons.1 hx with rfl | hx
    · exact h.2.lo_le
    · exact ih h.2 hx

theorem pairwise {lo hi : Nat} {xs : List (FieldAt α)} (h : Spread hi lo xs) :
    xs.Pairwise fun x y => x.id + x.field.size ≤ y.id := by
  induction xs generalizing lo with
  | nil => exact .nil
  | cons x xs ih => exact List.pairwise_cons.2 ⟨fun y hy => h.2.le_id hy, ih h.2⟩

end FieldAt.Spread

namespace ConditionAt

/-- The number of a binding occurrence is that of a node of its condition. -/
theorem id_of_mem_binders {y : ConditionAt α} {b : Symbol × Origin} (hb : b ∈ y.binders) :
    y.id ≤ b.2.id ∧ b.2.id < y.id + y.condition.size := by
  have hspread := y.spread_fields
  rcases List.mem_append.1 hb with hb | hb
  · have hid := id_of_mem_handle hb
    have hsize := hspread.lo_le
    omega
  · obtain ⟨x, hx, hxb⟩ := List.mem_filterMap.1 hb
    have hid : b.2.id = x.id := by rw [(FieldAt.binder_eq_some_iff.1 hxb).2]
    have hlo := hspread.le_id hx
    have hhi := hspread.id_add_size_le hx
    have hpos := x.field.size_pos
    omega

theorem pairwise_binders (y : ConditionAt α) : y.binders.Pairwise fun b b' => b.2.id < b'.2.id := by
  have hspread := y.spread_fields
  refine List.pairwise_append.2 ⟨?_, ?_, fun b hb b' hb' => ?_⟩
  · cases y.handle with
    | none => exact .nil
    | some b => exact List.pairwise_singleton _ _
  · refine hspread.pairwise.filterMap _ fun x x' hlt b hb b' hb' => ?_
    rw [(FieldAt.binder_eq_some_iff.1 hb).2, (FieldAt.binder_eq_some_iff.1 hb').2]
    exact Nat.lt_of_lt_of_le (Nat.lt_add_of_pos_right x.field.size_pos) hlt
  · obtain ⟨x, hx, hxb⟩ := List.mem_filterMap.1 hb'
    rw [id_of_mem_handle hb, (FieldAt.binder_eq_some_iff.1 hxb).2]
    exact hspread.le_id hx

end ConditionAt

namespace Lhs

/-- The binding occurrences of a left-hand side are listed in the order of their numbers. -/
theorem pairwise_binders (l : Lhs Symbol α) : l.binders.Pairwise fun b b' => b.2.id < b'.2.id := by
  refine List.pairwise_flatMap.2 ⟨fun y _ => y.pairwise_binders, ?_⟩
  refine (pairwise_conditionsFrom 1 0 0 l).imp fun {y z} hyz b hb b' hb' => ?_
  have hlo := (ConditionAt.id_of_mem_binders hb).2
  have hhi := (ConditionAt.id_of_mem_binders hb').1
  have hid := hyz.2
  omega

end Lhs

end Antecedent
