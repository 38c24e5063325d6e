import Antecedent.Proofs.Binders
import Antecedent.Proofs.NodeNotes

/-!
# What a variable refers to

A compilation goes through a left-hand side with a scope, and notes at every variable the binding
occurrence that it finds there. This can be said without scopes: a binding occurrence is visible from
behind it in its own condition, and from a later condition if its own condition is a plain one and no
condition from there on ends at a lesser depth than that at which it begins.

* `Lhs.Sees` says this, and `Lhs.visible` lists the visible binding occurrences of a name.
* `Position.choose` takes the last one in the same condition or in a pattern over the same kind of
  entity, and the first one if there is none such.
* `Scope.Follows` says that a scope holds what is visible behind some conditions; compiling a
  condition keeps it.
* `Lhs.origin_eq_choose_visible` says that every variable of a compiled left-hand side refers to the
  chosen one, and that a variable in a constraint or an expression always refers to something.
-/

namespace Antecedent

variable {α : Type}

/-! ## Visible binding occurrences -/

namespace Lhs

/-- A binding occurrence in an earlier condition can still be seen from condition number `pattern`. -/
def Reaches (l : Lhs Symbol α) (pattern : Nat) (o : Origin) : Prop :=
  ∃ h ∈ l[o.place.pattern - 1]?, h.mode = .plain ∧
    ∀ k ∈ l.between (o.place.pattern - 1) (pattern - 1), h.beginDepth ≤ k.endDepth

instance (l : Lhs Symbol α) (pattern : Nat) (o : Origin) : Decidable (l.Reaches pattern o) :=
  inferInstanceAs (Decidable (∃ h ∈ l[o.place.pattern - 1]?, h.mode = .plain ∧
    ∀ k ∈ l.between (o.place.pattern - 1) (pattern - 1), h.beginDepth ≤ k.endDepth))

/-- A binding occurrence is visible at node number `i`, which belongs to condition number
`pattern`. -/
def Sees (l : Lhs Symbol α) (pattern i : Nat) (o : Origin) : Prop :=
  (o.place.pattern = pattern ∧ o.id < i) ∨ (o.place.pattern < pattern ∧ l.Reaches pattern o)

instance (l : Lhs Symbol α) (pattern i : Nat) (o : Origin) : Decidable (l.Sees pattern i o) :=
  inferInstanceAs (Decidable (_ ∨ _))

/-- The visible binding occurrences of a name, in order. -/
def visible (l : Lhs Symbol α) (pattern i : Nat) (x : Symbol) : List Origin :=
  (l.binders.filter fun b => b.1 = x ∧ l.Sees pattern i b.2).map Prod.snd

end Lhs

/-- The last binding occurrence in the same condition or in a pattern over the same kind of entity; the
first one if there is none such. -/
def Position.choose (p : Position) (os : List Origin) : Option Origin :=
  (os.filter fun o => o.place.pattern = p.pattern ∨ some o.place.site.kind = p.kind).getLast?.or
    os.head?

theorem Position.mem_of_choose {p : Position} {os : List Origin} {o : Origin}
    (h : p.choose os = some o) : o ∈ os := by
  rcases Option.or_eq_some_iff.1 h with hlast | ⟨-, hfirst⟩
  · exact List.mem_of_mem_filter (List.mem_of_getLast? hlast)
  · exact List.mem_of_head? hfirst

namespace Viewpoint

theorem foldl_choose_some (v : Viewpoint) (old : Origin) (os : List Origin) :
    os.foldl v.choose (some old) = some ((os.filter v.prefers).getLast?.getD old) := by
  induction os generalizing old with
  | nil => rfl
  | cons o os ih =>
    rw [List.foldl_cons, choose]
    by_cases h : v.prefers o = true
    · rw [if_pos h, ih, List.filter_cons_of_pos h]
      cases hlast : (os.filter v.prefers).getLast? with
      | none => simp [List.getLast?_eq_none_iff.1 hlast]
      | some o' => simp [List.getLast?_cons, hlast]
    · rw [if_neg h, ih, List.filter_cons_of_neg h]

/-- Going through the binding occurrences chooses the last one that is preferred, or else the first
one. -/
theorem foldl_choose (v : Viewpoint) (os : List Origin) :
    os.foldl v.choose none = (os.filter v.prefers).getLast?.or os.head? := by
  cases os with
  | nil => rfl
  | cons o os =>
    rw [List.foldl_cons, choose, foldl_choose_some]
    by_cases h : v.prefers o = true
    · rw [List.filter_cons_of_pos h, List.getLast?_cons]
      rfl
    · rw [List.filter_cons_of_neg h]
      cases (os.filter v.prefers).getLast? <;> rfl

end Viewpoint

/-- An occurrence at a position refers to the chosen one of what is in scope. -/
theorem Scope.origin?_eq_choose (σ : Scope) (p : Position) (x : Symbol) :
    σ.origin? ⟨p.pattern, p.kind⟩ x = p.choose (σ.origins x) := by
  rw [origin?, Viewpoint.foldl_choose, Position.choose]
  congr 3
  funext o
  simp [Viewpoint.prefers]

/-! ## Scopes hold what is visible -/

namespace Lhs

theorem reaches_iff_of_getElem? {l : Lhs Symbol α} {pattern : Nat} {o : Origin}
    {h : Condition Symbol α} (hh : l[o.place.pattern - 1]? = some h) :
    l.Reaches pattern o ↔ h.mode = .plain ∧
      ∀ k ∈ l.between (o.place.pattern - 1) (pattern - 1), h.beginDepth ≤ k.endDepth := by
  simp [Reaches, hh]

theorem between_concat (l : Lhs Symbol α) (k : Condition Symbol α) {i : Nat} (hi : i ≤ l.length) :
    between (l ++ [k]) i (l.length + 1) = l.drop i ++ [k] := by
  have htake : (l ++ [k]).take (l.length + 1) = l ++ [k] := List.take_of_length_le (by simp)
  rw [between, htake, List.drop_append_of_le_length hi]

/-- Whether a binding occurrence reaches a condition depends on the conditions before that only. -/
theorem reaches_append_iff {l l' : Lhs Symbol α} {b : Symbol × Origin} (hb : b ∈ l.binders) :
    Reaches (l ++ l') (l.length + 1) b.2 ↔ l.Reaches (l.length + 1) b.2 := by
  obtain ⟨h, hh, -, -⟩ := exists_of_mem_binders hb
  have hlt := (List.getElem?_eq_some_iff.1 hh).1
  have hget : (l ++ l')[b.2.place.pattern - 1]? = some h := by
    rw [List.getElem?_append_left hlt, hh]
  have hbetween : between (l ++ l') (b.2.place.pattern - 1) (l.length + 1 - 1) =
      l.between (b.2.place.pattern - 1) (l.length + 1 - 1) := by
    simp [between]
  rw [reaches_iff_of_getElem? hget, reaches_iff_of_getElem? hh, hbetween]

/-- A binding occurrence stays visible over a condition unless that ends too low. -/
theorem reaches_concat_iff {l : Lhs Symbol α} {k : Condition Symbol α} {b : Symbol × Origin}
    (hb : b ∈ l.binders) :
    Reaches (l ++ [k]) (l.length + 2) b.2 ↔
      l.Reaches (l.length + 1) b.2 ∧ b.2.place.beginDepth ≤ k.endDepth := by
  obtain ⟨h, hh, -, hdepth⟩ := exists_of_mem_binders hb
  have hlt := (List.getElem?_eq_some_iff.1 hh).1
  have hget : (l ++ [k])[b.2.place.pattern - 1]? = some h := by
    rw [List.getElem?_append_left hlt, hh]
  have hbetween : between (l ++ [k]) (b.2.place.pattern - 1) (l.length + 2 - 1) =
      l.between (b.2.place.pattern - 1) (l.length + 1 - 1) ++ [k] := by
    have hl : l.between (b.2.place.pattern - 1) (l.length + 1 - 1) =
        l.drop (b.2.place.pattern - 1) := by simp [between]
    rw [hl]
    exact between_concat l k (Nat.le_of_lt hlt)
  rw [reaches_iff_of_getElem? hget, reaches_iff_of_getElem? hh, hbetween, List.forall_mem_append,
    List.forall_mem_singleton, hdepth, and_assoc]

/-- The binding occurrences of a condition are visible behind it if it is a plain one and does not end
too low. -/
theorem reaches_next_iff {l : Lhs Symbol α} {k : Condition Symbol α} {b : Symbol × Origin}
    (hb : b ∈ (l.next k).binders) :
    Reaches (l ++ [k]) (l.length + 2) b.2 ↔
      k.mode = .plain ∧ b.2.place.beginDepth ≤ k.endDepth := by
  obtain ⟨hpattern, hdepth⟩ := ConditionAt.place_of_mem_binders hb
  have hindex : b.2.place.pattern - 1 = l.length := by
    rw [hpattern]
    rfl
  have hget : (l ++ [k])[b.2.place.pattern - 1]? = some k := by simp [hindex]
  have hbetween : between (l ++ [k]) (b.2.place.pattern - 1) (l.length + 2 - 1) = [k] := by
    rw [hindex]
    exact (between_concat l k (Nat.le_refl _)).trans (by simp)
  rw [reaches_iff_of_getElem? hget, hbetween, List.forall_mem_singleton, hdepth]
  rfl

end Lhs

/-- A scope holds the binding occurrences that are visible right behind some conditions. -/
structure Scope.Follows (l : Lhs Symbol α) (σ : Scope) : Prop where
  binders : σ.binders = l.binders.filter fun b => l.Reaches (l.length + 1) b.2
  level : σ.Level

namespace Scope

theorem follows_nil : Follows ([] : Lhs Symbol α) [] := by
  refine ⟨rfl, fun b hb => ?_⟩
  cases hb

/-- Compiling a condition keeps the scope at what is visible. -/
theorem Follows.leave {c : Context} {l rest : Lhs Symbol α} {k : Condition Symbol α} {σ : Scope}
    {v : VisitedCondition} (hσ : σ.Follows l)
    (h : k.visit c (l.length + 1) l.joins l.nodeCount σ rest = .ok v) :
    (σ.leave v.inside k).Follows (l ++ [k]) := by
  refine ⟨?_, Condition.level_leave h hσ.level⟩
  have hlength : (l ++ [k]).length + 1 = l.length + 2 := by simp
  -- What was visible before must outlast the condition; its own bindings count only if it is plain.
  have hold : l.binders.filter (fun b => decide (Lhs.Reaches (l ++ [k]) (l.length + 2) b.2)) =
      (l.binders.filter fun b => decide (l.Reaches (l.length + 1) b.2)).filter
        fun b => decide (b.2.place.beginDepth ≤ k.endDepth) := by
    rw [List.filter_filter]
    refine List.filter_congr fun b hb => ?_
    simp only [Lhs.reaches_concat_iff hb, Bool.decide_and, Bool.and_comm]
  have hnew : (l.next k).binders.filter
      (fun b => decide (Lhs.Reaches (l ++ [k]) (l.length + 2) b.2)) =
      (if k.mode = .plain then (l.next k).binders else []).filter
        fun b => decide (b.2.place.beginDepth ≤ k.endDepth) := by
    by_cases hmode : k.mode = .plain
    · rw [if_pos hmode]
      refine List.filter_congr fun b hb => ?_
      simp only [Lhs.reaches_next_iff hb, hmode, true_and]
    · rw [if_neg hmode, List.filter_nil, List.filter_eq_nil_iff]
      intro b hb
      simp [Lhs.reaches_next_iff hb, hmode]
  rw [Condition.binders_leave h hσ.level, hσ.binders, Lhs.binders_concat, hlength,
    List.filter_append, List.filter_append, hold, hnew]
  rfl

end Scope

namespace Lhs

/-- Every compiled condition comes from a step of the compilation, in a scope that holds what is
visible there. -/
theorem exists_visit_following {c : Context} {l suffix : Lhs Symbol α} {σ : Scope}
    {u : Lhs Symbol Note} (hσ : σ.Follows l)
    (h : compileFrom c (l.length + 1) l.joins l.nodeCount σ suffix = .ok u) {y : ConditionAt Note}
    (hy : y ∈ conditionsFrom (l.length + 1) l.joins l.nodeCount u) :
    ∃ (pre : Lhs Symbol α) (k : Condition Symbol α) (rest : Lhs Symbol α) (τ : Scope)
      (v : VisitedCondition), l ++ suffix = pre ++ k :: rest ∧
        k.visit c (pre.length + 1) pre.joins pre.nodeCount τ rest = .ok v ∧ τ.Follows pre ∧
        y = ⟨pre.length + 1, pre.joins, pre.nodeCount, v.condition⟩ := by
  -- Each step moves a condition from the suffix to what is behind, where the scope follows it.
  induction suffix generalizing l σ u with
  | nil =>
    rw [compileFrom] at h
    obtain rfl := pure_eq_ok.1 h
    cases hy
  | cons k ks ih =>
    obtain ⟨v, us, hv, hus, rfl⟩ := compileFrom_cons_eq_ok.1 h
    have hbare := Condition.bare_of_visit hv
    rw [conditionsFrom, Condition.joinsAfter_of_bare hbare, Condition.size_of_bare hbare] at hy
    rcases List.mem_cons.1 hy with rfl | hy
    · exact ⟨l, k, ks, σ, v, rfl, hv, hσ, rfl⟩
    · have hlength : (l ++ [k]).length = l.length + 1 := by simp
      rw [← joins_concat, ← nodeCount_concat, ← hlength] at hus hy
      obtain ⟨pre, k', rest, τ, w, heq, h⟩ := ih (hσ.leave hv) hus hy
      exact ⟨pre, k', rest, τ, w, by rw [← heq, List.append_assoc]; rfl, h⟩

theorem exists_split_of_mem_conditionsFrom {l suffix : Lhs Symbol α} {y : ConditionAt α}
    (hy : y ∈ conditionsFrom (l.length + 1) l.joins l.nodeCount suffix) :
    ∃ (pre : Lhs Symbol α) (k : Condition Symbol α) (rest : Lhs Symbol α),
      l ++ suffix = pre ++ k :: rest ∧ y = pre.next k := by
  induction suffix generalizing l with
  | nil => cases hy
  | cons k ks ih =>
    rcases List.mem_cons.1 hy with rfl | hy
    · exact ⟨l, k, ks, rfl, rfl⟩
    · have hlength : (l ++ [k]).length = l.length + 1 := by simp
      rw [← joins_concat, ← nodeCount_concat, ← hlength] at hy
      obtain ⟨pre, k', rest, heq, hy⟩ := ih hy
      exact ⟨pre, k', rest, by rw [← heq, List.append_assoc]; rfl, hy⟩

theorem mem_conditionsAt_split {pre rest : Lhs Symbol α} {k : Condition Symbol α}
    {y : ConditionAt α} :
    y ∈ conditionsAt (pre ++ k :: rest) ↔ y ∈ pre.conditionsAt ∨ y = pre.next k ∨
      y ∈ conditionsFrom (pre.length + 2) (k.joinsAfter pre.joins) (pre.nodeCount + k.size) rest := by
  rw [conditionsAt, conditionsFrom_append, List.mem_append, Nat.add_comm 1, Nat.zero_add,
    conditionsFrom, List.mem_cons]
  rfl

/-- Every condition of a left-hand side that compiles was compiled, in a scope that holds what is
visible there. -/
theorem exists_visit_of_split {c : Context} {l pre rest : Lhs Symbol α} {k : Condition Symbol α}
    {σ : Scope} {u : Lhs Symbol Note} (hσ : σ.Follows l)
    (h : compileFrom c (l.length + 1) l.joins l.nodeCount σ (pre ++ k :: rest) = .ok u) :
    ∃ τ v, τ.Follows (l ++ pre) ∧ k.visit c ((l ++ pre).length + 1) (l ++ pre).joins
      (l ++ pre).nodeCount τ rest = .ok v := by
  induction pre generalizing l σ u with
  | nil =>
    obtain ⟨v, us, hv, -, -⟩ := compileFrom_cons_eq_ok.1 h
    exact ⟨σ, v, by simpa using hσ, by simpa using hv⟩
  | cons k' ks ih =>
    obtain ⟨v, us, hv, hus, -⟩ := compileFrom_cons_eq_ok.1 h
    have hlength : (l ++ [k']).length = l.length + 1 := by simp
    rw [← joins_concat, ← nodeCount_concat, ← hlength] at hus
    have hks := ih (hσ.leave hv) hus
    rwa [List.append_assoc] at hks

theorem sees_iff_reaches {pre rest : Lhs Symbol α} {k : Condition Symbol α} {b : Symbol × Origin}
    (hb : b ∈ pre.binders) {i : Nat} :
    Sees (pre ++ k :: rest) (pre.length + 1) i b.2 ↔ pre.Reaches (pre.length + 1) b.2 := by
  obtain ⟨h, hh, hpos, -⟩ := exists_of_mem_binders hb
  have hlt := (List.getElem?_eq_some_iff.1 hh).1
  have hne : ¬ b.2.place.pattern = pre.length + 1 := by omega
  have hearlier : b.2.place.pattern < pre.length + 1 := by omega
  rw [Sees, reaches_append_iff hb]
  simp [hne, hearlier]

theorem sees_iff_lt {pre rest : Lhs Symbol α} {k : Condition Symbol α} {b : Symbol × Origin}
    (hb : b ∈ (pre.next k).binders) {i : Nat} :
    Sees (pre ++ k :: rest) (pre.length + 1) i b.2 ↔ b.2.id < i := by
  have hpattern : b.2.place.pattern = pre.length + 1 := (ConditionAt.place_of_mem_binders hb).1
  simp [Sees, hpattern]

/-- From inside a condition there are visible what reaches it, and what has a lower number in it. -/
theorem visible_eq (pre rest : Lhs Symbol α) (k : Condition Symbol α) (i : Nat) (x : Symbol) :
    visible (pre ++ k :: rest) (pre.length + 1) i x =
      (((pre.binders.filter fun b => pre.Reaches (pre.length + 1) b.2) ++
        (pre.next k).binders.filter fun b => b.2.id < i).filter (·.1 = x)).map Prod.snd := by
  have hbinders : binders (pre ++ k :: rest) = pre.binders ++ ((pre.next k).binders ++
      (conditionsFrom (pre.length + 1 + 1) (k.joinsAfter pre.joins) (pre.nodeCount + k.size)
        rest).flatMap ConditionAt.binders) := by
    rw [binders_append, conditionsFrom, List.flatMap_cons]
    rfl
  have hbefore : pre.binders.filter (fun b => decide (b.1 = x ∧
      Sees (pre ++ k :: rest) (pre.length + 1) i b.2)) =
      (pre.binders.filter fun b => decide (pre.Reaches (pre.length + 1) b.2)).filter
        (fun b => decide (b.1 = x)) := by
    rw [List.filter_filter]
    refine List.filter_congr fun b hb => ?_
    simp only [sees_iff_reaches hb, Bool.decide_and]
  have hinside : (pre.next k).binders.filter (fun b => decide (b.1 = x ∧
      Sees (pre ++ k :: rest) (pre.length + 1) i b.2)) =
      ((pre.next k).binders.filter fun b => decide (b.2.id < i)).filter
        (fun b => decide (b.1 = x)) := by
    rw [List.filter_filter]
    refine List.filter_congr fun b hb => ?_
    simp only [sees_iff_lt hb, Bool.decide_and]
  have hafter : ((conditionsFrom (pre.length + 1 + 1) (k.joinsAfter pre.joins)
      (pre.nodeCount + k.size) rest).flatMap ConditionAt.binders).filter (fun b => decide (b.1 = x ∧
        Sees (pre ++ k :: rest) (pre.length + 1) i b.2)) = [] := by
    rw [List.filter_eq_nil_iff]
    intro b hb hdec
    obtain ⟨y, hy, hb⟩ := List.mem_flatMap.1 hb
    have hpattern := (ConditionAt.place_of_mem_binders hb).1
    have hle := (getElem?_of_mem_conditionsFrom hy).1
    rcases (of_decide_eq_true hdec).2 with ⟨heq, -⟩ | ⟨hlt, -⟩
    · omega
    · omega
  rw [visible, hbinders, List.filter_append, List.filter_append, hbefore, hinside, hafter,
    List.append_nil, List.filter_append]

/-- In front of a condition, the scope holds the binding occurrences that are visible at its node. -/
theorem visible_eq_origins {pre : Lhs Symbol α} {τ : Scope} (hτ : τ.Follows pre)
    (k : Condition Symbol α) (rest : Lhs Symbol α) (x : Symbol) :
    (pre ++ k :: rest).visible (pre.length + 1) pre.nodeCount x = τ.origins x := by
  have hinside : (pre.next k).binders.filter (fun b => decide (b.2.id < pre.nodeCount)) = [] := by
    rw [List.filter_eq_nil_iff]
    intro b hb hlt
    have hle : pre.nodeCount ≤ b.2.id := (ConditionAt.id_of_mem_binders hb).1
    exact absurd (of_decide_eq_true hlt) (Nat.not_lt.2 hle)
  rw [visible_eq, hinside, List.append_nil, ← hτ.binders, Scope.origins_eq_binders]

end Lhs

/-! ## What the variables of a condition find -/

/-- Behind some fields of a pattern, the scope holds the binding occurrences that are visible at the
next field, and with that field's own binding those that are visible below it. -/
theorem Condition.origins_eq_visible {c : Context} {pre rest : Lhs Symbol α} {k : Condition Symbol α}
    {τ σ : Scope} {mode : Mode} {q : Pattern Symbol α} (hτ : τ.Follows pre)
    (hk : k.element = .pattern mode q) {ts : List (FieldVisit α)} {t : FieldAt α}
    {us : List (FieldAt α)}
    (hrun : FieldVisit.Run c (τ ++
      (q.binding? (q.place (pre.length + 1) (pre.joins + 1) k.beginDepth) pre.nodeCount).toList) ts)
    (hσ : σ = τ ++ (q.binding? (q.place (pre.length + 1) (pre.joins + 1) k.beginDepth)
      pre.nodeCount).toList ++ FieldVisit.bindings ts)
    (hfields : (pre.next k).fields = ts.map FieldVisit.source ++ t :: us) {i : Nat}
    (hlo : t.id ≤ i) (hhi : i ≤ t.id + t.field.size) (x : Symbol) :
    Scope.origins (σ ++ if t.id < i then (t.own σ).toList else []) x =
      (pre ++ k :: rest).visible (pre.length + 1) i x := by
  let y := pre.next k
  have hhandle : Scope.binders (q.binding? (q.place (pre.length + 1) (pre.joins + 1) k.beginDepth)
      pre.nodeCount).toList = y.handle.toList :=
    ConditionAt.binders_handle (y := y) hk
  have hspread : FieldAt.Spread (y.id + k.size) (y.id + 1) (ts.map FieldVisit.source ++ t :: us) :=
    hfields ▸ y.spread_fields
  have hid : y.id + 1 ≤ t.id := hspread.le_id (by simp)
  have hbelow : y.handle.toList.filter (fun b => decide (b.2.id < i)) = y.handle.toList := by
    rw [List.filter_eq_self]
    intro b hb
    have hb := ConditionAt.id_of_mem_handle hb
    exact decide_eq_true (by omega)
  have hinside : y.binders.filter (fun b => decide (b.2.id < i)) =
      y.handle.toList ++ ((ts.map FieldVisit.source).filterMap FieldAt.binder ++
        if t.id < i then t.binder.toList else []) := by
    rw [ConditionAt.binders, List.filter_append, hbelow, hfields, hspread.filter_binders hlo hhi]
  have hown : Scope.binders (if t.id < i then (t.own σ).toList else []) =
      if t.id < i then t.binder.toList else [] := by
    split
    · exact FieldAt.binders_own σ t
    · rfl
  rw [Scope.origins_eq_binders, Lhs.visible_eq, ← hτ.binders, hinside, Scope.binders_append, hown, hσ,
    Scope.binders_append, hrun.binders_bindings, Scope.binders_append, hhandle]
  simp only [List.append_assoc]

/-- The scope in front of a test holds the binding occurrences that are visible in it. -/
theorem Condition.origins_eq_visible_of_test {pre rest : Lhs Symbol α} {k : Condition Symbol α}
    {τ : Scope} {t : Term Symbol α} (hτ : τ.Follows pre) (hk : k.element = .test t) (i : Nat)
    (x : Symbol) : τ.origins x = (pre ++ k :: rest).visible (pre.length + 1) i x := by
  have hbinders : (pre.next k).binders = [] := by
    simp [ConditionAt.binders, ConditionAt.handle, ConditionAt.fields, fieldsAt, Lhs.next, hk]
  rw [Scope.origins_eq_binders, Lhs.visible_eq, ← hτ.binders, hbinders, List.filter_nil,
    List.append_nil]

/-! ## Match handles are new -/

/-- A handle may be bound if its name is not. -/
theorem Pattern.checkHandle_eq_ok {c : Context} {p : Place} {σ : Scope} {q : Pattern Symbol α}
    {u : Unit} : q.checkHandle c p σ = .ok u ↔ ∀ h ∈ q.handle, σ.origins h = [] := by
  unfold checkHandle
  split
  · next hnone => simp [hnone]
  · next h hsome =>
    split
    · next hnil => simp [hsome, List.getLast?_eq_none_iff.1 hnil]
    · next o hlast =>
      have hne : σ.origins h ≠ [] := fun hnil => by simp [hnil] at hlast
      simp [hsome, hne]

/-- A compiled pattern refers to nothing, and its handle is new. -/
theorem Condition.origins_handle_of_visit {c : Context} {pattern joins id : Nat} {σ : Scope}
    {rest : Lhs Symbol α} {k : Condition Symbol α} {v : VisitedCondition} {mode : Mode}
    {q : Pattern Symbol α} (hk : k.element = .pattern mode q)
    (h : k.visit c pattern joins id σ rest = .ok v) :
    v.condition.note.origin = none ∧ ∀ x ∈ q.handle, σ.origins x = [] := by
  obtain ⟨element, beginDepth, endDepth, n⟩ := k
  obtain rfl : element = .pattern mode q := hk
  obtain ⟨u, hhandle, h⟩ := bind_eq_ok.1 h
  obtain ⟨-, -, h⟩ := bind_eq_ok.1 h
  obtain ⟨ws, -, h⟩ := bind_eq_ok.1 h
  obtain rfl := pure_eq_ok.1 h
  exact ⟨rfl, Pattern.checkHandle_eq_ok.1 hhandle⟩

/-- The handle of a condition has a name of which no binding occurrence is visible at it. -/
theorem Lhs.visible_handle_eq_nil {c : Context} {l : Lhs Symbol α} {r : Lhs Symbol Note}
    (h : l.compile c = .ok r) {y : ConditionAt α} (hy : y ∈ l.conditionsAt) {x : Symbol} {o : Origin}
    (hx : y.handle = some (x, o)) : l.visible y.pattern y.id x = [] := by
  obtain ⟨u, hu, -⟩ := exists_compileFrom_of_compile h
  obtain ⟨pre, k, rest, heq, rfl⟩ := exists_split_of_mem_conditionsFrom (l := []) hy
  obtain rfl : l = pre ++ k :: rest := heq
  obtain ⟨τ, v, hτ, hv⟩ := exists_visit_of_split Scope.follows_nil hu
  cases hk : k.element with
  | test t => simp [ConditionAt.handle, next, hk] at hx
  | pattern mode q =>
    simp only [ConditionAt.handle, next, hk] at hx
    obtain ⟨x', hx', heq⟩ := Option.map_eq_some_iff.1 hx
    obtain rfl := congrArg Prod.fst heq
    exact (visible_eq_origins hτ k rest x').trans ((Condition.origins_handle_of_visit hk hv).2 x' hx')

/-- A variable at node number `i` refers to the chosen one of the visible binding occurrences. If it is
no binding occurrence itself, it refers to something. -/
def Lhs.Resolved (l : Lhs Symbol α) (i : Nat) (kind : NodeKind) (p : Position) (n : Note) : Prop :=
  ∀ x arity, kind = .var x arity → n.origin = p.choose (l.visible p.pattern i x) ∧
    ((∀ b ∈ l.binders, b.2.id ≠ i) → n.origin ≠ none)

/-- The variables below a field or a test refer to what is visible if the scope there holds it. -/
theorem Node.allFrom_resolved_of_foundIn {l : Lhs Symbol α} {p : Position} {σ : Scope} {id : Nat}
    {vs : List (Symbol × Note)} {ns : List Node} (h : ∀ n ∈ ns, n.FoundIn p vs)
    (hvs : ∀ x m, (x, m) ∈ vs → m.origin ≠ none ∧ m.origin = σ.origin? ⟨p.pattern, p.kind⟩ x)
    (hvisible : ∀ i x, id ≤ i → i < id + ns.length → σ.origins x = l.visible p.pattern i x) :
    AllFrom l.Resolved id ns := by
  refine allFrom_of_forall_mem h fun i n hlo hhi hn x arity hkind => ?_
  cases hn with
  | other _ hnot _ =>
    rw [asVariable, hkind] at hnot
    cases hnot
  | var hposition y arity' hy hmem =>
    obtain ⟨rfl, -⟩ := NodeKind.var.inj (hkind.symm.trans hy)
    obtain ⟨hsome, horigin⟩ := hvs x n.note hmem
    refine ⟨?_, fun _ => hsome⟩
    rw [hposition, horigin, Scope.origin?_eq_choose, hvisible i x hlo hhi]

/-- The variables of a compiled field refer to what is visible. -/
theorem FieldVisit.allFrom_resolved {c : Context} {l : Lhs Symbol α} {t : FieldVisit α}
    (h : t.source.Compiles c t.scope t.visited) (hplain : t.source.field.isPlain = true)
    (hbinder : ∀ b ∈ t.source.binder, b ∈ l.binders)
    (horigins : ∀ i x, t.source.id ≤ i → i < t.source.id + t.source.field.size →
      Scope.origins (t.scope ++ if t.source.id < i then (t.source.own t.scope).toList else []) x =
        l.visible t.source.place.pattern i x) (endDepth : Nat) :
    Node.AllFrom l.Resolved t.result.id (t.result.nodes endDepth) := by
  obtain ⟨b, as, declared, n, hfield, hown, hvars⟩ := exists_plain_result h hplain
  have hsize : t.source.field.size = 1 + totalSize Alternative.size as := by
    have hresult : t.result.field.size = t.source.field.size := Field.size_eq_of_bare h.bare_result
    rw [← hresult, hfield, Field.size]
  rw [FieldAt.nodes, hfield, Field.nodes, Node.allFrom_cons]
  constructor
  · intro x arity hkind
    have hb : b = .var x arity := by
      cases b with
      | var y arity' =>
        obtain ⟨rfl, rfl⟩ := NodeKind.var.inj hkind
        rfl
      | wildcard arity' => cases hkind
    obtain ⟨hbinds, horigin⟩ := hown x arity hb
    constructor
    · have hvisible := horigins t.source.id x (Nat.le_refl _) (by omega)
      rw [if_neg (Nat.lt_irrefl _), List.append_nil] at hvisible
      have hchoose := Scope.origin?_eq_choose t.scope (t.source.place.position endDepth) x
      rw [hvisible] at hchoose
      exact horigin.trans hchoose
    · intro hnot
      have hmem : (x, ⟨t.source.id, t.source.place⟩) ∈ l.binders :=
        hbinder _ (FieldAt.binder_eq_some_iff.2 ⟨⟨arity, hbinds⟩, rfl⟩)
      exact absurd rfl (hnot _ hmem)
  · have hvisible : ∀ i x, t.source.id + 1 ≤ i →
        i < t.source.id + 1 + totalSize Alternative.size as →
        Scope.origins (t.scope ++ (t.source.own t.scope).toList) x =
          l.visible t.source.place.pattern i x := by
      intro i x hlo hhi
      rw [← horigins i x (by omega) (by omega), if_pos (by omega)]
    refine Node.allFrom_resolved_of_foundIn (fun m hm => Alternative.foundIn_of_mem_nodesAll hm)
      (fun x m hm => ?_) fun i x hlo hhi => hvisible i x hlo ?_
    · obtain ⟨hsome, negated, hnote⟩ := hvars x m hm
      exact ⟨hsome, by rw [hnote]; rfl⟩
    · rw [Alternative.length_nodesAll] at hhi
      exact hhi

/-- The variables of a compiled condition refer to what is visible. -/
theorem Condition.resolved_of_visit {c : Context} {pre rest : Lhs Symbol α} {k : Condition Symbol α}
    {τ : Scope} {v : VisitedCondition} (hτ : τ.Follows pre)
    (h : k.visit c (pre.length + 1) pre.joins pre.nodeCount τ rest = .ok v)
    (hflat : k.isFlat = true) {y : ConditionAt Note}
    (hy : y = ⟨pre.length + 1, pre.joins, pre.nodeCount, v.condition⟩) :
    (∀ x ∈ y.fields,
      Node.AllFrom (Lhs.Resolved (pre ++ k :: rest)) x.id (x.nodes y.condition.endDepth)) ∧
    ∀ t, y.condition.element = .test t → Node.AllFrom (Lhs.Resolved (pre ++ k :: rest)) (y.id + 1)
      (t.nodes y.position (y.id + 1) none) := by
  subst hy
  cases hk : k.element with
  | pattern mode q =>
    have htest := element_ne_test_of_bare (bare_of_visit h) hk
    refine ⟨fun x hx => ?_, fun t ht => absurd ht (htest t)⟩
    obtain ⟨ts, hrun, hsource, hresult, -, -, -⟩ := exists_run_of_visit hk h
    have hx : x ∈ ts.map FieldVisit.result := hresult ▸ hx
    obtain ⟨t, ht, rfl⟩ := List.mem_map.1 hx
    have hmem : t.source ∈ (pre.next k).fields := by
      rw [show (pre.next k).fields = ts.map FieldVisit.source from hsource.symm]
      exact List.mem_map_of_mem ht
    have hpattern : t.source.place.pattern = pre.length + 1 :=
      (samePattern_of_mem_fieldsAt hk hmem).pattern_eq
    have hbinder : ∀ b ∈ t.source.binder, b ∈ (pre ++ k :: rest).binders := by
      intro b hb
      rw [Lhs.binders_append]
      refine List.mem_append_right _ (List.mem_flatMap.2 ⟨pre.next k, List.mem_cons_self, ?_⟩)
      exact List.mem_append_right _ (List.mem_filterMap.2 ⟨t.source, hmem, hb⟩)
    have hcompiles := hrun.compiles t ht
    obtain ⟨us, ws, rfl⟩ := List.append_of_mem ht
    obtain ⟨hbefore, hscope⟩ := hrun.scope_eq
    refine FieldVisit.allFrom_resolved hcompiles (isPlain_of_mem_fieldsAt hflat hmem) hbinder
      (fun i x hlo hhi => ?_) _
    rw [List.map_append, List.map_cons] at hsource
    rw [hpattern]
    exact origins_eq_visible hτ hk hbefore hscope hsource.symm hlo (Nat.le_of_lt hhi) x
  | test t =>
    obtain ⟨u, hu, hv, -⟩ := exists_bind_of_visit hk h
    rw [hv]
    refine ⟨(fun x hx => by cases hx), fun t' ht => ?_⟩
    obtain rfl := Element.test.inj ht
    refine Node.allFrom_resolved_of_foundIn (fun m hm => Term.foundIn_of_mem_nodes hm)
      (fun x m hm => ⟨?_, ?_⟩) fun i x _ _ => origins_eq_visible_of_test hτ hk i x
    · exact Term.origin_ne_none_of_bind hu _ (Term.mem_notes_of_mem_vars hm)
    · rw [Term.eq_note_of_mem_vars hm]
      rfl

/-! ## Binding occurrences are nodes -/

/-- Compiling a condition keeps its handle. -/
theorem Condition.handle_of_visit {c : Context} {pattern joins id : Nat} {σ : Scope}
    {rest : Lhs Symbol α} {k : Condition Symbol α} {v : VisitedCondition}
    (h : k.visit c pattern joins id σ rest = .ok v) :
    (⟨pattern, joins, id, v.condition⟩ : ConditionAt Note).handle =
      (⟨pattern, joins, id, k⟩ : ConditionAt α).handle := by
  have hbare := bare_of_visit h
  cases hk : k.element with
  | pattern mode q =>
    have helement := congrArg Condition.element hbare
    have hdepth : v.condition.beginDepth = k.beginDepth := congrArg Condition.beginDepth hbare
    cases hv : v.condition.element with
    | test t => exact absurd hv (element_ne_test_of_bare hbare hk t)
    | pattern mode' q' =>
      simp only [bare, mapNotes, Element.mapNotes, hk, hv, Pattern.mapNotes, Element.pattern.injEq,
        Pattern.mk.injEq] at helement
      obtain ⟨-, hkind, hh, -⟩ := helement
      simp only [ConditionAt.handle, hk, hv, Pattern.place, hkind, hh, hdepth]
  | test t =>
    obtain ⟨u, -, hv, -⟩ := exists_bind_of_visit hk h
    rw [hv]
    simp [ConditionAt.handle, hk]

/-- Compiling a condition keeps its binding occurrences. -/
theorem Condition.binders_of_visit {c : Context} {pattern joins id : Nat} {σ : Scope}
    {rest : Lhs Symbol α} {k : Condition Symbol α} {v : VisitedCondition}
    (h : k.visit c pattern joins id σ rest = .ok v) :
    (⟨pattern, joins, id, v.condition⟩ : ConditionAt Note).binders =
      (⟨pattern, joins, id, k⟩ : ConditionAt α).binders := by
  cases hk : k.element with
  | pattern mode q =>
    obtain ⟨ts, hrun, hsource, hresult, -, -, -⟩ := exists_run_of_visit hk h
    have hfields : (v.condition.fieldsAt pattern joins id).filterMap FieldAt.binder =
        (k.fieldsAt pattern joins id).filterMap FieldAt.binder := by
      rw [← hresult, ← hsource, List.filterMap_map, List.filterMap_map]
      refine List.filterMap_congr fun t ht => ?_
      have hbinds := Field.binds?_eq_of_bare (hrun.compiles t ht).bare_result
      simp only [Function.comp_apply, FieldAt.binder, FieldVisit.result, hbinds]
    exact congrArg₂ (fun b bs => Option.toList b ++ bs) (handle_of_visit h) hfields
  | test t =>
    obtain ⟨u, -, hv, -⟩ := exists_bind_of_visit hk h
    rw [hv]
    simp [ConditionAt.binders, ConditionAt.handle, ConditionAt.fields, fieldsAt, hk]

namespace Lhs

theorem binders_of_compileFrom {c : Context} {pattern joins id : Nat} {σ : Scope} {l : Lhs Symbol α}
    {u : Lhs Symbol Note} (h : compileFrom c pattern joins id σ l = .ok u) :
    (conditionsFrom pattern joins id u).flatMap ConditionAt.binders =
      (conditionsFrom pattern joins id l).flatMap ConditionAt.binders := by
  induction l generalizing pattern joins id σ u with
  | nil =>
    rw [compileFrom] at h
    obtain rfl := pure_eq_ok.1 h
    rfl
  | cons k ks ih =>
    obtain ⟨v, us, hv, hus, rfl⟩ := compileFrom_cons_eq_ok.1 h
    have hbare := Condition.bare_of_visit hv
    rw [conditionsFrom, conditionsFrom, List.flatMap_cons, List.flatMap_cons,
      Condition.binders_of_visit hv, Condition.joinsAfter_of_bare hbare,
      Condition.size_of_bare hbare, ih hus]

theorem binders_compile {c : Context} {l : Lhs Symbol α} {r : Lhs Symbol Note}
    (h : l.compile c = .ok r) : r.binders = l.binders := by
  obtain ⟨u, hu, rfl⟩ := exists_compileFrom_of_compile h
  have hcollapse : u.conditionsAt.map ConditionAt.binders =
      (collapse u).conditionsAt.map ConditionAt.binders := by
    refine map_eq_map_of_forall₂ (forall₂_conditionsFrom (forall₂_collapse u) 1 0 0) ?_
    rintro z y ⟨d, rfl⟩
    rfl
  rw [binders, List.flatMap_def, ← hcollapse, ← List.flatMap_def]
  exact binders_of_compileFrom hu

/-- A node of the given kind, position and note has the number `i`; of a multislot nothing is said. -/
def HasNode (r : Lhs Symbol Note) (i : Nat) (kind : NodeKind) (p : Position) (note : Note) : Prop :=
  kind ≠ .multislot → ∃ n, r.nodes[i]? = some n ∧ n.kind = kind ∧ n.position = p ∧ n.note = note

theorem hasNode_of_mem_conditionsAt {c : Context} {l : Lhs Symbol α} {r : Lhs Symbol Note}
    (h : l.compile c = .ok r) : ∀ y ∈ r.conditionsAt, y.AllNodes r.HasNode := by
  refine (allFrom_nodes_iff h fun _ _ _ _ hne => absurd rfl hne).1 ?_
  intro i n hn _
  rw [Nat.zero_add]
  exact ⟨n, hn, rfl, rfl, rfl⟩

/-- A match handle has the number of the node of its condition. -/
theorem exists_node_of_mem_handle {c : Context} {l : Lhs Symbol α} {r : Lhs Symbol Note}
    (h : l.compile c = .ok r) {y : ConditionAt Note} (hy : y ∈ r.conditionsAt) {b : Symbol × Origin}
    (hb : b ∈ y.handle) :
    ∃ n, r.nodes[b.2.id]? = some n ∧ n.asHandle = some b.1 ∧ n.position = y.position ∧
      n.note = y.condition.note := by
  have hcondition := (hasNode_of_mem_conditionsAt h y hy).condition
  rw [ConditionAt.nodeKind] at hcondition
  rw [ConditionAt.handle] at hb
  split at hb
  · next mode q hq =>
    obtain ⟨x, hx, rfl⟩ := Option.map_eq_some_iff.1 hb
    rw [hq] at hcondition
    obtain ⟨n, hn, hkind, hposition, hnote⟩ := hcondition (by simp)
    exact ⟨n, hn, by rw [Node.asHandle, hkind]; exact hx, hposition, hnote⟩
  · cases hb

/-- A field that binds a variable has the number of a node of that variable. -/
theorem exists_node_of_mem_fields {c : Context} {l : Lhs Symbol α} {r : Lhs Symbol Note}
    (h : l.compile c = .ok r) {y : ConditionAt Note} (hy : y ∈ r.conditionsAt) {x : FieldAt Note}
    (hx : x ∈ y.fields) {b : Symbol × Origin} (hb : x.binder = some b) :
    ∃ n, r.nodes[b.2.id]? = some n ∧ (∃ arity, n.kind = .var b.1 arity) ∧
      n.position = x.place.position y.condition.endDepth ∧ n.note = x.field.note := by
  have hfield := (hasNode_of_mem_conditionsAt h y hy).fields x hx
  obtain ⟨⟨arity, hbinds⟩, horigin⟩ := FieldAt.binder_eq_some_iff.1 hb
  obtain ⟨p, id, f⟩ := x
  cases f with
  | multi ps as declared m => cases hbinds
  | plain d as declared m =>
    cases d with
    | wildcard arity' => cases hbinds
    | var z arity' =>
      obtain ⟨rfl, rfl⟩ := Prod.mk.inj (Option.some.inj hbinds)
      obtain ⟨n, hn, hkind, hposition, hnote⟩ :=
        (Node.allFrom_cons.1 hfield).1 (by simp [Binder.nodeKind])
      rw [horigin]
      exact ⟨n, hn, ⟨arity', hkind⟩, hposition, hnote⟩

/-- The number of a binding occurrence is that of a node of its name: a condition with a handle, or a
variable. -/
theorem exists_node_of_mem_binders {c : Context} {l : Lhs Symbol α} {r : Lhs Symbol Note}
    (h : l.compile c = .ok r) {b : Symbol × Origin} (hb : b ∈ l.binders) :
    ∃ n, r.nodes[b.2.id]? = some n ∧
      (n.asHandle = some b.1 ∨ ∃ arity, n.asVariable = some (b.1, arity)) := by
  rw [← binders_compile h] at hb
  obtain ⟨y, hy, hb⟩ := List.mem_flatMap.1 hb
  rcases List.mem_append.1 hb with hb | hb
  · obtain ⟨n, hn, hhandle, -, -⟩ := exists_node_of_mem_handle h hy (Option.mem_toList.1 hb)
    exact ⟨n, hn, .inl hhandle⟩
  · obtain ⟨x, hx, hb⟩ := List.mem_filterMap.1 hb
    obtain ⟨n, hn, ⟨arity, hkind⟩, -, -⟩ := exists_node_of_mem_fields h hy hx hb
    exact ⟨n, hn, .inr ⟨arity, by rw [Node.asVariable, hkind]⟩⟩

/-- Every variable node of a compiled left-hand side refers to what is visible at it. -/
theorem allFrom_resolved_of_compile {c : Context} {l : Lhs Symbol α} {r : Lhs Symbol Note}
    (hflat : l.isFlat = true) (h : l.compile c = .ok r) : Node.AllFrom l.Resolved 0 r.nodes := by
  have hmultislot : ∀ i p m, m.out = {} → l.Resolved i .multislot p m := by
    intro i p m _ x arity hkind
    cases hkind
  refine (allFrom_nodes_iff h hmultislot).2 ?_
  obtain ⟨u, hu, rfl⟩ := exists_compileFrom_of_compile h
  have hinside : ∀ y ∈ (collapse u).conditionsAt,
      (∀ x ∈ y.fields, Node.AllFrom l.Resolved x.id (x.nodes y.condition.endDepth)) ∧
      ∀ t, y.condition.element = .test t →
        Node.AllFrom l.Resolved (y.id + 1) (t.nodes y.position (y.id + 1) none) := by
    refine (forall_conditionsAt_collapse (fun z d => Iff.rfl) u).2 fun z hz => ?_
    obtain ⟨pre, k, rest, τ, v, heq, hv, hτ, hy⟩ := exists_visit_following Scope.follows_nil hu hz
    have heq : l = pre ++ k :: rest := heq
    subst heq
    exact Condition.resolved_of_visit hτ hv (List.all_eq_true.1 hflat k (by simp)) hy
  intro y hy
  refine ⟨fun x arity hkind => ?_, (hinside y hy).1, (hinside y hy).2⟩
  unfold ConditionAt.nodeKind at hkind
  split at hkind <;> cases hkind

theorem mem_visible_iff {l : Lhs Symbol α} {pattern i : Nat} {x : Symbol} {o : Origin} :
    o ∈ l.visible pattern i x ↔ (x, o) ∈ l.binders ∧ l.Sees pattern i o := by
  simp only [visible, List.mem_map, List.mem_filter, decide_eq_true_eq, Prod.exists]
  constructor
  · rintro ⟨y, o', ⟨hmem, rfl, hsees⟩, rfl⟩
    exact ⟨hmem, hsees⟩
  · rintro ⟨hmem, hsees⟩
    exact ⟨x, o, ⟨hmem, rfl, hsees⟩, rfl⟩

theorem mem_binders_of_mem_visible {l : Lhs Symbol α} {pattern i : Nat} {x : Symbol} {o : Origin}
    (h : o ∈ l.visible pattern i x) : (x, o) ∈ l.binders :=
  (mem_visible_iff.1 h).1

theorem pairwise_visible (l : Lhs Symbol α) (pattern i : Nat) (x : Symbol) :
    (l.visible pattern i x).Pairwise fun o o' => o.id < o'.id :=
  List.pairwise_map.2 (l.pairwise_binders.filter _)

/-- **Every variable refers to the right binding occurrence**: the last visible one of its name in its
own condition or in a pattern over the same kind of entity, or else the first visible one, and nothing
only if none is visible. What it refers to is a node that binds its name. A variable in a constraint or
an expression, which is no binding occurrence itself, always refers to something. -/
theorem origin_eq_choose_visible {c : Context} {l : Lhs Symbol α} {r : Lhs Symbol Note}
    (hflat : l.isFlat = true) (h : l.compile c = .ok r) {i : Nat} {n : Node}
    (hn : r.nodes[i]? = some n) {x : Symbol} {arity : Arity} (hx : n.kind = .var x arity) :
    n.note.origin = n.position.choose (l.visible n.position.pattern i x) ∧
      (∀ o, n.note.origin = some o → ∃ m, r.nodes[o.id]? = some m ∧
        (m.asHandle = some x ∨ ∃ arity, m.asVariable = some (x, arity))) ∧
      ((∀ b ∈ l.binders, b.2.id ≠ i) → n.note.origin ≠ none) := by
  have hnode := allFrom_resolved_of_compile hflat h i n hn x arity hx
  rw [Nat.zero_add] at hnode
  obtain ⟨horigin, hsome⟩ := hnode
  refine ⟨horigin, fun o ho => ?_, hsome⟩
  have hmem := Position.mem_of_choose (horigin.symm.trans ho)
  exact exists_node_of_mem_binders h (mem_binders_of_mem_visible hmem)

/-- The `y` among the alternatives, which is node number 6, refers to the field of the other pattern. -/
theorem alternation_refers_to_first_pattern :
    ∃ r n, compiledSteps (alternation ["x", "y"]) = .ok r ∧ r.nodes[6]? = some n ∧
      n.note.origin.map Origin.id = some 1 := by
  obtain ⟨r, hr, hcheck⟩ := exists_ok_of_check (e := compiledSteps (alternation ["x", "y"]))
    (p := fun r => r.nodes[6]?.any fun (n : Node) => decide (n.kind = .var ⟨0⟩ .single ∧
      (n.position.choose (((ofSteps (alternation ["x", "y"])).intern .empty).1.visible
        n.position.pattern 6 ⟨0⟩)).map Origin.id = some 1))
    (by decide +kernel)
  have hflat : ((ofSteps (alternation ["x", "y"])).intern .empty).1.isFlat = true := by
    decide +kernel
  obtain ⟨n, hn, hcheck⟩ := (Option.any_eq_true _ _).1 hcheck
  obtain ⟨hkind, hchosen⟩ := of_decide_eq_true hcheck
  exact ⟨r, n, hr, hn, by rw [(origin_eq_choose_visible hflat hr hn hkind).1, hchosen]⟩

end Lhs

end Antecedent
