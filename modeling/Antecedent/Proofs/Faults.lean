import Antecedent.Proofs.Visibility

/-!
# Where a compilation stops

A compilation that fails stops at one condition, and in a pattern at one field: everything before it
was compiled, in the scope that it would also have had in a successful compilation.

* `bind_eq_error` and `exists_error_of_mapM` take failed computations apart.
* `FieldVisit.Stops` says that compiling some fields one after another stops at one of them, and
  `Condition.exists_stop_of_visit` gives the field at which a pattern stops.
* `FieldAt.visit_eq_error` lists the ways in which a field can fail.
* `Context.permit_eq_error` and `Pattern.checkHandle_eq_error` say what a refused binding or handle blames.
* `Lhs.exists_visit_of_error` gives the condition at which a left-hand side stops, and the scope
  before it.
-/

namespace Antecedent

variable {α β : Type}

/-! ## Failed computations -/

theorem bind_eq_error {ε : Type} {x : Except ε α} {f : α → Except ε β} {e : ε} :
    x >>= f = .error e ↔ x = .error e ∨ ∃ a, x = .ok a ∧ f a = .error e := by
  cases x with
  | error e' => simp [bind, Except.bind]
  | ok a => simp [bind, Except.bind]

theorem pure_ne_error {ε : Type} {a : α} {e : ε} : (pure a : Except ε α) ≠ .error e := by
  intro h
  cases h

/-- A computation whose fault passes a check fails. -/
theorem exists_error_of_check {ε : Type} {e : Except ε α} {p : ε → Bool}
    (h : (match e with | .error d => p d | .ok _ => false) = true) :
    ∃ d, e = .error d ∧ p d = true := by
  cases e with
  | error d => exact ⟨d, rfl, h⟩
  | ok a => cases h

theorem exists_error_of_mapM {ε : Type} {f : α → Except ε β} {xs : List α} {e : ε}
    (h : xs.mapM f = .error e) : ∃ x ∈ xs, f x = .error e := by
  induction xs with
  | nil => exact absurd h pure_ne_error
  | cons x xs ih =>
    rw [List.mapM_cons] at h
    rcases bind_eq_error.1 h with hx | ⟨y, -, h⟩
    · exact ⟨x, List.mem_cons_self, hx⟩
    · rcases bind_eq_error.1 h with hxs | ⟨ys, -, h⟩
      · obtain ⟨x', hx', hfx'⟩ := ih hxs
        exact ⟨x', List.mem_cons_of_mem _ hx', hfx'⟩
      · exact absurd h pure_ne_error

theorem exists_error_of_forM {ε : Type} {f : α → Except ε Unit} {xs : List α} {e : ε}
    (h : xs.forM f = .error e) : ∃ x ∈ xs, f x = .error e := by
  induction xs with
  | nil => exact absurd h pure_ne_error
  | cons x xs ih =>
    rcases bind_eq_error.1 h with hx | ⟨-, -, h⟩
    · exact ⟨x, List.mem_cons_self, hx⟩
    · obtain ⟨x', hx', hfx'⟩ := ih h
      exact ⟨x', List.mem_cons_of_mem _ hx', hfx'⟩

theorem exists_error_of_option_forM {ε : Type} {f : α → Except ε Unit} {o : Option α} {e : ε}
    (h : o.forM f = .error e) : ∃ x ∈ o, f x = .error e := by
  cases o with
  | none => exact absurd h pure_ne_error
  | some x => exact ⟨x, rfl, h⟩

/-! ## Fields -/

/-- A binding is not let pass because of an occurrence with which it clashes. -/
theorem Context.permit_eq_error {c : Context} {ahead : List Occurrence} {b : Binding} {d : Diagnostic}
    (h : c.permit ahead b = .error d) :
    ∃ o ∈ ahead, b.clashes o = true ∧ d = c.blame .kindMixing o.spot o.name := by
  unfold permit at h
  split at h
  · next o ho =>
    exact ⟨o, List.mem_of_find?_eq_some ho, List.find?_some ho, (Except.error.inj h).symm⟩
  · cases h

namespace FieldAt

/-- A field fails because of a clash of arities, an unbound or faulty reference, or because it cannot be
satisfied. -/
theorem visit_eq_error {c : Context} {σ : Scope} {ahead : List Occurrence} {x : FieldAt α}
    {d : Diagnostic} (h : x.field.visit c x.place x.id σ ahead = .error d) :
    (∃ ahead' b, c.permit ahead' b = .error d) ∨
      Conjunct.bindAll c x.place.spot ((x.noted σ).note.restriction.getD .any) (x.alternatives σ) =
        .error d ∨
      Conjunct.checkSatisfiable c x.place.spot (x.field.binds?.map Prod.fst)
        (x.noted σ).note.restriction (x.alternatives σ) = .error d := by
  rcases bind_eq_error.1 h with h | ⟨-, -, h⟩
  · obtain ⟨b, -, hb⟩ := exists_error_of_option_forM h
    exact .inl ⟨_, b, hb⟩
  rcases bind_eq_error.1 h with h | ⟨-, -, h⟩
  · obtain ⟨b, -, hb⟩ := exists_error_of_forM h
    exact .inl ⟨_, b, hb⟩
  rcases bind_eq_error.1 h with h | ⟨bound, -, h⟩
  · exact .inr (.inl h)
  rcases bind_eq_error.1 h with h | ⟨-, -, h⟩
  · exact .inr (.inr h)
  rcases bind_eq_error.1 h with h | ⟨-, -, h⟩
  · obtain ⟨b, -, hb⟩ := exists_error_of_option_forM h
    exact .inl ⟨_, b, hb⟩
  · exact absurd h pure_ne_error

end FieldAt

namespace FieldVisit

/-- Compiling some fields one after another stops at one of them. -/
def Stops (c : Context) (σ : Scope) (xs : List (FieldAt α)) (d : Diagnostic) : Prop :=
  ∃ (ts : List (FieldVisit α)) (x : FieldAt α) (ys : List (FieldAt α)) (ahead : List Occurrence),
    Run c σ ts ∧ xs = ts.map source ++ x :: ys ∧
      x.field.visit c x.place x.id (σ ++ bindings ts) ahead = .error d

namespace Stops

theorem head {c : Context} {σ : Scope} {x : FieldAt α} {xs : List (FieldAt α)} {d : Diagnostic}
    {ahead : List Occurrence} (h : x.field.visit c x.place x.id σ ahead = .error d) :
    Stops c σ (x :: xs) d :=
  ⟨[], x, xs, ahead, .nil σ, rfl, by simpa using h⟩

theorem behind {c : Context} {σ : Scope} {ts : List (FieldVisit α)} (hts : Run c σ ts)
    {xs : List (FieldAt α)} {d : Diagnostic} (h : Stops c (σ ++ bindings ts) xs d) :
    Stops c σ (ts.map source ++ xs) d := by
  obtain ⟨us, x, ys, ahead, hus, rfl, hx⟩ := h
  refine ⟨ts ++ us, x, ys, ahead, hts.append hus, by simp, ?_⟩
  rw [bindings_append, ← List.append_assoc]
  exact hx

theorem next {c : Context} {σ : Scope} {x : FieldAt α} {v : Visited (Field Symbol Note)}
    (hx : x.Compiles c σ v) {xs : List (FieldAt α)} {d : Diagnostic}
    (h : Stops c (σ ++ v.bindings) xs d) : Stops c σ (x :: xs) d := by
  let t : FieldVisit α := ⟨σ, x, v⟩
  have hrun : Run c t.scope [t] := .cons hx (.nil _)
  exact behind hrun (by simpa [t] using h)

theorem append {c : Context} {σ : Scope} {xs : List (FieldAt α)} {d : Diagnostic}
    (h : Stops c σ xs d) (ys : List (FieldAt α)) : Stops c σ (xs ++ ys) d := by
  obtain ⟨ts, x, zs, ahead, hts, rfl, hx⟩ := h
  exact ⟨ts, x, zs ++ ys, ahead, hts, by simp, hx⟩

end Stops

end FieldVisit

theorem Field.stops_of_visitParts {c : Context} {p : Place} {slotsAhead beyond : List Occurrence}
    {k id : Nat} {σ : Scope} {fs : List (Field Symbol α)} {d : Diagnostic}
    (h : visitParts c p slotsAhead beyond k id σ fs = .error d) :
    FieldVisit.Stops c σ (partsAt p k id fs) d := by
  induction fs generalizing k id σ with
  | nil => exact absurd h pure_ne_error
  | cons f fs ih =>
    rw [visitParts] at h
    let x : FieldAt α := ⟨{ p with site := p.site.part f k }, id, f⟩
    rcases bind_eq_error.1 h with hx | ⟨v, hv, h⟩
    · exact FieldVisit.Stops.head (x := x) hx
    rcases bind_eq_error.1 h with hfs | ⟨vs, -, h⟩
    · have hcompiles : x.Compiles c σ v := FieldAt.compiles_of_visit hv
      exact FieldVisit.Stops.next hcompiles (ih hfs)
    · exact absurd h pure_ne_error

namespace Slot

theorem stops_of_visit {c : Context} {p : Place} {id : Nat} {σ : Scope}
    {slotsAhead beyond : List Occurrence} {s : Slot Symbol α} {d : Diagnostic}
    (h : s.visit c p id σ slotsAhead beyond = .error d) :
    FieldVisit.Stops c σ (s.fieldsAt p id) d := by
  obtain ⟨name, f⟩ := s
  cases f with
  | plain b as declared n =>
    rcases bind_eq_error.1 h with hx | ⟨v, -, h⟩
    · exact FieldVisit.Stops.head (x := ⟨p, id, .plain b as declared n⟩) hx
    · exact absurd h pure_ne_error
  | multi ps as declared n =>
    rcases bind_eq_error.1 h with hps | ⟨vs, -, h⟩
    · exact Field.stops_of_visitParts hps
    · exact absurd h pure_ne_error

theorem stops_of_visitAll {c : Context} {p : Place} {beyond : List Occurrence} {j id : Nat}
    {σ : Scope} {ss : List (Slot Symbol α)} {d : Diagnostic}
    (h : visitAll c p beyond j id σ ss = .error d) :
    FieldVisit.Stops c σ (fieldsAtAll p j id ss) d := by
  induction ss generalizing j id σ with
  | nil => exact absurd h pure_ne_error
  | cons s ss ih =>
    rw [visitAll] at h
    rcases bind_eq_error.1 h with hs | ⟨w, hw, h⟩
    · exact (stops_of_visit hs).append _
    rcases bind_eq_error.1 h with hss | ⟨ws, -, h⟩
    · obtain ⟨ts, hrun, hsource, -, hbindings, -⟩ := exists_run_of_visit hw
      rw [hbindings] at hss
      have hstops := FieldVisit.Stops.behind hrun (ih hss)
      rw [hsource] at hstops
      exact hstops
    · exact absurd h pure_ne_error

end Slot

/-! ## Conditions -/

/-- A handle is refused because its name is bound, and the latest binding occurrence says how. -/
theorem Pattern.checkHandle_eq_error {c : Context} {p : Place} {σ : Scope} {q : Pattern Symbol α}
    {d : Diagnostic} (h : q.checkHandle c p σ = .error d) :
    ∃ x o, q.handle = some x ∧ (σ.origins x).getLast? = some o ∧
      d = c.blame (.illegalHandle (if o.isHandle then .alreadyMatchHandle else .boundInPattern))
        p.spot x := by
  unfold checkHandle at h
  split at h
  · cases h
  · next x hx =>
    split at h
    · cases h
    · next o ho => exact ⟨x, o, hx, ho, (Except.error.inj h).symm⟩

namespace Condition

/-- A pattern fails because of its handle, because of a clash of arities, or at one of its fields. -/
theorem exists_stop_of_visit {c : Context} {pattern joins id : Nat} {σ : Scope}
    {rest : Lhs Symbol α} {k : Condition Symbol α} {d : Diagnostic} {mode : Mode}
    {q : Pattern Symbol α} (hk : k.element = .pattern mode q)
    (h : k.visit c pattern joins id σ rest = .error d) :
    q.checkHandle c (q.place pattern (joins + 1) k.beginDepth) σ = .error d ∨
      (∃ ahead b, c.permit ahead b = .error d) ∨
      FieldVisit.Stops c
        (σ ++ (q.binding? (q.place pattern (joins + 1) k.beginDepth) id).toList)
        (k.fieldsAt pattern joins id) d := by
  obtain ⟨element, beginDepth, endDepth, n⟩ := k
  obtain rfl : element = .pattern mode q := hk
  rcases bind_eq_error.1 h with h | ⟨-, -, h⟩
  · exact .inl h
  rcases bind_eq_error.1 h with h | ⟨-, -, h⟩
  · obtain ⟨b, -, hb⟩ := exists_error_of_option_forM h
    exact .inr (.inl ⟨_, b, hb⟩)
  rcases bind_eq_error.1 h with h | ⟨vs, -, h⟩
  · exact .inr (.inr (Slot.stops_of_visitAll h))
  · exact absurd h pure_ne_error

/-- A test fails at a reference of its expression. -/
theorem bind_eq_error_of_visit {c : Context} {pattern joins id : Nat} {σ : Scope}
    {rest : Lhs Symbol α} {k : Condition Symbol α} {d : Diagnostic} {t : Term Symbol α}
    (hk : k.element = .test t) (h : k.visit c pattern joins id σ rest = .error d) :
    (t.resolve σ ⟨pattern, none⟩).bind c ⟨pattern, 0, none⟩ = .error d := by
  obtain ⟨element, beginDepth, endDepth, n⟩ := k
  obtain rfl : element = .test t := hk
  rcases bind_eq_error.1 h with h | ⟨u, -, h⟩
  · exact h
  · exact absurd h pure_ne_error

end Condition

/-! ## Left-hand sides -/

namespace Lhs

/-- **A left-hand side that does not compile** stops at one condition, in a scope that holds what is
visible there. -/
theorem exists_visit_of_error {c : Context} {l suffix : Lhs Symbol α} {σ : Scope} {d : Diagnostic}
    (hσ : σ.Follows l)
    (h : compileFrom c (l.length + 1) l.joins l.nodeCount σ suffix = .error d) :
    ∃ (pre : Lhs Symbol α) (k : Condition Symbol α) (rest : Lhs Symbol α) (τ : Scope),
      l ++ suffix = pre ++ k :: rest ∧ τ.Follows pre ∧
        k.visit c (pre.length + 1) pre.joins pre.nodeCount τ rest = .error d := by
  -- as for a successful compilation, each step moves a condition from the suffix to what is behind
  induction suffix generalizing l σ with
  | nil => exact absurd h pure_ne_error
  | cons k ks ih =>
    rw [compileFrom] at h
    rcases bind_eq_error.1 h with hk | ⟨v, hv, h⟩
    · exact ⟨l, k, ks, σ, rfl, hσ, hk⟩
    rcases bind_eq_error.1 h with hks | ⟨us, -, h⟩
    · have hlength : (l ++ [k]).length = l.length + 1 := by simp
      rw [← joins_concat, ← nodeCount_concat, ← hlength] at hks
      obtain ⟨pre, k', rest, τ, heq, h⟩ := ih (hσ.leave hv) hks
      exact ⟨pre, k', rest, τ, by rw [← heq, List.append_assoc]; rfl, h⟩
    · exact absurd h pure_ne_error

theorem exists_visit_of_compile_error {c : Context} {l : Lhs Symbol α} {d : Diagnostic}
    (h : l.compile c = .error d) :
    ∃ (pre : Lhs Symbol α) (k : Condition Symbol α) (rest : Lhs Symbol α) (τ : Scope),
      l = pre ++ k :: rest ∧ τ.Follows pre ∧
        k.visit c (pre.length + 1) pre.joins pre.nodeCount τ rest = .error d := by
  rcases bind_eq_error.1 h with h | ⟨u, -, h⟩
  · exact exists_visit_of_error Scope.follows_nil h
  · exact absurd h pure_ne_error

end Lhs

end Antecedent
