import Antecedent.Proofs.Origins
import Antecedent.Proofs.TableReading

/-!
# Scopes in a node table

A node names a binding occurrence by number, and its place is looked up in the table. This works if the
table has every binding occurrence of the scope in its place.

* `Scope.PlacedIn` says so. It is kept by every step of a compilation (`FieldVisit.Run.placedIn`,
  `Condition.placedIn_inside`, `Condition.placedIn_leave`).
* `NodeTable.Shows` says that a table holds a field in its place, and `NodeTable.shows_fieldsAtAll` that it
  does so with the fields of a pattern that it holds.
-/

namespace Antecedent

/-! ## Scopes -/

/-- The table has every binding occurrence of the scope in its place. -/
def Scope.PlacedIn (t : NodeTable) (σ : Scope) : Prop := ∀ o ∈ σ.allOrigins, t.Places o

theorem Scope.PlacedIn.append {t : NodeTable} {σ τ : Scope} (hσ : σ.PlacedIn t)
    (hτ : τ.PlacedIn t) : PlacedIn t (σ ++ τ) := by
  intro o ho
  rw [allOrigins_append, List.mem_append] at ho
  exact ho.elim (hσ o) (hτ o)

/-! ## Fields -/

/-- The table holds the nodes of a field in its place. -/
def NodeTable.Shows (t : NodeTable) (x : FieldAt Note) : Prop :=
  ∃ endDepth next, t.Holds x.id (x.field.nodes (x.place.position endDepth) x.id next)

namespace NodeTable

variable {t : NodeTable}

theorem Shows.places {x : FieldAt Note} (h : t.Shows x) : t.Places ⟨x.id, x.place⟩ := by
  obtain ⟨endDepth, next, h⟩ := h
  obtain ⟨n, hn, hhead⟩ := h.field_head
  show t.placeAt x.id = .ok x.place
  rw [placeAt_eq hn, hhead.position_eq, Place.place_position]

theorem shows_partsAt {p : Place} {endDepth id k : Nat} {fs : List (Field Symbol Note)}
    (h : t.Holds id (Field.nodesAll (p.position endDepth) id k fs)) :
    ∀ x ∈ Field.partsAt p k id fs, t.Shows x := by
  induction fs generalizing id k with
  | nil =>
    intro x hx
    cases hx
  | cons f fs ih =>
    rw [Field.nodesAll] at h
    obtain ⟨hf, hfs⟩ := h.split (Field.length_nodes ..)
    intro x hx
    rcases List.mem_cons.1 hx with rfl | hx
    · exact ⟨endDepth, _, hf⟩
    · exact ih hfs x hx

/-- With a slot, the table shows the fields that are compiled in its place. -/
theorem Shows.fieldsAt {p : Place} {id : Nat} {s : Slot Symbol Note}
    (h : t.Shows ⟨p, id, s.field⟩) : ∀ x ∈ s.fieldsAt p id, t.Shows x := by
  obtain ⟨name, f⟩ := s
  cases f with
  | plain b as declared n =>
    intro x hx
    obtain rfl := List.mem_singleton.1 hx
    exact h
  | multi ps as declared n =>
    obtain ⟨endDepth, next, h⟩ := h
    exact shows_partsAt (Node.numbered_cons.1 h).2

theorem shows_cons {p : Place} {endDepth id j : Nat} {s : Slot Symbol Note}
    {ss : List (Slot Symbol Note)}
    (h : t.Holds id (Slot.nodesAll (p.position endDepth) id j (s :: ss))) :
    t.Shows ⟨s.placeIn p j, id, s.field⟩ ∧
      t.Holds (id + s.field.size)
        (Slot.nodesAll (p.position endDepth) (id + s.field.size) (j + 1) ss) := by
  rw [Slot.nodesAll] at h
  obtain ⟨hs, hss⟩ := h.split (Field.length_nodes ..)
  exact ⟨⟨endDepth, _, hs⟩, hss⟩

theorem shows_fieldsAtAll {p : Place} {endDepth id j : Nat} {ss : List (Slot Symbol Note)}
    (h : t.Holds id (Slot.nodesAll (p.position endDepth) id j ss)) :
    ∀ x ∈ Slot.fieldsAtAll p j id ss, t.Shows x := by
  induction ss generalizing id j with
  | nil =>
    intro x hx
    cases hx
  | cons s ss ih =>
    obtain ⟨hs, hss⟩ := shows_cons h
    intro x hx
    rcases List.mem_append.1 hx with hx | hx
    · exact hs.fieldsAt x hx
    · exact ih hss x hx

end NodeTable

/-- The only binding occurrence that a handle makes is its pattern. -/
theorem Pattern.eq_of_mem_binding? {p : Place} {id : Nat} {q : Pattern Symbol Note} {o : Origin}
    (h : o ∈ Scope.allOrigins (q.binding? p id).toList) : o = ⟨id, p⟩ := by
  obtain ⟨b, hb, hbo⟩ := List.mem_filterMap.1 h
  obtain ⟨x, -, rfl⟩ := Option.map_eq_some_iff.1 (Option.mem_toList.1 hb)
  exact (Option.some.inj hbo).symm

theorem FieldAt.Compiles.placedIn {c : Context} {t : NodeTable} {σ : Scope} {x : FieldAt Note}
    {v : Visited (Field Symbol Note)} (h : x.Compiles c σ v) (hx : t.Shows x) :
    Scope.PlacedIn t v.bindings := by
  intro o ho
  rw [h.allOrigins_bindings] at ho
  rw [eq_of_mem_own ho]
  exact hx.places

theorem FieldVisit.Run.placedIn {c : Context} {t : NodeTable} {σ : Scope}
    {ts : List (FieldVisit Note)} (h : Run c σ ts) (hts : ∀ x ∈ ts.map source, t.Shows x) :
    Scope.PlacedIn t (bindings ts) := by
  induction h with
  | nil σ =>
    intro o ho
    cases ho
  | cons head tail ih =>
    rw [List.map_cons, List.forall_mem_cons] at hts
    exact (head.placedIn hts.1).append (ih hts.2)

namespace FieldAt

variable {σ : Scope} {x : FieldAt Note}

/-- Only a field that binds a variable refers to something itself. -/
theorem origin_noted_of_binds? (h : (x.noted σ).binds? = none) :
    (x.noted σ).note.origin = none := by
  obtain ⟨p, id, f⟩ := x
  cases f with
  | plain b as declared n =>
    cases b with
    | var y arity => cases h
    | wildcard arity => rfl
  | multi ps as declared n => rfl

end FieldAt

/-! ## Conditions -/

namespace Condition

variable {c : Context} {t : NodeTable} {σ : Scope}

theorem placedIn_inside {pattern joins id : Nat} {child : Option Nat} {rest : Lhs Symbol Note}
    {k : Condition Symbol Note} (h : t.Holds id (k.nodes pattern (k.joinsAfter joins) id child))
    (hσ : σ.PlacedIn t) {v : VisitedCondition} (hv : k.visit c pattern joins id σ rest = .ok v) :
    v.inside.PlacedIn t := by
  obtain ⟨element, beginDepth, endDepth, n⟩ := k
  cases element with
  | pattern mode q =>
    obtain ⟨hn, hslots⟩ := Node.numbered_cons.1 h
    have hplace : t.placeAt id = .ok (q.place pattern (joins + 1) beginDepth) :=
      NodeTable.placeAt_eq hn
    obtain ⟨ts, hrun, hsource, -, hinside, -⟩ := exists_run_of_visit rfl hv
    rw [hinside]
    refine (hσ.append fun o ho => ?_).append
      (hrun.placedIn (hsource ▸ NodeTable.shows_fieldsAtAll hslots))
    rw [q.eq_of_mem_binding? ho]
    exact hplace
  | test e =>
    obtain ⟨u, -, -, hinside⟩ := exists_bind_of_visit rfl hv
    rw [hinside]
    refine hσ.append fun o ho => ?_
    rw [FieldAt.allOrigins_demands] at ho
    cases ho

theorem placedIn_leave {k : Condition Symbol Note} {inside : Scope} (hσ : σ.PlacedIn t)
    (hinside : inside.PlacedIn t) : (σ.leave inside k).PlacedIn t := by
  intro o ho
  obtain ⟨b, hb, hbo⟩ := List.mem_filterMap.1 ho
  have hmem := (List.mem_filter.1 hb).1
  split at hmem
  · exact hinside o (List.mem_filterMap.2 ⟨b, hmem, hbo⟩)
  · exact hσ o (List.mem_filterMap.2 ⟨b, hmem, hbo⟩)

end Condition

end Antecedent
