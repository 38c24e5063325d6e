import Antecedent.Lhs.Interning
import Antecedent.Lhs.Step
import Antecedent.Proofs.Notes

/-!
# Successful compilations

What a successful compilation did, without the faults it might have reported. The fields of a
pattern and the parts of its multifield slots are compiled one after another, each in the scope that
the ones before it left behind.

* `ConditionAt` is a condition with its numbers, and `FieldAt` a field or part with its place and the
  number of its node; `Lhs.conditionsAt` and `ConditionAt.fields` list them.
* `FieldVisit` is one field with the scope it was compiled in and what came of it, and
  `FieldVisit.Run` says that a list of them happened in order.
* `Condition.exists_run_of_visit` and `Condition.exists_bind_of_visit` give the run behind a
  compiled pattern and the bound expression behind a compiled test.
* `Lhs.compileFrom_cons_eq_ok` takes a compilation apart condition by condition, and
  `Lhs.bare_of_compileFrom` says that it changes nothing but the notes.
-/

namespace Antecedent

variable {α β : Type}

/-! ## Fields in place -/

/-- A field or a part of a slot, with its place and the number of its node. -/
structure FieldAt (α : Type) where
  place : Place
  id : Nat
  field : Field Symbol α

/-- The parts of a slot, from the one at position `k` on. -/
def Field.partsAt (p : Place) (k id : Nat) : List (Field Symbol α) → List (FieldAt α)
  | [] => []
  | f :: fs => ⟨{ p with site := p.site.part f k }, id, f⟩ :: partsAt p (k + 1) (id + f.size) fs

namespace Slot

/-- The field of a slot; the parts of a multifield slot take its place. -/
def fieldsAt (p : Place) (id : Nat) (s : Slot Symbol α) : List (FieldAt α) :=
  match s.field with
  | .plain b as declared n => [⟨p, id, .plain b as declared n⟩]
  | .multi ps _ _ _ => Field.partsAt p 0 (id + 1) ps

/-- The place of a slot with field number `j` in a pattern at a place. -/
def placeIn (p : Place) (j : Nat) (s : Slot Symbol α) : Place :=
  { p with site := { p.site with index := j, name := s.name } }

/-- The fields of some slots, from the one with field number `j` on. -/
def fieldsAtAll (p : Place) (j id : Nat) : List (Slot Symbol α) → List (FieldAt α)
  | [] => []
  | s :: ss => s.fieldsAt (s.placeIn p j) id ++ fieldsAtAll p (j + 1) (id + s.field.size) ss

end Slot

/-- The place of a pattern that is condition number `pattern` and enters at `joinDepth`. -/
def Pattern.place (pattern joinDepth beginDepth : Nat) (q : Pattern Symbol α) : Place :=
  ⟨pattern, beginDepth, ⟨q.kind, 0, none, none, joinDepth⟩⟩

/-- The fields of a condition, when `joins` patterns come before it and its node has number `id`. -/
def Condition.fieldsAt (pattern joins id : Nat) (k : Condition Symbol α) : List (FieldAt α) :=
  match k.element with
  | .pattern _ q => Slot.fieldsAtAll (q.place pattern (joins + 1) k.beginDepth) 1 (id + 1) q.slots
  | .test _ => []

/-- A condition, its number, the number of patterns before it, and the number of its node. -/
structure ConditionAt (α : Type) where
  pattern : Nat
  joins : Nat
  id : Nat
  condition : Condition Symbol α

namespace ConditionAt

/-- The depth of the join that evaluates the condition. -/
def joinDepth (y : ConditionAt α) : Nat := y.condition.joinsAfter y.joins

/-- The fields of the condition and the parts of its multifield slots, in order. -/
def fields (y : ConditionAt α) : List (FieldAt α) := y.condition.fieldsAt y.pattern y.joins y.id

end ConditionAt

/-- The conditions from the one numbered `pattern` on. -/
def Lhs.conditionsFrom (pattern joins id : Nat) : Lhs Symbol α → List (ConditionAt α)
  | [] => []
  | k :: ks =>
    ⟨pattern, joins, id, k⟩ ::
      conditionsFrom (pattern + 1) (k.joinsAfter joins) (id + k.size) ks

/-- The conditions of a left-hand side in place. -/
def Lhs.conditionsAt (l : Lhs Symbol α) : List (ConditionAt α) := conditionsFrom 1 0 0 l

/-! ## Flat left-hand sides -/

def Field.isPlain {ν : Type} : Field ν α → Bool
  | plain _ _ _ _ => true
  | multi _ _ _ _ => false

/-- A slot has no multifield slot among its parts. -/
def Slot.isFlat (s : Slot Symbol α) : Bool :=
  match s.field with
  | .plain _ _ _ _ => true
  | .multi ps _ _ _ => ps.all Field.isPlain

def Condition.isFlat (k : Condition Symbol α) : Bool :=
  match k.element with
  | .pattern _ q => q.slots.all Slot.isFlat
  | .test _ => true

/-- No multifield slot is directly inside another one. -/
def Lhs.isFlat (l : Lhs Symbol α) : Bool := l.all Condition.isFlat

theorem Field.isPlain_of_mem_partsAt {p : Place} {k id : Nat} {fs : List (Field Symbol α)}
    (hfs : fs.all isPlain = true) {x : FieldAt α} (hx : x ∈ partsAt p k id fs) :
    x.field.isPlain = true := by
  induction fs generalizing k id with
  | nil => cases hx
  | cons f fs ih =>
    rw [List.all_cons, Bool.and_eq_true] at hfs
    rcases List.mem_cons.1 hx with rfl | hx
    · exact hfs.1
    · exact ih hfs.2 hx

theorem Slot.isPlain_of_mem_fieldsAtAll {p : Place} {j id : Nat} {ss : List (Slot Symbol α)}
    (hss : ss.all isFlat = true) {x : FieldAt α} (hx : x ∈ fieldsAtAll p j id ss) :
    x.field.isPlain = true := by
  induction ss generalizing j id with
  | nil => cases hx
  | cons s ss ih =>
    rw [List.all_cons, Bool.and_eq_true] at hss
    rcases List.mem_append.1 hx with hx | hx
    · obtain ⟨name, f⟩ := s
      cases f with
      | plain b as declared n =>
        obtain rfl := List.mem_singleton.1 hx
        rfl
      | multi ps as declared n => exact Field.isPlain_of_mem_partsAt hss.1 hx
    · exact ih hss.2 hx

/-- The fields of a flat condition are plain. -/
theorem Condition.isPlain_of_mem_fieldsAt {pattern joins id : Nat} {k : Condition Symbol α}
    (hk : k.isFlat = true) {x : FieldAt α} (hx : x ∈ k.fieldsAt pattern joins id) :
    x.field.isPlain = true := by
  obtain ⟨element, beginDepth, endDepth, n⟩ := k
  cases element with
  | pattern mode q => exact Slot.isPlain_of_mem_fieldsAtAll hk hx
  | test t => cases hx

/-! ## One field -/

namespace FieldAt

/-- The alternatives of the field as lists of conjuncts. -/
def conjuncts (x : FieldAt α) : List (List (Conjunct α)) := x.field.conjuncts x.place.site

/-- The binding that the field makes in a scope. -/
def own (σ : Scope) (x : FieldAt α) : Option Binding := x.field.binding? x.place x.id σ

/-- The field with notes of what it finds in a scope; its alternatives see its own binding. -/
def noted (σ : Scope) (x : FieldAt α) : Field Symbol Note :=
  x.field.resolve σ (σ ++ (x.own σ).toList) x.place.viewpoint

/-- The alternatives of the field with notes of what they find in a scope. -/
def alternatives (σ : Scope) (x : FieldAt α) : List (List (Conjunct Note)) :=
  (x.noted σ).conjuncts x.place.site

/-- What becomes of the field in a scope, when its alternatives are bound. -/
def outcome (c : Context) (σ : Scope) (x : FieldAt α) (bound : List (List (Conjunct Origin))) :
    Visited (Field Symbol Note) :=
  let out := Outputs.ofField x.place (x.noted σ).note.origin bound
  { result :=
      (x.noted σ).withNote
        { (x.noted σ).note with out := { candidate := out.candidate, lookup := out.lookup } }
    bindings :=
      (Field.demands c.env (x.alternatives σ)).map (Demand.binding x.place.beginDepth) ++
        (x.own σ).toList
    join := out.join
    deferred := out.deferred }

/-- The alternatives of the field can be bound, and the field becomes `v`. -/
def Compiles (c : Context) (σ : Scope) (x : FieldAt α) (v : Visited (Field Symbol Note)) : Prop :=
  ∃ bound, Conjunct.bindAll c x.place.spot ((x.noted σ).note.restriction.getD .any)
    (x.alternatives σ) = .ok bound ∧ v = x.outcome c σ bound

theorem compiles_of_visit {c : Context} {σ : Scope} {ahead : List Occurrence} {x : FieldAt α}
    {v : Visited (Field Symbol Note)} (h : x.field.visit c x.place x.id σ ahead = .ok v) :
    x.Compiles c σ v := by
  obtain ⟨-, -, h⟩ := bind_eq_ok.1 h
  obtain ⟨-, -, h⟩ := bind_eq_ok.1 h
  obtain ⟨bound, hbound, h⟩ := bind_eq_ok.1 h
  obtain ⟨-, -, h⟩ := bind_eq_ok.1 h
  obtain ⟨-, -, h⟩ := bind_eq_ok.1 h
  exact ⟨bound, hbound, (pure_eq_ok.1 h).symm⟩

theorem Compiles.bare_result {c : Context} {σ : Scope} {x : FieldAt α}
    {v : Visited (Field Symbol Note)} (h : x.Compiles c σ v) : v.result.bare = x.field.bare := by
  obtain ⟨bound, -, rfl⟩ := h
  simp [outcome, noted]

end FieldAt

/-! ## The fields of a pattern -/

/-- A field, the scope it was compiled in, and what came of it. -/
structure FieldVisit (α : Type) where
  scope : Scope
  source : FieldAt α
  visited : Visited (Field Symbol Note)

namespace FieldVisit

/-- The compiled field in its place. -/
def result (t : FieldVisit α) : FieldAt Note := ⟨t.source.place, t.source.id, t.visited.result⟩

theorem conjuncts_result {c : Context} {t : FieldVisit α}
    (h : t.source.Compiles c t.scope t.visited) :
    t.result.conjuncts = t.source.alternatives t.scope := by
  obtain ⟨bound, -, hv⟩ := h
  simp [result, FieldAt.conjuncts, hv, FieldAt.outcome, FieldAt.alternatives]

theorem origin_result {c : Context} {t : FieldVisit α}
    (h : t.source.Compiles c t.scope t.visited) :
    t.result.field.note.origin = (t.source.noted t.scope).note.origin := by
  obtain ⟨bound, -, hv⟩ := h
  simp [result, hv, FieldAt.outcome]

/-- Fields were compiled one after another, the first one in the scope `σ`. -/
inductive Run (c : Context) : Scope → List (FieldVisit α) → Prop where
  | nil (σ : Scope) : Run c σ []
  | cons {t : FieldVisit α} {ts : List (FieldVisit α)} (head : t.source.Compiles c t.scope t.visited)
      (tail : Run c (t.scope ++ t.visited.bindings) ts) : Run c t.scope (t :: ts)

/-- The bindings that some fields made. -/
def bindings (ts : List (FieldVisit α)) : Scope := Visited.allBindings (ts.map visited)

@[simp] theorem bindings_nil : bindings ([] : List (FieldVisit α)) = [] := rfl

@[simp] theorem bindings_cons (t : FieldVisit α) (ts : List (FieldVisit α)) :
    bindings (t :: ts) = t.visited.bindings ++ bindings ts := rfl

theorem bindings_append (ts us : List (FieldVisit α)) :
    bindings (ts ++ us) = bindings ts ++ bindings us := by
  simp [bindings, Visited.allBindings]

namespace Run

theorem append {c : Context} {σ : Scope} {ts us : List (FieldVisit α)} (hts : Run c σ ts)
    (hus : Run c (σ ++ bindings ts) us) : Run c σ (ts ++ us) := by
  induction hts with
  | nil σ => simpa using hus
  | cons head tail ih => exact .cons head (ih (by simpa using hus))

theorem compiles {c : Context} {σ : Scope} {ts : List (FieldVisit α)} (h : Run c σ ts) :
    ∀ t ∈ ts, t.source.Compiles c t.scope t.visited := by
  induction h with
  | nil σ => simp
  | cons head tail ih =>
    intro t ht
    rcases List.mem_cons.1 ht with rfl | ht
    · exact head
    · exact ih t ht

end Run

end FieldVisit

namespace Visited

theorem allJoin_append (vs ws : List (Visited β)) : allJoin (vs ++ ws) = allJoin vs ++ allJoin ws := by
  induction vs with
  | nil => simp [allJoin]
  | cons v vs ih => simp [allJoin, ih, JoinOutput.append_assoc]

theorem allDeferred_append (vs ws : List (Visited β)) :
    allDeferred (vs ++ ws) = allDeferred vs ++ allDeferred ws := by
  induction vs with
  | nil => simp [allDeferred]
  | cons v vs ih => simp [allDeferred, ih, JoinOutput.append_assoc]

end Visited

theorem Site.part_eq_of_bare {s : Site} {f : Field Symbol α} {g : Field Symbol β} {k : Nat}
    (h : f.bare = g.bare) : s.part f k = s.part g k := by
  simp only [part, Field.segment, Field.arity_eq_of_bare h]

theorem Field.visitParts_cons_eq_ok {c : Context} {p : Place} {slotsAhead beyond : List Occurrence}
    {k id : Nat} {σ : Scope} {f : Field Symbol α} {fs : List (Field Symbol α)}
    {vs : List (Visited (Field Symbol Note))} :
    visitParts c p slotsAhead beyond k id σ (f :: fs) = .ok vs ↔
      ∃ v us, f.visit c { p with site := p.site.part f k } id σ
          (slotsAhead ++ occurrencesAll p.spot fs ++ beyond) = .ok v ∧
        visitParts c p slotsAhead beyond (k + 1) (id + f.size) (σ ++ v.bindings) fs = .ok us ∧
        vs = v :: us := by
  rw [visitParts, bind_cons_eq_ok]

/-- The run behind the compiled parts of a slot. -/
theorem Field.exists_run_of_visitParts {c : Context} {p : Place} {slotsAhead beyond : List Occurrence}
    {k id : Nat} {σ : Scope} {fs : List (Field Symbol α)} {vs : List (Visited (Field Symbol Note))}
    (h : visitParts c p slotsAhead beyond k id σ fs = .ok vs) :
    ∃ ts : List (FieldVisit α), FieldVisit.Run c σ ts ∧ ts.map FieldVisit.visited = vs ∧
      ts.map FieldVisit.source = partsAt p k id fs ∧
      ts.map FieldVisit.result = partsAt p k id (vs.map Visited.result) ∧
      mapNotesAll (fun _ => ()) (vs.map Visited.result) = mapNotesAll (fun _ => ()) fs := by
  induction fs generalizing k id σ vs with
  | nil =>
    rw [visitParts] at h
    obtain rfl := pure_eq_ok.1 h
    exact ⟨[], .nil σ, rfl, rfl, rfl, rfl⟩
  | cons f fs ih =>
    obtain ⟨v, vs, hv, hvs, rfl⟩ := visitParts_cons_eq_ok.1 h
    let t : FieldVisit α := ⟨σ, ⟨{ p with site := p.site.part f k }, id, f⟩, v⟩
    have ht : t.source.Compiles c t.scope t.visited := FieldAt.compiles_of_visit hv
    have hbare : v.result.bare = f.bare := ht.bare_result
    obtain ⟨ts, hrun, rfl, hsource, hresult, hnotes⟩ := ih hvs
    refine ⟨t :: ts, .cons ht hrun, rfl, ?_, ?_, ?_⟩
    · simp [partsAt, hsource, t]
    · simp [partsAt, hresult, t, FieldVisit.result, size_eq_of_bare hbare,
        Site.part_eq_of_bare hbare]
    · simp only [List.map_cons, mapNotesAll, hnotes]
      rw [show mapNotes (fun _ => ()) v.result = mapNotes (fun _ => ()) f from hbare]

namespace Slot

/-- The run behind a compiled slot. -/
theorem exists_run_of_visit {c : Context} {p : Place} {id : Nat} {σ : Scope}
    {slotsAhead beyond : List Occurrence} {s : Slot Symbol α} {w : Visited (Slot Symbol Note)}
    (h : s.visit c p id σ slotsAhead beyond = .ok w) :
    ∃ ts : List (FieldVisit α), FieldVisit.Run c σ ts ∧
      ts.map FieldVisit.source = s.fieldsAt p id ∧
      ts.map FieldVisit.result = w.result.fieldsAt p id ∧
      w.bindings = FieldVisit.bindings ts ∧
      w.join = Visited.allJoin (ts.map FieldVisit.visited) ∧
      w.deferred = Visited.allDeferred (ts.map FieldVisit.visited) ∧
      w.result.mapNotes (fun _ => ()) = s.mapNotes fun _ => () := by
  obtain ⟨name, f⟩ := s
  cases f with
  | plain b as declared n =>
    obtain ⟨v, hv, h⟩ := bind_eq_ok.1 h
    obtain rfl := pure_eq_ok.1 h
    let t : FieldVisit α := ⟨σ, ⟨p, id, .plain b as declared n⟩, v⟩
    have ht : t.source.Compiles c t.scope t.visited := FieldAt.compiles_of_visit hv
    have hbare : v.result.bare = (Field.plain b as declared n).bare := ht.bare_result
    obtain ⟨b', as', declared', n', hplain⟩ : ∃ b' as' d' n', v.result = .plain b' as' d' n' := by
      cases hr : v.result with
      | plain b' as' d' n' => exact ⟨b', as', d', n', rfl⟩
      | multi ps as' d' n' => rw [hr] at hbare; simp [Field.bare, Field.mapNotes] at hbare
    refine ⟨[t], .cons ht (.nil _), rfl, ?_, ?_, ?_, ?_, ?_⟩
    · simp [fieldsAt, FieldVisit.result, t, hplain]
    · simp [t]
    · simp [Visited.allJoin, t]
    · simp [Visited.allDeferred, t]
    · exact congrArg (mk name) hbare
  | multi ps as declared n =>
    obtain ⟨vs, hvs, h⟩ := bind_eq_ok.1 h
    obtain rfl := pure_eq_ok.1 h
    obtain ⟨ts, hrun, rfl, hsource, hresult, hnotes⟩ := Field.exists_run_of_visitParts hvs
    refine ⟨ts, hrun, hsource, hresult, rfl, rfl, rfl, ?_⟩
    simp only [mapNotes, Field.mapNotes, hnotes]

theorem visitAll_cons_eq_ok {c : Context} {p : Place} {beyond : List Occurrence} {j id : Nat}
    {σ : Scope} {s : Slot Symbol α} {ss : List (Slot Symbol α)}
    {ws : List (Visited (Slot Symbol Note))} :
    visitAll c p beyond j id σ (s :: ss) = .ok ws ↔
      ∃ w us, s.visit c (s.placeIn p j) id σ (occurrencesAll p.pattern (j + 1) ss) beyond = .ok w ∧
        visitAll c p beyond (j + 1) (id + s.field.size) (σ ++ w.bindings) ss = .ok us ∧
        ws = w :: us := by
  rw [visitAll, bind_cons_eq_ok]
  rfl

/-- The run behind the compiled slots of a pattern. -/
theorem exists_run_of_visitAll {c : Context} {p : Place} {beyond : List Occurrence} {j id : Nat}
    {σ : Scope} {ss : List (Slot Symbol α)} {ws : List (Visited (Slot Symbol Note))}
    (h : visitAll c p beyond j id σ ss = .ok ws) :
    ∃ ts : List (FieldVisit α), FieldVisit.Run c σ ts ∧
      ts.map FieldVisit.source = fieldsAtAll p j id ss ∧
      ts.map FieldVisit.result = fieldsAtAll p j id (ws.map Visited.result) ∧
      Visited.allBindings ws = FieldVisit.bindings ts ∧
      Visited.allJoin ws = Visited.allJoin (ts.map FieldVisit.visited) ∧
      Visited.allDeferred ws = Visited.allDeferred (ts.map FieldVisit.visited) ∧
      (ws.map Visited.result).map (mapNotes fun _ => ()) = ss.map (mapNotes fun _ => ()) := by
  induction ss generalizing j id σ ws with
  | nil =>
    rw [visitAll] at h
    obtain rfl := pure_eq_ok.1 h
    exact ⟨[], .nil σ, rfl, rfl, rfl, rfl, rfl, rfl⟩
  | cons s ss ih =>
    obtain ⟨w, ws, hw, hws, rfl⟩ := visitAll_cons_eq_ok.1 h
    obtain ⟨ts, hrun, hsource, hresult, hbindings, hjoin, hdeferred, hnotes⟩ :=
      exists_run_of_visit hw
    rw [hbindings] at hws
    obtain ⟨us, hrun', hsource', hresult', hbindings', hjoin', hdeferred', hnotes'⟩ := ih hws
    have hname : w.result.name = s.name := congrArg name hnotes
    have hsize : w.result.field.size = s.field.size :=
      Field.size_eq_of_bare (congrArg Slot.field hnotes)
    refine ⟨ts ++ us, hrun.append hrun', ?_, ?_, ?_, ?_, ?_, ?_⟩
    · simp [fieldsAtAll, hsource, hsource', placeIn]
    · simp [fieldsAtAll, hresult, hresult', placeIn, hname, hsize]
    · simp only [Visited.allBindings, List.flatMap_cons] at hbindings' ⊢
      rw [hbindings, hbindings', FieldVisit.bindings_append]
    · rw [Visited.allJoin, hjoin, hjoin', List.map_append, Visited.allJoin_append]
    · rw [Visited.allDeferred, hdeferred, hdeferred', List.map_append, Visited.allDeferred_append]
    · simp only [List.map_cons, hnotes, hnotes']

end Slot

/-! ## Conditions -/

namespace Condition

/-- The run behind a compiled pattern. The first field sees the pattern's own handle. -/
theorem exists_run_of_visit {c : Context} {pattern joins id : Nat} {σ : Scope}
    {rest : Lhs Symbol α} {k : Condition Symbol α} {v : VisitedCondition} {mode : Mode}
    {q : Pattern Symbol α} (hk : k.element = .pattern mode q)
    (h : k.visit c pattern joins id σ rest = .ok v) :
    ∃ ts : List (FieldVisit α),
      FieldVisit.Run c
        (σ ++ (q.binding? (q.place pattern (joins + 1) k.beginDepth) id).toList) ts ∧
      ts.map FieldVisit.source = k.fieldsAt pattern joins id ∧
      ts.map FieldVisit.result = v.condition.fieldsAt pattern joins id ∧
      v.inside = σ ++ (q.binding? (q.place pattern (joins + 1) k.beginDepth) id).toList ++
        FieldVisit.bindings ts ∧
      v.condition.note.out =
        { join := Visited.allJoin (ts.map FieldVisit.visited)
          deferred := Visited.allDeferred (ts.map FieldVisit.visited) } ∧
      v.condition.bare = k.bare := by
  obtain ⟨element, beginDepth, endDepth, n⟩ := k
  obtain rfl : element = .pattern mode q := hk
  obtain ⟨-, -, h⟩ := bind_eq_ok.1 h
  obtain ⟨-, -, h⟩ := bind_eq_ok.1 h
  obtain ⟨ws, hws, h⟩ := bind_eq_ok.1 h
  obtain rfl := pure_eq_ok.1 h
  obtain ⟨ts, hrun, hsource, hresult, hbindings, hjoin, hdeferred, hnotes⟩ :=
    Slot.exists_run_of_visitAll hws
  refine ⟨ts, hrun, hsource, hresult, ?_, ?_, ?_⟩
  · rw [← hbindings]
    rfl
  · rw [← hjoin, ← hdeferred]
  · simp only [bare, mapNotes, Element.mapNotes, Pattern.mapNotes, hnotes]

/-- The bound expression behind a compiled test. -/
theorem exists_bind_of_visit {c : Context} {pattern joins id : Nat} {σ : Scope}
    {rest : Lhs Symbol α} {k : Condition Symbol α} {v : VisitedCondition} {t : Term Symbol α}
    (hk : k.element = .test t) (h : k.visit c pattern joins id σ rest = .ok v) :
    ∃ u, (t.resolve σ ⟨pattern, none⟩).bind c ⟨pattern, 0, none⟩ = .ok u ∧
      v.condition = ⟨.test (t.resolve σ ⟨pattern, none⟩), k.beginDepth, k.endDepth,
        { out := Outputs.ofTest k.beginDepth joins u }⟩ ∧
      v.inside = σ ++
        ((t.resolve σ ⟨pattern, none⟩).demands c.env).map (Demand.binding k.beginDepth) := by
  obtain ⟨element, beginDepth, endDepth, n⟩ := k
  obtain rfl : element = .test t := hk
  obtain ⟨u, hu, h⟩ := bind_eq_ok.1 h
  obtain rfl := pure_eq_ok.1 h
  exact ⟨u, hu, rfl, rfl⟩

theorem bare_of_visit {c : Context} {pattern joins id : Nat} {σ : Scope} {rest : Lhs Symbol α}
    {k : Condition Symbol α} {v : VisitedCondition}
    (h : k.visit c pattern joins id σ rest = .ok v) : v.condition.bare = k.bare := by
  cases hk : k.element with
  | pattern mode q =>
    obtain ⟨ts, -, -, -, -, -, hbare⟩ := exists_run_of_visit hk h
    exact hbare
  | test t =>
    obtain ⟨u, -, hv, -⟩ := exists_bind_of_visit hk h
    simp [hv, bare, mapNotes, Element.mapNotes, Term.mapNotes_resolve, hk]

end Condition

/-! ## Left-hand sides -/

namespace Lhs

theorem compileFrom_cons_eq_ok {c : Context} {pattern joins id : Nat} {σ : Scope}
    {k : Condition Symbol α} {ks : Lhs Symbol α} {u : Lhs Symbol Note} :
    compileFrom c pattern joins id σ (k :: ks) = .ok u ↔
      ∃ v us, k.visit c pattern joins id σ ks = .ok v ∧
        compileFrom c (pattern + 1) (k.joinsAfter joins) (id + k.size) (σ.leave v.inside k) ks =
          .ok us ∧ u = v.condition :: us := by
  rw [compileFrom, bind_cons_eq_ok]

theorem bare_of_compileFrom {c : Context} {pattern joins id : Nat} {σ : Scope} {l : Lhs Symbol α}
    {u : Lhs Symbol Note} (h : compileFrom c pattern joins id σ l = .ok u) : u.bare = l.bare := by
  induction l generalizing pattern joins id σ u with
  | nil =>
    rw [compileFrom] at h
    obtain rfl := pure_eq_ok.1 h
    rfl
  | cons k ks ih =>
    obtain ⟨v, us, hv, hus, rfl⟩ := compileFrom_cons_eq_ok.1 h
    exact congrArg₂ List.cons (Condition.bare_of_visit hv) (ih hus)

theorem length_of_compileFrom {c : Context} {pattern joins id : Nat} {σ : Scope} {l : Lhs Symbol α}
    {u : Lhs Symbol Note} (h : compileFrom c pattern joins id σ l = .ok u) : u.length = l.length := by
  simpa [bare] using congrArg List.length (bare_of_compileFrom h)

theorem exists_compileFrom_of_compile {c : Context} {l : Lhs Symbol α} {r : Lhs Symbol Note}
    (h : l.compile c = .ok r) : ∃ u, compileFrom c 1 0 0 [] l = .ok u ∧ r = collapse u := by
  obtain ⟨u, hu, h⟩ := bind_eq_ok.1 h
  exact ⟨u, hu, (pure_eq_ok.1 h).symm⟩

/-! ## Written left-hand sides -/

/-- A pattern over facts whose fields bind the given variables; `none` is a wildcard. -/
def factPattern (fields : List (Option String)) : Pattern String Unit where
  kind := .fact
  handle := none
  slots := fields.map fun x =>
    ⟨none, .plain (x.elim (.wildcard .single) (.var · .single)) [] none ()⟩

/-- A pattern that binds `y`, then one that binds `x` and has a field with the given variables as its
alternatives. -/
def alternation (names : List String) : List (Step String Unit) :=
  [.pattern (factPattern [some "y"]),
    .pattern
      { kind := .fact
        handle := none
        slots :=
          [⟨none, .plain (.var "x" .single) [] none ()⟩,
            ⟨none, .plain (.wildcard .single) (names.map fun x => ⟨.var x .single (), []⟩) none ()⟩] }]

/-- The compiled conditions of some steps, with standard options and no functions. -/
def compiledSteps (steps : List (Step String Unit)) : Except Diagnostic (Lhs Symbol Note) :=
  ((ofSteps steps).intern .empty).1.compile ⟨.empty, .standard⟩

end Lhs

end Antecedent
