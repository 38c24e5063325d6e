import Antecedent.Proofs.Beginnings
import Antecedent.Proofs.ScopePlaces

/-!
# Making the tests from the notes

The tests of a field are made when it is compiled, before the fields after it. They can as well be made
at the end: the notes that a compilation leaves are enough, and they are final when they are made.

* `Lhs.withoutOutputs` takes the tests away and leaves the restrictions and binding occurrences.
  `FieldAt.Compiles.withoutOutputs_result` says that this leaves a field as it was found in its scope.
* `Lhs.generate` makes the tests from the node table, in order, and collapses the negated runs. It looks
  at no scope and no environment. A look-up that misses is a `TableFault`.
* `FieldAt.generate_eq`, `Condition.generate_eq` and `Lhs.generateFrom_eq` say that it makes the tests
  that the compilation made.
* `Lhs.generate_eq_compile` is the result for a left-hand side.
-/

namespace Antecedent

variable {α β : Type}

/-! ## Notes without tests -/

/-- The left-hand side with its restrictions and binding occurrences, but without tests. -/
def Lhs.withoutOutputs (l : Lhs Symbol Note) : Lhs Symbol Note := l.mapNotes Note.withoutOutputs

section Resolve

variable (σ : Scope) (v : Viewpoint)

namespace Term

mutual

/-- What is found in scope is noted without tests. -/
theorem withoutOutputs_resolve (t : Term Symbol α) :
    (t.resolve σ v).mapNotes Note.withoutOutputs = t.resolve σ v := by
  cases t with
  | call f args => rw [resolve, mapNotes, withoutOutputs_resolveAll args]
  | var x arity n => rfl
  | lit value => rfl
  | global x => rfl

theorem withoutOutputs_resolveAll (ts : List (Term Symbol α)) :
    mapNotesAll Note.withoutOutputs (resolveAll σ v ts) = resolveAll σ v ts := by
  cases ts with
  | nil => rfl
  | cons t ts => rw [resolveAll, mapNotesAll, withoutOutputs_resolve t, withoutOutputs_resolveAll ts]

end

end Term

theorem Constraint.withoutOutputs_resolve (k : Constraint Symbol α) :
    (k.resolve σ v).mapNotes Note.withoutOutputs = k.resolve σ v := by
  obtain ⟨shape, negated⟩ := k
  cases shape with
  | literal value => rfl
  | var x arity n => rfl
  | predicate t => simp only [resolve, mapNotes, Term.withoutOutputs_resolve]
  | returnValue t => simp only [resolve, mapNotes, Term.withoutOutputs_resolve]

theorem Alternative.withoutOutputs_resolve (a : Alternative Symbol α) :
    (a.resolve σ v).mapNotes Note.withoutOutputs = a.resolve σ v := by
  simp [resolve, mapNotes, Constraint.withoutOutputs_resolve]

namespace Field

mutual

theorem withoutOutputs_resolve (inner : Scope) (f : Field Symbol α) :
    (f.resolve σ inner v).mapNotes Note.withoutOutputs = f.resolve σ inner v := by
  cases f with
  | plain b as declared n =>
    cases b <;> simp [resolve, mapNotes, Alternative.withoutOutputs_resolve] <;> rfl
  | multi ps as declared n =>
    rw [resolve, mapNotes, withoutOutputs_resolveAll ps]
    rfl

theorem withoutOutputs_resolveAll (fs : List (Field Symbol α)) :
    mapNotesAll Note.withoutOutputs (resolveAll σ v fs) = resolveAll σ v fs := by
  cases fs with
  | nil => rfl
  | cons f fs =>
    rw [resolveAll, mapNotesAll, withoutOutputs_resolve σ f, withoutOutputs_resolveAll fs]

end

end Field

end Resolve

theorem Field.withoutOutputs_withNote (f : Field Symbol Note) (out : Outputs) :
    (f.withNote { f.note with out }).mapNotes Note.withoutOutputs = f.mapNotes Note.withoutOutputs := by
  cases f <;> rfl

/-- A compiled field without its tests is the field with what it found in scope. -/
theorem FieldAt.Compiles.withoutOutputs_result {c : Context} {σ : Scope} {x : FieldAt α}
    {v : Visited (Field Symbol Note)} (h : x.Compiles c σ v) :
    v.result.mapNotes Note.withoutOutputs = x.noted σ := by
  obtain ⟨bound, -, rfl⟩ := h
  rw [outcome, Field.withoutOutputs_withNote, noted, Field.withoutOutputs_resolve]

/-! ## Making the tests -/

namespace Field

/-- Makes the tests of the field at a node. -/
def generate (t : NodeTable) (id : Nat) (f : Field Symbol Note) :
    Except TableFault (Visited (Field Symbol Note)) := do
  let out ← t.fieldOutputs id
  return {
    result := f.withNote { f.note with out := { candidate := out.candidate, lookup := out.lookup } }
    bindings := []
    join := out.join
    deferred := out.deferred }

/-- Makes the tests of the parts of a slot, the first one at node `id`. -/
def generateParts (t : NodeTable) (id : Nat) :
    List (Field Symbol Note) → Except TableFault (List (Visited (Field Symbol Note)))
  | [] => return []
  | f :: fs => do
    let v ← f.generate t id
    return v :: (← generateParts t (id + f.size) fs)

end Field

namespace Slot

/-- Makes the tests of the slot at a node; the parts of a multifield slot take its place. -/
def generate (t : NodeTable) (id : Nat) (s : Slot Symbol Note) :
    Except TableFault (Visited (Slot Symbol Note)) :=
  match s.field with
  | .plain b as declared n => do
    let v ← Field.generate t id (.plain b as declared n)
    return { v with result := ⟨s.name, v.result⟩ }
  | .multi ps as declared n => do
    let vs ← Field.generateParts t (id + 1) ps
    return {
      result := ⟨s.name, .multi (vs.map Visited.result) as declared n⟩
      bindings := []
      join := Visited.allJoin vs
      deferred := Visited.allDeferred vs }

/-- Makes the tests of some slots, the first one at node `id`. -/
def generateAll (t : NodeTable) (id : Nat) :
    List (Slot Symbol Note) → Except TableFault (List (Visited (Slot Symbol Note)))
  | [] => return []
  | s :: ss => do
    let v ← s.generate t id
    return v :: (← generateAll t (id + s.field.size) ss)

end Slot

/-- Makes the tests of the condition at a node. -/
def Condition.generate (t : NodeTable) (id : Nat) (k : Condition Symbol Note) :
    Except TableFault (Condition Symbol Note) :=
  match k.element with
  | .pattern mode q => do
    let vs ← Slot.generateAll t (id + 1) q.slots
    let out : Outputs := { join := Visited.allJoin vs, deferred := Visited.allDeferred vs }
    return ⟨.pattern mode { q with slots := vs.map Visited.result }, k.beginDepth, k.endDepth,
      { k.note with out }⟩
  | .test _ => do
    let out ← t.testOutputs id
    return { k with note := { k.note with out } }

namespace Lhs

/-- Makes the tests of some conditions, the first one at node `id`. -/
def generateFrom (t : NodeTable) (id : Nat) :
    Lhs Symbol Note → Except TableFault (Lhs Symbol Note)
  | [] => return []
  | k :: ks => do
    let k' ← k.generate t id
    return k' :: (← generateFrom t (id + k.size) ks)

/-- Makes the tests of a left-hand side from its notes. -/
def generate (l : Lhs Symbol Note) : Except TableFault (Lhs Symbol Note) := do
  return collapse (← generateFrom (.ofLhs l) 0 l)

end Lhs

/-! ## The tests of a compilation -/

namespace Visited

def withoutBindings (v : Visited β) : Visited β := { v with bindings := [] }

theorem allJoin_withoutBindings (vs : List (Visited β)) :
    allJoin (vs.map withoutBindings) = allJoin vs := by
  induction vs with
  | nil => rfl
  | cons v vs ih => rw [List.map_cons, allJoin, allJoin, ih]; rfl

theorem allDeferred_withoutBindings (vs : List (Visited β)) :
    allDeferred (vs.map withoutBindings) = allDeferred vs := by
  induction vs with
  | nil => rfl
  | cons v vs ih => rw [List.map_cons, allDeferred, allDeferred, ih]; rfl

theorem map_result_withoutBindings (vs : List (Visited β)) :
    (vs.map withoutBindings).map result = vs.map result := by
  rw [List.map_map]
  rfl

end Visited

section Generate

variable {c : Context} {t : NodeTable} {σ : Scope}

/-- **The tests of a field** are made from its notes as they were made when it was compiled. -/
theorem FieldAt.generate_eq {x : FieldAt Note} (hx : t.Shows x) (hσ : σ.PlacedIn t)
    {v : Visited (Field Symbol Note)} (h : x.Compiles c σ v)
    (hfield : x.field = v.result.mapNotes Note.withoutOutputs) :
    x.field.generate t x.id = .ok v.withoutBindings := by
  have hnoted : x.field = x.noted σ := hfield.trans h.withoutOutputs_result
  have hown : Scope.PlacedIn t (σ ++ (x.own σ).toList) := by
    refine hσ.append fun o ho => ?_
    rw [eq_of_mem_own ho]
    exact hx.places
  obtain ⟨bound, hbound, rfl⟩ := h
  obtain ⟨endDepth, next, hnodes⟩ := hx
  have hout : t.fieldOutputs x.id = .ok (Outputs.ofField x.place (x.noted σ).note.origin bound) := by
    rw [hnoted] at hnodes
    exact NodeTable.fieldOutputs_eq hnodes origin_noted_of_binds?
      (fun o ho => hσ o (origin_mem ho)) (Conjunct.forall₂_of_bindAll hbound)
      fun ks hks k hk n hn o ho => hown o (reference_mem hks hk hn ho)
  rw [Field.generate, hout, ok_bind, hnoted]
  rfl

theorem Field.generateParts_eq {p : Place} {slotsAhead beyond : List Occurrence} {k id : Nat}
    {fs : List (Field Symbol Note)} (hfs : ∀ x ∈ partsAt p k id fs, t.Shows x) (hσ : σ.PlacedIn t)
    {vs : List (Visited (Field Symbol Note))}
    (h : visitParts c p slotsAhead beyond k id σ fs = .ok vs)
    (hfields : fs = mapNotesAll Note.withoutOutputs (vs.map Visited.result)) :
    generateParts t id fs = .ok (vs.map Visited.withoutBindings) := by
  induction fs generalizing k id σ vs with
  | nil =>
    obtain rfl := pure_eq_ok.1 h
    rfl
  | cons f fs ih =>
    rw [partsAt, List.forall_mem_cons] at hfs
    obtain ⟨hf, hfs⟩ := hfs
    obtain ⟨v, vs, hv, hvs, rfl⟩ := visitParts_cons_eq_ok.1 h
    obtain ⟨hfield, hfields⟩ := List.cons.inj hfields
    let x : FieldAt Note := ⟨{ p with site := p.site.part f k }, id, f⟩
    have hcompiles : x.Compiles c σ v := FieldAt.compiles_of_visit hv
    have hgenerate := FieldAt.generate_eq hf hσ hcompiles hfield
    have hparts := ih hfs (hσ.append (hcompiles.placedIn hf)) hvs hfields
    exact bind_cons_eq_ok.2 ⟨_, _, hgenerate, hparts, rfl⟩

namespace Slot

theorem generate_eq {p : Place} {id : Nat} {slotsAhead beyond : List Occurrence}
    {s : Slot Symbol Note} (hs : t.Shows ⟨p, id, s.field⟩) (hσ : σ.PlacedIn t)
    {w : Visited (Slot Symbol Note)} (h : s.visit c p id σ slotsAhead beyond = .ok w)
    (hslot : s = w.result.mapNotes Note.withoutOutputs) :
    s.generate t id = .ok w.withoutBindings := by
  have hfields := hs.fieldsAt
  obtain ⟨name, f⟩ := s
  cases f with
  | plain b as declared n =>
    obtain ⟨v, hv, h⟩ := bind_eq_ok.1 h
    obtain rfl := pure_eq_ok.1 h
    have hgenerate := FieldAt.generate_eq hs hσ (FieldAt.compiles_of_visit hv) (congrArg field hslot)
    exact bind_eq_ok.2 ⟨_, hgenerate, rfl⟩
  | multi ps as declared n =>
    obtain ⟨vs, hvs, h⟩ := bind_eq_ok.1 h
    obtain rfl := pure_eq_ok.1 h
    obtain ⟨hps, rfl, -, rfl⟩ := Field.multi.inj (congrArg field hslot)
    have hparts := Field.generateParts_eq hfields hσ hvs hps
    refine bind_eq_ok.2 ⟨_, hparts, ?_⟩
    rw [Visited.map_result_withoutBindings, Visited.allJoin_withoutBindings,
      Visited.allDeferred_withoutBindings]
    rfl

theorem generateAll_eq {p : Place} {endDepth j id : Nat} {beyond : List Occurrence}
    {ss : List (Slot Symbol Note)} (hss : t.Holds id (nodesAll (p.position endDepth) id j ss))
    (hσ : σ.PlacedIn t) {ws : List (Visited (Slot Symbol Note))}
    (h : visitAll c p beyond j id σ ss = .ok ws)
    (hslots : ss = (ws.map Visited.result).map (mapNotes Note.withoutOutputs)) :
    generateAll t id ss = .ok (ws.map Visited.withoutBindings) := by
  induction ss generalizing j id σ ws with
  | nil =>
    obtain rfl := pure_eq_ok.1 h
    rfl
  | cons s ss ih =>
    obtain ⟨hs, hss⟩ := NodeTable.shows_cons hss
    obtain ⟨w, ws, hw, hws, rfl⟩ := visitAll_cons_eq_ok.1 h
    obtain ⟨hslot, hslots⟩ := List.cons.inj hslots
    have hgenerate := generate_eq hs hσ hw hslot
    obtain ⟨ts, hrun, hsource, -, hbindings, -⟩ := exists_run_of_visit hw
    have hplaced := hrun.placedIn (hsource ▸ hs.fieldsAt)
    have hrest := ih hss (hσ.append (hbindings ▸ hplaced)) hws hslots
    exact bind_cons_eq_ok.2 ⟨_, _, hgenerate, hrest, rfl⟩

end Slot

namespace Condition

theorem generate_pattern_eq {pattern joinDepth id beginDepth endDepth : Nat}
    {beyond : List Occurrence} {mode : Mode} {q : Pattern Symbol Note} {n : Note}
    (hplace : t.placeAt id = .ok (q.place pattern joinDepth beginDepth))
    (hslots : t.Holds (id + 1) (Slot.nodesAll
      ((q.place pattern joinDepth beginDepth).position endDepth) (id + 1) 1 q.slots))
    (hσ : σ.PlacedIn t) {v : VisitedCondition}
    (h : visitPattern c pattern joinDepth id σ beyond beginDepth endDepth mode q = .ok v)
    (hcondition : ⟨.pattern mode q, beginDepth, endDepth, n⟩ =
      v.condition.mapNotes Note.withoutOutputs) :
    generate t id ⟨.pattern mode q, beginDepth, endDepth, n⟩ = .ok v.condition := by
  obtain ⟨-, -, h⟩ := bind_eq_ok.1 h
  obtain ⟨-, -, h⟩ := bind_eq_ok.1 h
  obtain ⟨ws, hws, h⟩ := bind_eq_ok.1 h
  obtain rfl := pure_eq_ok.1 h
  obtain ⟨helement, -, -, rfl⟩ := Condition.mk.inj hcondition
  have hown : Scope.PlacedIn t
      (σ ++ (q.binding? (q.place pattern joinDepth beginDepth) id).toList) := by
    refine hσ.append fun o ho => ?_
    rw [q.eq_of_mem_binding? ho]
    exact hplace
  have hss := congrArg Pattern.slots (Element.pattern.inj helement).2
  refine bind_eq_ok.2 ⟨_, Slot.generateAll_eq hslots hown hws hss, ?_⟩
  rw [Visited.map_result_withoutBindings, Visited.allJoin_withoutBindings,
    Visited.allDeferred_withoutBindings]
  rfl

theorem generate_test_eq {pattern joinDepth id beginDepth endDepth : Nat} {e : Term Symbol Note}
    {node : Node} {n : Note} (hnode : t.node? id = some node) (hroot : node.subexpr = some (id + 1))
    (hbegin : node.position.beginDepth = beginDepth) (hjoin : node.position.joinDepth = joinDepth)
    (he : t.Holds (id + 1) (e.nodes node.position (id + 1) none)) (hσ : σ.PlacedIn t)
    {v : VisitedCondition} (h : visitTest c pattern joinDepth σ beginDepth endDepth e = .ok v)
    (hcondition : ⟨.test e, beginDepth, endDepth, n⟩ = v.condition.mapNotes Note.withoutOutputs) :
    generate t id ⟨.test e, beginDepth, endDepth, n⟩ = .ok v.condition := by
  obtain ⟨u, hu, h⟩ := bind_eq_ok.1 h
  obtain rfl := pure_eq_ok.1 h
  obtain ⟨helement, -, -, rfl⟩ := Condition.mk.inj hcondition
  have hresolved : e = e.resolve σ ⟨pattern, none⟩ :=
    (Element.test.inj helement).trans (Term.withoutOutputs_resolve σ ⟨pattern, none⟩ e)
  have hplaces : ∀ m ∈ e.notes, ∀ o, m.origin = some o → t.Places o := by
    intro m hm o ho
    rw [hresolved] at hm
    obtain ⟨x, rfl⟩ := Term.exists_origin?_of_mem_notes hm
    exact hσ o (Scope.mem_allOrigins_of_origin? ho)
  rw [← hresolved] at hu
  have hout := NodeTable.testOutputs_eq hnode hroot he (Term.mapNotes_of_bind hu) hplaces
  rw [hbegin, hjoin] at hout
  simp only [generate, hout, ok_bind, ← hresolved]
  rfl

/-- **The tests of a condition** are made from the notes as they were made when it was compiled. -/
theorem generate_eq {pattern joins id : Nat} {child : Option Nat} {rest : Lhs Symbol Note}
    {k : Condition Symbol Note} (hk : t.Holds id (k.nodes pattern (k.joinsAfter joins) id child))
    (hσ : σ.PlacedIn t) {v : VisitedCondition} (h : k.visit c pattern joins id σ rest = .ok v)
    (hcondition : k = v.condition.mapNotes Note.withoutOutputs) :
    k.generate t id = .ok v.condition := by
  obtain ⟨element, beginDepth, endDepth, n⟩ := k
  cases element with
  | pattern mode q =>
    obtain ⟨hn, hslots⟩ := Node.numbered_cons.1 hk
    have hplace : t.placeAt id = .ok (q.place pattern (joins + 1) beginDepth) :=
      NodeTable.placeAt_eq hn
    exact generate_pattern_eq hplace hslots hσ h hcondition
  | test e =>
    obtain ⟨hn, he⟩ := Node.numbered_cons.1 hk
    exact generate_test_eq hn rfl rfl rfl he hσ h hcondition

end Condition

namespace Lhs

theorem generateFrom_eq {pattern joins id : Nat} {l : Lhs Symbol Note}
    (hl : t.Holds id (nodesFrom pattern joins id l)) (hσ : σ.PlacedIn t) {u : Lhs Symbol Note}
    (h : compileFrom c pattern joins id σ l = .ok u) (hconditions : l = u.withoutOutputs) :
    generateFrom t id l = .ok u := by
  induction l generalizing pattern joins id σ u with
  | nil =>
    obtain rfl := pure_eq_ok.1 h
    rfl
  | cons k ks ih =>
    rw [nodesFrom] at hl
    obtain ⟨hk, hks⟩ := hl.split (Condition.length_nodes ..)
    obtain ⟨v, us, hv, hus, rfl⟩ := compileFrom_cons_eq_ok.1 h
    obtain ⟨hcondition, hconditions⟩ := List.cons.inj hconditions
    have hgenerate := Condition.generate_eq hk hσ hv hcondition
    have hinside := Condition.placedIn_inside hk hσ hv
    have hrest := ih hks (Condition.placedIn_leave hσ hinside) hus hconditions
    exact bind_cons_eq_ok.2 ⟨_, _, hgenerate, hrest, rfl⟩

end Lhs

end Generate

namespace Lhs

theorem withoutOutputs_collapse (u : Lhs Symbol Note) :
    (collapse u).withoutOutputs = u.withoutOutputs := by
  refine (map_eq_map_of_forall₂ (forall₂_collapse u) fun k k' hk => ?_).symm
  obtain ⟨d, rfl⟩ := hk
  rfl

theorem bare_withoutOutputs (l : Lhs Symbol Note) : l.withoutOutputs.bare = l.bare :=
  mapNotes_mapNotes ..

/-- **Making tests on the way and making them at the end is the same.** A compiled left-hand side is
what is made from its own restrictions and binding occurrences alone, field by field and test by test
in order, and by collapsing the negated runs. And these are final as soon as they are there: a
compilation that ends after some field gives every field up to there the notes it has in the whole. -/
theorem generate_eq_compile {c : Context} {l : Lhs Symbol α} {r : Lhs Symbol Note}
    (h : l.compile c = .ok r) :
    r.withoutOutputs.generate = .ok r ∧
      ∀ l' : Lhs Symbol α, l'.Beginning l →
        ∃ r', l'.compile c = .ok r' ∧ r'.withoutJoins.Beginning r.withoutJoins := by
  refine ⟨?_, fun l' hl' => compile_of_beginning hl' h⟩
  obtain ⟨u, hu, rfl⟩ := exists_compileFrom_of_compile h
  -- The compilation may as well start from its own result, whose table then shows what it reads.
  have hbare : u.withoutOutputs.bare = l.bare :=
    (bare_withoutOutputs u).trans (bare_of_compileFrom hu)
  rw [← compileFrom_eq_of_bare hbare] at hu
  have hempty : Scope.PlacedIn (.ofLhs u.withoutOutputs) [] := fun o ho => by cases ho
  have hgenerate := generateFrom_eq (NodeTable.holds_ofLhs _) hempty hu rfl
  rw [withoutOutputs_collapse]
  exact bind_eq_ok.2 ⟨u, hgenerate, rfl⟩

/-- A pattern with a match handle, a field, and a multifield slot with the given parts. -/
def partsPattern (parts : List (Field Symbol Unit)) : Condition Symbol Unit where
  element := .pattern .plain
    { kind := .fact
      handle := some ⟨0⟩
      slots := [⟨none, .plain (.var ⟨1⟩ .single) [] none ()⟩, ⟨none, .multi parts [] none ()⟩] }
  beginDepth := 0
  endDepth := 0
  note := ()

/-- A pattern with two parts in its slot, the second of which refers to the first, and a test. -/
def partsAndTest : Lhs Symbol Unit :=
  [partsPattern
      [.plain (.var ⟨2⟩ .single) [] none (),
        .plain (.var ⟨3⟩ .single) [⟨.var ⟨2⟩ .single (), []⟩] none ()],
    ⟨.test (.call ⟨4⟩ [.var ⟨1⟩ .single (), .var ⟨3⟩ .single ()]), 0, 0, ()⟩]

theorem partsAndTest_generated :
    ∃ r r', partsAndTest.compile ⟨.empty, .standard⟩ = .ok r ∧ r.withoutOutputs.generate = .ok r ∧
      compile ⟨.empty, .standard⟩ [partsPattern [.plain (.var ⟨2⟩ .single) [] none ()]] = .ok r' ∧
      r'.withoutJoins.Beginning r.withoutJoins := by
  obtain ⟨r, hr, -⟩ := exists_ok_of_check (e := partsAndTest.compile ⟨.empty, .standard⟩)
    (p := fun _ => true) (by decide +kernel)
  have hcut (ps' ps : List (Field Symbol Unit)) (h : ps' <+: ps) :
      (partsPattern ps').Cut (partsPattern ps) :=
    .slots _ _ _ (.cons _ (.last (.parts none h [] none ()) [])) 0 0 ()
  have hbeginning : Beginning [partsPattern [.plain (.var ⟨2⟩ .single) [] none ()]] partsAndTest :=
    .last (hcut _ _ ⟨_, rfl⟩) _
  obtain ⟨hgenerate, hbegins⟩ := generate_eq_compile hr
  obtain ⟨r', hr', hnotes⟩ := hbegins _ hbeginning
  exact ⟨r, r', hr, hgenerate, hr', hnotes⟩

end Lhs

end Antecedent
