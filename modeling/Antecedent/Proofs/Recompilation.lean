import Antecedent.Proofs.NegatedRuns
import Antecedent.Proofs.TableNotes

/-!
# Compiling again

A compilation does not look at the notes of the left-hand side that it is given, and it changes
nothing else. A compiled left-hand side can therefore be compiled again, with other options if need
be, and what comes of it is what comes of the original.

* `Field.resolve_mapNotes`, `Lhs.reach_mapNotes` and the lemmas around them say that what a field finds
  in scope and what lies ahead of it do not depend on notes.
* `Field.visit_mapNotes`, `Condition.visit_mapNotes` and `Lhs.compileFrom_mapNotes` say so of every step
  of a compilation, and `Lhs.compile_eq_of_bare` of the whole.
* `Lhs.nodes_mapNotes` says that other notes give the same nodes with other notes.
* `Lhs.recompile_eq_compile` is the main result.
-/

namespace Antecedent

variable {ν α β γ : Type}

/-- Changes the notes of a left-hand side. -/
def Lhs.mapNotes (g : α → β) (l : Lhs ν α) : Lhs ν β := l.map (Condition.mapNotes g)

/-! ## Changing notes twice -/

section Twice

variable (g : α → β) (h : β → γ)

namespace Term

mutual

@[simp] theorem mapNotes_mapNotes (t : Term ν α) :
    (t.mapNotes g).mapNotes h = t.mapNotes fun n => h (g n) := by
  cases t with
  | call f args => rw [mapNotes, mapNotes, mapNotes, mapNotesAll_mapNotesAll args]
  | var x arity n => rfl
  | lit v => rfl
  | global x => rfl

theorem mapNotesAll_mapNotesAll (ts : List (Term ν α)) :
    mapNotesAll h (mapNotesAll g ts) = mapNotesAll (fun n => h (g n)) ts := by
  cases ts with
  | nil => rfl
  | cons t ts =>
    rw [mapNotesAll, mapNotesAll, mapNotesAll, mapNotes_mapNotes t, mapNotesAll_mapNotesAll ts]

end

end Term

@[simp] theorem Constraint.mapNotes_mapNotes (k : Constraint ν α) :
    (k.mapNotes g).mapNotes h = k.mapNotes fun n => h (g n) := by
  obtain ⟨shape, negated⟩ := k
  cases shape <;> simp [mapNotes]

@[simp] theorem Alternative.mapNotes_mapNotes (a : Alternative ν α) :
    (a.mapNotes g).mapNotes h = a.mapNotes fun n => h (g n) := by
  simp [mapNotes]

namespace Field

mutual

@[simp] theorem mapNotes_mapNotes (f : Field ν α) :
    (f.mapNotes g).mapNotes h = f.mapNotes fun n => h (g n) := by
  cases f with
  | plain b as declared n => simp [mapNotes]
  | multi ps as declared n => rw [mapNotes, mapNotes, mapNotes, mapNotesAll_mapNotesAll ps]

theorem mapNotesAll_mapNotesAll (fs : List (Field ν α)) :
    mapNotesAll h (mapNotesAll g fs) = mapNotesAll (fun n => h (g n)) fs := by
  cases fs with
  | nil => rfl
  | cons f fs =>
    rw [mapNotesAll, mapNotesAll, mapNotesAll, mapNotes_mapNotes f, mapNotesAll_mapNotesAll fs]

end

end Field

@[simp] theorem Condition.mapNotes_mapNotes (k : Condition ν α) :
    (k.mapNotes g).mapNotes h = k.mapNotes fun n => h (g n) := by
  obtain ⟨element, beginDepth, endDepth, n⟩ := k
  cases element <;> simp [mapNotes, Element.mapNotes, Pattern.mapNotes, Slot.mapNotes]

theorem Lhs.mapNotes_mapNotes (l : Lhs ν α) :
    (l.mapNotes g).mapNotes h = l.mapNotes fun n => h (g n) := by
  simp [mapNotes]

end Twice

theorem Alternative.constraints_mapNotes (g : α → β) (a : Alternative ν α) :
    (a.mapNotes g).constraints = a.constraints.map (Constraint.mapNotes g) := rfl

@[simp] theorem Field.declared_mapNotes (g : α → β) (f : Field ν α) :
    (f.mapNotes g).declared = f.declared := by
  cases f <;> rfl

@[simp] theorem Condition.mode_mapNotes (g : α → β) (k : Condition ν α) :
    (k.mapNotes g).mode = k.mode := by
  obtain ⟨element, beginDepth, endDepth, n⟩ := k
  cases element <;> rfl

@[simp] theorem Condition.joinsAfter_mapNotes (g : α → β) (joins : Nat) (k : Condition ν α) :
    (k.mapNotes g).joinsAfter joins = k.joinsAfter joins := by
  obtain ⟨element, beginDepth, endDepth, n⟩ := k
  cases element <;> rfl

/-! ## What is found in scope -/

section Resolve

variable (g : α → β) (σ : Scope) (v : Viewpoint)

namespace Term

mutual

@[simp] theorem resolve_mapNotes (t : Term Symbol α) :
    (t.mapNotes g).resolve σ v = t.resolve σ v := by
  cases t with
  | call f args => rw [mapNotes, resolve, resolve, resolveAll_mapNotesAll args]
  | var x arity n => rfl
  | lit value => rfl
  | global x => rfl

theorem resolveAll_mapNotesAll (ts : List (Term Symbol α)) :
    resolveAll σ v (mapNotesAll g ts) = resolveAll σ v ts := by
  cases ts with
  | nil => rfl
  | cons t ts =>
    rw [mapNotesAll, resolveAll, resolveAll, resolve_mapNotes t, resolveAll_mapNotesAll ts]

end

end Term

@[simp] theorem Constraint.resolve_mapNotes (k : Constraint Symbol α) :
    (k.mapNotes g).resolve σ v = k.resolve σ v := by
  obtain ⟨shape, negated⟩ := k
  cases shape <;> simp [mapNotes, resolve]

@[simp] theorem Alternative.resolve_mapNotes (a : Alternative Symbol α) :
    (a.mapNotes g).resolve σ v = a.resolve σ v := by
  simp [mapNotes, resolve]

namespace Field

mutual

@[simp] theorem resolve_mapNotes (inner : Scope) (f : Field Symbol α) :
    (f.mapNotes g).resolve σ inner v = f.resolve σ inner v := by
  cases f with
  | plain b as declared n => simp [mapNotes, resolve]
  | multi ps as declared n => rw [mapNotes, resolve, resolve, resolveAll_mapNotesAll ps]

theorem resolveAll_mapNotesAll (fs : List (Field Symbol α)) :
    resolveAll σ v (mapNotesAll g fs) = resolveAll σ v fs := by
  cases fs with
  | nil => rfl
  | cons f fs =>
    rw [mapNotesAll, resolveAll, resolveAll, resolve_mapNotes σ f, resolveAll_mapNotesAll fs]

end

@[simp] theorem binding?_mapNotes (p : Place) (id : Nat) (f : Field Symbol α) :
    (f.mapNotes g).binding? p id σ = f.binding? p id σ := by
  rw [binding?, binding?, binds?_mapNotes, declared_mapNotes]

end Field

@[simp] theorem Site.part_mapNotes (s : Site) (f : Field Symbol α) (k : Nat) :
    s.part (f.mapNotes g) k = s.part f k := by
  rw [part, part, Field.segment, Field.segment, Field.arity_mapNotes]

@[simp] theorem Scope.leave_mapNotes (before inside : Scope) (k : Condition ν α) :
    leave before inside (k.mapNotes g) = leave before inside k := by
  rw [leave, leave, Condition.mode_mapNotes]
  rfl

end Resolve

/-! ## What lies ahead -/

section Occurrences

variable (g : α → β)

@[simp] theorem Constraint.occurrences_mapNotes (spot : Spot) (k : Constraint Symbol α) :
    (k.mapNotes g).occurrences spot = k.occurrences spot := by
  obtain ⟨shape, negated⟩ := k
  cases shape <;> rfl

@[simp] theorem Alternative.occurrences_mapNotes (spot : Spot) (a : Alternative Symbol α) :
    (a.mapNotes g).occurrences spot = a.occurrences spot := by
  simp [occurrences, constraints_mapNotes, List.flatMap_map]

namespace Field

@[simp] theorem ownOccurrence_mapNotes (spot : Spot) (f : Field Symbol α) :
    (f.mapNotes g).ownOccurrence spot = f.ownOccurrence spot := by
  cases f with
  | plain b as declared n => cases b <;> rfl
  | multi ps as declared n => rfl

mutual

@[simp] theorem inside_mapNotes (spot : Spot) (f : Field Symbol α) :
    (f.mapNotes g).inside spot = f.inside spot := by
  cases f with
  | plain b as declared n => simp [mapNotes, inside, List.flatMap_map]
  | multi ps as declared n => rw [mapNotes, inside, inside, occurrencesAll_mapNotesAll spot ps]

@[simp] theorem occurrencesAll_mapNotesAll (spot : Spot) (fs : List (Field Symbol α)) :
    occurrencesAll spot (mapNotesAll g fs) = occurrencesAll spot fs := by
  cases fs with
  | nil => rfl
  | cons f fs =>
    rw [mapNotesAll, occurrencesAll, occurrencesAll, ownOccurrence_mapNotes,
      occurrencesAll_mapNotesAll spot fs, inside_mapNotes spot f]

end

end Field

@[simp] theorem Slot.occurrencesAll_mapNotes (pattern j : Nat) (ss : List (Slot Symbol α)) :
    occurrencesAll pattern j (ss.map (mapNotes g)) = occurrencesAll pattern j ss := by
  induction ss generalizing j with
  | nil => rfl
  | cons s ss ih => simp [occurrencesAll, mapNotes, ih]

theorem Condition.occurrences_mapNotes (pattern : Nat) (k : Condition Symbol α) :
    (k.mapNotes g).occurrences pattern = k.occurrences pattern := by
  obtain ⟨element, beginDepth, endDepth, n⟩ := k
  cases element with
  | pattern mode q => simp [mapNotes, Element.mapNotes, Pattern.mapNotes, occurrences]
  | test t => rfl

namespace Lhs

theorem reach_mapNotes (floor pattern : Nat) (l : Lhs Symbol α) :
    reach floor pattern (l.mapNotes g) = reach floor pattern l := by
  induction l generalizing pattern with
  | nil => rfl
  | cons k ks ih =>
    rw [mapNotes, List.map_cons, reach, reach, Condition.occurrences_mapNotes, ← mapNotes, ih]
    rfl

theorem reachAfter_mapNotes (pattern : Nat) (k : Condition Symbol α) (rest : Lhs Symbol α) :
    reachAfter pattern (k.mapNotes g) (rest.mapNotes g) = reachAfter pattern k rest := by
  rw [reachAfter, reachAfter, Condition.mode_mapNotes, reach_mapNotes]
  rfl

end Lhs

end Occurrences

/-! ## Compiling -/

section Visits

variable (g : α → β) (c : Context)

namespace Field

@[simp] theorem visit_mapNotes (p : Place) (id : Nat) (σ : Scope) (ahead : List Occurrence)
    (f : Field Symbol α) : (f.mapNotes g).visit c p id σ ahead = f.visit c p id σ ahead := by
  simp only [visit, binding?_mapNotes, inside_mapNotes, resolve_mapNotes, binds?_mapNotes]

theorem visitParts_mapNotesAll (p : Place) (slotsAhead beyond : List Occurrence) (k id : Nat)
    (σ : Scope) (fs : List (Field Symbol α)) :
    visitParts c p slotsAhead beyond k id σ (mapNotesAll g fs) =
      visitParts c p slotsAhead beyond k id σ fs := by
  induction fs generalizing k id σ with
  | nil => rfl
  | cons f fs ih =>
    simp only [mapNotesAll, visitParts, occurrencesAll_mapNotesAll, Site.part_mapNotes,
      visit_mapNotes, size_mapNotes, ih]

end Field

namespace Slot

theorem visit_mapNotes (p : Place) (id : Nat) (σ : Scope) (slotsAhead beyond : List Occurrence)
    (s : Slot Symbol α) :
    (s.mapNotes g).visit c p id σ slotsAhead beyond = s.visit c p id σ slotsAhead beyond := by
  obtain ⟨name, f⟩ := s
  cases f with
  | plain b as declared n =>
    have hfield := Field.visit_mapNotes g c p id σ (slotsAhead ++ beyond) (.plain b as declared n)
    simp only [Field.mapNotes] at hfield
    simp only [mapNotes, Field.mapNotes, visit, hfield]
  | multi ps as declared n =>
    simp only [mapNotes, Field.mapNotes, visit, Field.visitParts_mapNotesAll]

theorem visitAll_mapNotes (p : Place) (beyond : List Occurrence) (j id : Nat) (σ : Scope)
    (ss : List (Slot Symbol α)) :
    visitAll c p beyond j id σ (ss.map (mapNotes g)) = visitAll c p beyond j id σ ss := by
  induction ss generalizing j id σ with
  | nil => rfl
  | cons s ss ih =>
    have hname : (s.mapNotes g).name = s.name := rfl
    have hsize : (s.mapNotes g).field.size = s.field.size := Field.size_mapNotes g s.field
    simp only [List.map_cons, visitAll, hname, hsize, visit_mapNotes, occurrencesAll_mapNotes, ih]

end Slot

theorem Condition.visit_mapNotes (pattern joins id : Nat) (σ : Scope) (rest : Lhs Symbol α)
    (k : Condition Symbol α) :
    (k.mapNotes g).visit c pattern joins id σ (rest.mapNotes g) =
      k.visit c pattern joins id σ rest := by
  have hreach := Lhs.reachAfter_mapNotes g pattern k rest
  obtain ⟨element, beginDepth, endDepth, n⟩ := k
  cases element with
  | pattern mode q =>
    simp only [mapNotes, Element.mapNotes, visit] at hreach ⊢
    rw [hreach]
    simp only [visitPattern, Pattern.mapNotes, Slot.occurrencesAll_mapNotes, Slot.visitAll_mapNotes]
    rfl
  | test t =>
    simp only [mapNotes, Element.mapNotes, visit, visitTest, Term.resolve_mapNotes]

namespace Lhs

/-- Notes that are already there have no influence. -/
theorem compileFrom_mapNotes (pattern joins id : Nat) (σ : Scope) (l : Lhs Symbol α) :
    compileFrom c pattern joins id σ (l.mapNotes g) = compileFrom c pattern joins id σ l := by
  induction l generalizing pattern joins id σ with
  | nil => rfl
  | cons k ks ih =>
    have hcons : Lhs.mapNotes g (k :: ks) = k.mapNotes g :: Lhs.mapNotes g ks := rfl
    simp only [hcons, compileFrom, Condition.visit_mapNotes, Condition.joinsAfter_mapNotes,
      Condition.size_mapNotes, Scope.leave_mapNotes, ih]

end Lhs

end Visits

namespace Lhs

theorem compileFrom_eq_of_bare {l : Lhs Symbol α} {l' : Lhs Symbol β} (h : l.bare = l'.bare)
    (c : Context) (pattern joins id : Nat) (σ : Scope) :
    compileFrom c pattern joins id σ l = compileFrom c pattern joins id σ l' := by
  calc compileFrom c pattern joins id σ l
      = compileFrom c pattern joins id σ l.bare := (compileFrom_mapNotes (fun _ => ()) ..).symm
    _ = compileFrom c pattern joins id σ l'.bare := by rw [h]
    _ = compileFrom c pattern joins id σ l' := compileFrom_mapNotes (fun _ => ()) ..

/-- Left-hand sides that differ in their notes only are compiled alike. -/
theorem compile_eq_of_bare {l : Lhs Symbol α} {l' : Lhs Symbol β} (h : l.bare = l'.bare)
    (c : Context) : l.compile c = l'.compile c := by
  rw [compile, compile, compileFrom_eq_of_bare h]

/-- A compilation changes nothing but the notes. -/
theorem bare_of_compile {c : Context} {l : Lhs Symbol α} {r : Lhs Symbol Note}
    (h : l.compile c = .ok r) : r.bare = l.bare := by
  obtain ⟨u, hu, rfl⟩ := exists_compileFrom_of_compile h
  rw [bare_collapse, bare_of_compileFrom hu]

end Lhs

/-! ## Nodes -/

/-- Changes the note of a node. -/
def Node.mapNote (g : Note → Note) (n : Node) : Node := { n with note := g n.note }

/-- The node without its note. -/
def Node.unnoted (n : Node) : Node := n.mapNote fun _ => {}

theorem Term.length_mapNotesAll (g : α → β) (ts : List (Term ν α)) :
    (mapNotesAll g ts).length = ts.length := by
  induction ts with
  | nil => rfl
  | cons t ts ih => rw [mapNotesAll, List.length_cons, List.length_cons, ih]

theorem Field.length_mapNotesAll (g : α → β) (fs : List (Field ν α)) :
    (mapNotesAll g fs).length = fs.length := by
  induction fs with
  | nil => rfl
  | cons f fs ih => rw [mapNotesAll, List.length_cons, List.length_cons, ih]

-- Nodes that are no variable, field or condition have an empty note, which `g` has to keep.
section Nodes

variable {g : Note → Note}

namespace Term

mutual

theorem nodes_mapNotes (hg : g {} = {}) (t : Term Symbol Note) (p : Position) (id : Nat)
    (next : Option Nat) :
    (t.mapNotes g).nodes p id next = (t.nodes p id next).map (Node.mapNote g) := by
  cases t with
  | call f args =>
    rw [mapNotes, nodes, nodes, nodesAll_mapNotesAll hg args, List.map_cons,
      linkTo_eq_of_length (length_mapNotesAll g args)]
    simp only [Node.mapNote, hg]
  | var x arity n => rfl
  | lit value => simp [mapNotes, nodes, Node.mapNote, hg]
  | global x => simp [mapNotes, nodes, Node.mapNote, hg]

theorem nodesAll_mapNotesAll (hg : g {} = {}) (ts : List (Term Symbol Note)) (p : Position)
    (id : Nat) :
    nodesAll p id (mapNotesAll g ts) = (nodesAll p id ts).map (Node.mapNote g) := by
  cases ts with
  | nil => rfl
  | cons t ts =>
    rw [mapNotesAll, nodesAll, nodesAll, size_mapNotes, nodes_mapNotes hg t,
      nodesAll_mapNotesAll hg ts, List.map_append, linkTo_eq_of_length (length_mapNotesAll g ts)]

end

end Term

namespace Constraint

theorem nodes_mapNotes (hg : g {} = {}) (k : Constraint Symbol Note) (p : Position) (id : Nat)
    (next child : Option Nat) :
    (k.mapNotes g).nodes p id next child = (k.nodes p id next child).map (Node.mapNote g) := by
  obtain ⟨shape, negated⟩ := k
  cases shape <;> simp [mapNotes, nodes, Node.mapNote, hg, Term.nodes_mapNotes hg]

theorem nodesAll_mapNotes (hg : g {} = {}) (ks : List (Constraint Symbol Note)) (p : Position)
    (id : Nat) :
    nodesAll p id (ks.map (mapNotes g)) = (nodesAll p id ks).map (Node.mapNote g) := by
  induction ks generalizing id with
  | nil => rfl
  | cons k ks ih =>
    rw [List.map_cons, nodesAll, nodesAll, size_mapNotes, nodes_mapNotes hg, ih, List.map_append,
      linkTo_eq_of_length (List.length_map ..)]

end Constraint

namespace Alternative

theorem nodes_mapNotes (hg : g {} = {}) (a : Alternative Symbol Note) (p : Position) (id : Nat)
    (child : Option Nat) :
    (a.mapNotes g).nodes p id child = (a.nodes p id child).map (Node.mapNote g) := by
  simp only [mapNotes, nodes, Constraint.size_mapNotes, Constraint.nodes_mapNotes hg,
    Constraint.nodesAll_mapNotes hg, List.map_append]
  rw [linkTo_eq_of_length (List.length_map ..)]

theorem nodesAll_mapNotes (hg : g {} = {}) (as : List (Alternative Symbol Note)) (p : Position)
    (id : Nat) :
    nodesAll p id (as.map (mapNotes g)) = (nodesAll p id as).map (Node.mapNote g) := by
  induction as generalizing id with
  | nil => rfl
  | cons a as ih =>
    rw [List.map_cons, nodesAll, nodesAll, size_mapNotes, nodes_mapNotes hg, ih, List.map_append,
      linkTo_eq_of_length (List.length_map ..)]

end Alternative

namespace Field

mutual

theorem nodes_mapNotes (hg : g {} = {}) (f : Field Symbol Note) (p : Position) (id : Nat)
    (next : Option Nat) :
    (f.mapNotes g).nodes p id next = (f.nodes p id next).map (Node.mapNote g) := by
  cases f with
  | plain b as declared n =>
    rw [mapNotes, nodes, nodes, Alternative.nodesAll_mapNotes hg, List.map_cons,
      linkTo_eq_of_length (List.length_map ..)]
    rfl
  | multi ps as declared n =>
    rw [mapNotes, nodes, nodes, nodesAll_mapNotesAll hg ps, List.map_cons,
      linkTo_eq_of_length (length_mapNotesAll g ps)]
    rfl

theorem nodesAll_mapNotesAll (hg : g {} = {}) (fs : List (Field Symbol Note)) (p : Position)
    (id k : Nat) :
    nodesAll p id k (mapNotesAll g fs) = (nodesAll p id k fs).map (Node.mapNote g) := by
  cases fs with
  | nil => rfl
  | cons f fs =>
    rw [mapNotesAll, nodesAll, nodesAll, size_mapNotes, segment, segment, arity_mapNotes,
      nodes_mapNotes hg f, nodesAll_mapNotesAll hg fs, List.map_append,
      linkTo_eq_of_length (length_mapNotesAll g fs)]

end

end Field

theorem Slot.nodesAll_mapNotes (hg : g {} = {}) (ss : List (Slot Symbol Note)) (p : Position)
    (id j : Nat) :
    nodesAll p id j (ss.map (mapNotes g)) = (nodesAll p id j ss).map (Node.mapNote g) := by
  induction ss generalizing id j with
  | nil => rfl
  | cons s ss ih =>
    have hname : (s.mapNotes g).name = s.name := rfl
    have hfield : (s.mapNotes g).field = s.field.mapNotes g := rfl
    rw [List.map_cons, nodesAll, nodesAll, hname, hfield, Field.size_mapNotes,
      Field.nodes_mapNotes hg, ih, List.map_append, linkTo_eq_of_length (List.length_map ..)]

theorem Condition.nodes_mapNotes (hg : g {} = {}) (k : Condition Symbol Note)
    (pattern joinDepth id : Nat) (child : Option Nat) :
    (k.mapNotes g).nodes pattern joinDepth id child =
      (k.nodes pattern joinDepth id child).map (Node.mapNote g) := by
  obtain ⟨element, beginDepth, endDepth, n⟩ := k
  cases element with
  | pattern mode q =>
    have hlink : linkTo (id + 1) (q.slots.map (Slot.mapNotes g)) = linkTo (id + 1) q.slots :=
      linkTo_eq_of_length (List.length_map ..)
    simp only [mapNotes, Element.mapNotes, Pattern.mapNotes, nodes, hlink, Slot.nodesAll_mapNotes hg,
      List.map_cons]
    rfl
  | test t =>
    simp only [mapNotes, Element.mapNotes, nodes, Term.nodes_mapNotes hg, List.map_cons]
    rfl

namespace Lhs

theorem nodesFrom_mapNotes (hg : g {} = {}) (pattern joins id : Nat) (l : Lhs Symbol Note) :
    nodesFrom pattern joins id (l.mapNotes g) =
      (nodesFrom pattern joins id l).map (Node.mapNote g) := by
  induction l generalizing pattern joins id with
  | nil => rfl
  | cons k ks ih =>
    have hcons : Lhs.mapNotes g (k :: ks) = k.mapNotes g :: Lhs.mapNotes g ks := rfl
    have hlink : linkTo (id + k.size) (Lhs.mapNotes g ks) = linkTo (id + k.size) ks :=
      linkTo_eq_of_length (List.length_map ..)
    rw [hcons, nodesFrom, nodesFrom, Condition.joinsAfter_mapNotes, Condition.size_mapNotes, hlink,
      Condition.nodes_mapNotes hg, ih, List.map_append]

/-- Other notes give the same nodes with other notes. -/
theorem nodes_mapNotes (hg : g {} = {}) (l : Lhs Symbol Note) :
    (l.mapNotes g).nodes = l.nodes.map (Node.mapNote g) :=
  nodesFrom_mapNotes hg 1 0 0 l

end Lhs

end Nodes

namespace Lhs

/-- The nodes without their notes depend on nothing but what is left of the left-hand side. -/
theorem map_unnoted_nodes (l : Lhs Symbol Note) :
    l.nodes.map Node.unnoted = (l.bare.mapNotes fun _ => ({} : Note)).nodes := by
  have hbare : l.bare.mapNotes (fun _ => ({} : Note)) = l.mapNotes fun _ => {} := mapNotes_mapNotes ..
  rw [hbare, nodes_mapNotes rfl]
  rfl

/-- **Compiling again.** A compiled left-hand side has the nodes of the original with other notes, and
compiling it, with any options, ends as compiling the original does: with the same result or the same
fault. -/
theorem recompile_eq_compile (e : Environment) (o₁ o₂ : Options) {l r : Lhs Symbol Note}
    (h : l.compile ⟨e, o₁⟩ = .ok r) :
    r.nodes.map Node.unnoted = l.nodes.map Node.unnoted ∧
      r.compile ⟨e, o₂⟩ = l.compile ⟨e, o₂⟩ := by
  have hbare := bare_of_compile h
  refine ⟨?_, compile_eq_of_bare hbare ⟨e, o₂⟩⟩
  rw [map_unnoted_nodes, map_unnoted_nodes, hbare]

/-- A pattern with a match handle, a negated group with a test, and a pattern over objects. -/
def handleAndGroup : List (Step String Unit) :=
  [.pattern { factPattern [some "x"] with handle := some "f" },
    .notGroup
      [.pattern (factPattern [some "x"]),
        .test (.call "neq" [.var "f" .single (), .var "x" .single ()])],
    .pattern
      { kind := .object
        handle := none
        slots := [⟨some "color", .plain (.var "x" .single) [] none ()⟩] }]

theorem handleAndGroup_recompiled :
    let l := ((ofSteps handleAndGroup).intern .empty).1
    ∃ r, l.compile ⟨.empty, .standard⟩ = .ok r ∧
      r.nodes.map Node.unnoted = l.nodes.map Node.unnoted ∧
      r.compile ⟨.empty, .standard⟩ = .ok r ∧
      ∃ d, r.compile ⟨.empty, ⟨true, 1⟩⟩ = .error d ∧ l.compile ⟨.empty, ⟨true, 1⟩⟩ = .error d := by
  intro l
  obtain ⟨r, hr, -⟩ := exists_ok_of_check (e := l.compile ⟨.empty, .standard⟩) (p := fun _ => true)
    (by decide +kernel)
  obtain ⟨hnodes, hsame⟩ := recompile_eq_compile .empty .standard .standard hr
  have hshallow := (recompile_eq_compile .empty .standard ⟨true, 1⟩ hr).2
  cases hl : l.compile ⟨.empty, ⟨true, 1⟩⟩ with
  | ok r' =>
    have hfails : (l.compile ⟨.empty, ⟨true, 1⟩⟩).toOption.isNone = true := by decide +kernel
    rw [hl] at hfails
    cases hfails
  | error d => exact ⟨r, hr, hnodes, hsame.trans hr, d, hshallow.trans hl, rfl⟩

end Lhs

end Antecedent
