import Antecedent.Demand
import Antecedent.FieldTests
import Antecedent.NegatedRun
import Antecedent.Occurrence
import Antecedent.Reference

/-!
# Compiling a left-hand side

Conditions are read from the front, and so are the fields of a pattern, with the scope of the
bindings made so far. For a field, in this order:

* its own variable must agree in arity with the field's alternatives;
* what it demands of variables must agree in arity with the occurrences ahead;
* the references in its alternatives are bound, and the field must be satisfiable;
* its tests are made;
* its own variable must agree in arity with the occurrences ahead.

The first fault ends the compilation. `Lhs.compile` answers the left-hand side with notes at its
nodes; it does not look at notes that are already there.
-/

namespace Antecedent

variable {α : Type}

/-- The binding that a demand amounts to. -/
def Demand.binding (floor : Nat) (d : Demand) : Binding :=
  ⟨d.name, d.arity, none, some d.restriction, floor⟩

def Place.viewpoint (p : Place) : Viewpoint := ⟨p.pattern, some p.site.kind⟩

/-- What compiling a part of a pattern yields: the part with its notes, the bindings it adds to the
scope, and its share in the tests of its condition. -/
structure Visited (β : Type) where
  result : β
  bindings : List Binding
  join : JoinOutput
  deferred : JoinOutput

namespace Visited

variable {β : Type}

def allBindings (vs : List (Visited β)) : List Binding := vs.flatMap bindings

def allJoin : List (Visited β) → JoinOutput
  | [] => {}
  | v :: vs => v.join ++ allJoin vs

def allDeferred : List (Visited β) → JoinOutput
  | [] => {}
  | v :: vs => v.deferred ++ allDeferred vs

end Visited

namespace Field

/-- The binding that a field makes. -/
def binding? (p : Place) (id : Nat) (σ : Scope) (f : Field Symbol α) : Option Binding :=
  f.binds?.map fun (x, arity) =>
    ⟨x, arity, some ⟨id, p⟩, σ.restriction? x f.declared, p.beginDepth⟩

/-- What a field with one alternative demands of variables. -/
def demands (e : Environment) : List (List (Conjunct Note)) → List Demand
  | [ks] => Demand.ofConjuncts e (ks.map Conjunct.constraint)
  | _ => []

/-- Compiles a field at a place. -/
def visit (c : Context) (p : Place) (id : Nat) (σ : Scope) (ahead : List Occurrence)
    (f : Field Symbol α) : Except Diagnostic (Visited (Field Symbol Note)) := do
  let own := f.binding? p id σ
  own.forM (c.permit (f.inside p.spot))
  let g := f.resolve σ (σ ++ own.toList) p.viewpoint
  let as := g.conjuncts p.site
  let demanded := (demands c.env as).map (Demand.binding p.beginDepth)
  demanded.forM (c.permit ahead)
  let bound ← Conjunct.bindAll c p.spot (g.note.restriction.getD .any) as
  Conjunct.checkSatisfiable c p.spot (f.binds?.map Prod.fst) g.note.restriction as
  let out := Outputs.ofField p g.note.origin bound
  own.forM (c.permit ahead)
  return {
    result := g.withNote { g.note with out := { candidate := out.candidate, lookup := out.lookup } }
    bindings := demanded ++ own.toList
    join := out.join
    deferred := out.deferred }

/-- Compiles the parts of a slot, from the one at position `k` on. Ahead of a part lie the slots
after this one, then the parts after it, then what lies beyond the pattern. -/
def visitParts (c : Context) (p : Place) (slotsAhead beyond : List Occurrence) (k id : Nat)
    (σ : Scope) : List (Field Symbol α) → Except Diagnostic (List (Visited (Field Symbol Note)))
  | [] => return []
  | f :: fs => do
    let ahead := slotsAhead ++ occurrencesAll p.spot fs ++ beyond
    let v ← f.visit c { p with site := p.site.part f k } id σ ahead
    return v :: (← visitParts c p slotsAhead beyond (k + 1) (id + f.size) (σ ++ v.bindings) fs)

end Field

namespace Slot

/-- Compiles the field of a slot; the parts of a multifield slot take its place. -/
def visit (c : Context) (p : Place) (id : Nat) (σ : Scope) (slotsAhead beyond : List Occurrence)
    (s : Slot Symbol α) : Except Diagnostic (Visited (Slot Symbol Note)) :=
  match s.field with
  | .plain b as declared note => do
    let v ← Field.visit c p id σ (slotsAhead ++ beyond) (.plain b as declared note)
    return { v with result := ⟨s.name, v.result⟩ }
  | .multi ps _ declared _ => do
    let vs ← Field.visitParts c p slotsAhead beyond 0 (id + 1) σ ps
    let parts := vs.map Visited.result
    return {
      result := ⟨s.name, .multi parts [] declared { restriction := declared }⟩
      bindings := Visited.allBindings vs
      join := Visited.allJoin vs
      deferred := Visited.allDeferred vs }

/-- Compiles the slots of a pattern, from the one with field number `j` on. -/
def visitAll (c : Context) (p : Place) (beyond : List Occurrence) (j id : Nat) (σ : Scope) :
    List (Slot Symbol α) → Except Diagnostic (List (Visited (Slot Symbol Note)))
  | [] => return []
  | s :: ss => do
    let place := { p with site := { p.site with index := j, name := s.name } }
    let v ← s.visit c place id σ (occurrencesAll p.pattern (j + 1) ss) beyond
    return v :: (← visitAll c p beyond (j + 1) (id + s.field.size) (σ ++ v.bindings) ss)

end Slot

namespace Pattern

/-- The binding of a pattern's handle at its place. -/
def binding? (p : Place) (id : Nat) (q : Pattern Symbol α) : Option Binding :=
  q.handle.map fun h => ⟨h, .single, some ⟨id, p⟩, some .address, p.beginDepth⟩

/-- Reports a handle whose name is bound before; the latest binding says how. -/
def checkHandle (c : Context) (p : Place) (σ : Scope) (q : Pattern Symbol α) :
    Except Diagnostic Unit :=
  match q.handle with
  | none => .ok ()
  | some h =>
    match (σ.origins h).getLast? with
    | none => .ok ()
    | some o =>
      let conflict := if o.isHandle then .alreadyMatchHandle else .boundInPattern
      .error (c.blame (.illegalHandle conflict) p.spot h)

end Pattern

/-- A compiled condition and the scope at its end. -/
structure VisitedCondition where
  condition : Condition Symbol Note
  inside : Scope

namespace Condition

/-- Compiles a pattern whose entities enter at `joinDepth`. -/
def visitPattern (c : Context) (pattern joinDepth id : Nat) (σ : Scope) (beyond : List Occurrence)
    (beginDepth endDepth : Nat) (mode : Mode) (q : Pattern Symbol α) :
    Except Diagnostic VisitedCondition := do
  let p : Place := ⟨pattern, beginDepth, ⟨q.kind, 0, none, none, joinDepth⟩⟩
  q.checkHandle c p σ
  let own := q.binding? p id
  own.forM (c.permit (Slot.occurrencesAll pattern 1 q.slots ++ beyond))
  let vs ← Slot.visitAll c p beyond 1 (id + 1) (σ ++ own.toList) q.slots
  let note : Note := {
    restriction := own.bind Binding.restriction
    out := { join := Visited.allJoin vs, deferred := Visited.allDeferred vs } }
  return {
    condition :=
      ⟨.pattern mode ⟨q.kind, q.handle, vs.map Visited.result⟩, beginDepth, endDepth, note⟩
    inside := σ ++ own.toList ++ Visited.allBindings vs }

/-- Compiles a test that belongs to the join at `joinDepth`. -/
def visitTest (c : Context) (pattern joinDepth : Nat) (σ : Scope) (beginDepth endDepth : Nat)
    (t : Term Symbol α) : Except Diagnostic VisitedCondition := do
  let t := t.resolve σ ⟨pattern, none⟩
  let bound ← t.bind c ⟨pattern, 0, none⟩
  let demanded := (t.demands c.env).map (Demand.binding beginDepth)
  return {
    condition :=
      ⟨.test t, beginDepth, endDepth, { out := Outputs.ofTest beginDepth joinDepth bound }⟩
    inside := σ ++ demanded }

/-- Compiles a condition in a scope; `rest` are the conditions after it. -/
def visit (c : Context) (pattern joins id : Nat) (σ : Scope) (rest : Lhs Symbol α)
    (k : Condition Symbol α) : Except Diagnostic VisitedCondition :=
  match k.element with
  | .pattern mode q =>
    visitPattern c pattern (joins + 1) id σ (Lhs.reachAfter pattern k rest) k.beginDepth k.endDepth
      mode q
  | .test t => visitTest c pattern joins σ k.beginDepth k.endDepth t

end Condition

namespace Lhs

/-- Compiles the conditions from the one numbered `pattern` on, when `joins` patterns come before
it, its node has number `id`, and `σ` is the scope before it. -/
def compileFrom (c : Context) (pattern joins id : Nat) (σ : Scope) :
    Lhs Symbol α → Except Diagnostic (Lhs Symbol Note)
  | [] => return []
  | k :: ks => do
    let v ← k.visit c pattern joins id σ ks
    return v.condition ::
      (← compileFrom c (pattern + 1) (k.joinsAfter joins) (id + k.size) (σ.leave v.inside k) ks)

/-- Compiles a left-hand side, or reports its first fault. -/
def compile (c : Context) (l : Lhs Symbol α) : Except Diagnostic (Lhs Symbol Note) := do
  return collapse (← compileFrom c 1 0 0 [] l)

end Lhs

end Antecedent
