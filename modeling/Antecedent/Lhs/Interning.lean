import Antecedent.Lhs.Note
import Antecedent.Lhs.Syntax

/-!
# Interning a left-hand side

`Lhs.intern` replaces the names of a written left-hand side by symbols, in reading order: a handle
before the fields, the name of a slot before the variable of its field, a function before its
arguments. All notes start blank. Constraints attached to a multifield slot itself are dropped, and
their names are not interned.
-/

namespace Antecedent

/-- Interns a name if there is one. -/
def Interning.name? : Option String → Interning (Option Symbol)
  | none => pure none
  | some s => some <$> Interning.name s

namespace Term

mutual

def intern : Term String Unit → Interning (Term Symbol Note)
  | call f args => do
    let f ← Interning.name f
    return call f (← internAll args)
  | var x arity _ => do return var (← Interning.name x) arity {}
  | lit v => do return lit (← v.intern)
  | global x => do return global (← Interning.name x)

def internAll : List (Term String Unit) → Interning (List (Term Symbol Note))
  | [] => pure []
  | t :: ts => do
    let t ← intern t
    return t :: (← internAll ts)

end

end Term

def Constraint.Shape.intern : Shape String Unit → Interning (Shape Symbol Note)
  | literal v => do return literal (← v.intern)
  | var x arity _ => do return var (← Interning.name x) arity {}
  | predicate t => do return predicate (← t.intern)
  | returnValue t => do return returnValue (← t.intern)

def Constraint.intern (c : Constraint String Unit) : Interning (Constraint Symbol Note) := do
  return ⟨← c.shape.intern, c.negated⟩

def Alternative.intern (a : Alternative String Unit) : Interning (Alternative Symbol Note) := do
  let first ← a.first.intern
  return ⟨first, ← a.rest.mapM Constraint.intern⟩

def Binder.intern : Binder String → Interning (Binder Symbol)
  | var x arity => do return var (← Interning.name x) arity
  | wildcard arity => pure (wildcard arity)

namespace Field

mutual

def intern : Field String Unit → Interning (Field Symbol Note)
  | plain b as declared _ => do
    let b ← b.intern
    return plain b (← as.mapM Alternative.intern) declared {}
  | multi ps _ declared _ => do return multi (← internAll ps) [] declared {}

def internAll : List (Field String Unit) → Interning (List (Field Symbol Note))
  | [] => pure []
  | f :: fs => do
    let f ← intern f
    return f :: (← internAll fs)

end

end Field

def Slot.intern (s : Slot String Unit) : Interning (Slot Symbol Note) := do
  let name ← Interning.name? s.name
  return ⟨name, ← s.field.intern⟩

def Pattern.intern (p : Pattern String Unit) : Interning (Pattern Symbol Note) := do
  let handle ← Interning.name? p.handle
  return ⟨p.kind, handle, ← p.slots.mapM Slot.intern⟩

def Element.intern : Element String Unit → Interning (Element Symbol Note)
  | pattern mode p => do return pattern mode (← p.intern)
  | test t => do return test (← t.intern)

def Condition.intern (c : Condition String Unit) : Interning (Condition Symbol Note) := do
  return ⟨← c.element.intern, c.beginDepth, c.endDepth, {}⟩

/-- Interns the conditions in order. -/
def Lhs.intern (l : Lhs String Unit) : Interning (Lhs Symbol Note) := l.mapM Condition.intern

end Antecedent
