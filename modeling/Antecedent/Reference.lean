import Antecedent.Conjunct
import Antecedent.Spot

/-!
# References

Before tests are made from an expression or a constraint, every variable in it must refer to a
binding occurrence. `Term.bind` and `Conjunct.bind` check this, and answer the same expression or
constraint with the binding occurrence in place of the note, so what is made from it needs no
further check.

Other faults are found on the way: undefined global variables, expressions nested too deeply, and,
if the options ask for it, literals that violate the restriction of their field and references
that can never match. `Conjunct.checkSatisfiable` finds fields that admit no value.
-/

namespace Antecedent

/-- Whether a restriction that may be absent admits nothing. -/
def Restriction.unmatchable? (r : Option Restriction) : Bool := r.any isUnmatchable

/-- A variable inside a call refers to a binding occurrence and can match. -/
def Note.bindReference (c : Context) (spot : Spot) (enclosing : Option Symbol) (x : Symbol)
    (arity : Arity) (n : Note) : Except Diagnostic Origin :=
  match n.origin with
  | none => .error (c.report .unboundVariable spot (some (c.env.name x)) enclosing)
  | some o =>
    if arity = .single ∧ Restriction.unmatchable? n.restriction ∧ c.options.staticChecks then
      .error (c.report .unmatchable spot (some (c.env.name x)) enclosing)
    else .ok o

/-- Reports an expression that is nested deeper than the options allow. -/
def Context.checkDepth (c : Context) (spot : Spot) (enclosing : Option Symbol) (depth : Nat) :
    Except Diagnostic Unit :=
  if c.options.maxDepth < depth then .error (c.report .nestingTooDeep spot none enclosing)
  else .ok ()

/-- Reports a global variable that is not defined. -/
def Context.checkGlobal (c : Context) (spot : Spot) (enclosing : Option Symbol) (x : Symbol) :
    Except Diagnostic Unit :=
  if c.env.isGlobal x then .ok ()
  else .error (c.report .unboundVariable spot (some ("*" ++ c.env.name x ++ "*")) enclosing)

namespace Term

mutual

/-- Binds the variables of an expression that is nested at the given depth inside `enclosing`. -/
def bindAt (c : Context) (spot : Spot) (enclosing : Option Symbol) (depth : Nat) :
    Term Symbol Note → Except Diagnostic (Term Symbol Origin)
  | call f args => do
    c.checkDepth spot enclosing depth
    return call f (← bindAllAt c spot (some f) (depth + 1) args)
  | var x arity note => do
    c.checkDepth spot enclosing depth
    return var x arity (← note.bindReference c spot enclosing x arity)
  | lit v => do
    c.checkDepth spot enclosing depth
    return lit v
  | global x => do
    c.checkDepth spot enclosing depth
    c.checkGlobal spot enclosing x
    return global x

def bindAllAt (c : Context) (spot : Spot) (enclosing : Option Symbol) (depth : Nat) :
    List (Term Symbol Note) → Except Diagnostic (List (Term Symbol Origin))
  | [] => return []
  | t :: ts => do
    let t ← bindAt c spot enclosing depth t
    return t :: (← bindAllAt c spot enclosing depth ts)

end

/-- Binds the variables of an expression; faults are reported at the spot. -/
def bind (c : Context) (spot : Spot) (t : Term Symbol Note) :
    Except Diagnostic (Term Symbol Origin) :=
  t.bindAt c spot none 1

end Term

/-- Binds the variables of a constraint of a field with the given restriction. -/
def Constraint.bind (c : Context) (spot : Spot) (field : Restriction)
    (k : Constraint Symbol Note) : Except Diagnostic (Constraint Symbol Origin) :=
  match k.shape with
  | .literal v =>
    match if c.options.staticChecks then field.check v else none with
    | some violation => .error (c.report (.literalViolation violation) spot none none)
    | none => return ⟨.literal v, k.negated⟩
  | .var x arity note =>
    match note.origin with
    | none => .error (c.blame .unboundVariable spot x)
    | some o => return ⟨.var x arity o, k.negated⟩
  | .predicate t => return ⟨.predicate (← t.bind c spot), k.negated⟩
  | .returnValue t => return ⟨.returnValue (← t.bind c spot), k.negated⟩

def Conjunct.bind (c : Context) (spot : Spot) (field : Restriction) (k : Conjunct Note) :
    Except Diagnostic (Conjunct Origin) :=
  return ⟨k.site, ← k.constraint.bind c spot field⟩

/-- Binds the variables of all alternatives of a field. -/
def Conjunct.bindAll (c : Context) (spot : Spot) (field : Restriction)
    (as : List (List (Conjunct Note))) : Except Diagnostic (List (List (Conjunct Origin))) :=
  as.mapM fun ks => ks.mapM (Conjunct.bind c spot field)

/-- The restriction that a conjunct puts on the value by naming a variable. -/
def Conjunct.restriction? (k : Conjunct Note) : Option Restriction :=
  match k.constraint.shape, k.constraint.negated with
  | .var _ _ note, false => note.restriction
  | _, _ => none

/-- Whether some value satisfies a field's restriction and those of an alternative's variables. -/
def Conjunct.satisfiable (field : Restriction) (ks : List (Conjunct Note)) : Bool :=
  !((ks.filterMap restriction?).foldl (· ∩ ·) field).isUnmatchable

/-- Reports a field whose own variable, or each of whose alternatives, admits no value. -/
def Conjunct.checkSatisfiable (c : Context) (spot : Spot) (own : Option Symbol)
    (restriction : Option Restriction) (as : List (List (Conjunct Note))) :
    Except Diagnostic Unit :=
  match own, Restriction.unmatchable? restriction with
  | some x, true => .error (c.blame .unmatchable spot x)
  | _, _ =>
    if as.isEmpty || as.any (satisfiable (restriction.getD .any)) then .ok ()
    else .error (c.report .unmatchable spot none none)

end Antecedent
