import Antecedent.Environment
import Antecedent.Lhs.Syntax

/-!
# Demands on variables

Functions restrict their arguments, and a literal restricts the variables conjoined with it. What
is demanded of a variable in one place is collected into one demand per name, in the order in which
the names come up; the arity is that of the first occurrence.

* `Term.demands` collects what the calls of an expression demand of their direct arguments.
* `Demand.ofConjuncts` collects what the conjuncts of a field's only alternative demand.
-/

namespace Antecedent

variable {α : Type}

/-- A restriction demanded of a variable. -/
structure Demand where
  name : Symbol
  arity : Arity
  restriction : Restriction
  deriving DecidableEq, Repr

/-- Adds a demand to a collection; a second demand on a name narrows the first. -/
def Demand.insert : List Demand → Demand → List Demand
  | [], d => [d]
  | e :: es, d =>
    if e.name = d.name then { e with restriction := e.restriction ∩ d.restriction } :: es
    else e :: insert es d

def Demand.collect (ds : List Demand) : List Demand := ds.foldl insert []

namespace Term

mutual

/-- The calls in an expression with their arguments, a call before those inside it. -/
def calls : Term Symbol α → List (Symbol × List (Term Symbol α))
  | call f args => (f, args) :: callsAll args
  | var _ _ _ => []
  | lit _ => []
  | global _ => []

def callsAll : List (Term Symbol α) → List (Symbol × List (Term Symbol α))
  | [] => []
  | t :: ts => calls t ++ callsAll ts

end

/-- What a signature demands of an argument that is a variable. -/
def argDemand (s : Signature) (i : Nat) : Term Symbol α → Option Demand
  | var x arity _ => (s.arg i).map fun r => ⟨x, arity, r⟩
  | _ => none

/-- What a call demands of its arguments, from the argument with index `i` on. -/
def callDemands (s : Signature) (i : Nat) : List (Term Symbol α) → List Demand
  | [] => []
  | t :: ts => (argDemand s i t).toList ++ callDemands s (i + 1) ts

/-- All demands of an expression, one by one. -/
def rawDemands (e : Environment) (t : Term Symbol α) : List Demand :=
  t.calls.flatMap fun (f, args) =>
    match e.signature? f with
    | some s => callDemands s 0 args
    | none => []

/-- What an expression demands of its variables, one demand per name. -/
def demands (e : Environment) (t : Term Symbol α) : List Demand := Demand.collect (t.rawDemands e)

end Term

/-- The restriction to a literal that a conjunct states. -/
def Constraint.literalRestriction? (c : Constraint Symbol α) : Option Restriction :=
  match c.shape, c.negated with
  | .literal v, false => some (.ofValues [v])
  | _, _ => none

/-- What a conjunct demands of the variables in it, given what literals beside it demand. -/
def Constraint.demands (e : Environment) (literals : Option Restriction)
    (c : Constraint Symbol α) : List Demand :=
  match c.shape with
  | .literal _ => []
  | .var x arity _ => if c.negated then [] else (literals.map fun r => ⟨x, arity, r⟩).toList
  | .predicate t | .returnValue t => t.demands e

/-- The meet of some restrictions; none if there are none. -/
def Restriction.interAll : List Restriction → Option Restriction
  | [] => none
  | r :: rs => some (rs.foldl (· ∩ ·) r)

/-- What a conjunction demands of its variables, one demand per name. -/
def Demand.ofConjuncts (e : Environment) (cs : List (Constraint Symbol α)) : List Demand :=
  let literals := Restriction.interAll (cs.filterMap Constraint.literalRestriction?)
  collect (cs.flatMap (Constraint.demands e literals))

end Antecedent
