import Antecedent.Scope
import Antecedent.Spot

/-!
# Occurrences ahead of a binding

A variable is either a single value or a sequence everywhere outside of expressions. The clash is
reported where the binding is made, so a binding looks ahead at the occurrences that will see it.

* `Condition.occurrences` and `Lhs.reach` list the occurrences that a binding looks at, in order:
  the fields of a list come first, then what is inside them, the last field first.
* `Context.permit` lets a binding pass, or reports the first occurrence with another arity.
-/

namespace Antecedent

/-- How a name occurs outside of expressions. -/
inductive Occurrence.Role where
  | handle
  | var (arity : Arity)
  deriving DecidableEq, Repr

/-- An occurrence of a name outside of expressions. -/
structure Occurrence where
  name : Symbol
  role : Occurrence.Role
  spot : Spot
  deriving DecidableEq, Repr

/-- Whether a binding has another arity than an occurrence of its name. A match handle is a single
value, and clashes only with a binding occurrence. -/
def Binding.clashes (b : Binding) (o : Occurrence) : Bool :=
  o.name = b.name &&
  match o.role with
  | .handle => b.origin.isSome && b.arity.isSequence
  | .var arity => arity ≠ b.arity

/-- Lets a binding pass if it clashes with none of the occurrences that will see it. -/
def Context.permit (c : Context) (ahead : List Occurrence) (b : Binding) :
    Except Diagnostic Unit :=
  match ahead.find? b.clashes with
  | some o => .error (c.blame .kindMixing o.spot o.name)
  | none => .ok ()

variable {α : Type}

def Constraint.occurrences (spot : Spot) (c : Constraint Symbol α) : List Occurrence :=
  match c.shape with
  | .var x arity _ => [⟨x, .var arity, spot⟩]
  | _ => []

def Alternative.occurrences (spot : Spot) (a : Alternative Symbol α) : List Occurrence :=
  a.constraints.flatMap (Constraint.occurrences spot)

namespace Field

/-- The variable that a field binds. -/
def ownOccurrence (spot : Spot) : Field Symbol α → List Occurrence
  | plain (.var x arity) _ _ _ => [⟨x, .var arity, spot⟩]
  | _ => []

mutual

/-- The occurrences inside a field. -/
def inside (spot : Spot) : Field Symbol α → List Occurrence
  | plain _ as _ _ => as.flatMap (Alternative.occurrences spot)
  | multi ps _ _ _ => occurrencesAll spot ps

/-- The occurrences in the parts of a slot. -/
def occurrencesAll (spot : Spot) : List (Field Symbol α) → List Occurrence
  | [] => []
  | f :: fs => f.ownOccurrence spot ++ occurrencesAll spot fs ++ inside spot f

end

end Field

/-- The occurrences in the slots of a pattern, from the field numbered `j` on. -/
def Slot.occurrencesAll (pattern j : Nat) : List (Slot Symbol α) → List Occurrence
  | [] => []
  | s :: ss =>
    let spot : Spot := ⟨pattern, j, s.name⟩
    s.field.ownOccurrence spot ++ occurrencesAll pattern (j + 1) ss ++ s.field.inside spot

/-- The occurrences in a condition. -/
def Condition.occurrences (pattern : Nat) (c : Condition Symbol α) : List Occurrence :=
  match c.element with
  | .pattern _ p =>
    (p.handle.map fun h => ⟨h, .handle, ⟨pattern, 0, none⟩⟩).toList ++
      Slot.occurrencesAll pattern 1 p.slots
  | .test _ => []

namespace Lhs

/-- The occurrences that a binding with the given floor sees in the conditions from the one
numbered `pattern` on. -/
def reach (floor pattern : Nat) : Lhs Symbol α → List Occurrence
  | [] => []
  | c :: cs =>
    c.occurrences pattern ++ if floor ≤ c.endDepth then reach floor (pattern + 1) cs else []

/-- The occurrences in the conditions after one that see the bindings made in it. -/
def reachAfter (pattern : Nat) (c : Condition Symbol α) (rest : Lhs Symbol α) : List Occurrence :=
  if c.mode = .plain ∧ c.beginDepth ≤ c.endDepth then reach c.beginDepth (pattern + 1) rest else []

end Lhs

end Antecedent
