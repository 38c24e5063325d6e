import Antecedent.Restriction

/-!
# Diagnostics

Compiling a rule stops at its first semantic fault. A diagnostic says what the fault is and where
it stands; `Diagnostic.message` is its text.
-/

namespace Antecedent

/-- Why a pattern cannot bind its match handle. -/
inductive HandleConflict where
  /-- An earlier pattern has the same match handle. -/
  | alreadyMatchHandle
  /-- The name is already bound as a field variable. -/
  | boundInPattern
  deriving DecidableEq, Repr

/-- The semantic faults of a rule. -/
inductive Fault where
  | unboundVariable
  | illegalHandle (conflict : HandleConflict)
  | kindMixing
  | literalViolation (violation : Violation)
  | unmatchable
  | nestingTooDeep
  deriving DecidableEq, Repr

def HandleConflict.text : HandleConflict → String
  | alreadyMatchHandle => "duplicate match handle"
  | boundInPattern => "match handle was previously bound within a pattern"

def Fault.text : Fault → String
  | unboundVariable => "variable referenced before being defined"
  | illegalHandle conflict => conflict.text
  | kindMixing => "variable used as both a single and a sequence variable"
  | literalViolation violation =>
    "literal restriction value violates the " ++ violation.text ++ " restriction"
  | unmatchable => "constraints can never be satisfied"
  | nestingTooDeep => "expression nested too deeply"

/-- Where a fault stands. -/
structure Location where
  /-- The condition, counted from one. -/
  pattern : Nat
  /-- The field of the pattern, counted from one. -/
  field : Option Nat
  slot : Option String
  blamed : Option String
  /-- The innermost function call around the fault. -/
  function : Option String
  deriving DecidableEq, Repr

/-- The text of a location; the name of a slot goes before the number of a field. -/
def Location.text (l : Location) : String :=
  (l.blamed.map fun x => "?" ++ x ++ " ").getD "" ++
  (l.function.map fun f => "in (" ++ f ++ " ...) ").getD "" ++
  "at CE #" ++ toString l.pattern ++
  match l.slot, l.field with
  | some slot, _ => " slot " ++ slot
  | none, some field => " field #" ++ toString field
  | none, none => ""

/-- A fault and its place. -/
structure Diagnostic where
  fault : Fault
  location : Location
  deriving DecidableEq, Repr

def Diagnostic.message (d : Diagnostic) : String := d.fault.text ++ ": " ++ d.location.text

end Antecedent
