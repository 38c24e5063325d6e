import Antecedent.Diagnostic
import Antecedent.Environment
import Antecedent.Lhs.Note

/-!
# Spots and contexts

A spot is the part of a location that comes from the position of a node. A context holds the
environment and the options of one compilation, and turns faults at spots into diagnostics.
-/

namespace Antecedent

/-- The position of a fault: a condition and, below it, a field and its slot. -/
structure Spot where
  /-- The condition, counted from one. -/
  pattern : Nat
  /-- The field, counted from one; zero at the condition itself. -/
  field : Nat
  slot : Option Symbol
  deriving DecidableEq, Repr

def Place.spot (p : Place) : Spot := ⟨p.pattern, p.site.index, p.site.name⟩

/-- The surroundings of one compilation. -/
structure Context where
  env : Environment
  options : Options

namespace Context

/-- A fault at a spot that blames a variable inside a function call. -/
def report (c : Context) (fault : Fault) (spot : Spot) (blamed : Option String)
    (function : Option Symbol) : Diagnostic where
  fault
  location :=
    { pattern := spot.pattern
      field := if 0 < spot.field then some spot.field else none
      slot := spot.slot.map c.env.name
      blamed
      function := function.map c.env.name }

/-- A fault at a spot that blames a variable. -/
def blame (c : Context) (fault : Fault) (spot : Spot) (x : Symbol) : Diagnostic :=
  c.report fault spot (some (c.env.name x)) none

end Context

end Antecedent
