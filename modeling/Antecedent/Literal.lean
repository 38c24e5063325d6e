import Antecedent.Symbol
import Antecedent.TypeSet
import Antecedent.Double.Rounding

/-!
# Literals and arities

A literal is a constant of a rule. Names inside literals are of any type: a written rule holds
strings, an interned one symbols.
-/

namespace Antecedent

/-- Whether a variable or a field stands for one value or for a sequence of values. -/
inductive Arity where
  | single
  | sequence
  deriving DecidableEq, Repr

namespace Arity

def isSequence (a : Arity) : Bool := a = sequence

def name : Arity → String
  | single => "Single"
  | sequence => "Sequence"

end Arity

/-- A constant. Equality `==` compares floats as numbers and never equates different kinds. -/
inductive Literal (ν : Type) where
  | integer (value : Int)
  | float (value : Double)
  | symbol (name : ν)
  | string (name : ν)
  | instanceName (name : ν)
  deriving DecidableEq, BEq, Repr

namespace Literal

variable {ν μ : Type}

def type : Literal ν → ValueType
  | integer _ => .integer
  | float _ => .float
  | symbol _ => .symbol
  | string _ => .string
  | instanceName _ => .instanceName

/-- The number that range checks look at; an integer is rounded to the nearest double. -/
def number? : Literal ν → Option Double
  | integer i => some (Double.ofInt i)
  | float x => some x
  | symbol _ | string _ | instanceName _ => none

/-- The name inside a literal, if it has one. -/
def name? : Literal ν → Option ν
  | integer _ | float _ => none
  | symbol s | string s | instanceName s => some s

/-- Applies a function to the name inside a literal. -/
def map (f : ν → μ) : Literal ν → Literal μ
  | integer i => integer i
  | float x => float x
  | symbol s => symbol (f s)
  | string s => string (f s)
  | instanceName s => instanceName (f s)

/-- Interns the name inside a literal. -/
def intern : Literal String → Interning (Literal Symbol)
  | integer i => pure (integer i)
  | float x => pure (float x)
  | symbol s => symbol <$> Interning.name s
  | string s => string <$> Interning.name s
  | instanceName s => instanceName <$> Interning.name s

/-- The set of the types of some literals. -/
def types (vs : List (Literal ν)) : TypeSet :=
  vs.foldl (fun s v => s ∪ .single v.type) .empty

end Literal

end Antecedent
