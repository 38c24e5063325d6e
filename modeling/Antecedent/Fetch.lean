import Antecedent.Symbol

/-!
# Fetches

A fetch says where a running test takes a value from: which matched entity, and which value of it.
-/

namespace Antecedent

/-- The kinds of entities that patterns match. -/
inductive EntityKind where
  /-- Facts have positional fields. -/
  | fact
  /-- Objects have slots addressed by name. -/
  | object
  deriving DecidableEq, Repr

def EntityKind.name : EntityKind → String
  | fact => "fact"
  | object => "object"

/-- The entity a value is taken from. -/
inductive Side where
  /-- The single entity under test, before any join. -/
  | candidate
  /-- The entity of the partial match that entered at a join depth. -/
  | matched (depth : Nat)
  /-- The entity that enters the current join. -/
  | joining
  /-- The entity that the join of a negated group reads for its member at a join depth. -/
  | nested (depth : Nat)
  deriving DecidableEq, Repr

/-- The place of a part among the parts of a multifield slot. -/
structure Segment where
  /-- The index among the parts, from zero. -/
  position : Nat
  /-- Whether the part spans a sequence of values. -/
  sequence : Bool
  deriving DecidableEq, Repr

/-- Which value of an entity is taken. -/
inductive Address where
  /-- The address of the entity itself. -/
  | entity
  /-- The value of a field, counted from one, or of a part of it. -/
  | field (index : Nat) (name : Option Symbol) (segment : Option Segment)
  deriving DecidableEq, Repr

/-- The source of one value. -/
structure Fetch where
  kind : EntityKind
  side : Side
  address : Address
  deriving DecidableEq, Repr

end Antecedent
