import Antecedent.Literal

/-!
# Restrictions on values

A restriction says which values a field, variable or argument may take: of which types, from which
list, in which numeric range, and whether one value or a sequence may be bound.

* `Restriction.check` finds what a literal violates: the type, then the list, then the range.
* `Restriction.inter` is the meet of two restrictions; it drops types and values that the other
  parts of the result exclude.
* `Restriction.isUnmatchable` recognizes restrictions without arity, without types or with an empty list
  of values. It does not look at the range.
-/

namespace Antecedent

/-- Inclusive numeric bounds; a missing bound does not restrict. -/
structure Range where
  min : Option Double
  max : Option Double
  deriving DecidableEq, BEq, Repr

namespace Range

def unbounded : Range := ⟨none, none⟩

def contains (r : Range) (x : Double) : Bool :=
  r.min.all (fun a => a.le x) && r.max.all (fun b => x.le b)

/-- Whether the bounds exclude every number. -/
def isEmpty : Range → Bool
  | ⟨some a, some b⟩ => b.lt a
  | _ => false

/-- Combines two bounds of which each may be missing. -/
def combine (f : Double → Double → Double) : Option Double → Option Double → Option Double
  | some a, some b => some (f a b)
  | some a, none => some a
  | none, b => b

instance : Inter Range :=
  ⟨fun r s => ⟨combine Double.max r.min s.min, combine Double.min r.max s.max⟩⟩

end Range

/-- What about a literal a restriction does not admit. -/
inductive Violation where
  | type
  | allowedValue
  | range
  deriving DecidableEq, Repr

def Violation.text : Violation → String
  | type => "type"
  | allowedValue => "allowed value"
  | range => "range"

/-- The permitted types, values, numbers and arities. -/
structure Restriction where
  types : TypeSet
  /-- The permitted values; every value of a permitted type when there is no list. -/
  allowed : Option (List (Literal Symbol))
  range : Range
  /-- One value may be bound. -/
  single : Bool
  /-- A sequence of values may be bound. -/
  sequence : Bool
  deriving DecidableEq, BEq, Repr

namespace Restriction

/-- Admits everything. -/
def any : Restriction := ⟨.all, none, .unbounded, true, true⟩

def ofTypes (types : TypeSet) : Restriction := { any with types }

def numeric : Restriction := ofTypes .number

def lexeme : Restriction := ofTypes .lexeme

def singleOnly (r : Restriction) : Restriction := { r with sequence := false }

def sequenceOnly (r : Restriction) : Restriction := { r with single := false }

/-- Admits one entity address; the restriction of a match handle. -/
def address : Restriction := (ofTypes .address).singleOnly

/-- Admits exactly the given values. -/
def ofValues (vs : List (Literal Symbol)) : Restriction :=
  { any with types := Literal.types vs, allowed := some vs }

def withRange (r : Restriction) (range : Range) : Restriction := { r with range }

/-- Whether the types and the range, apart from the list of values, admit a literal. -/
def admitsKind (types : TypeSet) (range : Range) (v : Literal Symbol) : Bool :=
  types.contains v.type && v.number?.all range.contains

/-- Drops the types and values that the other parts exclude: an empty range admits no number, a
value must have a permitted type and lie in the range, and a type must be that of some value. -/
def normalize (r : Restriction) : Restriction :=
  let types := if r.range.isEmpty then r.types \ .number else r.types
  match r.allowed with
  | none => { r with types }
  | some vs =>
    let kept := vs.filter (admitsKind types r.range)
    { r with types := types ∩ Literal.types kept, allowed := some kept }

/-- The values permitted by two lists, in the order of the first. -/
def commonValues : Option (List (Literal Symbol)) → Option (List (Literal Symbol)) →
    Option (List (Literal Symbol))
  | some vs, some ws => some (vs.filter fun v => ws.contains v)
  | some vs, none => some vs
  | none, ws => ws

/-- The meet of two restrictions. -/
instance : Inter Restriction :=
  ⟨fun a b => normalize
    { types := a.types ∩ b.types
      allowed := commonValues a.allowed b.allowed
      range := a.range ∩ b.range
      single := a.single && b.single
      sequence := a.sequence && b.sequence }⟩

/-- The meet of two restrictions that may be absent; an absent one admits everything. -/
def inter? : Option Restriction → Option Restriction → Option Restriction
  | some a, some b => some (a ∩ b)
  | some a, none => some a
  | none, b => b

/-- Whether nothing can match because neither one value nor a sequence may be bound, no type is left, or
the list of values is empty. The range is not looked at: an empty one, or one that excludes every listed
value, counts only after `normalize` has dropped what it excludes. -/
def isUnmatchable (r : Restriction) : Bool :=
  (!r.single && !r.sequence) || r.types.isEmpty || r.allowed.any List.isEmpty

/-- The first part of the restriction that a literal violates. -/
def check (r : Restriction) (v : Literal Symbol) : Option Violation :=
  if !r.types.contains v.type then some .type
  else if !r.allowed.all (fun vs => vs.contains v) then some .allowedValue
  else if !v.number?.all r.range.contains then some .range
  else none

/-- A literal passes if its type, its value and its number are all permitted. -/
theorem check_eq_none_iff {r : Restriction} {v : Literal Symbol} :
    r.check v = none ↔ r.types.contains v.type = true ∧
      r.allowed.all (fun vs => vs.contains v) = true ∧ v.number?.all r.range.contains = true := by
  unfold check
  cases r.types.contains v.type <;> cases r.allowed.all (fun vs => vs.contains v) <;>
    cases v.number?.all r.range.contains <;> simp

end Restriction

end Antecedent
