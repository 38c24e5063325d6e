import Antecedent.Test.Basic

/-!
# Sites: how a field is read

A site is the address of a field occurrence: the kind of its entity, the field and the part of it,
and the join at which the entity enters. From it come the fetches of the field's value and the
comparisons the kind of entity supports. Facts are addressed by position and have a constant test
of their own, except for parts that span a sequence; objects are addressed by slot name.
-/

namespace Antecedent

/-- Which entity of a join a value is read from. -/
inductive Role where
  /-- The entity in the partial match, at the site's own join depth. -/
  | matched
  /-- The entity entering the join. -/
  | joining
  /-- The entity entering a join inside a negated group. -/
  | nested
  deriving DecidableEq, Repr

/-- The address of a field occurrence. -/
structure Site where
  kind : EntityKind
  /-- The field, counted from one; zero is the entity itself. -/
  index : Nat
  name : Option Symbol
  segment : Option Segment
  joinDepth : Nat
  deriving DecidableEq, Repr

namespace Site

def side (s : Site) : Role → Side
  | .matched => .matched s.joinDepth
  | .joining => .joining
  | .nested => .nested s.joinDepth

/-- The address of the site's value, for entities of the given kind. -/
def address (s : Site) (kind : EntityKind) : Address :=
  if s.index = 0 then .entity
  else .field s.index (match kind with | .fact => none | .object => s.name) s.segment

/-- The fetch of the site's value, addressed as entities of the given kind are. -/
def fetchAs (kind : EntityKind) (s : Site) (side : Side) : Fetch := ⟨s.kind, side, s.address kind⟩

/-- The fetch of the site's value. -/
def fetch (s : Site) (side : Side) : Fetch := s.fetchAs s.kind side

end Site

namespace EntityKind

/-- The value of a site in the candidate entity. -/
def candidateValue (k : EntityKind) (s : Site) : Test := .get (s.fetchAs k .candidate)

/-- The value of a site in a join. -/
def joinValue (k : EntityKind) (s : Site) (r : Role) : Test := .get (s.fetchAs k (s.side r))

/-- The constant test of the kind, where it has one. -/
def constantTest? (k : EntityKind) (s : Site) (negated : Bool) (v : Literal Symbol) (side : Side) :
    Option Test :=
  match k with
  | .object => none
  | .fact =>
    if s.segment.any Segment.sequence then none
    else some (.node (.testConstant (s.fetchAs .fact side) negated) [.const v])

/-- Compares two sites of the candidate entity. -/
def compareCandidate (k : EntityKind) (s : Site) (negated : Bool) (origin : Site) : Test :=
  .leaf (.compare k (s.fetchAs k .candidate) (origin.fetchAs k .candidate) negated)

/-- Compares two sites in a join. -/
def compareJoin (k : EntityKind) (s : Site) (negated : Bool) (origin : Site)
    (role originRole : Role) : Test :=
  .leaf (.compare k (s.fetchAs k (s.side role)) (origin.fetchAs k (origin.side originRole)) negated)

end EntityKind

namespace Site

/-- The value of the site in the candidate entity. -/
def candidateValue (s : Site) : Test := s.kind.candidateValue s

/-- The value of the site in a join. -/
def joinValue (s : Site) (r : Role) : Test := s.kind.joinValue s r

/-- Compares the site's value with a constant, by the constant test of its kind if there is one. -/
def constantTest (s : Site) (negated : Bool) (v : Literal Symbol) (side : Side) : Test :=
  (s.kind.constantTest? s negated v side).getD
    (.equality negated (.get (s.fetch side)) (.const v))

/-- Compares the values of two sites in a join, by the comparison of their kind if they share it. -/
def compareJoin (s : Site) (negated : Bool) (origin : Site) (role originRole : Role) : Test :=
  if s.kind = origin.kind then s.kind.compareJoin s negated origin role originRole
  else .equality negated (s.joinValue role) (origin.joinValue originRole)

end Site

end Antecedent
