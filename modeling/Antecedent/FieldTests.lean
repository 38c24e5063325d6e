import Antecedent.Conjunct

/-!
# Tests of a field

Every constraint of a field becomes a test, which runs at one of three stages: on a single
candidate entity, in the join of its pattern, or deferred to the join of the enclosing negated
group.

* A test runs on the candidate if all variables in it are bound in the same pattern. If a field
  with several alternatives refers to another pattern at all, its alternatives run in the join
  together.
* A join test is deferred if the field refers to an occurrence that is bound at a lesser depth of
  negation.
* A variable of the field itself that is bound before is compared with its binding occurrence. In a
  join, such a comparison also gives a hash pair.

`Outputs.ofField` puts these together, and `Outputs.ofTest` does the same for a test condition.
-/

namespace Antecedent

/-! ## Reading variables -/

/-- Whether a binding occurrence is at a lesser depth than a place that begins at `depth`. -/
def Origin.isOutside (o : Origin) (depth : Nat) : Bool := o.place.beginDepth < depth

/-- The value of a variable, read from the candidate entity. -/
def Origin.candidateValue (o : Origin) : Test := o.place.site.candidateValue

/-- The side from which an expression at the given depths reads a variable in a join. A deferred
test reads what is bound outside of the group from the partial match, and the rest from the members
of the group. -/
def Origin.role (o : Origin) (depth joinDepth : Nat) (deferred : Bool) : Role :=
  if deferred then if o.isOutside depth then .matched else .nested
  else if joinDepth = o.place.site.joinDepth then .joining else .matched

/-- The value of a variable, read in a join by an expression at the given depths. -/
def Origin.joinValue (depth joinDepth : Nat) (deferred : Bool) (o : Origin) : Test :=
  o.place.site.joinValue (o.role depth joinDepth deferred)

namespace Term

mutual

/-- The test that a bound expression becomes when its variables are read as given. -/
def test (read : Origin → Test) : Term Symbol Origin → Test
  | call f args => .call f (testAll read args)
  | var _ _ o => read o
  | lit v => .const v
  | global x => .global x

def testAll (read : Origin → Test) : List (Term Symbol Origin) → List Test
  | [] => []
  | t :: ts => test read t :: testAll read ts

end

end Term

/-! ## Stages -/

/-- When a test runs. -/
inductive Stage where
  | candidate
  | join
  | deferred
  deriving DecidableEq, Repr

/-- The tests of one alternative, by stage, and the literals tested on the candidate. -/
structure StageTests where
  candidate : Option Test := none
  join : Option Test := none
  deferred : Option Test := none
  lookups : List ConstantLookup := []

namespace StageTests

/-- One test at one stage. -/
def single (t : Test) : Stage → StageTests
  | .candidate => { candidate := some t }
  | .join => { join := some t }
  | .deferred => { deferred := some t }

def append (a b : StageTests) : StageTests where
  candidate := Test.conjoin a.candidate b.candidate
  join := Test.conjoin a.join b.join
  deferred := Test.conjoin a.deferred b.deferred
  lookups := a.lookups ++ b.lookups

/-- The conjunction of the tests of several conjuncts. -/
def all : List StageTests → StageTests
  | [] => {}
  | s :: ss => s.append (all ss)

end StageTests

/-! ## Conjuncts -/

/-- The binding occurrences a bound conjunct refers to. -/
def Conjunct.origins (k : Conjunct Origin) : List Origin :=
  match k.constraint.shape with
  | .literal _ => []
  | .var _ _ o => [o]
  | .predicate t | .returnValue t => t.notes

/-- How the conjuncts of a field are staged. -/
structure Staging where
  place : Place
  /-- Conjuncts may run on the candidate if they refer to their own pattern only. -/
  inPattern : Bool
  /-- Join tests are deferred. -/
  deferred : Bool

namespace Staging

/-- Whether the binding occurrences all lie in the pattern of the field. -/
def binds (s : Staging) (os : List Origin) : Bool :=
  os.all fun o => o.place.pattern = s.place.pattern

/-- The stage of a test that refers to the given binding occurrences. -/
def stage (s : Staging) (os : List Origin) : Stage :=
  if s.inPattern && s.binds os then .candidate else if s.deferred then .deferred else .join

/-- The role of the field's own entity in a join test. -/
def ownRole (s : Staging) : Role := if s.deferred then .nested else .joining

/-- The role of the entity of a binding occurrence that is compared with the field. Inside of a
negated group's join, one that is bound at the same depth belongs to a member of the group. -/
def originRole (s : Staging) (o : Origin) : Role :=
  if s.deferred && s.place.beginDepth = o.place.beginDepth then .nested else .matched

/-- The side on which the field's own value is read at a stage. -/
def ownSide (s : Staging) (site : Site) : Stage → Side
  | .candidate => .candidate
  | .join | .deferred => site.side s.ownRole

/-- The expression as read at a stage. -/
def termTest (s : Staging) (t : Term Symbol Origin) : Stage → Test
  | .candidate => t.test Origin.candidateValue
  | .join | .deferred =>
    t.test (Origin.joinValue s.place.beginDepth s.place.site.joinDepth s.deferred)

/-- The comparison of a site with a binding occurrence at a stage. -/
def comparison (s : Staging) (site : Site) (negated : Bool) (o : Origin) : Stage → Test
  | .candidate => site.kind.compareCandidate site negated o.place.site
  | .join | .deferred => site.compareJoin negated o.place.site s.ownRole (s.originRole o)

/-- The test of one conjunct. -/
def conjunctTest (s : Staging) (k : Conjunct Origin) (stage : Stage) : Test :=
  let negated := k.constraint.negated
  match k.constraint.shape with
  | .literal v => k.site.constantTest negated v (s.ownSide k.site stage)
  | .var _ _ o => s.comparison k.site negated o stage
  | .predicate t => .negateIf negated (s.termTest t stage)
  | .returnValue t =>
    .equality negated (.get (k.site.fetch (s.ownSide k.site stage))) (s.termTest t stage)

/-- The look-up that a literal tested on the candidate allows. -/
def lookups (k : Conjunct Origin) : Stage → List ConstantLookup
  | .candidate =>
    match k.constraint.shape, k.constraint.negated with
    | .literal v, false => [⟨k.site.candidateValue, .const v⟩]
    | _, _ => []
  | .join | .deferred => []

/-- The test of one conjunct at its stage. -/
def conjunct (s : Staging) (k : Conjunct Origin) : StageTests :=
  let stage := s.stage k.origins
  { StageTests.single (s.conjunctTest k stage) stage with lookups := lookups k stage }

/-- The tests of one alternative. -/
def alternative (s : Staging) (ks : List (Conjunct Origin)) : StageTests :=
  .all (ks.map s.conjunct)

/-- The staging of a field with the given binding occurrence of its own variable. -/
def ofField (p : Place) (own : Option Origin) (as : List (List (Conjunct Origin))) : Staging :=
  let referred := as.flatMap fun ks => ks.flatMap Conjunct.origins
  { place := p
    inPattern := as.length < 2 || referred.all fun o => o.place.pattern = p.pattern
    deferred := own.any (·.isOutside p.beginDepth) || referred.any (·.isOutside p.beginDepth) }

end Staging

/-! ## Fields and test conditions -/

namespace Outputs

/-- The tests of a field's alternatives. -/
def ofAlternatives (ts : List StageTests) : Outputs where
  candidate := Test.anyOf (ts.filterMap StageTests.candidate)
  lookup :=
    match ts with
    | [t] =>
      match t.lookups with
      | [l] => some l
      | _ => none
    | _ => none
  join := { test := Test.anyOf (ts.filterMap StageTests.join) }
  deferred := { test := Test.anyOf (ts.filterMap StageTests.deferred) }

/-- Adds the comparison of a field's own variable with its binding occurrence, which goes by the
depth of that occurrence alone. -/
def compareOwn (p : Place) (o : Origin) (out : Outputs) : Outputs :=
  let outside := o.isOutside p.beginDepth
  let s : Staging := ⟨p, true, outside⟩
  let stage := s.stage [o]
  let comparison := some (s.comparison p.site false o stage)
  let left := o.place.site.joinValue .matched
  match stage with
  | .candidate => { out with candidate := Test.conjoin comparison out.candidate }
  | .join => { out with join := ⟨comparison, [⟨left, p.site.candidateValue⟩]⟩ ++ out.join }
  | .deferred =>
    { out with deferred := ⟨comparison, [⟨left, p.site.joinValue .matched⟩]⟩ ++ out.deferred }

/-- The tests of a field: of its own variable, if that is bound before, and of its alternatives. -/
def ofField (p : Place) (own : Option Origin) (as : List (List (Conjunct Origin))) : Outputs :=
  let s := Staging.ofField p own as
  let out := ofAlternatives (as.map s.alternative)
  match own with
  | some o => out.compareOwn p o
  | none => out

/-- The test of a test condition; it is deferred if it refers to anything bound outside of the
negated group. -/
def ofTest (beginDepth joinDepth : Nat) (t : Term Symbol Origin) : Outputs :=
  let deferred := t.notes.any (·.isOutside beginDepth)
  let output : JoinOutput := { test := some (t.test (Origin.joinValue beginDepth joinDepth deferred)) }
  if deferred then { deferred := output } else { join := output }

end Outputs

end Antecedent
