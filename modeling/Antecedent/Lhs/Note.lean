import Antecedent.Restriction
import Antecedent.Site

/-!
# Notes on an interned left-hand side

Compiling a left-hand side leaves a note at every variable, field and condition: the restriction
accumulated for it, the binding occurrence it refers to, and the tests made from it.

* `Origin` is a binding occurrence: a match handle or a variable field.
* `Outputs` are the tests of one node. A field has a test of the candidate entity and perhaps a
  constant look-up; a condition has a test and hash pairs for its join, and the same again for the
  join of the negated group it belongs to.
-/

namespace Antecedent

/-- Where an occurrence stands: its condition, the depth at which that begins, and its site. -/
structure Place where
  /-- The condition, counted from one. -/
  pattern : Nat
  beginDepth : Nat
  site : Site
  deriving DecidableEq, Repr

/-- A binding occurrence. -/
structure Origin where
  /-- The number of its node. -/
  id : Nat
  place : Place
  deriving DecidableEq, Repr

/-- Whether the occurrence is a match handle, and not a field. -/
def Origin.isHandle (o : Origin) : Bool := o.place.site.index = 0

/-- Values of the two sides of a join that are equal whenever its test holds. -/
structure HashPair where
  left : Test
  right : Test
  deriving BEq, Repr

/-- What one join evaluates for a condition. -/
structure JoinOutput where
  test : Option Test := none
  hash : List HashPair := []
  deriving BEq, Repr

/-- Both the test and the hash pairs of two outputs. -/
def JoinOutput.append (a b : JoinOutput) : JoinOutput :=
  ⟨Test.conjoin a.test b.test, a.hash ++ b.hash⟩

instance : Append JoinOutput := ⟨JoinOutput.append⟩

namespace JoinOutput

@[simp] theorem test_append (a b : JoinOutput) : (a ++ b).test = Test.conjoin a.test b.test := rfl

@[simp] theorem hash_append (a b : JoinOutput) : (a ++ b).hash = a.hash ++ b.hash := rfl

@[simp] theorem empty_append (a : JoinOutput) : ({} : JoinOutput) ++ a = a :=
  show mk _ _ = a by rw [Test.conjoin_none_left, List.nil_append]

@[simp] theorem append_empty (a : JoinOutput) : a ++ ({} : JoinOutput) = a :=
  show mk _ _ = a by rw [Test.conjoin_none_right, List.append_nil]

theorem append_assoc (a b c : JoinOutput) : a ++ b ++ c = a ++ (b ++ c) :=
  show mk (Test.conjoin (Test.conjoin _ _) _) (_ ++ _ ++ _) = _ by
    rw [Test.conjoin_assoc, List.append_assoc]; rfl

end JoinOutput

/-- A value that a field must equal, for look-up by constants. -/
structure ConstantLookup where
  selector : Test
  value : Test
  deriving BEq, Repr

/-- The tests made from a node. -/
structure Outputs where
  /-- The test of a single candidate entity. -/
  candidate : Option Test := none
  lookup : Option ConstantLookup := none
  /-- What the condition's own join evaluates. -/
  join : JoinOutput := {}
  /-- What is deferred to the join of the enclosing negated group. -/
  deferred : JoinOutput := {}
  deriving BEq, Repr

/-- What is known about a node. -/
structure Note where
  restriction : Option Restriction := none
  origin : Option Origin := none
  out : Outputs := {}
  deriving BEq, Repr

end Antecedent
