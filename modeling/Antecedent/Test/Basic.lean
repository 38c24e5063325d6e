import Antecedent.Fetch
import Antecedent.Literal

/-!
# Compiled tests

A test is an operator with a list of arguments. Values are taken from matched entities by explicit
fetches, so it can be seen which entities a test reads.

* `Test.conjoin` is the conjunction of two tests that may be absent; it flattens conjunctions.
* `Test.anyOf` is the disjunction of a list of tests.
* `Test.fetches` lists what a test reads, in the order of evaluation.
-/

namespace Antecedent

/-- The operators of tests. Equality `==` compares float constants as numbers. -/
inductive Op where
  | const (value : Literal Symbol)
  | call (function : Symbol)
  | global (name : Symbol)
  | and
  | or
  | not
  | eq
  | neq
  | get (fetch : Fetch)
  /-- Compares a fetched value with the constant that is the argument. -/
  | testConstant (fetch : Fetch) (negated : Bool)
  /-- Compares two fetched values of entities of one kind. -/
  | compare (kind : EntityKind) (left right : Fetch) (negated : Bool)
  deriving DecidableEq, BEq, Repr

/-- A test, or an expression inside one. -/
inductive Test where
  | node (op : Op) (args : List Test)
  deriving Repr

namespace Test

def op : Test → Op
  | node op _ => op

def args : Test → List Test
  | node _ args => args

mutual

/-- Equality of tests that compares float constants as numbers. -/
def same : Test → Test → Bool
  | node o as, node p bs => o == p && sameAll as bs

def sameAll : List Test → List Test → Bool
  | [], [] => true
  | a :: as, b :: bs => same a b && sameAll as bs
  | _, _ => false

end

instance : BEq Test := ⟨same⟩

def leaf (op : Op) : Test := node op []

def const (v : Literal Symbol) : Test := leaf (.const v)

def global (x : Symbol) : Test := leaf (.global x)

def get (f : Fetch) : Test := leaf (.get f)

def call (f : Symbol) (args : List Test) : Test := node (.call f) args

def not (t : Test) : Test := node .not [t]

/-- The test, or its negation. -/
def negateIf (negated : Bool) (t : Test) : Test := if negated then not t else t

/-- Equality of two values, or inequality. -/
def equality (negated : Bool) (a b : Test) : Test := node (if negated then .neq else .eq) [a, b]

/-- The tests whose conjunction a test is: its arguments if it is one, else itself. -/
def conjuncts : Test → List Test
  | node .and args => args
  | t => [t]

/-- The conjunction of two tests; an absent test holds. -/
def conjoin : Option Test → Option Test → Option Test
  | some a, some b => some (node .and (a.conjuncts ++ b.conjuncts))
  | some a, none => some a
  | none, b => b

@[simp] theorem conjoin_none_left (b : Option Test) : conjoin none b = b := by cases b <;> rfl

@[simp] theorem conjoin_none_right (a : Option Test) : conjoin a none = a := by cases a <;> rfl

@[simp] theorem conjuncts_and (args : List Test) : (node .and args).conjuncts = args := rfl

theorem conjoin_assoc (a b c : Option Test) :
    conjoin (conjoin a b) c = conjoin a (conjoin b c) := by
  cases a <;> cases b <;> cases c <;> simp [conjoin]

/-- The disjunction of a list of tests; an empty list gives none. -/
def anyOf : List Test → Option Test
  | [] => none
  | [t] => some t
  | ts => some (node .or ts)

mutual

/-- The test and all tests inside it, a test before its arguments. -/
def subtests : Test → List Test
  | t@(node _ args) => t :: subtestsAll args

def subtestsAll : List Test → List Test
  | [] => []
  | t :: ts => subtests t ++ subtestsAll ts

end

/-- The fetches of one operator. -/
def opFetches : Op → List Fetch
  | .get f => [f]
  | .testConstant f _ => [f]
  | .compare _ left right _ => [left, right]
  | _ => []

/-- All fetches of a test, in the order of evaluation. -/
def fetches (t : Test) : List Fetch := t.subtests.flatMap fun s => opFetches s.op

end Test

end Antecedent
