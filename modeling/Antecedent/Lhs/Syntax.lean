import Antecedent.Fetch
import Antecedent.Restriction

/-!
# The left-hand side of a rule

The left-hand side of a rule is a list of conditions. A condition is a pattern, which matches
entities, or a test. A pattern has slots with fields; a field may bind a variable and has
alternatives, each a conjunction of constraints; a multifield slot is matched part by part.

All types here have two parameters: `ν` is the type of names, strings in a written rule and
symbols in an interned one, and `α` is the type of the notes that variables, fields and
conditions carry.

Conditions know at which depth of negation they begin and end. Depth 0 is outside of every
negated group.
-/

namespace Antecedent

variable {ν α : Type}

/-- An expression inside a test or a constraint. -/
inductive Term (ν α : Type) where
  | call (function : ν) (args : List (Term ν α))
  | var (name : ν) (arity : Arity) (note : α)
  | lit (value : Literal ν)
  | global (name : ν)
  deriving Repr

namespace Term

mutual

/-- The notes of the variables of an expression. -/
def notes : Term ν α → List α
  | call _ args => notesAll args
  | var _ _ note => [note]
  | lit _ => []
  | global _ => []

def notesAll : List (Term ν α) → List α
  | [] => []
  | t :: ts => notes t ++ notesAll ts

end

end Term

/-- What a constraint demands of the value of its field. -/
inductive Constraint.Shape (ν α : Type) where
  /-- The value is a constant. -/
  | literal (value : Literal ν)
  /-- The value is that of a variable. -/
  | var (name : ν) (arity : Arity) (note : α)
  /-- The expression is true. -/
  | predicate (term : Term ν α)
  /-- The value is that of the expression. -/
  | returnValue (term : Term ν α)
  deriving Repr

/-- One conjunct of an alternative. -/
structure Constraint (ν α : Type) where
  shape : Constraint.Shape ν α
  negated : Bool
  deriving Repr

namespace Constraint

def literal (v : Literal ν) : Constraint ν α := ⟨.literal v, false⟩

def var (name : ν) (arity : Arity) (note : α) : Constraint ν α := ⟨.var name arity note, false⟩

def predicate (t : Term ν α) : Constraint ν α := ⟨.predicate t, false⟩

def returnValue (t : Term ν α) : Constraint ν α := ⟨.returnValue t, false⟩

/-- The opposite constraint. -/
def not (c : Constraint ν α) : Constraint ν α := { c with negated := !c.negated }

end Constraint

/-- A conjunction of at least one constraint. -/
structure Alternative (ν α : Type) where
  first : Constraint ν α
  rest : List (Constraint ν α)
  deriving Repr

namespace Alternative

def constraints (a : Alternative ν α) : List (Constraint ν α) := a.first :: a.rest

/-- Adds a conjunct to the last alternative, which is started if there is none. -/
def conjoin : List (Alternative ν α) → Constraint ν α → List (Alternative ν α)
  | [], c => [⟨c, []⟩]
  | [a], c => [{ a with rest := a.rest ++ [c] }]
  | a :: as, c => a :: conjoin as c

end Alternative

/-- What a plain field binds. -/
inductive Binder (ν : Type) where
  | var (name : ν) (arity : Arity)
  | wildcard (arity : Arity)
  deriving DecidableEq, Repr

def Binder.arity : Binder ν → Arity
  | var _ arity => arity
  | wildcard arity => arity

/-- A field of a pattern. A multifield slot has parts in place of a binder; constraints that are
attached to the slot itself have no effect. -/
inductive Field (ν α : Type) where
  | plain (binder : Binder ν) (alternatives : List (Alternative ν α))
      (declared : Option Restriction) (note : α)
  | multi (parts : List (Field ν α)) (alternatives : List (Alternative ν α))
      (declared : Option Restriction) (note : α)
  deriving Repr

namespace Field

def arity : Field ν α → Arity
  | plain b _ _ _ => b.arity
  | multi _ _ _ _ => .sequence

/-- The variable that a field binds. -/
def binds? : Field ν α → Option (ν × Arity)
  | plain (.var x arity) _ _ _ => some (x, arity)
  | _ => none

/-- The restriction declared for a field. -/
def declared : Field ν α → Option Restriction
  | plain _ _ d _ => d
  | multi _ _ d _ => d

def note : Field ν α → α
  | plain _ _ _ n => n
  | multi _ _ _ n => n

def withNote (n : α) : Field ν α → Field ν α
  | plain b as d _ => plain b as d n
  | multi ps as d _ => multi ps as d n

/-- Changes the alternatives of a field. -/
def mapAlternatives (f : List (Alternative ν α) → List (Alternative ν α)) : Field ν α → Field ν α
  | plain b as d n => plain b (f as) d n
  | multi ps as d n => multi ps (f as) d n

/-- Adds a conjunct to the last alternative. -/
def and (f : Field ν α) (c : Constraint ν α) : Field ν α :=
  f.mapAlternatives fun as => Alternative.conjoin as c

/-- Adds an alternative. -/
def or (f : Field ν α) (c : Constraint ν α) : Field ν α := f.mapAlternatives (· ++ [⟨c, []⟩])

/-- Declares a restriction of the field. -/
def declare (f : Field ν α) (r : Restriction) : Field ν α :=
  match f with
  | plain b as _ n => plain b as (some r) n
  | multi ps as _ n => multi ps as (some r) n

/-- The place of a field among the parts of a slot. -/
def segment (f : Field ν α) (position : Nat) : Segment := ⟨position, f.arity.isSequence⟩

end Field

/-- A field with the name of its slot, if it has one. -/
structure Slot (ν α : Type) where
  name : Option ν
  field : Field ν α
  deriving Repr

/-- A pattern over entities of one kind; its handle is bound to the matched entity. -/
structure Pattern (ν α : Type) where
  kind : EntityKind
  handle : Option ν
  slots : List (Slot ν α)
  deriving Repr

/-- Whether a pattern asks for a match, for the absence of matches, or for some match whose
bindings are not seen outside. -/
inductive Mode where
  | plain
  | negated
  | existential
  deriving DecidableEq, Repr

/-- A pattern or a test. -/
inductive Element (ν α : Type) where
  | pattern (mode : Mode) (pattern : Pattern ν α)
  | test (term : Term ν α)
  deriving Repr

/-- A condition with the depths of negation at which it begins and ends. -/
structure Condition (ν α : Type) where
  element : Element ν α
  beginDepth : Nat
  endDepth : Nat
  note : α
  deriving Repr

namespace Condition

/-- What a condition matches entities with; a test matches none. -/
def pattern? (c : Condition ν α) : Option (Pattern ν α) :=
  match c.element with
  | .pattern _ p => some p
  | .test _ => none

/-- Tests count as plain. -/
def mode (c : Condition ν α) : Mode :=
  match c.element with
  | .pattern m _ => m
  | .test _ => .plain

/-- The number of patterns after a condition, given the number before it. -/
def joinsAfter (joins : Nat) (c : Condition ν α) : Nat :=
  match c.element with
  | .pattern _ _ => joins + 1
  | .test _ => joins

end Condition

/-- The left-hand side of a rule. -/
abbrev Lhs (ν α : Type) := List (Condition ν α)

/-! ## Sizes

The size of a syntax tree is the number of its nodes in a node table. -/

/-- The sizes of the members of a list together. -/
def totalSize {τ : Type} (size : τ → Nat) : List τ → Nat
  | [] => 0
  | x :: xs => size x + totalSize size xs

@[simp] theorem totalSize_nil {τ : Type} (size : τ → Nat) : totalSize size [] = 0 := rfl

@[simp] theorem totalSize_cons {τ : Type} (size : τ → Nat) (x : τ) (xs : List τ) :
    totalSize size (x :: xs) = size x + totalSize size xs := rfl

@[simp] theorem totalSize_append {τ : Type} (size : τ → Nat) (xs ys : List τ) :
    totalSize size (xs ++ ys) = totalSize size xs + totalSize size ys := by
  induction xs with
  | nil => simp
  | cons x xs ih => simp [ih, Nat.add_assoc]

@[simp] theorem totalSize_map {τ τ' : Type} (size : τ' → Nat) (f : τ → τ') (xs : List τ) :
    totalSize size (xs.map f) = totalSize (fun x => size (f x)) xs := by
  induction xs with
  | nil => rfl
  | cons x xs ih => simp [ih]

namespace Term

mutual

def size : Term ν α → Nat
  | call _ args => 1 + sizeAll args
  | var _ _ _ => 1
  | lit _ => 1
  | global _ => 1

def sizeAll : List (Term ν α) → Nat
  | [] => 0
  | t :: ts => size t + sizeAll ts

end

end Term

def Constraint.size (c : Constraint ν α) : Nat :=
  match c.shape with
  | .literal _ | .var _ _ _ => 1
  | .predicate t | .returnValue t => 1 + t.size

def Alternative.size (a : Alternative ν α) : Nat := totalSize Constraint.size a.constraints

namespace Field

mutual

def size : Field ν α → Nat
  | plain _ as _ _ => 1 + totalSize Alternative.size as
  | multi ps _ _ _ => 1 + sizeAll ps

def sizeAll : List (Field ν α) → Nat
  | [] => 0
  | f :: fs => size f + sizeAll fs

end

end Field

def Condition.size (c : Condition ν α) : Nat :=
  match c.element with
  | .pattern _ p => 1 + totalSize (fun s => s.field.size) p.slots
  | .test t => 1 + t.size

end Antecedent
