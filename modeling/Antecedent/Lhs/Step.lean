import Antecedent.Lhs.Syntax

/-!
# Putting a left-hand side together

A left-hand side is described by steps: patterns, negated and existential patterns, tests, and
negated groups of steps. `Lhs.ofSteps` computes the conditions with their depths of negation.

A negated pattern begins one level deeper than it ends. Every member of a negated group is one
level deeper, and the last one ends back at the level of the group.
-/

namespace Antecedent

variable {ν α : Type}

/-- One step of a description. -/
inductive Step (ν α : Type) where
  | pattern (p : Pattern ν α)
  | notPattern (p : Pattern ν α)
  | existsPattern (p : Pattern ν α)
  | test (t : Term ν α)
  | notGroup (steps : List (Step ν α))
  /-- Overrides the depths of the last condition so far. -/
  | depths (beginDepth endDepth : Nat)
  deriving Repr

namespace Lhs

/-- Puts all conditions one level deeper; the last one ends where it ended before. -/
def deepen : Lhs ν α → Lhs ν α
  | [] => []
  | [c] => [{ c with beginDepth := c.beginDepth + 1 }]
  | c :: cs => { c with beginDepth := c.beginDepth + 1, endDepth := c.endDepth + 1 } :: deepen cs

@[simp] theorem length_deepen (l : Lhs ν α) : (deepen l).length = l.length := by
  induction l with
  | nil => rfl
  | cons c cs ih =>
    cases cs with
    | nil => rfl
    | cons d ds => simpa [deepen] using ih

/-- Sets the depths of the last condition. -/
def setLastDepths (beginDepth endDepth : Nat) : Lhs ν α → Lhs ν α
  | [] => []
  | [c] => [{ c with beginDepth, endDepth }]
  | c :: cs => c :: setLastDepths beginDepth endDepth cs

end Lhs

namespace Step

mutual

/-- The conditions after one more step; new conditions carry the note `blank`. -/
def addTo (blank : α) (l : Lhs ν α) : Step ν α → Lhs ν α
  | pattern p => l ++ [⟨.pattern .plain p, 0, 0, blank⟩]
  | notPattern p => l ++ [⟨.pattern .negated p, 1, 0, blank⟩]
  | existsPattern p => l ++ [⟨.pattern .existential p, 0, 0, blank⟩]
  | test t => l ++ [⟨.test t, 0, 0, blank⟩]
  | notGroup steps => l ++ Lhs.deepen (addAllTo blank [] steps)
  | depths beginDepth endDepth => Lhs.setLastDepths beginDepth endDepth l

/-- The conditions after some more steps. -/
def addAllTo (blank : α) (l : Lhs ν α) : List (Step ν α) → Lhs ν α
  | [] => l
  | s :: ss => addAllTo blank (addTo blank l s) ss

end

end Step

/-- The conditions that some steps describe. -/
def Lhs.ofSteps (steps : List (Step ν Unit)) : Lhs ν Unit := Step.addAllTo () [] steps

end Antecedent
