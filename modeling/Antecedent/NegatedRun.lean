import Antecedent.Lhs.Note
import Antecedent.Lhs.Syntax

/-!
# Negated runs

The members of a negated group are not matched on their own, so what is deferred to the join of the
group goes to the first of them. A run opens at a condition that begins at a depth other than 0 and
other than the depth at which the previous condition ends. Its members are the conditions that
begin at that depth, up to the first condition that ends at a lesser depth.

`Lhs.collapse` moves what the members of a run defer to the condition that opens it.
-/

namespace Antecedent

namespace Condition

/-- What a condition defers. -/
def deferred (c : Condition Symbol Note) : JoinOutput := c.note.out.deferred

def withDeferred (c : Condition Symbol Note) (d : JoinOutput) : Condition Symbol Note :=
  { c with note := { c.note with out := { c.note.out with deferred := d } } }

end Condition

namespace Lhs

/-- What the members of a run at the given depth defer, from some condition inside it on. -/
def runDeferred (depth : Nat) : Lhs Symbol Note → JoinOutput
  | [] => {}
  | c :: cs =>
    (if c.beginDepth = depth then c.deferred else {}) ++
      if c.endDepth < depth then {} else runDeferred depth cs

/-- Collapses the runs from some condition on. The previous condition ends at `previousEnd`, and
runs are open at the depths in `opened`. -/
def collapseFrom (previousEnd : Nat) (opened : List Nat) : Lhs Symbol Note → Lhs Symbol Note
  | [] => []
  | c :: cs =>
    let depth := c.beginDepth
    let isMember := opened.contains depth
    let opens := depth ≠ 0 ∧ depth ≠ previousEnd
    let d :=
      if isMember then {} else if opens then runDeferred depth (c :: cs) else c.deferred
    let nowOpen := (if opens then depth :: opened else opened).filter (· ≤ c.endDepth)
    c.withDeferred d :: collapseFrom c.endDepth nowOpen cs

@[simp] theorem length_collapseFrom (previousEnd : Nat) (opened : List Nat)
    (l : Lhs Symbol Note) : (collapseFrom previousEnd opened l).length = l.length := by
  induction l generalizing previousEnd opened with
  | nil => rfl
  | cons c cs ih => simp [collapseFrom, ih]

/-- Moves what the members of each run defer to the condition that opens it. -/
def collapse (l : Lhs Symbol Note) : Lhs Symbol Note := collapseFrom 0 [] l

end Lhs

end Antecedent
