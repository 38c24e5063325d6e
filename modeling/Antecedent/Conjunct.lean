import Antecedent.Lhs.Note
import Antecedent.Lhs.Syntax

/-!
# Conjuncts of a field

The alternatives of a field are read as lists of conjuncts, each with the site whose value it is
about.

A slot inside a slot is read as a field as well: its parts make up the first alternative, of which
those that bind a variable constrain that part, and the alternatives of its first part follow.
-/

namespace Antecedent

variable {α : Type}

/-- A constraint and the site whose value it constrains. -/
structure Conjunct (α : Type) where
  site : Site
  constraint : Constraint Symbol α
  deriving Repr

namespace Site

/-- The site of a part of a slot. -/
def part (s : Site) (f : Field Symbol α) (position : Nat) : Site :=
  { s with segment := some (f.segment position) }

end Site

namespace Field

/-- A part of a slot, read as a conjunct. -/
def asConjunct? (site : Site) (position : Nat) (f : Field Symbol α) : Option (Conjunct α) :=
  match f with
  | plain (.var x arity) _ _ note => some ⟨site.part f position, .var x arity note⟩
  | _ => none

/-- The parts of a slot from the given position on, read as conjuncts. -/
def asConjuncts (site : Site) (position : Nat) : List (Field Symbol α) → List (Conjunct α)
  | [] => []
  | f :: fs => (f.asConjunct? site position).toList ++ asConjuncts site (position + 1) fs

mutual

/-- The alternatives of a field as lists of conjuncts. -/
def conjuncts (site : Site) : Field Symbol α → List (List (Conjunct α))
  | plain _ as _ _ => as.map fun a => a.constraints.map (Conjunct.mk site)
  | multi ps _ _ _ => conjunctsOfParts site ps

/-- The parts of a slot as lists of conjuncts. -/
def conjunctsOfParts (site : Site) : List (Field Symbol α) → List (List (Conjunct α))
  | [] => []
  | f :: fs => asConjuncts site 0 (f :: fs) :: conjuncts (site.part f 0) f

end

end Field

end Antecedent
