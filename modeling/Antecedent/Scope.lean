import Antecedent.Lhs.Note
import Antecedent.Lhs.Syntax

/-!
# Scopes

While a left-hand side is read from the front, the bindings made so far that can still be seen form
the scope. An occurrence of a variable is resolved by going through the bindings of its name, from
the oldest to the newest.

* `Scope.origin?` chooses the binding occurrence: the newest one in the same condition or in a
  pattern over the same kind of entity, and the oldest one if there is none such.
* `Scope.restriction?` narrows a declared restriction by every binding in turn.
* `Scope.leave` is the scope after a condition. A binding is seen until a condition ends at a
  lesser depth than that at which its own condition begins; bindings made inside a negated or
  existential pattern are not seen outside.
* `Term.resolve`, `Constraint.resolve` and `Field.resolve` note at each variable what it finds.
-/

namespace Antecedent

/-- A binding of a variable. One without an origin only narrows the variable. -/
structure Binding where
  name : Symbol
  arity : Arity
  origin : Option Origin
  restriction : Option Restriction
  /-- The depth at which the condition of the binding begins. -/
  floor : Nat
  deriving DecidableEq, Repr

/-- The visible bindings, the oldest first. -/
abbrev Scope := List Binding

/-- The condition from which a scope is looked at. -/
structure Viewpoint where
  pattern : Nat
  kind : Option EntityKind
  deriving DecidableEq, Repr

/-- Whether a binding occurrence replaces an older one. -/
def Viewpoint.prefers (v : Viewpoint) (o : Origin) : Bool :=
  o.place.pattern = v.pattern || some o.place.site.kind = v.kind

/-- The choice between what was found so far and a newer binding occurrence. -/
def Viewpoint.choose (v : Viewpoint) : Option Origin → Origin → Option Origin
  | none, o => some o
  | some old, o => if v.prefers o then some o else some old

namespace Scope

/-- The bindings of a name. -/
def named (σ : Scope) (x : Symbol) : Scope := σ.filter fun b => b.name = x

/-- The binding occurrences of a name. -/
def origins (σ : Scope) (x : Symbol) : List Origin := (σ.named x).filterMap Binding.origin

/-- The binding occurrence that an occurrence of a name refers to. -/
def origin? (σ : Scope) (v : Viewpoint) (x : Symbol) : Option Origin :=
  (σ.origins x).foldl v.choose none

/-- The declared restriction, narrowed by every binding of the name. -/
def restriction? (σ : Scope) (x : Symbol) (declared : Option Restriction) : Option Restriction :=
  (σ.named x).foldl (fun r b => Restriction.inter? b.restriction r) declared

@[simp] theorem mem_named {σ : Scope} {x : Symbol} {b : Binding} :
    b ∈ σ.named x ↔ b ∈ σ ∧ b.name = x := by
  simp [named]

@[simp] theorem named_append (σ τ : Scope) (x : Symbol) :
    named (σ ++ τ) x = σ.named x ++ τ.named x :=
  List.filter_append ..

@[simp] theorem origins_append (σ τ : Scope) (x : Symbol) :
    origins (σ ++ τ) x = σ.origins x ++ τ.origins x := by
  rw [origins, named_append, List.filterMap_append]
  rfl

/-- Newer bindings are looked at after the older ones. -/
theorem restriction?_append (σ τ : Scope) (x : Symbol) (declared : Option Restriction) :
    restriction? (σ ++ τ) x declared = τ.restriction? x (σ.restriction? x declared) := by
  rw [restriction?, named_append, List.foldl_append]
  rfl

/-- What an occurrence of a name finds in a scope. A negated occurrence is not narrowed. -/
def note (σ : Scope) (v : Viewpoint) (x : Symbol) (negated : Bool)
    (declared : Option Restriction) : Note where
  restriction := if negated then declared else σ.restriction? x declared
  origin := σ.origin? v x

/-- The scope after a condition, from those before it and at its end. -/
def leave {ν α : Type} (before inside : Scope) (c : Condition ν α) : Scope :=
  (if c.mode = .plain then inside else before).filter fun b => b.floor ≤ c.endDepth

end Scope

variable {α : Type}

namespace Term

mutual

/-- Notes at each variable of an expression what it finds in a scope. -/
def resolve (σ : Scope) (v : Viewpoint) : Term Symbol α → Term Symbol Note
  | call f args => call f (resolveAll σ v args)
  | var x arity _ => var x arity (σ.note v x false none)
  | lit value => lit value
  | global x => global x

def resolveAll (σ : Scope) (v : Viewpoint) : List (Term Symbol α) → List (Term Symbol Note)
  | [] => []
  | t :: ts => resolve σ v t :: resolveAll σ v ts

end

end Term

/-- Notes at each variable of a constraint what it finds in a scope. -/
def Constraint.resolve (σ : Scope) (v : Viewpoint) (c : Constraint Symbol α) :
    Constraint Symbol Note where
  shape :=
    match c.shape with
    | .literal value => .literal value
    | .var x arity _ => .var x arity (σ.note v x c.negated none)
    | .predicate t => .predicate (t.resolve σ v)
    | .returnValue t => .returnValue (t.resolve σ v)
  negated := c.negated

def Alternative.resolve (σ : Scope) (v : Viewpoint) (a : Alternative Symbol α) :
    Alternative Symbol Note :=
  ⟨a.first.resolve σ v, a.rest.map (Constraint.resolve σ v)⟩

/-- What a field finds in a scope; only a variable is narrowed or has an origin. -/
def Binder.resolve (σ : Scope) (v : Viewpoint) (declared : Option Restriction) :
    Binder Symbol → Note
  | var x _ => σ.note v x false declared
  | wildcard _ => { restriction := declared }

namespace Field

mutual

/-- Notes at a field what it finds in a scope, and below it what is found there. The alternatives
of a plain field are read in the scope `inner`. -/
def resolve (σ inner : Scope) (v : Viewpoint) : Field Symbol α → Field Symbol Note
  | plain b as declared _ =>
    plain b (as.map (Alternative.resolve inner v)) declared (b.resolve σ v declared)
  | multi ps _ declared _ => multi (resolveAll σ v ps) [] declared { restriction := declared }

/-- Notes what the parts of a slot find in a scope. -/
def resolveAll (σ : Scope) (v : Viewpoint) : List (Field Symbol α) → List (Field Symbol Note)
  | [] => []
  | f :: fs => resolve σ σ v f :: resolveAll σ v fs

end

end Field

end Antecedent
