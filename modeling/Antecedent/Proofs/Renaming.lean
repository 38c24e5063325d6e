import Antecedent.Compile
import Mathlib.Logic.Embedding.Basic

/-!
# Renaming symbols

A map on symbols renames everything that holds symbols: the names and the literals of a left-hand side,
also those in declared restrictions, the tables of an environment, and the notes and tests that a
compilation leaves.

* `Restriction.rename`, `Environment.rename`, `Test.rename`, `Note.rename` and `Lhs.rename` with the
  definitions around them are the renamings. That of a left-hand side is given what becomes of its notes.
* `Restriction.inter_rename` and `Restriction.check_rename` say that meets and checks of restrictions
  commute with a renaming, if the renaming keeps different symbols apart; `Environment.signature?_rename`
  and `Environment.isGlobal_rename` say so of look-ups in the tables of an environment.

A renaming that keeps different symbols apart is given as an embedding; lemmas about a mere map hold also
if different symbols become one.
-/

namespace Antecedent

variable {ν μ α β : Type}

/-! ## Literals -/

theorem Symbol.beq_apply (ρ : Symbol ↪ Symbol) (x y : Symbol) : (ρ x == ρ y) = (x == y) := by
  rw [Bool.eq_iff_iff, beq_iff_eq, beq_iff_eq, ρ.apply_eq_iff_eq]

namespace Literal

@[simp] theorem type_map (f : ν → μ) (v : Literal ν) : (v.map f).type = v.type := by
  cases v <;> rfl

@[simp] theorem number?_map (f : ν → μ) (v : Literal ν) : (v.map f).number? = v.number? := by
  cases v <;> rfl

@[simp] theorem types_map (f : ν → μ) (vs : List (Literal ν)) : types (vs.map (map f)) = types vs := by
  simp [types, List.foldl_map]

theorem beq_map (ρ : Symbol ↪ Symbol) (v w : Literal Symbol) : (v.map ρ == w.map ρ) = (v == w) := by
  cases v <;> cases w <;> first | rfl | exact Symbol.beq_apply ρ _ _

theorem contains_map (ρ : Symbol ↪ Symbol) (vs : List (Literal Symbol)) (v : Literal Symbol) :
    (vs.map (map ρ)).contains (v.map ρ) = vs.contains v := by
  rw [List.contains_eq_any_beq, List.contains_eq_any_beq, List.any_map]
  exact congrArg vs.any (funext fun w => beq_map ρ v w)

end Literal

/-! ## Restrictions -/

namespace Restriction

/-- Renames the permitted values. -/
def rename (ρ : Symbol → Symbol) (r : Restriction) : Restriction :=
  { r with allowed := r.allowed.map (List.map (Literal.map ρ)) }

section Map

variable (ρ : Symbol → Symbol)

@[simp] theorem ofValues_map (vs : List (Literal Symbol)) :
    ofValues (vs.map (Literal.map ρ)) = (ofValues vs).rename ρ := by
  simp [ofValues, rename]

theorem admitsKind_map (types : TypeSet) (range : Range) (v : Literal Symbol) :
    admitsKind types range (v.map ρ) = admitsKind types range v := by
  simp [admitsKind]

theorem normalize_rename (r : Restriction) : (r.rename ρ).normalize = r.normalize.rename ρ := by
  obtain ⟨types, allowed, range, single, sequence⟩ := r
  cases allowed with
  | none => rfl
  | some vs =>
    have hkept : ∀ ts : TypeSet, (vs.map (Literal.map ρ)).filter (admitsKind ts range) =
        (vs.filter (admitsKind ts range)).map (Literal.map ρ) := by
      intro ts
      rw [List.filter_map]
      simp [Function.comp_def, admitsKind_map]
    simp only [normalize, rename, Option.map_some, hkept, Literal.types_map]
    rfl

@[simp] theorem isUnmatchable_rename (r : Restriction) :
    (r.rename ρ).isUnmatchable = r.isUnmatchable := by
  obtain ⟨types, allowed, range, single, sequence⟩ := r
  cases allowed <;> simp [isUnmatchable, rename]

@[simp] theorem unmatchable?_rename (r : Option Restriction) :
    unmatchable? (r.map (rename ρ)) = unmatchable? r := by
  cases r <;> simp [unmatchable?]

end Map

variable (ρ : Symbol ↪ Symbol)

theorem commonValues_map (a b : Option (List (Literal Symbol))) :
    commonValues (a.map (List.map (Literal.map ρ))) (b.map (List.map (Literal.map ρ))) =
      (commonValues a b).map (List.map (Literal.map ρ)) := by
  cases a with
  | none => cases b <;> rfl
  | some vs =>
    cases b with
    | none => rfl
    | some ws =>
      simp only [Option.map_some, commonValues, List.filter_map, Function.comp_def, Literal.contains_map]

/-- A renaming that keeps symbols apart commutes with meets. -/
@[simp] theorem inter_rename (a b : Restriction) : a.rename ρ ∩ b.rename ρ = (a ∩ b).rename ρ := by
  -- The common values are found by comparing literals, which is where symbols must be kept apart.
  have hmeet : a.rename ρ ∩ b.rename ρ = normalize (rename ρ
      { types := a.types ∩ b.types
        allowed := commonValues a.allowed b.allowed
        range := a.range ∩ b.range
        single := a.single && b.single
        sequence := a.sequence && b.sequence }) := by
    simp only [rename, ← commonValues_map]
    rfl
  rw [hmeet, normalize_rename]
  rfl

@[simp] theorem inter?_rename (a b : Option Restriction) :
    inter? (a.map (rename ρ)) (b.map (rename ρ)) = (inter? a b).map (rename ρ) := by
  cases a <;> cases b <;> simp [inter?]

@[simp] theorem getD_any_rename (r : Option Restriction) :
    (r.map (rename ρ)).getD any = (r.getD any).rename ρ := by
  cases r <;> rfl

theorem foldl_inter_rename (rs : List Restriction) (r : Restriction) :
    (rs.map (rename ρ)).foldl (· ∩ ·) (r.rename ρ) = (rs.foldl (· ∩ ·) r).rename ρ := by
  rw [List.foldl_map]
  exact List.foldl_hom (rename ρ) fun a b => inter_rename ρ a b

@[simp] theorem interAll_rename (rs : List Restriction) :
    interAll (rs.map (rename ρ)) = (interAll rs).map (rename ρ) := by
  cases rs with
  | nil => rfl
  | cons r rs => exact congrArg some (foldl_inter_rename ρ rs r)

/-- A renamed literal violates of a renamed restriction what it did before. -/
@[simp] theorem check_rename (r : Restriction) (v : Literal Symbol) :
    (r.rename ρ).check (v.map ρ) = r.check v := by
  obtain ⟨types, allowed, range, single, sequence⟩ := r
  cases allowed with
  | none => simp [check, rename]
  | some vs => simp only [check, rename, Option.map_some, Option.all_some, Literal.contains_map,
      Literal.type_map, Literal.number?_map]

end Restriction

/-! ## Environments -/

/-- Renames the restrictions of the arguments. -/
def Signature.rename (ρ : Symbol → Symbol) (s : Signature) : Signature :=
  ⟨s.positional.map (Option.map (Restriction.rename ρ)), s.rest.map (Restriction.rename ρ)⟩

@[simp] theorem Signature.arg_rename (ρ : Symbol → Symbol) (s : Signature) (i : Nat) :
    (s.rename ρ).arg i = (s.arg i).map (Restriction.rename ρ) := by
  obtain ⟨positional, rest⟩ := s
  simp only [arg, rename, List.getElem?_map]
  cases positional[i]? <;> rfl

namespace Environment

/-- Renames the functions and the global variables; the names of symbols are then found in another
table. -/
def rename (ρ : Symbol → Symbol) (symbols : SymbolTable) (e : Environment) : Environment where
  symbols
  functions := e.functions.map fun (f, s) => (ρ f, s.rename ρ)
  globals := e.globals.map ρ

variable (ρ : Symbol ↪ Symbol) (symbols : SymbolTable) (e : Environment)

@[simp] theorem signature?_rename (f : Symbol) :
    (e.rename ρ symbols).signature? (ρ f) = (e.signature? f).map (Signature.rename ρ) := by
  obtain ⟨table, functions, globals⟩ := e
  simp only [signature?, rename]
  induction functions with
  | nil => rfl
  | cons entry functions ih =>
    obtain ⟨g, s⟩ := entry
    rw [List.map_cons, List.lookup_cons, List.lookup_cons, Symbol.beq_apply, ih]
    cases f == g <;> rfl

@[simp] theorem isGlobal_rename (x : Symbol) : (e.rename ρ symbols).isGlobal (ρ x) = e.isGlobal x := by
  simp [isGlobal, rename]

end Environment

/-- Renames the environment of a compilation. -/
def Context.rename (ρ : Symbol → Symbol) (symbols : SymbolTable) (c : Context) : Context :=
  { c with env := c.env.rename ρ symbols }

@[simp] theorem Context.env_rename (ρ : Symbol → Symbol) (symbols : SymbolTable) (c : Context) :
    (c.rename ρ symbols).env = c.env.rename ρ symbols := rfl

@[simp] theorem Context.options_rename (ρ : Symbol → Symbol) (symbols : SymbolTable) (c : Context) :
    (c.rename ρ symbols).options = c.options := rfl

/-! ## Tests -/

def Address.rename (ρ : Symbol → Symbol) : Address → Address
  | entity => entity
  | field index name segment => field index (name.map ρ) segment

def Fetch.rename (ρ : Symbol → Symbol) (f : Fetch) : Fetch := { f with address := f.address.rename ρ }

def Op.rename (ρ : Symbol → Symbol) : Op → Op
  | const v => const (v.map ρ)
  | call f => call (ρ f)
  | global x => global (ρ x)
  | and => and
  | or => or
  | not => not
  | eq => eq
  | neq => neq
  | get f => get (f.rename ρ)
  | testConstant f negated => testConstant (f.rename ρ) negated
  | compare kind left right negated => compare kind (left.rename ρ) (right.rename ρ) negated

namespace Test

mutual

/-- Renames the constants, functions, global variables and slots in a test. -/
def rename (ρ : Symbol → Symbol) : Test → Test
  | node op args => node (op.rename ρ) (renameAll ρ args)

def renameAll (ρ : Symbol → Symbol) : List Test → List Test
  | [] => []
  | t :: ts => rename ρ t :: renameAll ρ ts

end

variable (ρ : Symbol → Symbol)

theorem renameAll_eq_map (ts : List Test) : renameAll ρ ts = ts.map (rename ρ) := by
  induction ts with
  | nil => rfl
  | cons t ts ih => rw [renameAll, ih, List.map_cons]

theorem conjuncts_rename (t : Test) : (t.rename ρ).conjuncts = t.conjuncts.map (rename ρ) := by
  obtain ⟨op, args⟩ := t
  cases op <;> simp [rename, Op.rename, conjuncts, renameAll_eq_map]

@[simp] theorem conjoin_rename (a b : Option Test) :
    conjoin (a.map (rename ρ)) (b.map (rename ρ)) = (conjoin a b).map (rename ρ) := by
  cases a <;> cases b <;> simp [conjoin, conjuncts_rename, rename, Op.rename, renameAll_eq_map]

@[simp] theorem anyOf_map_rename (ts : List Test) :
    anyOf (ts.map (rename ρ)) = (anyOf ts).map (rename ρ) := by
  match ts with
  | [] => rfl
  | [t] => rfl
  | t :: u :: ts => simp [anyOf, rename, Op.rename, renameAll_eq_map]

@[simp] theorem negateIf_rename (negated : Bool) (t : Test) :
    negateIf negated (t.rename ρ) = (negateIf negated t).rename ρ := by
  cases negated <;> rfl

@[simp] theorem equality_rename (negated : Bool) (a b : Test) :
    equality negated (a.rename ρ) (b.rename ρ) = (equality negated a b).rename ρ := by
  cases negated <;> rfl

end Test

/-! ## Notes -/

def Site.rename (ρ : Symbol → Symbol) (s : Site) : Site := { s with name := s.name.map ρ }

def Place.rename (ρ : Symbol → Symbol) (p : Place) : Place := { p with site := p.site.rename ρ }

@[simp] theorem Place.site_rename (ρ : Symbol → Symbol) (p : Place) :
    (p.rename ρ).site = p.site.rename ρ := rfl

@[simp] theorem Place.beginDepth_rename (ρ : Symbol → Symbol) (p : Place) :
    (p.rename ρ).beginDepth = p.beginDepth := rfl

@[simp] theorem Place.pattern_rename (ρ : Symbol → Symbol) (p : Place) :
    (p.rename ρ).pattern = p.pattern := rfl

/-- Renames the slot of a binding occurrence. -/
def Origin.rename (ρ : Symbol → Symbol) (o : Origin) : Origin := { o with place := o.place.rename ρ }

def HashPair.rename (ρ : Symbol → Symbol) (h : HashPair) : HashPair :=
  ⟨h.left.rename ρ, h.right.rename ρ⟩

def ConstantLookup.rename (ρ : Symbol → Symbol) (l : ConstantLookup) : ConstantLookup :=
  ⟨l.selector.rename ρ, l.value.rename ρ⟩

namespace JoinOutput

def rename (ρ : Symbol → Symbol) (j : JoinOutput) : JoinOutput :=
  ⟨j.test.map (Test.rename ρ), j.hash.map (HashPair.rename ρ)⟩

@[simp] theorem rename_empty (ρ : Symbol → Symbol) : rename ρ {} = {} := rfl

@[simp] theorem append_rename (ρ : Symbol → Symbol) (a b : JoinOutput) :
    a.rename ρ ++ b.rename ρ = (a ++ b).rename ρ := by
  change JoinOutput.mk _ _ = JoinOutput.mk _ _
  simp [rename]

end JoinOutput

def Outputs.rename (ρ : Symbol → Symbol) (out : Outputs) : Outputs where
  candidate := out.candidate.map (Test.rename ρ)
  lookup := out.lookup.map (ConstantLookup.rename ρ)
  join := out.join.rename ρ
  deferred := out.deferred.rename ρ

/-- Renames what is known about a node. -/
def Note.rename (ρ : Symbol → Symbol) (n : Note) : Note where
  restriction := n.restriction.map (Restriction.rename ρ)
  origin := n.origin.map (Origin.rename ρ)
  out := n.out.rename ρ

@[simp] theorem Note.restriction_rename (ρ : Symbol → Symbol) (n : Note) :
    (n.rename ρ).restriction = n.restriction.map (Restriction.rename ρ) := rfl

@[simp] theorem Note.origin_rename (ρ : Symbol → Symbol) (n : Note) :
    (n.rename ρ).origin = n.origin.map (Origin.rename ρ) := rfl

/-! ## Left-hand sides -/

namespace Term

mutual

/-- Renames an expression and changes the notes of its variables. -/
def rename (ρ : Symbol → Symbol) (g : α → β) : Term Symbol α → Term Symbol β
  | call f args => call (ρ f) (renameAll ρ g args)
  | var x arity n => var (ρ x) arity (g n)
  | lit v => lit (v.map ρ)
  | global x => global (ρ x)

def renameAll (ρ : Symbol → Symbol) (g : α → β) : List (Term Symbol α) → List (Term Symbol β)
  | [] => []
  | t :: ts => rename ρ g t :: renameAll ρ g ts

end

variable (ρ : Symbol → Symbol) (g : α → β)

mutual

@[simp] theorem notes_rename (t : Term Symbol α) : (t.rename ρ g).notes = t.notes.map g := by
  cases t with
  | call f args => simpa [rename, notes] using notesAll_renameAll args
  | var x arity n => rfl
  | lit v => rfl
  | global x => rfl

theorem notesAll_renameAll (ts : List (Term Symbol α)) :
    notesAll (renameAll ρ g ts) = (notesAll ts).map g := by
  cases ts with
  | nil => rfl
  | cons t ts => simp [renameAll, notesAll, notes_rename t, notesAll_renameAll ts]

end

mutual

@[simp] theorem size_rename (t : Term Symbol α) : (t.rename ρ g).size = t.size := by
  cases t with
  | call f args => simpa [rename, size] using sizeAll_renameAll args
  | var x arity n => rfl
  | lit v => rfl
  | global x => rfl

theorem sizeAll_renameAll (ts : List (Term Symbol α)) : sizeAll (renameAll ρ g ts) = sizeAll ts := by
  cases ts with
  | nil => rfl
  | cons t ts => simp [renameAll, sizeAll, size_rename t, sizeAll_renameAll ts]

end

end Term

def Constraint.rename (ρ : Symbol → Symbol) (g : α → β) (k : Constraint Symbol α) :
    Constraint Symbol β where
  shape :=
    match k.shape with
    | .literal v => .literal (v.map ρ)
    | .var x arity n => .var (ρ x) arity (g n)
    | .predicate t => .predicate (t.rename ρ g)
    | .returnValue t => .returnValue (t.rename ρ g)
  negated := k.negated

def Alternative.rename (ρ : Symbol → Symbol) (g : α → β) (a : Alternative Symbol α) :
    Alternative Symbol β :=
  ⟨a.first.rename ρ g, a.rest.map (Constraint.rename ρ g)⟩

def Binder.rename (ρ : Symbol → Symbol) : Binder Symbol → Binder Symbol
  | var x arity => var (ρ x) arity
  | wildcard arity => wildcard arity

namespace Field

mutual

/-- Renames a field, also in its declared restriction, and changes the notes in it. -/
def rename (ρ : Symbol → Symbol) (g : α → β) : Field Symbol α → Field Symbol β
  | plain b as declared n =>
    plain (b.rename ρ) (as.map (Alternative.rename ρ g)) (declared.map (Restriction.rename ρ)) (g n)
  | multi ps as declared n =>
    multi (renameAll ρ g ps) (as.map (Alternative.rename ρ g)) (declared.map (Restriction.rename ρ))
      (g n)

def renameAll (ρ : Symbol → Symbol) (g : α → β) : List (Field Symbol α) → List (Field Symbol β)
  | [] => []
  | f :: fs => rename ρ g f :: renameAll ρ g fs

end

theorem renameAll_eq_map (ρ : Symbol → Symbol) (g : α → β) (fs : List (Field Symbol α)) :
    renameAll ρ g fs = fs.map (rename ρ g) := by
  induction fs with
  | nil => rfl
  | cons f fs ih => rw [renameAll, ih, List.map_cons]

end Field

def Slot.rename (ρ : Symbol → Symbol) (g : α → β) (s : Slot Symbol α) : Slot Symbol β :=
  ⟨s.name.map ρ, s.field.rename ρ g⟩

def Pattern.rename (ρ : Symbol → Symbol) (g : α → β) (p : Pattern Symbol α) : Pattern Symbol β :=
  ⟨p.kind, p.handle.map ρ, p.slots.map (Slot.rename ρ g)⟩

def Element.rename (ρ : Symbol → Symbol) (g : α → β) : Element Symbol α → Element Symbol β
  | pattern mode p => pattern mode (p.rename ρ g)
  | test t => test (t.rename ρ g)

def Condition.rename (ρ : Symbol → Symbol) (g : α → β) (k : Condition Symbol α) : Condition Symbol β :=
  ⟨k.element.rename ρ g, k.beginDepth, k.endDepth, g k.note⟩

/-- Renames a left-hand side and changes its notes. -/
def Lhs.rename (ρ : Symbol → Symbol) (g : α → β) (l : Lhs Symbol α) : Lhs Symbol β :=
  l.map (Condition.rename ρ g)

theorem Lhs.rename_cons (ρ : Symbol → Symbol) (g : α → β) (k : Condition Symbol α) (ks : Lhs Symbol α) :
    Lhs.rename ρ g (k :: ks) = k.rename ρ g :: Lhs.rename ρ g ks := rfl

section Syntax

variable (ρ : Symbol → Symbol) (g : α → β)

@[simp] theorem Constraint.size_rename (k : Constraint Symbol α) : (k.rename ρ g).size = k.size := by
  obtain ⟨shape, negated⟩ := k
  cases shape <;> simp [rename, size]

theorem Alternative.constraints_rename (a : Alternative Symbol α) :
    (a.rename ρ g).constraints = a.constraints.map (Constraint.rename ρ g) := rfl

@[simp] theorem Alternative.size_rename (a : Alternative Symbol α) : (a.rename ρ g).size = a.size := by
  simp [size, constraints_rename]

namespace Field

@[simp] theorem arity_rename (f : Field Symbol α) : (f.rename ρ g).arity = f.arity := by
  cases f with
  | plain b as declared n => cases b <;> rfl
  | multi ps as declared n => rfl

@[simp] theorem binds?_rename (f : Field Symbol α) :
    (f.rename ρ g).binds? = f.binds?.map fun b => (ρ b.1, b.2) := by
  cases f with
  | plain b as declared n => cases b <;> rfl
  | multi ps as declared n => rfl

@[simp] theorem declared_rename (f : Field Symbol α) :
    (f.rename ρ g).declared = f.declared.map (Restriction.rename ρ) := by
  cases f <;> rfl

@[simp] theorem note_rename (f : Field Symbol α) : (f.rename ρ g).note = g f.note := by
  cases f <;> rfl

@[simp] theorem withNote_rename (n : α) (f : Field Symbol α) :
    (f.rename ρ g).withNote (g n) = (f.withNote n).rename ρ g := by
  cases f <;> rfl

mutual

@[simp] theorem size_rename (f : Field Symbol α) : (f.rename ρ g).size = f.size := by
  cases f with
  | plain b as declared n => simp [rename, size]
  | multi ps as declared n => simpa [rename, size] using sizeAll_renameAll ps

theorem sizeAll_renameAll (fs : List (Field Symbol α)) : sizeAll (renameAll ρ g fs) = sizeAll fs := by
  cases fs with
  | nil => rfl
  | cons f fs => simp [renameAll, sizeAll, size_rename f, sizeAll_renameAll fs]

end

end Field

namespace Condition

@[simp] theorem beginDepth_rename (k : Condition Symbol α) :
    (k.rename ρ g).beginDepth = k.beginDepth := rfl

@[simp] theorem endDepth_rename (k : Condition Symbol α) : (k.rename ρ g).endDepth = k.endDepth := rfl

@[simp] theorem mode_rename (k : Condition Symbol α) : (k.rename ρ g).mode = k.mode := by
  obtain ⟨element, beginDepth, endDepth, n⟩ := k
  cases element <;> rfl

@[simp] theorem joinsAfter_rename (joins : Nat) (k : Condition Symbol α) :
    (k.rename ρ g).joinsAfter joins = k.joinsAfter joins := by
  obtain ⟨element, beginDepth, endDepth, n⟩ := k
  cases element <;> rfl

@[simp] theorem size_rename (k : Condition Symbol α) : (k.rename ρ g).size = k.size := by
  obtain ⟨element, beginDepth, endDepth, n⟩ := k
  cases element <;> simp [rename, Element.rename, Pattern.rename, Slot.rename, size]

end Condition

end Syntax

end Antecedent
