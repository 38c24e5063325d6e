import Antecedent.Lhs.Node
import Antecedent.Proofs.Stages
import Antecedent.Proofs.Visits

/-!
# Meaning of tests and of conditions

Two readings of a compiled left-hand side under one interpretation, which gives an entity to every
join depth, values to the addresses of entities, and values to constants, functions and globals.

* `Test.eval` is the value of a test at a join depth: the candidate and the joining entity are the
  one of that depth, and a matched or nested entity is the one of the depth it is fetched from.
  `Lhs.TestsHold` says that all tests in the notes of a left-hand side are true.
* `FieldAt.Means` and `ConditionAt.Means` say directly what a field and a condition demand, with
  every variable read at its binding occurrence. `Lhs.Means` says that all conditions are met.
* `Test.eval_congr` says that the value of a test depends on what it fetches only.
-/

namespace Antecedent

variable {α β : Type}

/-! ## Interpretations -/

/-- An entity for every join depth, and the values of addresses, constants, functions and globals.
Truth values are among the values. -/
structure Interpretation (E V : Type) where
  entity : Nat → E
  value : E → Address → V
  constant : Literal Symbol → V
  call : Symbol → List V → V
  global : Symbol → V
  ofBool : Bool → V
  isTrue : V → Bool
  isTrue_ofBool : ∀ b, isTrue (ofBool b) = b

/-- The join depth of the entity that a test at depth `d` reads. -/
def Side.depth (d : Nat) : Side → Nat
  | .candidate | .joining => d
  | .matched k | .nested k => k

variable {E V : Type} (I : Interpretation E V)

/-- What a fetch yields in a test at depth `d`. -/
def Interpretation.read (d : Nat) (f : Fetch) : V := I.value (I.entity (f.side.depth d)) f.address

/-- The value of a site: that of its address in the entity of its join depth. -/
def Site.value (s : Site) : V := I.value (I.entity s.joinDepth) (s.address s.kind)

/-- The value of a binding occurrence. -/
def Origin.value (o : Origin) : V := o.place.site.value I

/-- The value of a variable, read at its binding occurrence. -/
def Note.value? (n : Note) : Option V := n.origin.map (Origin.value I)

theorem Site.read_fetch {d : Nat} {s : Site} {side : Side} (h : side.depth d = s.joinDepth) :
    I.read d (s.fetch side) = s.value I := by
  simp only [Interpretation.read, fetch, fetchAs, value, h]

namespace Term

mutual

/-- The value of an expression, if its variables have values. -/
def value? (read : α → Option V) : Term Symbol α → Option V
  | call f args => (valueAll? read args).map (I.call f)
  | var _ _ n => read n
  | lit v => some (I.constant v)
  | global x => some (I.global x)

def valueAll? (read : α → Option V) : List (Term Symbol α) → Option (List V)
  | [] => some []
  | t :: ts => (value? read t).bind fun v => (valueAll? read ts).map (v :: ·)

end

mutual

theorem value?_mapNotes (g : α → β) (read : β → Option V) (t : Term Symbol α) :
    (t.mapNotes g).value? I read = t.value? I fun n => read (g n) := by
  cases t with
  | call f args => rw [mapNotes, value?, value?, valueAll?_mapNotesAll g read args]
  | var x arity n => rfl
  | lit v => rfl
  | global x => rfl

theorem valueAll?_mapNotesAll (g : α → β) (read : β → Option V) (ts : List (Term Symbol α)) :
    valueAll? I read (mapNotesAll g ts) = valueAll? I (fun n => read (g n)) ts := by
  cases ts with
  | nil => rfl
  | cons t ts =>
    rw [mapNotesAll, valueAll?, valueAll?, value?_mapNotes g read t, valueAll?_mapNotesAll g read ts]

end

/-- An expression has the value of the bound expression. -/
theorem value?_of_bind {c : Context} {spot : Spot} {t : Term Symbol Note}
    {u : Term Symbol Origin} (h : t.bind c spot = .ok u) :
    t.value? I (Note.value? I) = u.value? I fun o => some (o.value I) := by
  calc t.value? I (Note.value? I)
    _ = (t.mapNotes Note.origin).value? I (Option.map (Origin.value I)) :=
      (value?_mapNotes I Note.origin _ t).symm
    _ = (u.mapNotes some).value? I (Option.map (Origin.value I)) := by rw [mapNotes_of_bind h]
    _ = u.value? I fun o => some (o.value I) := value?_mapNotes I some _ u

end Term

variable [DecidableEq V]

/-- The value of an operator for given values of its arguments, in a test at depth `d`. -/
def Interpretation.operate (d : Nat) : Op → List V → V
  | .const v, _ => I.constant v
  | .call f, vs => I.call f vs
  | .global x, _ => I.global x
  | .and, vs => I.ofBool (vs.all I.isTrue)
  | .or, vs => I.ofBool (vs.any I.isTrue)
  | .not, vs => I.ofBool (vs.all fun v => !I.isTrue v)
  | .eq, vs => I.ofBool (vs.tail.all fun v => vs.head? = some v)
  | .neq, vs => I.ofBool (vs.tail.all fun v => vs.head? ≠ some v)
  | .get f, _ => I.read d f
  | .testConstant f negated, vs => I.ofBool (vs.all fun v => decide (I.read d f = v) = !negated)
  | .compare _ left right negated, _ =>
    I.ofBool (decide (I.read d left = I.read d right) = !negated)

/-! ## Values of tests -/

namespace Test

mutual

/-- The value of a test at depth `d`. -/
def eval (d : Nat) : Test → V
  | node op args => I.operate d op (evalAll d args)

def evalAll (d : Nat) : List Test → List V
  | [] => []
  | t :: ts => eval d t :: evalAll d ts

end

theorem evalAll_eq_map (d : Nat) (ts : List Test) : evalAll I d ts = ts.map (eval I d) := by
  induction ts with
  | nil => rfl
  | cons t ts ih => rw [evalAll, ih, List.map_cons]

theorem eval_node (d : Nat) (op : Op) (args : List Test) :
    (node op args).eval I d = I.operate d op (args.map (eval I d)) := by
  rw [eval, evalAll_eq_map]

/-- The test is true at depth `d`. -/
def Holds (d : Nat) (t : Test) : Prop := I.isTrue (t.eval I d) = true

/-- The test is true at depth `d`, or absent. -/
def Satisfied (d : Nat) (t : Option Test) : Prop := ∀ s ∈ t, s.Holds I d

instance (d : Nat) (t : Test) : Decidable (t.Holds I d) :=
  inferInstanceAs (Decidable (_ = true))

instance (d : Nat) (t : Option Test) : Decidable (Satisfied I d t) :=
  inferInstanceAs (Decidable (∀ s ∈ t, s.Holds I d))

variable {I} {d : Nat}

@[simp] theorem satisfied_none : Satisfied I d none := by
  intro t ht
  cases ht

@[simp] theorem satisfied_some {t : Test} : Satisfied I d (some t) ↔ t.Holds I d := by
  simp [Satisfied]

theorem holds_and {args : List Test} : (node .and args).Holds I d ↔ ∀ t ∈ args, t.Holds I d := by
  rw [Holds, eval_node, Interpretation.operate, I.isTrue_ofBool, List.all_eq_true]
  exact List.forall_mem_map

theorem holds_or {args : List Test} : (node .or args).Holds I d ↔ ∃ t ∈ args, t.Holds I d := by
  rw [Holds, eval_node, Interpretation.operate, I.isTrue_ofBool, List.any_eq_true]
  simp only [List.mem_map, exists_exists_and_eq_and]
  rfl

theorem forall_holds_conjuncts {t : Test} : (∀ s ∈ t.conjuncts, s.Holds I d) ↔ t.Holds I d := by
  obtain ⟨op, args⟩ := t
  cases op <;> simp [conjuncts, holds_and]

@[simp] theorem satisfied_conjoin {a b : Option Test} :
    Satisfied I d (conjoin a b) ↔ Satisfied I d a ∧ Satisfied I d b := by
  cases a with
  | none => simp
  | some a =>
    cases b with
    | none => simp
    | some b =>
      rw [conjoin, satisfied_some, holds_and, List.forall_mem_append, forall_holds_conjuncts,
        forall_holds_conjuncts, satisfied_some, satisfied_some]

theorem satisfied_anyOf {ts : List Test} (h : ts ≠ []) :
    Satisfied I d (anyOf ts) ↔ ∃ t ∈ ts, t.Holds I d := by
  match ts with
  | [] => exact absurd rfl h
  | [t] => simp [anyOf]
  | t :: t' :: ts => exact satisfied_some.trans holds_or

@[simp] theorem eval_get (f : Fetch) : (get f).eval I d = I.read d f := rfl

@[simp] theorem eval_const (v : Literal Symbol) : (const v).eval I d = I.constant v := rfl

theorem holds_negateIf {negated : Bool} {t : Test} :
    (negateIf negated t).Holds I d ↔ I.isTrue (t.eval I d) = !negated := by
  cases negated with
  | false => rfl
  | true => simp [negateIf, not, Holds, eval_node, Interpretation.operate, I.isTrue_ofBool]

theorem holds_equality {negated : Bool} {a b : Test} :
    (equality negated a b).Holds I d ↔ decide (a.eval I d = b.eval I d) = !negated := by
  cases negated <;>
    simp [equality, Holds, eval_node, Interpretation.operate, I.isTrue_ofBool]

mutual

/-- The value of a test depends on what it fetches only. -/
theorem eval_congr {d d' : Nat} (t : Test) (h : ∀ f ∈ t.fetches, I.read d f = I.read d' f) :
    t.eval I d = t.eval I d' := by
  obtain ⟨op, args⟩ := t
  rw [fetches_node, List.forall_mem_append] at h
  obtain ⟨hop, hargs⟩ := h
  rw [eval, eval, evalAll_congr args hargs]
  cases op <;> simp_all [Interpretation.operate, opFetches]

theorem evalAll_congr {d d' : Nat} (ts : List Test)
    (h : ∀ f ∈ ts.flatMap fetches, I.read d f = I.read d' f) :
    evalAll I d ts = evalAll I d' ts := by
  cases ts with
  | nil => rfl
  | cons t ts =>
    rw [List.flatMap_cons, List.forall_mem_append] at h
    rw [evalAll, evalAll, eval_congr t h.1, evalAll_congr ts h.2]

end

end Test

/-! ## Tests of a site -/

namespace Site

variable {I} {d : Nat}

theorem holds_constantTest {s : Site} {negated : Bool} {v : Literal Symbol} {side : Side} :
    (s.constantTest negated v side).Holds I d ↔
      decide (I.read d (s.fetch side) = I.constant v) = !negated := by
  cases hk : s.kind with
  | object =>
    have heq : s.constantTest negated v side = .equality negated (.get (s.fetch side)) (.const v) := by
      simp [constantTest, EntityKind.constantTest?, hk]
    rw [heq]
    exact Test.holds_equality
  | fact =>
    by_cases hs : s.segment.any Segment.sequence
    · have heq : s.constantTest negated v side =
          .equality negated (.get (s.fetch side)) (.const v) := by
        simp [constantTest, EntityKind.constantTest?, hk, hs]
      rw [heq]
      exact Test.holds_equality
    · simp [constantTest, EntityKind.constantTest?, hk, hs, Test.Holds, Test.eval_node,
        Interpretation.operate, I.isTrue_ofBool, fetchAs_eq_fetch hk]

theorem holds_compareCandidate {s origin : Site} (h : origin.kind = s.kind) {negated : Bool} :
    (s.kind.compareCandidate s negated origin).Holds I d ↔
      decide (I.read d (s.fetch .candidate) = I.read d (origin.fetch .candidate)) = !negated := by
  simp [EntityKind.compareCandidate, Test.leaf, Test.Holds, Test.eval_node, Interpretation.operate,
    I.isTrue_ofBool, fetchAs_eq_fetch h, fetchAs_eq_fetch rfl]

theorem holds_compareJoin {s origin : Site} {negated : Bool} {role originRole : Role} :
    (s.compareJoin negated origin role originRole).Holds I d ↔
      decide (I.read d (s.fetch (s.side role)) =
        I.read d (origin.fetch (origin.side originRole))) = !negated := by
  by_cases h : s.kind = origin.kind
  · simp [compareJoin, h, EntityKind.compareJoin, Test.leaf, Test.Holds, Test.eval_node,
      Interpretation.operate, I.isTrue_ofBool, fetchAs_eq_fetch h, fetchAs_eq_fetch rfl]
  · rw [compareJoin, if_neg h]
    exact Test.holds_equality

end Site

/-! ## What constraints mean -/

namespace Term

variable {I} {d : Nat} {read : Origin → Test}

mutual

/-- A test that reads variables right computes the value of the expression. -/
theorem value?_eq_eval_test (t : Term Symbol Origin)
    (h : ∀ o ∈ t.notes, (read o).eval I d = o.value I) :
    t.value? I (fun o => some (o.value I)) = some ((t.test read).eval I d) := by
  cases t with
  | call f args =>
    rw [value?, valueAll?_eq_evalAll_testAll args h]
    rfl
  | var x arity o => rw [value?, test, h o List.mem_cons_self]
  | lit v => rfl
  | global x => rfl

theorem valueAll?_eq_evalAll_testAll (ts : List (Term Symbol Origin))
    (h : ∀ o ∈ notesAll ts, (read o).eval I d = o.value I) :
    valueAll? I (fun o => some (o.value I)) ts = some (Test.evalAll I d (testAll read ts)) := by
  cases ts with
  | nil => rfl
  | cons t ts =>
    rw [notesAll, List.forall_mem_append] at h
    rw [valueAll?, value?_eq_eval_test t h.1, valueAll?_eq_evalAll_testAll ts h.2]
    rfl

end

end Term

namespace Constraint

/-- Whether what a constraint says of the value `w` is true, before negation. -/
def truth? (read : α → Option V) (w : V) (k : Constraint Symbol α) : Option Bool :=
  match k.shape with
  | .literal v => some (w = I.constant v)
  | .var _ _ n => (read n).map fun v => w = v
  | .predicate t => (t.value? I read).map I.isTrue
  | .returnValue t => (t.value? I read).map fun v => w = v

/-- A constraint holds of the value `w`. -/
def Holds (read : α → Option V) (w : V) (k : Constraint Symbol α) : Prop :=
  k.truth? I read w = some !k.negated

instance (read : α → Option V) (w : V) (k : Constraint Symbol α) : Decidable (k.Holds I read w) :=
  inferInstanceAs (Decidable (_ = _))

theorem holds_mapNotes {g : α → β} {read : β → Option V} {w : V} {k : Constraint Symbol α} :
    (k.mapNotes g).Holds I read w ↔ k.Holds I (fun n => read (g n)) w := by
  obtain ⟨shape, negated⟩ := k
  cases shape <;> simp [Holds, truth?, mapNotes, Term.value?_mapNotes]

end Constraint

/-! ## What conditions mean, and when their tests hold -/

/-- A field demands that its variable, if it is bound before, has the value of the binding occurrence,
and that all conjuncts of one of its alternatives hold, if it has any. -/
def FieldAt.Means (x : FieldAt Note) : Prop :=
  match x.field with
  | .plain b as _ n =>
    (∀ y arity, b = .var y arity → ∀ o, n.origin = some o → x.place.site.value I = o.value I) ∧
      (as ≠ [] → ∃ a ∈ as, ∀ k ∈ a.constraints, k.Holds I (Note.value? I) (x.place.site.value I))
  | .multi _ _ _ _ => True

/-- A pattern demands what its fields do; a test demands that its expression has a true value. -/
def ConditionAt.Means (y : ConditionAt Note) : Prop :=
  (∀ x ∈ y.fields, x.Means I) ∧
    ∀ t, y.condition.element = .test t → ∃ v, t.value? I (Note.value? I) = some v ∧ I.isTrue v = true

/-- All conditions are met. -/
def Lhs.Means (r : Lhs Symbol Note) : Prop := ∀ y ∈ r.conditionsAt, y.Means I

/-- The tests of a node are true at depth `d`. -/
structure Outputs.Hold (d : Nat) (out : Outputs) : Prop where
  candidate : Test.Satisfied I d out.candidate
  join : Test.Satisfied I d out.join.test
  deferred : Test.Satisfied I d out.deferred.test

instance (d : Nat) (out : Outputs) : Decidable (out.Hold I d) :=
  decidable_of_iff (Test.Satisfied I d out.candidate ∧ Test.Satisfied I d out.join.test ∧
      Test.Satisfied I d out.deferred.test)
    ⟨fun ⟨h₁, h₂, h₃⟩ => ⟨h₁, h₂, h₃⟩, fun ⟨h₁, h₂, h₃⟩ => ⟨h₁, h₂, h₃⟩⟩

theorem Outputs.hold_empty {d : Nat} : ({} : Outputs).Hold I d :=
  ⟨Test.satisfied_none, Test.satisfied_none, Test.satisfied_none⟩

/-- All tests in the notes of a left-hand side are true, each at the depth of its condition. -/
def Lhs.TestsHold (r : Lhs Symbol Note) : Prop :=
  ∀ n ∈ r.nodes, n.note.out.Hold I n.position.joinDepth

instance (r : Lhs Symbol Note) : Decidable (r.TestsHold I) :=
  inferInstanceAs (Decidable (∀ n ∈ r.nodes, n.note.out.Hold I n.position.joinDepth))

end Antecedent
