import Antecedent.Proofs.Faults

/-!
# Mentions of variables

A variable is mentioned in a constraint or in an expression; a field that binds it does not mention it.
A mention is grounded if some binding occurrence of its name is visible from it. A global variable can
only be mentioned in an expression, and is grounded if it is defined.

* `Lhs.mentions` lists the mentions of a left-hand side, with the condition and the field that they
  stand in.
* `Lhs.grounded_of_compile` says that everything mentioned in a left-hand side that compiles is
  grounded.
* `Fault.inReading` says which faults are found where something is mentioned, and
  `Conjunct.inReading_of_bindAll` that binding reports no others.
* `Lhs.exists_ungrounded_of_compile` says that a compilation which stops at an unbound variable blames
  a mention that is not.
-/

namespace Antecedent

variable {α : Type}

/-! ## What is mentioned -/

/-- A variable or a global variable. -/
inductive Subject where
  | var (name : Symbol)
  | global (name : Symbol)
  deriving DecidableEq, Repr

namespace Subject

/-- The name by which a diagnostic blames it. -/
def text (e : Environment) : Subject → String
  | var x => e.name x
  | global x => "*" ++ e.name x ++ "*"

/-- A variable is bound in a scope, or a global variable is defined. -/
def Defined (c : Context) (σ : Scope) : Subject → Prop
  | var x => σ.origins x ≠ []
  | global x => c.env.isGlobal x = true

end Subject

namespace Term

mutual

/-- What an expression mentions, from left to right. -/
def subjects : Term Symbol α → List Subject
  | call _ args => subjectsAll args
  | var x _ _ => [.var x]
  | lit _ => []
  | global x => [.global x]

def subjectsAll : List (Term Symbol α) → List Subject
  | [] => []
  | t :: ts => subjects t ++ subjectsAll ts

end

end Term

def Constraint.subjects (k : Constraint Symbol α) : List Subject :=
  match k.shape with
  | .literal _ => []
  | .var x _ _ => [.var x]
  | .predicate t | .returnValue t => t.subjects

/-- What the alternatives of a plain field mention. -/
def FieldAt.subjects (x : FieldAt α) : List Subject :=
  match x.field with
  | .plain _ as _ _ => as.flatMap fun a => a.constraints.flatMap Constraint.subjects
  | .multi _ _ _ _ => []

/-- A mention and where it stands. -/
structure Mention where
  subject : Subject
  /-- The condition, counted from one. -/
  pattern : Nat
  /-- The field, counted from one; zero in a test. -/
  field : Nat
  /-- The number of the node of that field, or of the test. -/
  id : Nat
  deriving DecidableEq, Repr

/-- The mentions in a field. -/
def FieldAt.mentions (x : FieldAt α) : List Mention :=
  x.subjects.map fun s => ⟨s, x.place.pattern, x.place.site.index, x.id⟩

/-- The mentions in a condition. -/
def ConditionAt.mentions (y : ConditionAt α) : List Mention :=
  match y.condition.element with
  | .pattern _ _ => y.fields.flatMap FieldAt.mentions
  | .test t => t.subjects.map fun s => ⟨s, y.pattern, 0, y.id⟩

/-- The mentions in a left-hand side. -/
def Lhs.mentions (l : Lhs Symbol α) : List Mention := l.conditionsAt.flatMap ConditionAt.mentions

/-- A diagnostic stands where a mention does and blames it. -/
structure Diagnostic.Blames (c : Context) (d : Diagnostic) (m : Mention) : Prop where
  pattern_eq : d.location.pattern = m.pattern
  field_eq : d.location.field = if 0 < m.field then some m.field else none
  blamed_eq : d.location.blamed = some (m.subject.text c.env)

/-- A binding occurrence of the name is visible from behind the node that the mention stands in, or the
global variable is defined. -/
def Mention.Grounded (c : Context) (l : Lhs Symbol α) (m : Mention) : Prop :=
  match m.subject with
  | .var x => l.visible m.pattern (m.id + 1) x ≠ []
  | .global x => c.env.isGlobal x = true

theorem Mention.grounded_iff_defined {c : Context} {l : Lhs Symbol α} {m : Mention} {σ : Scope}
    (h : ∀ x, σ.origins x = l.visible m.pattern (m.id + 1) x) :
    m.Grounded c l ↔ m.subject.Defined c σ := by
  obtain ⟨s, pattern, field, id⟩ := m
  cases s with
  | var x => simp [Grounded, Subject.Defined, h]
  | global x => rfl

/-! ## Binding what is mentioned -/

theorem Scope.origin?_eq_none_iff {σ : Scope} {v : Viewpoint} {x : Symbol} :
    σ.origin? v x = none ↔ σ.origins x = [] := by
  rw [origin?, Viewpoint.foldl_choose, Option.or_eq_none_iff, List.head?_eq_none_iff]
  refine ⟨And.right, fun h => ⟨?_, h⟩⟩
  rw [h]
  rfl

namespace Term

mutual

/-- If an expression can be bound, then all that it mentions is defined. -/
theorem defined_of_bindAt {c : Context} {spot : Spot} {enclosing : Option Symbol} {depth : Nat}
    {σ : Scope} {v : Viewpoint} {t : Term Symbol α} {u : Term Symbol Origin}
    (h : (t.resolve σ v).bindAt c spot enclosing depth = .ok u) :
    ∀ s ∈ t.subjects, s.Defined c σ := by
  cases t with
  | call f args =>
    rw [resolve, bindAt] at h
    obtain ⟨-, -, h⟩ := bind_eq_ok.1 h
    obtain ⟨us, hus, -⟩ := bind_eq_ok.1 h
    exact defined_of_bindAllAt hus
  | var x arity n =>
    rw [resolve, bindAt] at h
    obtain ⟨-, -, h⟩ := bind_eq_ok.1 h
    obtain ⟨o, ho, -⟩ := bind_eq_ok.1 h
    intro s hs
    obtain rfl := List.mem_singleton.1 hs
    intro hnone
    rw [Note.bindReference, Scope.note, Scope.origin?_eq_none_iff.2 hnone] at ho
    cases ho
  | lit value =>
    intro s hs
    cases hs
  | global x =>
    rw [resolve, bindAt] at h
    obtain ⟨-, -, h⟩ := bind_eq_ok.1 h
    obtain ⟨⟨⟩, hx, -⟩ := bind_eq_ok.1 h
    intro s hs
    obtain rfl := List.mem_singleton.1 hs
    unfold Context.checkGlobal at hx
    split at hx
    · next hglobal => exact hglobal
    · cases hx

theorem defined_of_bindAllAt {c : Context} {spot : Spot} {enclosing : Option Symbol} {depth : Nat}
    {σ : Scope} {v : Viewpoint} {ts : List (Term Symbol α)} {us : List (Term Symbol Origin)}
    (h : bindAllAt c spot enclosing depth (resolveAll σ v ts) = .ok us) :
    ∀ s ∈ subjectsAll ts, s.Defined c σ := by
  cases ts with
  | nil =>
    intro s hs
    cases hs
  | cons t ts =>
    rw [resolveAll, bindAllAt] at h
    obtain ⟨u, hu, h⟩ := bind_eq_ok.1 h
    obtain ⟨us', hus, -⟩ := bind_eq_ok.1 h
    exact List.forall_mem_append.2 ⟨defined_of_bindAt hu, defined_of_bindAllAt hus⟩

end

theorem fault_of_checkDepth {c : Context} {spot : Spot} {enclosing : Option Symbol} {depth : Nat}
    {d : Diagnostic} (h : c.checkDepth spot enclosing depth = .error d) :
    d.fault = .nestingTooDeep := by
  unfold Context.checkDepth at h
  split at h
  · obtain rfl := Except.error.inj h
    rfl
  · cases h

mutual

/-- If binding an expression stops at an unbound variable, then what it blames is not defined. -/
theorem exists_undefined_of_bindAt {c : Context} {spot : Spot} {enclosing : Option Symbol}
    {depth : Nat} {σ : Scope} {v : Viewpoint} {t : Term Symbol α} {d : Diagnostic}
    (h : (t.resolve σ v).bindAt c spot enclosing depth = .error d)
    (hfault : d.fault = .unboundVariable) :
    ∃ s ∈ t.subjects, ¬ s.Defined c σ ∧ ∃ function,
      d = c.report .unboundVariable spot (some (s.text c.env)) function := by
  -- an expression that is nested too deep is another fault
  have hdepth : c.checkDepth spot enclosing depth ≠ .error d := by
    intro hd
    rw [fault_of_checkDepth hd] at hfault
    cases hfault
  cases t with
  | call f args =>
    rw [resolve, bindAt] at h
    obtain ⟨-, -, h⟩ := (bind_eq_error.1 h).resolve_left hdepth
    rcases bind_eq_error.1 h with h | ⟨us, -, h⟩
    · exact exists_undefined_of_bindAllAt h hfault
    · exact absurd h pure_ne_error
  | var x arity n =>
    rw [resolve, bindAt] at h
    obtain ⟨-, -, h⟩ := (bind_eq_error.1 h).resolve_left hdepth
    rcases bind_eq_error.1 h with h | ⟨o, -, h⟩
    · rw [Note.bindReference] at h
      split at h
      · next hnone =>
        refine ⟨.var x, List.mem_cons_self, fun hdefined => ?_, enclosing, (Except.error.inj h).symm⟩
        exact hdefined (Scope.origin?_eq_none_iff.1 hnone)
      · split at h
        · obtain rfl := Except.error.inj h
          cases hfault
        · cases h
    · exact absurd h pure_ne_error
  | lit value =>
    rw [resolve, bindAt] at h
    obtain ⟨-, -, h⟩ := (bind_eq_error.1 h).resolve_left hdepth
    exact absurd h pure_ne_error
  | global x =>
    rw [resolve, bindAt] at h
    obtain ⟨-, -, h⟩ := (bind_eq_error.1 h).resolve_left hdepth
    rcases bind_eq_error.1 h with h | ⟨-, -, h⟩
    · rw [Context.checkGlobal] at h
      split at h
      · cases h
      · next hnot =>
        exact ⟨.global x, List.mem_cons_self, hnot, enclosing, (Except.error.inj h).symm⟩
    · exact absurd h pure_ne_error

theorem exists_undefined_of_bindAllAt {c : Context} {spot : Spot} {enclosing : Option Symbol}
    {depth : Nat} {σ : Scope} {v : Viewpoint} {ts : List (Term Symbol α)} {d : Diagnostic}
    (h : bindAllAt c spot enclosing depth (resolveAll σ v ts) = .error d)
    (hfault : d.fault = .unboundVariable) :
    ∃ s ∈ subjectsAll ts, ¬ s.Defined c σ ∧ ∃ function,
      d = c.report .unboundVariable spot (some (s.text c.env)) function := by
  cases ts with
  | nil => exact absurd h pure_ne_error
  | cons t ts =>
    rw [resolveAll, bindAllAt] at h
    rcases bind_eq_error.1 h with h | ⟨u, -, h⟩
    · obtain ⟨s, hs, hblamed⟩ := exists_undefined_of_bindAt h hfault
      exact ⟨s, List.mem_append_left _ hs, hblamed⟩
    rcases bind_eq_error.1 h with h | ⟨us, -, h⟩
    · obtain ⟨s, hs, hblamed⟩ := exists_undefined_of_bindAllAt h hfault
      exact ⟨s, List.mem_append_right _ hs, hblamed⟩
    · exact absurd h pure_ne_error

end

end Term

namespace Constraint

theorem defined_of_bind {c : Context} {spot : Spot} {field : Restriction} {σ : Scope} {v : Viewpoint}
    {k : Constraint Symbol α} {k' : Constraint Symbol Origin}
    (h : (k.resolve σ v).bind c spot field = .ok k') : ∀ s ∈ k.subjects, s.Defined c σ := by
  obtain ⟨shape, negated⟩ := k
  cases shape with
  | literal value =>
    intro s hs
    cases hs
  | var x arity n =>
    intro s hs
    obtain rfl := List.mem_singleton.1 hs
    intro hnone
    simp only [bind, resolve, Scope.note, Scope.origin?_eq_none_iff.2 hnone] at h
    cases h
  | predicate t =>
    obtain ⟨u, hu, -⟩ := bind_eq_ok.1 h
    exact Term.defined_of_bindAt hu
  | returnValue t =>
    obtain ⟨u, hu, -⟩ := bind_eq_ok.1 h
    exact Term.defined_of_bindAt hu

theorem exists_undefined_of_bind {c : Context} {spot : Spot} {field : Restriction} {σ : Scope}
    {v : Viewpoint} {k : Constraint Symbol α} {d : Diagnostic}
    (h : (k.resolve σ v).bind c spot field = .error d) (hfault : d.fault = .unboundVariable) :
    ∃ s ∈ k.subjects, ¬ s.Defined c σ ∧ ∃ function,
      d = c.report .unboundVariable spot (some (s.text c.env)) function := by
  obtain ⟨shape, negated⟩ := k
  cases shape with
  | literal value =>
    simp only [bind, resolve] at h
    split at h
    · obtain rfl := Except.error.inj h
      cases hfault
    · exact absurd h pure_ne_error
  | var x arity n =>
    simp only [bind, resolve] at h
    split at h
    · next hnone =>
      refine ⟨.var x, List.mem_cons_self, fun hdefined => ?_, none, (Except.error.inj h).symm⟩
      exact hdefined (Scope.origin?_eq_none_iff.1 hnone)
    · exact absurd h pure_ne_error
  | predicate t =>
    rcases bind_eq_error.1 h with h | ⟨u, -, h⟩
    · exact Term.exists_undefined_of_bindAt h hfault
    · exact absurd h pure_ne_error
  | returnValue t =>
    rcases bind_eq_error.1 h with h | ⟨u, -, h⟩
    · exact Term.exists_undefined_of_bindAt h hfault
    · exact absurd h pure_ne_error

end Constraint

namespace FieldAt

/-- The conjuncts of a plain field come from the constraints of its alternatives, which see the field's
own binding. -/
theorem alternatives_eq_of_plain {σ : Scope} {x : FieldAt α} {b : Binder Symbol}
    {as : List (Alternative Symbol α)} {declared : Option Restriction} {n : α}
    (hx : x.field = .plain b as declared n) :
    x.alternatives σ = as.map fun a => a.constraints.map fun k =>
      ⟨x.place.site, k.resolve (σ ++ (x.own σ).toList) x.place.viewpoint⟩ := by
  simp only [alternatives, noted, hx, Field.resolve, Field.conjuncts, List.map_map]
  refine List.map_congr_left fun a _ => ?_
  simp [Alternative.resolve, Alternative.constraints]

theorem defined_of_bindAll {c : Context} {spot : Spot} {restriction : Restriction} {σ : Scope}
    {x : FieldAt α} {bound : List (List (Conjunct Origin))}
    (h : Conjunct.bindAll c spot restriction (x.alternatives σ) = .ok bound) :
    ∀ s ∈ x.subjects, s.Defined c (σ ++ (x.own σ).toList) := by
  intro s hs
  unfold subjects at hs
  split at hs
  · next b as declared n hx =>
    rw [alternatives_eq_of_plain hx] at h
    obtain ⟨a, ha, hs⟩ := List.mem_flatMap.1 hs
    obtain ⟨k, hk, hs⟩ := List.mem_flatMap.1 hs
    obtain ⟨ks, -, hks⟩ := exists_of_mem_forall₂ (forall₂_of_mapM h) (List.mem_map_of_mem ha)
    obtain ⟨k', -, hk'⟩ := exists_of_mem_forall₂ (forall₂_of_mapM hks) (List.mem_map_of_mem hk)
    obtain ⟨j, hj, -⟩ := bind_eq_ok.1 hk'
    exact Constraint.defined_of_bind hj s hs
  · cases hs

theorem exists_undefined_of_bindAll {c : Context} {spot : Spot} {restriction : Restriction}
    {σ : Scope} {x : FieldAt α} (hplain : x.field.isPlain = true) {d : Diagnostic}
    (h : Conjunct.bindAll c spot restriction (x.alternatives σ) = .error d)
    (hfault : d.fault = .unboundVariable) :
    ∃ s ∈ x.subjects, ¬ s.Defined c (σ ++ (x.own σ).toList) ∧ ∃ function,
      d = c.report .unboundVariable spot (some (s.text c.env)) function := by
  cases hx : x.field with
  | multi ps as declared n =>
    rw [hx] at hplain
    cases hplain
  | plain b as declared n =>
    rw [alternatives_eq_of_plain hx] at h
    obtain ⟨ks, hks, h⟩ := exists_error_of_mapM h
    obtain ⟨a, ha, rfl⟩ := List.mem_map.1 hks
    obtain ⟨k', hk', h⟩ := exists_error_of_mapM h
    obtain ⟨k, hk, rfl⟩ := List.mem_map.1 hk'
    rcases bind_eq_error.1 h with h | ⟨j, -, h⟩
    · obtain ⟨s, hs, hblamed⟩ := Constraint.exists_undefined_of_bind h hfault
      refine ⟨s, ?_, hblamed⟩
      rw [subjects, hx]
      exact List.mem_flatMap.2 ⟨a, ha, List.mem_flatMap.2 ⟨k, hk, hs⟩⟩
    · exact absurd h pure_ne_error

end FieldAt

/-! ## Conditions -/

theorem Diagnostic.blames_report {c : Context} {spot : Spot} {s : Subject} {function : Option Symbol}
    {m : Mention} (hsubject : m.subject = s) (hpattern : m.pattern = spot.pattern)
    (hfield : m.field = spot.field) :
    (c.report .unboundVariable spot (some (s.text c.env)) function).Blames c m := by
  subst hsubject
  refine ⟨hpattern.symm, ?_, rfl⟩
  rw [hfield]
  rfl

theorem Context.fault_of_permit {c : Context} {ahead : List Occurrence} {b : Binding} {d : Diagnostic}
    (h : c.permit ahead b = .error d) : d.fault = .kindMixing := by
  obtain ⟨o, -, -, rfl⟩ := permit_eq_error h
  rfl

theorem Conjunct.fault_of_checkSatisfiable {c : Context} {spot : Spot} {own : Option Symbol}
    {restriction : Option Restriction} {as : List (List (Conjunct Note))} {d : Diagnostic}
    (h : checkSatisfiable c spot own restriction as = .error d) : d.fault = .unmatchable := by
  unfold checkSatisfiable at h
  split at h
  · obtain rfl := Except.error.inj h
    rfl
  · split at h
    · cases h
    · obtain rfl := Except.error.inj h
      rfl

/-- Faults that are found at a mention or a value, and not at a binding. -/
def Fault.inReading : Fault → Bool
  | unboundVariable | literalViolation _ | unmatchable | nestingTooDeep => true
  | illegalHandle _ | kindMixing => false

theorem Note.inReading_of_bindReference {c : Context} {spot : Spot} {enclosing : Option Symbol}
    {x : Symbol} {arity : Arity} {n : Note} {d : Diagnostic}
    (h : n.bindReference c spot enclosing x arity = .error d) : d.fault.inReading = true := by
  unfold bindReference at h
  split at h
  · obtain rfl := Except.error.inj h
    rfl
  · split at h
    · obtain rfl := Except.error.inj h
      rfl
    · cases h

theorem Context.inReading_of_checkGlobal {c : Context} {spot : Spot} {enclosing : Option Symbol}
    {x : Symbol} {d : Diagnostic} (h : c.checkGlobal spot enclosing x = .error d) :
    d.fault.inReading = true := by
  unfold checkGlobal at h
  split at h
  · cases h
  · obtain rfl := Except.error.inj h
    rfl

namespace Term

mutual

theorem inReading_of_bindAt {c : Context} {spot : Spot} {enclosing : Option Symbol} {depth : Nat}
    {t : Term Symbol Note} {d : Diagnostic} (h : t.bindAt c spot enclosing depth = .error d) :
    d.fault.inReading = true := by
  cases t with
  | call f args =>
    rw [bindAt] at h
    rcases bind_eq_error.1 h with h | ⟨-, -, h⟩
    · rw [fault_of_checkDepth h, Fault.inReading]
    rcases bind_eq_error.1 h with h | ⟨us, -, h⟩
    · exact inReading_of_bindAllAt h
    · exact absurd h pure_ne_error
  | var x arity n =>
    rw [bindAt] at h
    rcases bind_eq_error.1 h with h | ⟨-, -, h⟩
    · rw [fault_of_checkDepth h, Fault.inReading]
    rcases bind_eq_error.1 h with h | ⟨o, -, h⟩
    · exact Note.inReading_of_bindReference h
    · exact absurd h pure_ne_error
  | lit value =>
    rw [bindAt] at h
    rcases bind_eq_error.1 h with h | ⟨-, -, h⟩
    · rw [fault_of_checkDepth h, Fault.inReading]
    · exact absurd h pure_ne_error
  | global x =>
    rw [bindAt] at h
    rcases bind_eq_error.1 h with h | ⟨-, -, h⟩
    · rw [fault_of_checkDepth h, Fault.inReading]
    rcases bind_eq_error.1 h with h | ⟨-, -, h⟩
    · exact Context.inReading_of_checkGlobal h
    · exact absurd h pure_ne_error

theorem inReading_of_bindAllAt {c : Context} {spot : Spot} {enclosing : Option Symbol} {depth : Nat}
    {ts : List (Term Symbol Note)} {d : Diagnostic}
    (h : bindAllAt c spot enclosing depth ts = .error d) : d.fault.inReading = true := by
  cases ts with
  | nil => exact absurd h pure_ne_error
  | cons t ts =>
    rw [bindAllAt] at h
    rcases bind_eq_error.1 h with h | ⟨u, -, h⟩
    · exact inReading_of_bindAt h
    rcases bind_eq_error.1 h with h | ⟨us, -, h⟩
    · exact inReading_of_bindAllAt h
    · exact absurd h pure_ne_error

end

end Term

theorem Constraint.inReading_of_bind {c : Context} {spot : Spot} {field : Restriction}
    {k : Constraint Symbol Note} {d : Diagnostic} (h : k.bind c spot field = .error d) :
    d.fault.inReading = true := by
  unfold bind at h
  split at h
  · split at h
    · obtain rfl := Except.error.inj h
      rfl
    · exact absurd h pure_ne_error
  · split at h
    · obtain rfl := Except.error.inj h
      rfl
    · exact absurd h pure_ne_error
  · rcases bind_eq_error.1 h with h | ⟨u, -, h⟩
    · exact Term.inReading_of_bindAt h
    · exact absurd h pure_ne_error
  · rcases bind_eq_error.1 h with h | ⟨u, -, h⟩
    · exact Term.inReading_of_bindAt h
    · exact absurd h pure_ne_error

theorem Conjunct.inReading_of_bindAll {c : Context} {spot : Spot} {field : Restriction}
    {as : List (List (Conjunct Note))} {d : Diagnostic} (h : bindAll c spot field as = .error d) :
    d.fault.inReading = true := by
  obtain ⟨ks, -, h⟩ := exists_error_of_mapM h
  obtain ⟨k, -, h⟩ := exists_error_of_mapM h
  rcases bind_eq_error.1 h with h | ⟨k', -, h⟩
  · exact Constraint.inReading_of_bind h
  · exact absurd h pure_ne_error

theorem Pattern.fault_of_checkHandle {c : Context} {p : Place} {σ : Scope} {q : Pattern Symbol α}
    {d : Diagnostic} (h : q.checkHandle c p σ = .error d) : d.fault ≠ .unboundVariable := by
  obtain ⟨x, o, -, -, rfl⟩ := checkHandle_eq_error h
  simp [Context.blame, Context.report]

namespace Condition

variable {c : Context} {pre rest : Lhs Symbol α} {k : Condition Symbol α} {τ : Scope}

/-- The alternatives of a field see what is visible behind the node of the field. -/
theorem origins_eq_visible_below {σ : Scope} {mode : Mode} {q : Pattern Symbol α} (hτ : τ.Follows pre)
    (hk : k.element = .pattern mode q) {ts : List (FieldVisit α)} {t : FieldAt α}
    {us : List (FieldAt α)}
    (hrun : FieldVisit.Run c (τ ++
      (q.binding? (q.place (pre.length + 1) (pre.joins + 1) k.beginDepth) pre.nodeCount).toList) ts)
    (hσ : σ = τ ++ (q.binding? (q.place (pre.length + 1) (pre.joins + 1) k.beginDepth)
      pre.nodeCount).toList ++ FieldVisit.bindings ts)
    (hfields : (pre.next k).fields = ts.map FieldVisit.source ++ t :: us) (x : Symbol) :
    Scope.origins (σ ++ (t.own σ).toList) x =
      (pre ++ k :: rest).visible (pre.length + 1) (t.id + 1) x := by
  have hsize := t.field.size_pos
  rw [← origins_eq_visible hτ hk hrun hσ hfields (Nat.le_succ t.id) (by omega),
    if_pos (Nat.lt_succ_self _)]

/-- Everything mentioned in a condition that compiles is grounded. -/
theorem grounded_of_visit (hτ : τ.Follows pre) {v : VisitedCondition}
    (h : k.visit c (pre.length + 1) pre.joins pre.nodeCount τ rest = .ok v) :
    ∀ m ∈ (pre.next k).mentions, m.Grounded c (pre ++ k :: rest) := by
  intro m hm
  unfold ConditionAt.mentions at hm
  split at hm
  · next mode q hk =>
    have hk : k.element = .pattern mode q := hk
    obtain ⟨x, hx, hm⟩ := List.mem_flatMap.1 hm
    obtain ⟨s, hs, rfl⟩ := List.mem_map.1 hm
    obtain ⟨ts, hrun, hsource, -⟩ := exists_run_of_visit hk h
    have hfields : (pre.next k).fields = ts.map FieldVisit.source := hsource.symm
    rw [hfields] at hx
    obtain ⟨t, ht, rfl⟩ := List.mem_map.1 hx
    obtain ⟨bound, hbound, -⟩ := hrun.compiles t ht
    have hpattern : t.source.place.pattern = pre.length + 1 :=
      (samePattern_of_mem_fieldsAt hk (hsource ▸ List.mem_map_of_mem ht)).pattern_eq
    obtain ⟨us, ws, rfl⟩ := List.append_of_mem ht
    obtain ⟨hbefore, hscope⟩ := hrun.scope_eq
    rw [List.map_append, List.map_cons] at hfields
    refine (Mention.grounded_iff_defined fun name => ?_).2 (FieldAt.defined_of_bindAll hbound s hs)
    rw [hpattern]
    exact origins_eq_visible_below hτ hk hbefore hscope hfields name
  · next t hk =>
    have hk : k.element = .test t := hk
    obtain ⟨s, hs, rfl⟩ := List.mem_map.1 hm
    obtain ⟨u, hu, -⟩ := exists_bind_of_visit hk h
    exact (Mention.grounded_iff_defined fun name => origins_eq_visible_of_test hτ hk _ name).2
      (Term.defined_of_bindAt hu s hs)

/-- If the fields of a pattern stop at an unbound variable, then one of them mentions what is blamed, and
that is not grounded. -/
theorem exists_ungrounded_of_stops (hτ : τ.Follows pre) (hflat : k.isFlat = true) {mode : Mode}
    {q : Pattern Symbol α} (hk : k.element = .pattern mode q) {d : Diagnostic}
    (hstops : FieldVisit.Stops c
      (τ ++ (q.binding? (q.place (pre.length + 1) (pre.joins + 1) k.beginDepth)
        pre.nodeCount).toList) (k.fieldsAt (pre.length + 1) pre.joins pre.nodeCount) d)
    (hfault : d.fault = .unboundVariable) :
    ∃ m ∈ (pre.next k).mentions, ¬ m.Grounded c (pre ++ k :: rest) ∧ d.Blames c m := by
  obtain ⟨ts, x, ys, ahead, hrun, hfields, hx⟩ := hstops
  have hmem : x ∈ k.fieldsAt (pre.length + 1) pre.joins pre.nodeCount := by
    rw [hfields]
    exact List.mem_append_right _ List.mem_cons_self
  have hpattern : x.place.pattern = pre.length + 1 :=
    (samePattern_of_mem_fieldsAt hk hmem).pattern_eq
  rcases FieldAt.visit_eq_error hx with ⟨ahead', b, hpermit⟩ | hbound | hsatisfiable
  · rw [Context.fault_of_permit hpermit] at hfault
    cases hfault
  · obtain ⟨s, hs, hundefined, function, rfl⟩ :=
      FieldAt.exists_undefined_of_bindAll (isPlain_of_mem_fieldsAt hflat hmem) hbound hfault
    refine ⟨⟨s, x.place.pattern, x.place.site.index, x.id⟩, ?_, fun hgrounded => ?_,
      Diagnostic.blames_report rfl rfl rfl⟩
    · have hmentions : (pre.next k).mentions = (pre.next k).fields.flatMap FieldAt.mentions := by
        simp [ConditionAt.mentions, Lhs.next, hk]
      rw [hmentions]
      exact List.mem_flatMap.2 ⟨x, hmem, List.mem_map_of_mem hs⟩
    · refine hundefined ((Mention.grounded_iff_defined fun name => ?_).1 hgrounded)
      rw [hpattern]
      exact origins_eq_visible_below hτ hk hrun rfl hfields name
  · rw [Conjunct.fault_of_checkSatisfiable hsatisfiable] at hfault
    cases hfault

/-- If a condition stops at an unbound variable, then it mentions what is blamed, and that is not
grounded. -/
theorem exists_ungrounded_of_visit (hτ : τ.Follows pre) (hflat : k.isFlat = true) {d : Diagnostic}
    (h : k.visit c (pre.length + 1) pre.joins pre.nodeCount τ rest = .error d)
    (hfault : d.fault = .unboundVariable) :
    ∃ m ∈ (pre.next k).mentions, ¬ m.Grounded c (pre ++ k :: rest) ∧ d.Blames c m := by
  cases hk : k.element with
  | pattern mode q =>
    rcases exists_stop_of_visit hk h with hhandle | ⟨ahead, b, hpermit⟩ | hstops
    · exact absurd hfault (Pattern.fault_of_checkHandle hhandle)
    · rw [Context.fault_of_permit hpermit] at hfault
      cases hfault
    · exact exists_ungrounded_of_stops hτ hflat hk hstops hfault
  | test t =>
    obtain ⟨s, hs, hundefined, function, rfl⟩ :=
      Term.exists_undefined_of_bindAt (bind_eq_error_of_visit hk h) hfault
    refine ⟨⟨s, pre.length + 1, 0, pre.nodeCount⟩, ?_, fun hgrounded => hundefined ?_,
      Diagnostic.blames_report rfl rfl rfl⟩
    · have hmentions : (pre.next k).mentions =
          t.subjects.map fun s => ⟨s, pre.length + 1, 0, pre.nodeCount⟩ := by
        simp [ConditionAt.mentions, Lhs.next, hk]
      rw [hmentions]
      exact List.mem_map_of_mem hs
    · exact (Mention.grounded_iff_defined fun name => origins_eq_visible_of_test hτ hk _ name).1
        hgrounded

end Condition

/-! ## Left-hand sides -/

namespace Lhs

theorem mem_mentions_of_split {pre rest : Lhs Symbol α} {k : Condition Symbol α} {m : Mention}
    (hm : m ∈ (pre.next k).mentions) : m ∈ (pre ++ k :: rest).mentions := by
  rw [mentions, conditionsAt, conditionsFrom_append, List.flatMap_append, conditionsFrom,
    List.flatMap_cons]
  refine List.mem_append_right _ (List.mem_append_left _ ?_)
  rw [Nat.add_comm 1, Nat.zero_add]
  exact hm

/-- **Everything mentioned in a left-hand side that compiles is grounded.** -/
theorem grounded_of_compile {c : Context} {l : Lhs Symbol α} {r : Lhs Symbol Note}
    (h : l.compile c = .ok r) : ∀ m ∈ l.mentions, m.Grounded c l := by
  intro m hmentions
  obtain ⟨u, hu, -⟩ := exists_compileFrom_of_compile h
  obtain ⟨y, hy, hm⟩ := List.mem_flatMap.1 hmentions
  obtain ⟨pre, k, rest, heq, rfl⟩ := exists_split_of_mem_conditionsFrom (l := []) hy
  obtain rfl : l = pre ++ k :: rest := heq
  obtain ⟨τ, v, hτ, hv⟩ := exists_visit_of_split Scope.follows_nil hu
  exact Condition.grounded_of_visit hτ hv m hm

/-- **A compilation that stops at an unbound variable** blames a mention that is not grounded. -/
theorem exists_ungrounded_of_compile {c : Context} {l : Lhs Symbol α} {d : Diagnostic}
    (hflat : l.isFlat = true) (h : l.compile c = .error d) (hfault : d.fault = .unboundVariable) :
    ∃ m ∈ l.mentions, ¬ m.Grounded c l ∧ d.Blames c m := by
  obtain ⟨pre, k, rest, τ, rfl, hτ, hk⟩ := exists_visit_of_compile_error h
  have hkflat : k.isFlat = true := List.all_eq_true.1 hflat k (by simp)
  obtain ⟨m, hm, hblamed⟩ := Condition.exists_ungrounded_of_visit hτ hkflat hk hfault
  exact ⟨m, mem_mentions_of_split hm, hblamed⟩

end Lhs

end Antecedent
