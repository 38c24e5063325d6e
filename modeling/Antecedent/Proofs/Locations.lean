import Antecedent.Proofs.KindMixing
import Antecedent.Proofs.Spelling

/-!
# What diagnostics point at

A diagnostic says where its fault stands, by numbers and names. Some faults are found while another condition
is compiled, and some deep inside an expression; the diagnostic still stands at the condition and the field
that it blames something of.

* `Field.named` and `Term.named` list the variables and global variables that a field or an expression names.
* A `Reading` says what the names of a left-hand side stand for; `Diagnostic.PointsInto` says that a
  diagnostic stands at a field, at the handle or at the test of a condition, and blames a name found there.
* `Diagnostic.PointsAt` says so of a spot. `Term.pointsAt_of_bindAt`, `Conjunct.pointsAt_of_bindAll` and
  `FieldAt.pointsAt_of_visit` give it for the steps of a compilation.
* `Lhs.exists_pointedAt_of_compile` is about symbols, and `Lhs.compile_error_points_into` about the names in a
  left-hand side as it was written.
-/

namespace Antecedent

variable {ν α β : Type}

/-! ## Names -/

/-- A variable or a global variable that is named somewhere. -/
inductive Named (ν : Type) where
  | var (name : ν)
  | global (name : ν)
  deriving DecidableEq, Repr

namespace Term

mutual

/-- What an expression names. -/
def named : Term ν α → List (Named ν)
  | call _ args => namedAll args
  | var x _ _ => [.var x]
  | lit _ => []
  | global x => [.global x]

def namedAll : List (Term ν α) → List (Named ν)
  | [] => []
  | t :: ts => named t ++ namedAll ts

end

mutual

@[simp] theorem named_mapNotes (g : α → β) (t : Term ν α) : (t.mapNotes g).named = t.named := by
  cases t with
  | call f args => rw [mapNotes, named, named, namedAll_mapNotesAll g args]
  | var x arity n => rfl
  | lit v => rfl
  | global x => rfl

theorem namedAll_mapNotesAll (g : α → β) (ts : List (Term ν α)) :
    namedAll (mapNotesAll g ts) = namedAll ts := by
  cases ts with
  | nil => rfl
  | cons t ts => rw [mapNotesAll, namedAll, namedAll, named_mapNotes g t, namedAll_mapNotesAll g ts]

end

theorem named_resolve (σ : Scope) (v : Viewpoint) (t : Term Symbol α) : (t.resolve σ v).named = t.named := by
  rw [← named_mapNotes (fun _ => ()), mapNotes_resolve, named_mapNotes]

end Term

/-- What a constraint names. -/
def Constraint.named (k : Constraint ν α) : List (Named ν) :=
  match k.shape with
  | .literal _ => []
  | .var x _ _ => [.var x]
  | .predicate t | .returnValue t => t.named

@[simp] theorem Constraint.named_mapNotes (g : α → β) (k : Constraint ν α) :
    (k.mapNotes g).named = k.named := by
  obtain ⟨shape, negated⟩ := k
  cases shape <;> simp [mapNotes, named]

def Alternative.named (a : Alternative ν α) : List (Named ν) := a.constraints.flatMap Constraint.named

@[simp] theorem Alternative.named_mapNotes (g : α → β) (a : Alternative ν α) :
    (a.mapNotes g).named = a.named := by
  simp [mapNotes, named, constraints, List.flatMap_map]

def Binder.named : Binder ν → List (Named ν)
  | var x _ => [.var x]
  | wildcard _ => []

namespace Field

mutual

/-- What a field names, also as a variable of its own. Constraints that are attached to a multifield slot
itself have no effect. -/
def named : Field ν α → List (Named ν)
  | plain b as _ _ => b.named ++ as.flatMap Alternative.named
  | multi ps _ _ _ => namedAll ps

def namedAll : List (Field ν α) → List (Named ν)
  | [] => []
  | f :: fs => named f ++ namedAll fs

end

mutual

@[simp] theorem named_mapNotes (g : α → β) (f : Field ν α) : (f.mapNotes g).named = f.named := by
  cases f with
  | plain b as declared n => simp [mapNotes, named, List.flatMap_map]
  | multi ps as declared n => rw [mapNotes, named, named, namedAll_mapNotesAll g ps]

theorem namedAll_mapNotesAll (g : α → β) (fs : List (Field ν α)) :
    namedAll (mapNotesAll g fs) = namedAll fs := by
  cases fs with
  | nil => rfl
  | cons f fs => rw [mapNotesAll, namedAll, namedAll, named_mapNotes g f, namedAll_mapNotesAll g fs]

end

theorem named_resolve (σ inner : Scope) (v : Viewpoint) (f : Field Symbol α) :
    (f.resolve σ inner v).named = f.named := by
  rw [← named_mapNotes (fun _ => ()), ← named_mapNotes (fun _ => ()) f]
  exact congrArg named (bare_resolve σ inner v f)

theorem var_mem_named_of_binds? {f : Field ν α} {x : ν} {arity : Arity} (h : f.binds? = some (x, arity)) :
    .var x ∈ f.named := by
  unfold binds? at h
  split at h
  · obtain ⟨rfl, rfl⟩ := Prod.mk.inj (Option.some.inj h)
    exact List.mem_cons_self
  · cases h

end Field

/-! ## Pointing at a part of a condition -/

/-- What the names of a left-hand side stand for: their texts, and the global variables that are defined. -/
structure Reading (ν : Type) where
  text : ν → String
  isGlobal : ν → Prop

namespace Environment

/-- Symbols are read by the symbol table. -/
def symbolReading (e : Environment) : Reading Symbol := ⟨e.name, fun x => e.isGlobal x = true⟩

/-- Written names stand for themselves. -/
def nameReading (e : Environment) : Reading String :=
  ⟨id, fun name => ∃ x, e.symbols.name? x = some name ∧ e.isGlobal x = true⟩

end Environment

/-- A text by which something named is blamed. Of the global variables, only those that are not defined
are blamed. -/
def Named.BlamedAs (r : Reading ν) (text : String) : Named ν → Prop
  | var x => text = r.text x
  | global x => text = "*" ++ r.text x ++ "*" ∧ ¬ r.isGlobal x

namespace Diagnostic

/-- If the diagnostic blames something, then one of the names. -/
def BlamesOneOf (r : Reading ν) (ns : List (Named ν)) (d : Diagnostic) : Prop :=
  ∀ text ∈ d.location.blamed, ∃ n ∈ ns, n.BlamedAs r text

theorem BlamesOneOf.mono {r : Reading ν} {ns ns' : List (Named ν)} {d : Diagnostic}
    (h : d.BlamesOneOf r ns) (hsubset : ns ⊆ ns') : d.BlamesOneOf r ns' := by
  intro text htext
  obtain ⟨n, hn, hblamed⟩ := h text htext
  exact ⟨n, hsubset hn, hblamed⟩

/-- The diagnostic stands at a part of a condition and blames what is named there. At a test it has no field
and no slot. At a pattern it has neither if it is about the handle; else it has the number of one of the
fields and the name of its slot. -/
def PointsInto (r : Reading ν) (k : Condition ν α) (d : Diagnostic) : Prop :=
  match k.element with
  | .test t => d.location.field = none ∧ d.location.slot = none ∧ d.BlamesOneOf r t.named
  | .pattern _ q =>
    (∃ h, q.handle = some h ∧ d.location.field = none ∧ d.location.slot = none ∧
      d.location.blamed = some (r.text h) ∧ d.fault.inReading = false) ∨
    ∃ j s, q.slots[j]? = some s ∧ d.location.field = some (j + 1) ∧
      d.location.slot = s.name.map r.text ∧ d.BlamesOneOf r s.field.named

/-- The diagnostic stands at a spot and blames one of the names. -/
structure PointsAt (c : Context) (spot : Spot) (ns : List (Named Symbol)) (d : Diagnostic) : Prop where
  pattern_eq : d.location.pattern = spot.pattern
  field_eq : d.location.field = if 0 < spot.field then some spot.field else none
  slot_eq : d.location.slot = spot.slot.map c.env.name
  blames : d.BlamesOneOf c.env.symbolReading ns

theorem PointsAt.mono {c : Context} {spot : Spot} {ns ns' : List (Named Symbol)} {d : Diagnostic}
    (h : d.PointsAt c spot ns) (hsubset : ns ⊆ ns') : d.PointsAt c spot ns' :=
  ⟨h.pattern_eq, h.field_eq, h.slot_eq, h.blames.mono hsubset⟩

end Diagnostic

namespace Context

variable {c : Context} {spot : Spot} {ns : List (Named Symbol)} {enclosing : Option Symbol} {d : Diagnostic}

/-- A report may blame nothing. -/
theorem pointsAt_report_none {fault : Fault} : (c.report fault spot none enclosing).PointsAt c spot ns :=
  ⟨rfl, rfl, rfl, by simp [Diagnostic.BlamesOneOf, report]⟩

theorem pointsAt_report {fault : Fault} {text : String} {n : Named Symbol} (hn : n ∈ ns)
    (hblamed : n.BlamedAs c.env.symbolReading text) :
    (c.report fault spot (some text) enclosing).PointsAt c spot ns := by
  refine ⟨rfl, rfl, rfl, fun text' htext => ?_⟩
  obtain rfl := Option.some.inj htext
  exact ⟨n, hn, hblamed⟩

theorem pointsAt_of_checkDepth {depth : Nat} (h : c.checkDepth spot enclosing depth = .error d) :
    d.PointsAt c spot ns := by
  unfold checkDepth at h
  split at h
  · obtain rfl := Except.error.inj h
    exact pointsAt_report_none
  · cases h

theorem pointsAt_of_checkGlobal {x : Symbol} (hx : .global x ∈ ns)
    (h : c.checkGlobal spot enclosing x = .error d) : d.PointsAt c spot ns := by
  unfold checkGlobal at h
  split at h
  · cases h
  · next hnot =>
    obtain rfl := Except.error.inj h
    exact pointsAt_report hx ⟨rfl, hnot⟩

end Context

theorem Note.pointsAt_of_bindReference {c : Context} {spot : Spot} {ns : List (Named Symbol)}
    {enclosing : Option Symbol} {x : Symbol} {arity : Arity} {n : Note} {d : Diagnostic} (hx : .var x ∈ ns)
    (h : n.bindReference c spot enclosing x arity = .error d) : d.PointsAt c spot ns := by
  unfold bindReference at h
  split at h
  · obtain rfl := Except.error.inj h
    exact Context.pointsAt_report hx rfl
  · split at h
    · obtain rfl := Except.error.inj h
      exact Context.pointsAt_report hx rfl
    · cases h

namespace Term

mutual

/-- **A fault inside an expression** is reported at its spot, and blames what the expression names. -/
theorem pointsAt_of_bindAt {c : Context} {spot : Spot} {enclosing : Option Symbol} {depth : Nat}
    {t : Term Symbol Note} {d : Diagnostic} (h : t.bindAt c spot enclosing depth = .error d) :
    d.PointsAt c spot t.named := by
  cases t with
  | call f args =>
    rw [bindAt] at h
    rcases bind_eq_error.1 h with h | ⟨-, -, h⟩
    · exact Context.pointsAt_of_checkDepth h
    rcases bind_eq_error.1 h with h | ⟨us, -, h⟩
    · exact pointsAt_of_bindAllAt h
    · exact absurd h pure_ne_error
  | var x arity n =>
    rw [bindAt] at h
    rcases bind_eq_error.1 h with h | ⟨-, -, h⟩
    · exact Context.pointsAt_of_checkDepth h
    rcases bind_eq_error.1 h with h | ⟨o, -, h⟩
    · exact Note.pointsAt_of_bindReference List.mem_cons_self h
    · exact absurd h pure_ne_error
  | lit value =>
    rw [bindAt] at h
    rcases bind_eq_error.1 h with h | ⟨-, -, h⟩
    · exact Context.pointsAt_of_checkDepth h
    · exact absurd h pure_ne_error
  | global x =>
    rw [bindAt] at h
    rcases bind_eq_error.1 h with h | ⟨-, -, h⟩
    · exact Context.pointsAt_of_checkDepth h
    rcases bind_eq_error.1 h with h | ⟨-, -, h⟩
    · exact Context.pointsAt_of_checkGlobal List.mem_cons_self h
    · exact absurd h pure_ne_error

theorem pointsAt_of_bindAllAt {c : Context} {spot : Spot} {enclosing : Option Symbol} {depth : Nat}
    {ts : List (Term Symbol Note)} {d : Diagnostic}
    (h : bindAllAt c spot enclosing depth ts = .error d) : d.PointsAt c spot (namedAll ts) := by
  cases ts with
  | nil => exact absurd h pure_ne_error
  | cons t ts =>
    rw [bindAllAt] at h
    rcases bind_eq_error.1 h with h | ⟨u, -, h⟩
    · exact (pointsAt_of_bindAt h).mono (List.subset_append_left _ _)
    rcases bind_eq_error.1 h with h | ⟨us, -, h⟩
    · exact (pointsAt_of_bindAllAt h).mono (List.subset_append_right _ _)
    · exact absurd h pure_ne_error

end

end Term

theorem Constraint.pointsAt_of_bind {c : Context} {spot : Spot} {field : Restriction}
    {k : Constraint Symbol Note} {d : Diagnostic} (h : k.bind c spot field = .error d) :
    d.PointsAt c spot k.named := by
  obtain ⟨shape, negated⟩ := k
  cases shape with
  | literal v =>
    simp only [bind] at h
    split at h
    · obtain rfl := Except.error.inj h
      exact Context.pointsAt_report_none
    · exact absurd h pure_ne_error
  | var x arity n =>
    simp only [bind] at h
    split at h
    · obtain rfl := Except.error.inj h
      exact Context.pointsAt_report List.mem_cons_self rfl
    · exact absurd h pure_ne_error
  | predicate t =>
    rcases bind_eq_error.1 h with h | ⟨u, -, h⟩
    · exact Term.pointsAt_of_bindAt h
    · exact absurd h pure_ne_error
  | returnValue t =>
    rcases bind_eq_error.1 h with h | ⟨u, -, h⟩
    · exact Term.pointsAt_of_bindAt h
    · exact absurd h pure_ne_error

namespace Conjunct

variable {c : Context} {spot : Spot} {ns : List (Named Symbol)} {as : List (List (Conjunct Note))}
  {d : Diagnostic}

theorem pointsAt_of_bindAll {field : Restriction} (has : ∀ ks ∈ as, ∀ k ∈ ks, k.constraint.named ⊆ ns)
    (h : bindAll c spot field as = .error d) : d.PointsAt c spot ns := by
  obtain ⟨ks, hks, h⟩ := exists_error_of_mapM h
  obtain ⟨k, hk, h⟩ := exists_error_of_mapM h
  rcases bind_eq_error.1 h with h | ⟨k', -, h⟩
  · exact (Constraint.pointsAt_of_bind h).mono (has ks hks k hk)
  · exact absurd h pure_ne_error

theorem pointsAt_of_checkSatisfiable {own : Option Symbol} {restriction : Option Restriction}
    (hown : ∀ x ∈ own, .var x ∈ ns) (h : checkSatisfiable c spot own restriction as = .error d) :
    d.PointsAt c spot ns := by
  unfold checkSatisfiable at h
  split at h
  · next x _ =>
    obtain rfl := Except.error.inj h
    exact Context.pointsAt_report (hown x rfl) rfl
  · split at h
    · cases h
    · obtain rfl := Except.error.inj h
      exact Context.pointsAt_report_none

end Conjunct

/-! ## Fields -/

namespace Field

theorem named_of_mem_asConjuncts {site : Site} {position : Nat} {fs : List (Field Symbol α)} {k : Conjunct α}
    (hk : k ∈ asConjuncts site position fs) : k.constraint.named ⊆ namedAll fs := by
  induction fs generalizing position with
  | nil => cases hk
  | cons f fs ih =>
    rcases List.mem_append.1 hk with hk | hk
    · unfold asConjunct? at hk
      split at hk
      · obtain rfl := Option.some.inj (Option.mem_toList.1 hk)
        exact List.subset_append_of_subset_left _ (List.subset_append_left _ _)
      · cases hk
    · exact List.subset_append_of_subset_right _ (ih hk)

mutual

/-- The conjuncts of a field name only what the field names. -/
theorem named_of_mem_conjuncts {site : Site} {f : Field Symbol α} :
    ∀ ks ∈ f.conjuncts site, ∀ k ∈ ks, k.constraint.named ⊆ f.named := by
  intro ks hks k hk
  cases f with
  | plain b as declared n =>
    obtain ⟨a, ha, rfl⟩ := List.mem_map.1 hks
    obtain ⟨k, hmem, rfl⟩ := List.mem_map.1 hk
    intro x hx
    exact List.mem_append_right _ (List.mem_flatMap.2 ⟨a, ha, List.mem_flatMap.2 ⟨k, hmem, hx⟩⟩)
  | multi ps as declared n => exact named_of_mem_conjunctsOfParts ks hks k hk

theorem named_of_mem_conjunctsOfParts {site : Site} {fs : List (Field Symbol α)} :
    ∀ ks ∈ conjunctsOfParts site fs, ∀ k ∈ ks, k.constraint.named ⊆ namedAll fs := by
  intro ks hks k hk
  cases fs with
  | nil => cases hks
  | cons f fs =>
    rcases List.mem_cons.1 hks with rfl | hks
    · exact named_of_mem_asConjuncts hk
    · exact List.subset_append_of_subset_left _ (named_of_mem_conjuncts ks hks k hk)

end

theorem named_of_mem_ownOccurrence {spot : Spot} {f : Field Symbol α} {o : Occurrence}
    (ho : o ∈ f.ownOccurrence spot) : o.spot = spot ∧ .var o.name ∈ f.named := by
  unfold ownOccurrence at ho
  split at ho
  · obtain rfl := List.mem_singleton.1 ho
    exact ⟨rfl, List.mem_cons_self⟩
  · cases ho

mutual

/-- The occurrences inside a field stand at its spot, and their names are named in it. -/
theorem named_of_mem_inside {spot : Spot} {f : Field Symbol α} :
    ∀ o ∈ f.inside spot, o.spot = spot ∧ .var o.name ∈ f.named := by
  intro o ho
  cases f with
  | plain b as declared n =>
    obtain ⟨a, ha, ho⟩ := List.mem_flatMap.1 ho
    obtain ⟨k, hk, ho⟩ := List.mem_flatMap.1 ho
    have hmem : o.spot = spot ∧ .var o.name ∈ k.named := by
      obtain ⟨shape, negated⟩ := k
      cases shape with
      | var x arity n =>
        obtain rfl := List.mem_singleton.1 ho
        exact ⟨rfl, List.mem_cons_self⟩
      | literal v => cases ho
      | predicate t => cases ho
      | returnValue t => cases ho
    exact ⟨hmem.1, List.mem_append_right _
      (List.mem_flatMap.2 ⟨a, ha, List.mem_flatMap.2 ⟨k, hk, hmem.2⟩⟩)⟩
  | multi ps as declared n => exact named_of_mem_occurrencesAll o ho

theorem named_of_mem_occurrencesAll {spot : Spot} {fs : List (Field Symbol α)} :
    ∀ o ∈ occurrencesAll spot fs, o.spot = spot ∧ .var o.name ∈ namedAll fs := by
  intro o ho
  cases fs with
  | nil => cases ho
  | cons f fs =>
    rw [occurrencesAll, List.append_assoc, List.mem_append, List.mem_append] at ho
    rw [namedAll, List.mem_append]
    rcases ho with ho | ho | ho
    · exact (named_of_mem_ownOccurrence ho).imp_right .inl
    · exact (named_of_mem_occurrencesAll o ho).imp_right .inr
    · exact (named_of_mem_inside o ho).imp_right .inl

end

/-- The parts of a slot stand at the spot of the slot. -/
theorem spot_of_mem_partsAt {p : Place} {k id : Nat} {fs : List (Field Symbol α)} {x : FieldAt α}
    (hx : x ∈ partsAt p k id fs) : x.place.spot = p.spot ∧ x.field.named ⊆ namedAll fs := by
  induction fs generalizing k id with
  | nil => cases hx
  | cons f fs ih =>
    rcases List.mem_cons.1 hx with rfl | hx
    · exact ⟨rfl, List.subset_append_left _ _⟩
    · exact (ih hx).imp_right (List.subset_append_of_subset_right _)

end Field

namespace Slot

theorem spot_of_mem_fieldsAt {p : Place} {id : Nat} {s : Slot Symbol α} {x : FieldAt α}
    (hx : x ∈ s.fieldsAt p id) : x.place.spot = p.spot ∧ x.field.named ⊆ s.field.named := by
  obtain ⟨name, f⟩ := s
  cases f with
  | plain b as declared n =>
    obtain rfl := List.mem_singleton.1 hx
    exact ⟨rfl, List.Subset.refl _⟩
  | multi ps as declared n => exact Field.spot_of_mem_partsAt hx

/-- The number and the name at a spot are those of the slot that the field stands in. -/
theorem exists_of_mem_fieldsAtAll {p : Place} {j id : Nat} {ss : List (Slot Symbol α)} {x : FieldAt α}
    (hx : x ∈ fieldsAtAll p j id ss) :
    ∃ i s, ss[i]? = some s ∧ x.place.spot = ⟨p.pattern, j + i, s.name⟩ ∧
      x.field.named ⊆ s.field.named := by
  induction ss generalizing j id with
  | nil => cases hx
  | cons s ss ih =>
    rcases List.mem_append.1 hx with hx | hx
    · exact ⟨0, s, rfl, spot_of_mem_fieldsAt hx⟩
    · obtain ⟨i, s', hs', hspot, hnamed⟩ := ih hx
      refine ⟨i + 1, s', hs', ?_, hnamed⟩
      rw [hspot, Nat.add_assoc, Nat.add_comm 1]

end Slot

namespace FieldAt

theorem named_of_mem_occurrences {x : FieldAt α} {o : Occurrence} (ho : o ∈ x.occurrences) :
    o.spot = x.place.spot ∧ .var o.name ∈ x.field.named := by
  rcases List.mem_append.1 ho with ho | ho
  · exact Field.named_of_mem_ownOccurrence ho
  · exact Field.named_of_mem_inside o ho

/-- **A field that fails**, other than by a clash of arities, is itself pointed at. -/
theorem pointsAt_of_visit {c : Context} {σ : Scope} {ahead : List Occurrence} {x : FieldAt α}
    {d : Diagnostic} (h : x.field.visit c x.place x.id σ ahead = .error d)
    (hfault : d.fault ≠ .kindMixing) : d.PointsAt c x.place.spot x.field.named := by
  rcases visit_eq_error h with ⟨ahead', b, h⟩ | h | h
  · exact absurd (Context.fault_of_permit h) hfault
  · refine Conjunct.pointsAt_of_bindAll (fun ks hks k hk => ?_) h
    have hnamed : (x.noted σ).named = x.field.named := Field.named_resolve _ _ _ _
    rw [← hnamed]
    exact Field.named_of_mem_conjuncts ks hks k hk
  · refine Conjunct.pointsAt_of_checkSatisfiable (fun y hy => ?_) h
    obtain ⟨b, hb, rfl⟩ := Option.map_eq_some_iff.1 hy
    exact Field.var_mem_named_of_binds? hb

end FieldAt

/-! ## Conditions -/

namespace ConditionAt

variable {c : Context} {y : ConditionAt α} {d : Diagnostic}

/-- The diagnostic stands in the condition and points at a part of it. -/
def PointedAt (c : Context) (y : ConditionAt α) (d : Diagnostic) : Prop :=
  d.location.pattern = y.pattern ∧ d.PointsInto c.env.symbolReading y.condition

theorem pointedAt_of_field {x : FieldAt α} (hx : x ∈ y.fields)
    (h : d.PointsAt c x.place.spot x.field.named) : y.PointedAt c d := by
  obtain ⟨pattern, joins, id, element, beginDepth, endDepth, n⟩ := y
  cases element with
  | test t => cases hx
  | pattern mode q =>
    obtain ⟨i, s, hs, hspot, hnamed⟩ := Slot.exists_of_mem_fieldsAtAll hx
    rw [hspot] at h
    refine ⟨h.pattern_eq, .inr ⟨i, s, hs, ?_, h.slot_eq, h.blames.mono hnamed⟩⟩
    rw [h.field_eq, Nat.add_comm 1]
    exact if_pos (Nat.succ_pos i)

theorem pointedAt_of_handle {mode : Mode} {q : Pattern Symbol α} (hy : y.condition.element = .pattern mode q)
    {x : Symbol} (hx : q.handle = some x) {fault : Fault} (hfault : fault.inReading = false) :
    y.PointedAt c (c.blame fault ⟨y.pattern, 0, none⟩ x) := by
  refine ⟨rfl, ?_⟩
  rw [Diagnostic.PointsInto, hy]
  exact .inl ⟨x, hx, rfl, rfl, rfl, hfault⟩

theorem pointedAt_of_test {t : Term Symbol α} (hy : y.condition.element = .test t)
    (h : d.PointsAt c ⟨y.pattern, 0, none⟩ t.named) : y.PointedAt c d := by
  refine ⟨h.pattern_eq, ?_⟩
  rw [Diagnostic.PointsInto, hy]
  exact ⟨h.field_eq, h.slot_eq, h.blames⟩

/-- A clash with an occurrence points at the part of the condition that the occurrence stands in. -/
theorem pointedAt_of_mem_occurrences {o : Occurrence} (ho : o ∈ y.occurrences) :
    y.PointedAt c (c.blame .kindMixing o.spot o.name) := by
  rcases mem_occurrences_iff.1 ho with ⟨b, hb, rfl⟩ | ⟨x, hx, ho⟩
  · unfold handle at hb
    split at hb
    · next mode q hq =>
      obtain ⟨x, hx, rfl⟩ := Option.map_eq_some_iff.1 hb
      exact pointedAt_of_handle hq hx rfl
    · cases hb
  · obtain ⟨hspot, hnamed⟩ := FieldAt.named_of_mem_occurrences ho
    rw [hspot]
    exact pointedAt_of_field hx (Context.pointsAt_report hnamed rfl)

/-- A condition that fails, other than by a clash of arities, is itself pointed at. -/
theorem pointedAt_of_visit {σ : Scope} {rest : Lhs Symbol α}
    (h : y.condition.visit c y.pattern y.joins y.id σ rest = .error d) (hfault : d.fault ≠ .kindMixing) :
    y.PointedAt c d := by
  cases hk : y.condition.element with
  | test t =>
    have hpoints := Term.pointsAt_of_bindAt (Condition.bind_eq_error_of_visit hk h)
    rw [Term.named_resolve] at hpoints
    exact pointedAt_of_test hk hpoints
  | pattern mode q =>
    rcases Condition.exists_stop_of_visit hk h with h | ⟨ahead, b, h⟩ | ⟨ts, x, xs, ahead, -, hfields, h⟩
    · obtain ⟨x, o, hx, -, rfl⟩ := Pattern.checkHandle_eq_error h
      exact pointedAt_of_handle hk hx rfl
    · exact absurd (Context.fault_of_permit h) hfault
    · refine pointedAt_of_field (x := x) ?_ (FieldAt.pointsAt_of_visit h hfault)
      rw [fields, hfields]
      exact List.mem_append_right _ List.mem_cons_self

end ConditionAt

/-- **A failed compilation points at a part of a condition.** A clash of arities may be found while an earlier
condition is compiled; it points at the occurrence that clashes. -/
theorem Lhs.exists_pointedAt_of_compile {c : Context} {l : Lhs Symbol α} {d : Diagnostic}
    (h : l.compile c = .error d) : ∃ y ∈ l.conditionsAt, y.PointedAt c d := by
  obtain ⟨pre, k, rest, τ, rfl, -, hk⟩ := exists_visit_of_compile_error h
  have hy : pre.next k ∈ conditionsAt (pre ++ k :: rest) := mem_conditionsAt_split.2 (.inr (.inl rfl))
  by_cases hfault : d.fault = .kindMixing
  · -- the occurrence that clashes may stand in a later condition
    obtain ⟨o, ho, rfl, -⟩ := Condition.clash_of_visit hk hfault (y := pre.next k) rfl
    rcases List.mem_append.1 ho with ho | ho
    · exact ⟨_, hy, ConditionAt.pointedAt_of_mem_occurrences ho⟩
    · obtain ⟨z, hz, -, ho, -⟩ := mem_reachAfter_iff.1 ho
      exact ⟨z, hz, ConditionAt.pointedAt_of_mem_occurrences ho⟩
  · exact ⟨_, hy, ConditionAt.pointedAt_of_visit (y := pre.next k) hk hfault⟩

/-! ## Written names -/

namespace Named

/-- Looks up the symbol of something named. -/
def spell (m : SymbolTable) : Named Symbol → Option (Named String)
  | var x => do return var (← m.name? x)
  | global x => do return global (← m.name? x)

theorem spell_var {m : SymbolTable} {x : Symbol} {name : String} (h : m.name? x = some name) :
    (var x).spell m = some (.var name) := by
  rw [spell, h]
  rfl

theorem spell_global {m : SymbolTable} {x : Symbol} {name : String} (h : m.name? x = some name) :
    (global x).spell m = some (.global name) := by
  rw [spell, h]
  rfl

/-- The names of the first list are spelled by names of the second one. -/
def Spelled (m : SymbolTable) (ns : List (Named Symbol)) (ns' : List (Named String)) : Prop :=
  ∀ n ∈ ns, ∃ n' ∈ ns', n.spell m = some n'

theorem spelled_nil (m : SymbolTable) : Spelled m [] [] := by simp [Spelled]

theorem spelled_singleton {m : SymbolTable} {n : Named Symbol} {n' : Named String}
    (h : n.spell m = some n') : Spelled m [n] [n'] :=
  List.forall_mem_singleton.2 ⟨n', List.mem_cons_self, h⟩

theorem Spelled.append {m : SymbolTable} {ns ms : List (Named Symbol)} {ns' ms' : List (Named String)}
    (hns : Spelled m ns ns') (hms : Spelled m ms ms') : Spelled m (ns ++ ms) (ns' ++ ms') := by
  refine List.forall_mem_append.2 ⟨fun n hn => ?_, fun n hn => ?_⟩
  · obtain ⟨n', hn', hspell⟩ := hns n hn
    exact ⟨n', List.mem_append_left _ hn', hspell⟩
  · obtain ⟨n', hn', hspell⟩ := hms n hn
    exact ⟨n', List.mem_append_right _ hn', hspell⟩

theorem spelled_flatMap {m : SymbolTable} {f : α → Option β} {g : α → List (Named Symbol)}
    {g' : β → List (Named String)} (hg : ∀ x y, f x = some y → Spelled m (g x) (g' y)) {xs : List α}
    {ys : List β} (h : xs.mapM f = some ys) : Spelled m (xs.flatMap g) (ys.flatMap g') := by
  induction xs generalizing ys with
  | nil =>
    obtain rfl := Option.some.inj h
    exact spelled_nil m
  | cons x xs ih =>
    rw [List.mapM_cons] at h
    obtain ⟨y, hy, h⟩ := Option.bind_eq_some_iff.1 h
    obtain ⟨ys, hys, h⟩ := Option.bind_eq_some_iff.1 h
    obtain rfl := Option.some.inj h
    exact (hg x y hy).append (ih hys)

end Named

open Named (Spelled spelled_nil spelled_singleton spelled_flatMap)

namespace Term

mutual

theorem spelled_named {m : SymbolTable} {t : Term Symbol α} {t' : Term String α}
    (h : t.spell m = some t') : Spelled m t.named t'.named := by
  cases t with
  | call f args =>
    obtain ⟨f', -, h⟩ := Option.bind_eq_some_iff.1 h
    obtain ⟨args', hargs, h⟩ := Option.bind_eq_some_iff.1 h
    obtain rfl := Option.some.inj h
    exact spelled_namedAll hargs
  | var x arity n =>
    obtain ⟨x', hx, h⟩ := Option.bind_eq_some_iff.1 h
    obtain rfl := Option.some.inj h
    exact spelled_singleton (Named.spell_var hx)
  | lit v =>
    obtain ⟨v', -, h⟩ := Option.bind_eq_some_iff.1 h
    obtain rfl := Option.some.inj h
    exact spelled_nil m
  | global x =>
    obtain ⟨x', hx, h⟩ := Option.bind_eq_some_iff.1 h
    obtain rfl := Option.some.inj h
    exact spelled_singleton (Named.spell_global hx)

theorem spelled_namedAll {m : SymbolTable} {ts : List (Term Symbol α)} {ts' : List (Term String α)}
    (h : spellAll m ts = some ts') : Spelled m (namedAll ts) (namedAll ts') := by
  cases ts with
  | nil =>
    obtain rfl := Option.some.inj h
    exact spelled_nil m
  | cons t ts =>
    obtain ⟨t', ht, h⟩ := Option.bind_eq_some_iff.1 h
    obtain ⟨ts', hts, h⟩ := Option.bind_eq_some_iff.1 h
    obtain rfl := Option.some.inj h
    exact (spelled_named ht).append (spelled_namedAll hts)

end

end Term

theorem Constraint.spelled_named {m : SymbolTable} {k : Constraint Symbol α} {k' : Constraint String α}
    (h : k.spell m = some k') : Spelled m k.named k'.named := by
  obtain ⟨shape, negated⟩ := k
  obtain ⟨shape', hshape, h⟩ := Option.bind_eq_some_iff.1 h
  obtain rfl := Option.some.inj h
  cases shape with
  | literal v =>
    obtain ⟨v', -, h⟩ := Option.bind_eq_some_iff.1 hshape
    obtain rfl := Option.some.inj h
    exact spelled_nil m
  | var x arity n =>
    obtain ⟨x', hx, h⟩ := Option.bind_eq_some_iff.1 hshape
    obtain rfl := Option.some.inj h
    exact spelled_singleton (Named.spell_var hx)
  | predicate t =>
    obtain ⟨t', ht, h⟩ := Option.bind_eq_some_iff.1 hshape
    obtain rfl := Option.some.inj h
    exact Term.spelled_named ht
  | returnValue t =>
    obtain ⟨t', ht, h⟩ := Option.bind_eq_some_iff.1 hshape
    obtain rfl := Option.some.inj h
    exact Term.spelled_named ht

theorem Alternative.spelled_named {m : SymbolTable} {a : Alternative Symbol α} {a' : Alternative String α}
    (h : a.spell m = some a') : Spelled m a.named a'.named := by
  obtain ⟨first, hfirst, h⟩ := Option.bind_eq_some_iff.1 h
  obtain ⟨rest, hrest, h⟩ := Option.bind_eq_some_iff.1 h
  obtain rfl := Option.some.inj h
  exact (Constraint.spelled_named hfirst).append
    (spelled_flatMap (fun _ _ => Constraint.spelled_named) hrest)

theorem Binder.spelled_named {m : SymbolTable} {b : Binder Symbol} {b' : Binder String}
    (h : b.spell m = some b') : Spelled m b.named b'.named := by
  cases b with
  | var x arity =>
    obtain ⟨x', hx, h⟩ := Option.bind_eq_some_iff.1 h
    obtain rfl := Option.some.inj h
    exact spelled_singleton (Named.spell_var hx)
  | wildcard arity =>
    obtain rfl := Option.some.inj h
    exact spelled_nil m

namespace Field

mutual

theorem spelled_named {m : SymbolTable} {f : Field Symbol α} {f' : Field String α}
    (h : f.spell m = some f') : Spelled m f.named f'.named := by
  cases f with
  | plain b as declared n =>
    obtain ⟨b', hb, h⟩ := Option.bind_eq_some_iff.1 h
    obtain ⟨as', has, h⟩ := Option.bind_eq_some_iff.1 h
    obtain rfl := Option.some.inj h
    exact (Binder.spelled_named hb).append (spelled_flatMap (fun _ _ => Alternative.spelled_named) has)
  | multi ps as declared n =>
    obtain ⟨ps', hps, h⟩ := Option.bind_eq_some_iff.1 h
    obtain ⟨as', -, h⟩ := Option.bind_eq_some_iff.1 h
    obtain rfl := Option.some.inj h
    exact spelled_namedAll hps

theorem spelled_namedAll {m : SymbolTable} {fs : List (Field Symbol α)} {fs' : List (Field String α)}
    (h : spellAll m fs = some fs') : Spelled m (namedAll fs) (namedAll fs') := by
  cases fs with
  | nil =>
    obtain rfl := Option.some.inj h
    exact spelled_nil m
  | cons f fs =>
    obtain ⟨f', hf, h⟩ := Option.bind_eq_some_iff.1 h
    obtain ⟨fs', hfs, h⟩ := Option.bind_eq_some_iff.1 h
    obtain rfl := Option.some.inj h
    exact (spelled_named hf).append (spelled_namedAll hfs)

end

end Field

theorem Environment.name_eq {e : Environment} {x : Symbol} {name : String}
    (h : e.symbols.name? x = some name) : e.name x = name := by
  rw [Environment.name, h, Option.getD_some]

theorem Environment.map_name_eq {e : Environment} {x : Option Symbol} {name : Option String}
    (h : x.mapM e.symbols.name? = some name) : x.map e.name = name := by
  cases x with
  | none => exact Option.some.inj h
  | some x =>
    rw [Option.mapM_some] at h
    obtain ⟨y, hy, rfl⟩ := Option.map_eq_some_iff.1 h
    rw [Option.map_some, name_eq hy]

/-- Blame of a symbol is blame of its name. -/
theorem Named.BlamedAs.spell {e : Environment} {text : String} {n : Named Symbol} {n' : Named String}
    (h : n.BlamedAs e.symbolReading text) (hspell : n.spell e.symbols = some n') :
    n'.BlamedAs e.nameReading text := by
  cases n with
  | var x =>
    obtain ⟨name, hname, hspell⟩ := Option.bind_eq_some_iff.1 hspell
    obtain rfl := Option.some.inj hspell
    exact h.trans (Environment.name_eq hname)
  | global x =>
    obtain ⟨name, hname, hspell⟩ := Option.bind_eq_some_iff.1 hspell
    obtain rfl := Option.some.inj hspell
    obtain ⟨htext, hnot⟩ := h
    refine ⟨?_, ?_⟩
    · rw [htext]
      exact congrArg (fun s => "*" ++ s ++ "*") (Environment.name_eq hname)
    · -- no other symbol has the same name
      rintro ⟨y, hy, hglobal⟩
      rw [SymbolTable.name?_eq_some_iff] at hname hy
      obtain rfl : y = x := Option.some.inj (hy.symm.trans hname)
      exact hnot hglobal

theorem exists_getElem?_of_mapM {f : α → Option β} {xs : List α} {ys : List β} (h : xs.mapM f = some ys)
    {i : Nat} {x : α} (hx : xs[i]? = some x) : ∃ y, f x = some y ∧ ys[i]? = some y := by
  induction xs generalizing ys i with
  | nil => cases hx
  | cons x' xs ih =>
    rw [List.mapM_cons] at h
    obtain ⟨y, hy, h⟩ := Option.bind_eq_some_iff.1 h
    obtain ⟨ys, hys, h⟩ := Option.bind_eq_some_iff.1 h
    obtain rfl := Option.some.inj h
    cases i with
    | zero =>
      obtain rfl := Option.some.inj hx
      exact ⟨y, hy, rfl⟩
    | succ i => exact ih hys hx

namespace Diagnostic

theorem BlamesOneOf.spell {e : Environment} {ns : List (Named Symbol)} {ns' : List (Named String)}
    {d : Diagnostic} (h : d.BlamesOneOf e.symbolReading ns) (hns : Spelled e.symbols ns ns') :
    d.BlamesOneOf e.nameReading ns' := by
  intro text htext
  obtain ⟨n, hn, hblamed⟩ := h text htext
  obtain ⟨n', hn', hspell⟩ := hns n hn
  exact ⟨n', hn', hblamed.spell hspell⟩

/-- The parts of a condition do not depend on its notes. -/
theorem pointsInto_bare {r : Reading ν} {k : Condition ν α} {d : Diagnostic} :
    d.PointsInto r k.bare ↔ d.PointsInto r k := by
  obtain ⟨element, beginDepth, endDepth, n⟩ := k
  cases element with
  | test t => simp [PointsInto, Condition.bare, Condition.mapNotes, Element.mapNotes]
  | pattern mode q =>
    simp [PointsInto, Condition.bare, Condition.mapNotes, Element.mapNotes, Pattern.mapNotes, Slot.mapNotes]

/-- Pointing into a condition of symbols is pointing into the condition as it is spelled. -/
theorem PointsInto.spell {e : Environment} {k : Condition Symbol α} {k' : Condition String α}
    {d : Diagnostic} (h : d.PointsInto e.symbolReading k) (hk : k.spell e.symbols = some k') :
    d.PointsInto e.nameReading k' := by
  obtain ⟨element, beginDepth, endDepth, n⟩ := k
  obtain ⟨element', helement, hk⟩ := Option.bind_eq_some_iff.1 hk
  obtain rfl := Option.some.inj hk
  cases element with
  | test t =>
    obtain ⟨t', ht, helement⟩ := Option.bind_eq_some_iff.1 helement
    obtain rfl := Option.some.inj helement
    obtain ⟨hfield, hslot, hblames⟩ := h
    exact ⟨hfield, hslot, hblames.spell (Term.spelled_named ht)⟩
  | pattern mode q =>
    obtain ⟨q', hq, helement⟩ := Option.bind_eq_some_iff.1 helement
    obtain rfl := Option.some.inj helement
    obtain ⟨handle, hhandle, hq⟩ := Option.bind_eq_some_iff.1 hq
    obtain ⟨slots, hslots, hq⟩ := Option.bind_eq_some_iff.1 hq
    obtain rfl := Option.some.inj hq
    rcases h with ⟨x, hx, hfield, hslot, hblamed, hfault⟩ | ⟨j, s, hs, hfield, hslot, hblames⟩
    · refine .inl ⟨e.name x, ?_, hfield, hslot, hblamed, hfault⟩
      rw [← Environment.map_name_eq hhandle, hx, Option.map_some]
    · obtain ⟨s', hs', hget⟩ := exists_getElem?_of_mapM hslots hs
      obtain ⟨name, hname, hs'⟩ := Option.bind_eq_some_iff.1 hs'
      obtain ⟨f', hf, hs'⟩ := Option.bind_eq_some_iff.1 hs'
      obtain rfl := Option.some.inj hs'
      refine .inr ⟨j, _, hget, hfield, ?_, hblames.spell (Field.spelled_named hf)⟩
      rw [hslot]
      exact (Environment.map_name_eq hname).trans (Option.map_id_apply).symm

end Diagnostic

namespace Lhs

/-- **Diagnostics point at what they blame.** If a left-hand side is interned and its compilation with this
symbol table, or with a later one, fails, then the diagnostic stands at one of the conditions as written. It
has no field and no slot only if the condition is a test or if it blames the handle of the pattern; else it
has the number of one of the pattern's fields and the name of its slot. What it blames is named in this field
or test, and is not a global variable that is defined. -/
theorem compile_error_points_into {c : Context} {l : Lhs String Unit} {names : SymbolTable}
    (hnames : c.env.symbols.Extends (l.intern names).2) {d : Diagnostic}
    (h : (l.intern names).1.compile c = .error d) :
    ∃ i k, d.location.pattern = i + 1 ∧ l[i]? = some k ∧ d.PointsInto c.env.nameReading k := by
  obtain ⟨y, hy, hpattern, hpoints⟩ := exists_pointedAt_of_compile h
  obtain ⟨hpos, hget⟩ := getElem?_of_mem_conditionsFrom hy
  have hspell := (yields_intern l names).2 c.env.symbols hnames
  have hbare : (l.intern names).1.bare[y.pattern - 1]? = some y.condition.bare := by
    rw [bare, List.getElem?_map, hget, Option.map_some]
  obtain ⟨k', hk', hget'⟩ := exists_getElem?_of_mapM hspell hbare
  obtain ⟨k, hk, rfl⟩ := Option.map_eq_some_iff.1 (List.getElem?_map.symm.trans hget')
  refine ⟨y.pattern - 1, k, by omega, hk, ?_⟩
  exact Diagnostic.pointsInto_bare.1 ((Diagnostic.pointsInto_bare.2 hpoints).spell hk')

/-- A pattern with the field `?x`, and a pattern with the slot `color` and a multifield slot `size` that ends
with `$?x`. -/
def sequenceInSlot : Lhs String Unit :=
  ofSteps
    [.pattern ⟨.fact, none, [⟨none, .plain (.var "x" .single) [] none ()⟩]⟩,
      .pattern ⟨.object, some "box",
        [⟨some "color", .plain (.wildcard .single) [] none ()⟩,
          ⟨some "size", .multi [.plain (.wildcard .single) [] none (), .plain (.var "x" .sequence) [] none ()]
            [] none ()⟩]⟩]

/-- The environment with the symbols of the two patterns. -/
def sequenceInSlotContext : Context :=
  ⟨{ Environment.withBuiltins with
      symbols := (sequenceInSlot.intern Environment.withBuiltins.symbols).2 }, .standard⟩

/-- The clash is found where the first pattern binds `x`, and is reported at the slot of the second one. -/
theorem sequenceInSlot_points_into :
    ∃ d, (sequenceInSlot.intern Environment.withBuiltins.symbols).1.compile sequenceInSlotContext = .error d ∧
      d.location = ⟨2, some 2, some "size", some "x", none⟩ ∧
      ∃ i k, d.location.pattern = i + 1 ∧ sequenceInSlot[i]? = some k ∧
        d.PointsInto sequenceInSlotContext.env.nameReading k := by
  obtain ⟨d, hd, hlocation⟩ := exists_error_of_check
    (e := (sequenceInSlot.intern Environment.withBuiltins.symbols).1.compile sequenceInSlotContext)
    (p := fun d => decide (d.location = ⟨2, some 2, some "size", some "x", none⟩)) (by decide +kernel)
  exact ⟨d, hd, of_decide_eq_true hlocation, compile_error_points_into (.refl _) hd⟩

end Lhs

end Antecedent
