import Antecedent.Proofs.Mentions
import Antecedent.Proofs.Relaxation

/-!
# What lies ahead of a binding

A binding is let pass only if no occurrence of its name that will see it has another arity. Which
occurrences these are can be said in place: those in the fields after it, and those in the conditions
that its own condition reaches.

* `Occurrence.Agrees` says that an occurrence has the arity of a variable, if it has its name, and
  `Binding.clashes_eq_false_iff` that bindings clash with no other occurrences.
* `ConditionAt.mem_occurrences_iff` and `Lhs.mem_reachAfter_iff` say where the occurrences stand that a
  binding looks at.
* `FieldVisit.Permitted` says that the fields of a pattern were compiled one after another, each with
  the fields after it and what lies beyond the pattern ahead; `Condition.permitted_of_visit` gives this
  for the run behind a compiled pattern.
-/

namespace Antecedent

variable {α : Type}

/-! ## Arities of occurrences -/

namespace Occurrence

/-- A match handle is a single value. -/
def arity (o : Occurrence) : Arity :=
  match o.role with
  | .handle => .single
  | .var arity => arity

/-- The occurrence has another name, or the given arity. -/
def Agrees (o : Occurrence) (x : Symbol) (arity : Arity) : Prop := o.name = x → o.arity = arity

end Occurrence

/-- What binds nothing does not clash with a match handle; all else agrees or clashes. -/
theorem Binding.clashes_eq_false_iff {b : Binding} {o : Occurrence} :
    b.clashes o = false ↔ (o.role = .handle ∧ b.origin = none) ∨ o.Agrees b.name b.arity := by
  obtain ⟨name, role, spot⟩ := o
  obtain ⟨x, arity, origin, restriction, floor⟩ := b
  cases role with
  | handle =>
    cases origin with
    | none => simp [clashes]
    | some o =>
      cases arity <;> simp [clashes, Occurrence.Agrees, Occurrence.arity, Arity.isSequence]
  | var arity' => simp [clashes, Occurrence.Agrees, Occurrence.arity]

/-- A binding occurrence that does not clash agrees. -/
theorem Binding.agrees_of_origin {b : Binding} {o : Occurrence} (h : b.clashes o = false)
    (horigin : b.origin ≠ none) : o.Agrees b.name b.arity :=
  (clashes_eq_false_iff.1 h).resolve_left fun hnone => horigin hnone.2

/-! ## Where occurrences stand -/

/-- The occurrences in a field or part: its own variable, and what is inside. -/
def FieldAt.occurrences (x : FieldAt α) : List Occurrence :=
  x.field.ownOccurrence x.place.spot ++ x.field.inside x.place.spot

/-- The occurrences in a condition. -/
def ConditionAt.occurrences (y : ConditionAt α) : List Occurrence :=
  y.condition.occurrences y.pattern

/-- The occurrences of names in a left-hand side, outside of expressions. -/
def Lhs.occurrences (l : Lhs Symbol α) : List Occurrence :=
  l.conditionsAt.flatMap ConditionAt.occurrences

/-- The own occurrence of a field is that of the variable it binds. -/
theorem Field.ownOccurrence_of_binds? {f : Field Symbol α} {x : Symbol} {arity : Arity}
    (h : f.binds? = some (x, arity)) (spot : Spot) : f.ownOccurrence spot = [⟨x, .var arity, spot⟩] := by
  unfold binds? at h
  split at h
  · obtain ⟨rfl, rfl⟩ := Prod.mk.inj (Option.some.inj h)
    rfl
  · cases h

theorem Field.mem_occurrencesAll_iff (k id : Nat) {p : Place} {fs : List (Field Symbol α)}
    {o : Occurrence} :
    o ∈ occurrencesAll p.spot fs ↔ ∃ x ∈ partsAt p k id fs, o ∈ x.occurrences := by
  induction fs generalizing k id with
  | nil => simp [occurrencesAll, partsAt]
  | cons f fs ih =>
    have hhead : o ∈ (⟨{ p with site := p.site.part f k }, id, f⟩ : FieldAt α).occurrences ↔
        o ∈ f.ownOccurrence p.spot ∨ o ∈ f.inside p.spot :=
      List.mem_append
    simp only [occurrencesAll, partsAt, List.mem_append, List.exists_mem_cons_iff, hhead,
      ih (k + 1) (id + f.size)]
    exact or_right_comm

namespace Slot

theorem mem_occurrences_iff (id : Nat) {p : Place} {s : Slot Symbol α} {o : Occurrence} :
    o ∈ s.field.ownOccurrence p.spot ∨ o ∈ s.field.inside p.spot ↔
      ∃ x ∈ s.fieldsAt p id, o ∈ x.occurrences := by
  obtain ⟨name, f⟩ := s
  cases f with
  | plain b as declared n => simp [fieldsAt, FieldAt.occurrences]
  | multi ps as declared n =>
    simpa [Field.ownOccurrence, Field.inside, fieldsAt] using Field.mem_occurrencesAll_iff 0 (id + 1)

theorem mem_occurrencesAll_iff (id : Nat) {p : Place} {j : Nat} {ss : List (Slot Symbol α)}
    {o : Occurrence} :
    o ∈ occurrencesAll p.pattern j ss ↔ ∃ x ∈ fieldsAtAll p j id ss, o ∈ x.occurrences := by
  induction ss generalizing j id with
  | nil => simp [occurrencesAll, fieldsAtAll]
  | cons s ss ih =>
    have hspot : (⟨p.pattern, j, s.name⟩ : Spot) = (s.placeIn p j).spot := rfl
    simp only [occurrencesAll, fieldsAtAll, List.mem_append, or_and_right, exists_or, hspot,
      ← mem_occurrences_iff id, ← ih (id + s.field.size)]
    exact or_right_comm

end Slot

/-- An occurrence in a condition is that of its handle, or stands in one of its fields. -/
theorem ConditionAt.mem_occurrences_iff {y : ConditionAt α} {o : Occurrence} :
    o ∈ y.occurrences ↔
      (∃ b ∈ y.handle, o = ⟨b.1, .handle, ⟨y.pattern, 0, none⟩⟩) ∨
        ∃ x ∈ y.fields, o ∈ x.occurrences := by
  obtain ⟨pattern, joins, id, element, beginDepth, endDepth, n⟩ := y
  cases element with
  | test t => simp [occurrences, Condition.occurrences, handle, fields, Condition.fieldsAt]
  | pattern mode q =>
    have hfields : o ∈ Slot.occurrencesAll pattern 1 q.slots ↔ ∃ x ∈ Slot.fieldsAtAll
        (q.place pattern (joins + 1) beginDepth) 1 (id + 1) q.slots, o ∈ x.occurrences :=
      Slot.mem_occurrencesAll_iff (p := q.place pattern (joins + 1) beginDepth) (id + 1)
    simp only [occurrences, Condition.occurrences, handle, fields, Condition.fieldsAt,
      List.mem_append, hfields]
    refine or_congr_left ?_
    cases q.handle <;> simp

namespace Lhs

/-- A binding sees the occurrences in a condition if no condition before that ends below its floor. -/
theorem mem_reach_iff (joins id : Nat) {floor pattern : Nat} {l : Lhs Symbol α} {o : Occurrence} :
    o ∈ reach floor pattern l ↔ ∃ y ∈ conditionsFrom pattern joins id l, o ∈ y.occurrences ∧
      ∀ k ∈ l.take (y.pattern - pattern), floor ≤ k.endDepth := by
  induction l generalizing pattern joins id with
  | nil => simp [reach, conditionsFrom]
  | cons k ks ih =>
    have htail : (∃ y ∈ conditionsFrom (pattern + 1) (k.joinsAfter joins) (id + k.size) ks,
        o ∈ y.occurrences ∧ ∀ k' ∈ (k :: ks).take (y.pattern - pattern), floor ≤ k'.endDepth) ↔
        floor ≤ k.endDepth ∧ o ∈ reach floor (pattern + 1) ks := by
      rw [ih (k.joinsAfter joins) (id + k.size), ← exists_and_left]
      refine exists_congr fun y => ?_
      rw [and_left_comm (a := floor ≤ k.endDepth)]
      refine and_congr_right fun hy => ?_
      have hsucc : y.pattern - pattern = y.pattern - (pattern + 1) + 1 := by
        have := (getElem?_of_mem_conditionsFrom hy).1
        omega
      rw [hsucc, List.take_succ_cons, List.forall_mem_cons, and_left_comm]
    rw [conditionsFrom, List.exists_mem_cons_iff, htail, reach, List.mem_append]
    refine or_congr (by simp [ConditionAt.occurrences]) ?_
    by_cases hfloor : floor ≤ k.endDepth <;> simp [hfloor]

theorem between_split (pre rest : Lhs Symbol α) (k : Condition Symbol α) {pattern : Nat}
    (hpattern : pre.length + 2 ≤ pattern) :
    between (pre ++ k :: rest) pre.length (pattern - 1) =
      k :: rest.take (pattern - (pre.length + 2)) := by
  have hindex : pattern - 1 = pre.length + (pattern - (pre.length + 2) + 1) := by omega
  rw [between, hindex, List.take_length_add_append, List.drop_left, List.take_succ_cons]

/-- The bindings made in a condition see the occurrences of the later conditions that they reach. -/
theorem mem_reachAfter_iff {pre rest : Lhs Symbol α} {k : Condition Symbol α} {o : Occurrence} :
    o ∈ reachAfter (pre.length + 1) k rest ↔
      ∃ y ∈ conditionsAt (pre ++ k :: rest), pre.length + 1 < y.pattern ∧ o ∈ y.occurrences ∧
        k.mode = .plain ∧
          ∀ k' ∈ between (pre ++ k :: rest) pre.length (y.pattern - 1), k.beginDepth ≤ k'.endDepth := by
  have hlater {y : ConditionAt α} : y ∈ conditionsAt (pre ++ k :: rest) ∧ pre.length + 1 < y.pattern ↔
      y ∈ conditionsFrom (pre.length + 2) (k.joinsAfter pre.joins) (pre.nodeCount + k.size) rest := by
    rw [mem_conditionsAt_split]
    constructor
    · rintro ⟨hy | rfl | hy, hlt⟩
      · have hget := (getElem?_of_mem_conditionsFrom hy).2
        have := (List.getElem?_eq_some_iff.1 hget).1
        omega
      · exact absurd hlt (Nat.lt_irrefl _)
      · exact hy
    · intro hy
      exact ⟨.inr (.inr hy), (getElem?_of_mem_conditionsFrom hy).1⟩
  have hreach : o ∈ reachAfter (pre.length + 1) k rest ↔
      (k.mode = .plain ∧ k.beginDepth ≤ k.endDepth) ∧
        o ∈ reach k.beginDepth (pre.length + 2) rest := by
    rw [reachAfter]
    by_cases hplain : k.mode = .plain ∧ k.beginDepth ≤ k.endDepth <;> simp [hplain]
  rw [hreach, mem_reach_iff (k.joinsAfter pre.joins) (pre.nodeCount + k.size), ← exists_and_left]
  refine exists_congr fun y => ?_
  rw [← and_assoc (b := pre.length + 1 < y.pattern), hlater, and_left_comm]
  refine and_congr_right fun hy => ?_
  rw [between_split pre rest k (getElem?_of_mem_conditionsFrom hy).1, List.forall_mem_cons]
  tauto

end Lhs

/-! ## Fields that were let pass -/

theorem FieldAt.Compiles.unique {c : Context} {σ : Scope} {x : FieldAt α}
    {v v' : Visited (Field Symbol Note)} (h : x.Compiles c σ v) (h' : x.Compiles c σ v') : v = v' := by
  obtain ⟨bound, hbound, rfl⟩ := h
  obtain ⟨bound', hbound', rfl⟩ := h'
  obtain rfl := Except.ok.inj (hbound.symm.trans hbound')
  rfl

namespace FieldVisit

namespace Run

theorem of_append {c : Context} {σ : Scope} {ts us : List (FieldVisit α)} (h : Run c σ (ts ++ us)) :
    Run c σ ts ∧ Run c (σ ++ bindings ts) us := by
  induction ts generalizing σ with
  | nil => exact ⟨.nil σ, by simpa using h⟩
  | cons t ts ih =>
    cases h with
    | cons head tail =>
      obtain ⟨hts, hus⟩ := ih tail
      exact ⟨.cons head hts, by simpa using hus⟩

theorem cons_iff {c : Context} {σ : Scope} {t : FieldVisit α} {ts : List (FieldVisit α)} :
    Run c σ (t :: ts) ↔ t.scope = σ ∧ t.source.Compiles c σ t.visited ∧
      Run c (σ ++ t.visited.bindings) ts := by
  constructor
  · intro h
    cases h with
    | cons head tail => exact ⟨rfl, head, tail⟩
  · rintro ⟨rfl, head, tail⟩
    exact .cons head tail

/-- What comes of some fields is determined by the scope in front of them. -/
theorem unique {c : Context} {σ : Scope} {ts us : List (FieldVisit α)} (hts : Run c σ ts)
    (hus : Run c σ us) (hsource : ts.map source = us.map source) : ts = us := by
  induction ts generalizing σ us with
  | nil => exact (List.map_eq_nil_iff.1 hsource.symm).symm
  | cons t ts ih =>
    obtain ⟨u, us, rfl, hu, husource⟩ := List.map_eq_cons_iff.1 hsource.symm
    obtain ⟨htscope, htcompiles, hts⟩ := cons_iff.1 hts
    obtain ⟨huscope, hucompiles, hus⟩ := cons_iff.1 hus
    rw [hu] at hucompiles
    have hvisited := htcompiles.unique hucompiles
    have hhead : t = u := by
      obtain ⟨scope, source, visited⟩ := t
      obtain ⟨scope', source', visited'⟩ := u
      simp_all
    subst hhead
    rw [ih hts hus husource.symm]

end Run

/-- Some fields were compiled one after another, each with the fields after it and some occurrences
`beyond` them ahead. -/
inductive Permitted (c : Context) (beyond : List Occurrence) : List (FieldVisit α) → Prop where
  | nil : Permitted c beyond []
  | cons {t : FieldVisit α} {ts : List (FieldVisit α)} {ahead : List Occurrence}
      (visit : t.source.field.visit c t.source.place t.source.id t.scope ahead = .ok t.visited)
      (later : ∀ u ∈ ts, u.source.occurrences ⊆ ahead) (further : beyond ⊆ ahead)
      (tail : Permitted c beyond ts) : Permitted c beyond (t :: ts)

namespace Permitted

theorem append {c : Context} {beyond beyond' : List Occurrence} {ts us : List (FieldVisit α)}
    (hts : Permitted c beyond ts) (hus : Permitted c beyond' us)
    (hlater : ∀ u ∈ us, u.source.occurrences ⊆ beyond) (hbeyond : beyond' ⊆ beyond) :
    Permitted c beyond' (ts ++ us) := by
  induction hts with
  | nil => exact hus
  | cons visit later further tail ih =>
    refine .cons visit (fun u hu => ?_) (fun o ho => further (hbeyond ho)) ih
    rcases List.mem_append.1 hu with hu | hu
    · exact later u hu
    · exact fun o ho => further (hlater u hu ho)

/-- Each of the fields was compiled with those after it ahead. -/
theorem exists_visit {c : Context} {beyond : List Occurrence} {ts us : List (FieldVisit α)}
    {t : FieldVisit α} (h : Permitted c beyond (ts ++ t :: us)) :
    ∃ ahead, t.source.field.visit c t.source.place t.source.id t.scope ahead = .ok t.visited ∧
      (∀ u ∈ us, u.source.occurrences ⊆ ahead) ∧ beyond ⊆ ahead := by
  induction ts with
  | nil =>
    cases h with
    | cons visit later further tail => exact ⟨_, visit, later, further⟩
  | cons s ts ih =>
    cases h with
    | cons visit later further tail => exact ih tail

end Permitted

end FieldVisit

theorem Field.permitted_of_visitParts {c : Context} {p : Place} {slotsAhead beyond : List Occurrence}
    {k id : Nat} {σ : Scope} {fs : List (Field Symbol α)} {vs : List (Visited (Field Symbol Note))}
    (h : visitParts c p slotsAhead beyond k id σ fs = .ok vs) {ts : List (FieldVisit α)}
    (hrun : FieldVisit.Run c σ ts) (hsource : ts.map FieldVisit.source = partsAt p k id fs) :
    FieldVisit.Permitted c (slotsAhead ++ beyond) ts := by
  induction fs generalizing k id σ vs ts with
  | nil =>
    obtain rfl := List.map_eq_nil_iff.1 hsource
    exact .nil
  | cons f fs ih =>
    obtain ⟨v, us, hv, hus, rfl⟩ := visitParts_cons_eq_ok.1 h
    obtain ⟨t, ts, rfl, ht, hts⟩ := List.map_eq_cons_iff.1 hsource
    obtain ⟨rfl, hcompiles, hrun⟩ := FieldVisit.Run.cons_iff.1 hrun
    rw [ht] at hcompiles
    obtain rfl : v = t.visited := (FieldAt.compiles_of_visit hv).unique hcompiles
    have hvisit : t.source.field.visit c t.source.place t.source.id t.scope
        (slotsAhead ++ occurrencesAll p.spot fs ++ beyond) = .ok t.visited := by
      rw [ht]
      exact hv
    refine .cons hvisit (fun u hu o ho => ?_) (fun o ho => ?_) (ih hus hrun hts)
    · have hmem : o ∈ occurrencesAll p.spot fs :=
        (mem_occurrencesAll_iff (k + 1) (id + f.size)).2 ⟨_, hts ▸ List.mem_map_of_mem hu, ho⟩
      simp [hmem]
    · rcases List.mem_append.1 ho with ho | ho <;> simp [ho]

namespace Slot

theorem permitted_of_visit {c : Context} {p : Place} {id : Nat} {σ : Scope}
    {slotsAhead beyond : List Occurrence} {s : Slot Symbol α} {w : Visited (Slot Symbol Note)}
    (h : s.visit c p id σ slotsAhead beyond = .ok w) {ts : List (FieldVisit α)}
    (hrun : FieldVisit.Run c σ ts) (hsource : ts.map FieldVisit.source = s.fieldsAt p id) :
    FieldVisit.Permitted c (slotsAhead ++ beyond) ts := by
  obtain ⟨name, f⟩ := s
  cases f with
  | multi ps as declared n =>
    obtain ⟨vs, hvs, -⟩ := bind_eq_ok.1 h
    exact Field.permitted_of_visitParts hvs hrun hsource
  | plain b as declared n =>
    obtain ⟨v, hv, -⟩ := bind_eq_ok.1 h
    obtain ⟨t, ts, rfl, ht, hts⟩ := List.map_eq_cons_iff.1 hsource
    obtain rfl := List.map_eq_nil_iff.1 hts
    obtain ⟨rfl, hcompiles, -⟩ := FieldVisit.Run.cons_iff.1 hrun
    rw [ht] at hcompiles
    have hcompiled : FieldAt.Compiles c t.scope ⟨p, id, .plain b as declared n⟩ v :=
      FieldAt.compiles_of_visit hv
    obtain rfl : v = t.visited := hcompiled.unique hcompiles
    exact .cons (by rw [ht]; exact hv) (by simp) (List.Subset.refl _) .nil

theorem permitted_of_visitAll {c : Context} {p : Place} {beyond : List Occurrence} {j id : Nat}
    {σ : Scope} {ss : List (Slot Symbol α)} {ws : List (Visited (Slot Symbol Note))}
    (h : visitAll c p beyond j id σ ss = .ok ws) {ts : List (FieldVisit α)}
    (hrun : FieldVisit.Run c σ ts) (hsource : ts.map FieldVisit.source = fieldsAtAll p j id ss) :
    FieldVisit.Permitted c beyond ts := by
  induction ss generalizing j id σ ws ts with
  | nil =>
    obtain rfl := List.map_eq_nil_iff.1 hsource
    exact .nil
  | cons s ss ih =>
    obtain ⟨w, ws, hw, hws, rfl⟩ := visitAll_cons_eq_ok.1 h
    obtain ⟨us, vs, rfl, hus, hvs⟩ := List.map_eq_append_iff.1 hsource
    obtain ⟨husrun, hvsrun⟩ := hrun.of_append
    obtain ⟨us', hus'run, hus', -, hbindings, -⟩ := exists_run_of_visit hw
    obtain rfl : us' = us := hus'run.unique husrun (hus'.trans hus.symm)
    rw [hbindings] at hws
    refine (permitted_of_visit hw husrun hus).append (ih hws hvsrun hvs) (fun u hu o ho => ?_)
      (List.subset_append_right ..)
    exact List.mem_append_left _ ((mem_occurrencesAll_iff (id + s.field.size)).2
      ⟨_, hvs ▸ List.mem_map_of_mem hu, ho⟩)

end Slot

/-- What a compiled field binds agrees with the occurrences inside of it and ahead. -/
theorem FieldAt.agrees_of_visit {c : Context} {σ : Scope} {ahead : List Occurrence} {x : FieldAt α}
    {v : Visited (Field Symbol Note)} (h : x.field.visit c x.place x.id σ ahead = .ok v)
    {name : Symbol} {arity : Arity} (hbinds : x.field.binds? = some (name, arity)) :
    ∀ o ∈ x.field.inside x.place.spot ++ ahead, o.Agrees name arity := by
  obtain ⟨hinside, ⟨bound, -, rfl⟩, -, hahead⟩ := FieldAt.visit_eq_ok.1 h
  have hown : (⟨name, arity, some ⟨x.id, x.place⟩, σ.restriction? name x.field.declared,
      x.place.beginDepth⟩ : Binding) ∈ x.own σ :=
    Option.map_eq_some_iff.2 ⟨(name, arity), hbinds, rfl⟩
  have hpass := hahead _ (List.mem_append_right _ (Option.mem_toList.2 hown))
  refine List.forall_mem_append.2 ⟨fun o ho => ?_, fun o ho => ?_⟩
  · exact Binding.agrees_of_origin (Context.permit_eq_ok.1 (hinside _ hown) o ho) nofun
  · exact Binding.agrees_of_origin (Context.permit_eq_ok.1 hpass o ho) nofun

/-! ## Patterns that were let pass -/

/-- **A compiled pattern was let pass**: its handle was not bound before and agrees with the occurrences
in its fields and beyond it, and its fields were let pass. -/
theorem Condition.permitted_of_visit {c : Context} {pattern joins id : Nat} {σ : Scope}
    {rest : Lhs Symbol α} {k : Condition Symbol α} {v : VisitedCondition} {mode : Mode}
    {q : Pattern Symbol α} (hk : k.element = .pattern mode q)
    (h : k.visit c pattern joins id σ rest = .ok v) {ts : List (FieldVisit α)}
    (hrun : FieldVisit.Run c
      (σ ++ (q.binding? (q.place pattern (joins + 1) k.beginDepth) id).toList) ts)
    (hsource : ts.map FieldVisit.source = k.fieldsAt pattern joins id) :
    (∀ x ∈ q.handle, σ.origins x = [] ∧ (∀ t ∈ ts, ∀ o ∈ t.source.occurrences, o.Agrees x .single) ∧
      ∀ o ∈ Lhs.reachAfter pattern k rest, o.Agrees x .single) ∧
      FieldVisit.Permitted c (Lhs.reachAfter pattern k rest) ts := by
  obtain ⟨element, beginDepth, endDepth, n⟩ := k
  obtain rfl : element = .pattern mode q := hk
  obtain ⟨⟨⟩, hhandle, h⟩ := bind_eq_ok.1 h
  obtain ⟨⟨⟩, hown, h⟩ := bind_eq_ok.1 h
  obtain ⟨ws, hws, -⟩ := bind_eq_ok.1 h
  refine ⟨fun x hx => ⟨Pattern.checkHandle_eq_ok.1 hhandle x hx, ?_⟩,
    Slot.permitted_of_visitAll hws hrun hsource⟩
  have hb : (⟨x, .single, some ⟨id, q.place pattern (joins + 1) beginDepth⟩, some .address,
      beginDepth⟩ : Binding) ∈ q.binding? (q.place pattern (joins + 1) beginDepth) id :=
    Option.map_eq_some_iff.2 ⟨x, hx, rfl⟩
  have hpass := Context.permit_eq_ok.1 (option_forM_eq_ok.1 hown _ hb)
  refine ⟨fun t ht o ho => Binding.agrees_of_origin (hpass o (List.mem_append_left _ ?_)) nofun,
    fun o ho => Binding.agrees_of_origin (hpass o (List.mem_append_right _ ho)) nofun⟩
  have hsource : ts.map FieldVisit.source =
      Slot.fieldsAtAll (q.place pattern (joins + 1) beginDepth) 1 (id + 1) q.slots := hsource
  exact (Slot.mem_occurrencesAll_iff (p := q.place pattern (joins + 1) beginDepth) (id + 1)).2
    ⟨t.source, hsource ▸ List.mem_map_of_mem ht, ho⟩

end Antecedent
