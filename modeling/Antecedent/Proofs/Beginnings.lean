import Antecedent.Proofs.Relaxation

/-!
# Compiling a beginning

Conditions are compiled in order, and so are the slots of a pattern and the parts of a slot. A
left-hand side can be cut short after any field, and what comes after the cut has no influence on the
notes before it.

* `Begins` says of two lists that one ends within the other, where its last member may be cut short.
  `Slot.Cut` and `Condition.Cut` cut a slot after a part and a pattern after a field, and
  `Lhs.Beginning` a left-hand side.
* `Slot.visitAll_of_begins` and `Lhs.compileFrom_of_beginning` go through the steps of a compilation.
* `Lhs.compile_of_beginning` is the result: a beginning compiles, and its fields have the notes and
  tests that they have in the whole. Only the tests that a condition collects from its fields differ.
-/

namespace Antecedent

variable {ν α β : Type}

/-! ## Beginnings -/

/-- A list that ends within another one, with its last member cut short. -/
inductive Begins (cut : β → β → Prop) : List β → List β → Prop where
  | last {x' x : β} (h : cut x' x) (xs : List β) : Begins cut [x'] (x :: xs)
  | cons (x : β) {xs' xs : List β} (h : Begins cut xs' xs) : Begins cut (x :: xs') (x :: xs)

/-- A slot that is whole or cut short after some of its parts. -/
inductive Slot.Cut : Slot ν α → Slot ν α → Prop where
  | whole (s : Slot ν α) : Cut s s
  | parts (name : Option ν) {ps' ps : List (Field ν α)} (h : ps' <+: ps)
      (as : List (Alternative ν α)) (declared : Option Restriction) (n : α) :
      Cut ⟨name, .multi ps' as declared n⟩ ⟨name, .multi ps as declared n⟩

/-- A condition that is whole, or a pattern that is cut short within its fields. -/
inductive Condition.Cut : Condition ν α → Condition ν α → Prop where
  | whole (k : Condition ν α) : Cut k k
  | slots (mode : Mode) (kind : EntityKind) (handle : Option ν) {ss' ss : List (Slot ν α)}
      (h : Begins Slot.Cut ss' ss) (beginDepth endDepth : Nat) (n : α) :
      Cut ⟨.pattern mode ⟨kind, handle, ss'⟩, beginDepth, endDepth, n⟩
        ⟨.pattern mode ⟨kind, handle, ss⟩, beginDepth, endDepth, n⟩

/-- A beginning of a left-hand side: some conditions, the last of which may be cut short. -/
def Lhs.Beginning (l' l : Lhs ν α) : Prop := Begins Condition.Cut l' l

/-! ## Occurrences in a beginning -/

theorem Field.occurrencesAll_subset {fs' fs : List (Field Symbol α)} (h : fs' <+: fs) (spot : Spot) :
    occurrencesAll spot fs' ⊆ occurrencesAll spot fs := by
  obtain ⟨rest, rfl⟩ := h
  induction fs' with
  | nil => exact List.nil_subset _
  | cons f fs' ih =>
    rw [List.cons_append, occurrencesAll, occurrencesAll]
    exact append_subset_append (append_subset_append (List.Subset.refl _) ih) (List.Subset.refl _)

theorem Slot.Cut.name_eq {s' s : Slot Symbol α} (h : s'.Cut s) : s'.name = s.name := by
  cases h <;> rfl

theorem Slot.Cut.ownOccurrence_eq {s' s : Slot Symbol α} (h : s'.Cut s) (spot : Spot) :
    s'.field.ownOccurrence spot = s.field.ownOccurrence spot := by
  cases h <;> rfl

theorem Slot.Cut.inside_subset {s' s : Slot Symbol α} (h : s'.Cut s) (spot : Spot) :
    s'.field.inside spot ⊆ s.field.inside spot := by
  cases h with
  | whole s => exact List.Subset.refl _
  | parts name hps as declared n => exact Field.occurrencesAll_subset hps spot

theorem Slot.occurrencesAll_subset {ss' ss : List (Slot Symbol α)} (h : Begins Cut ss' ss)
    (pattern j : Nat) : occurrencesAll pattern j ss' ⊆ occurrencesAll pattern j ss := by
  induction h generalizing j with
  | last hcut xs =>
    rw [occurrencesAll, occurrencesAll, hcut.name_eq, hcut.ownOccurrence_eq]
    exact append_subset_append (append_subset_append (List.Subset.refl _) (List.nil_subset _))
      (hcut.inside_subset _)
  | cons s _ ih =>
    rw [occurrencesAll, occurrencesAll]
    exact append_subset_append (append_subset_append (List.Subset.refl _) (ih (j + 1)))
      (List.Subset.refl _)

theorem Condition.Cut.occurrences_subset {k' k : Condition Symbol α} (h : k'.Cut k) (pattern : Nat) :
    k'.occurrences pattern ⊆ k.occurrences pattern := by
  cases h with
  | whole k => exact List.Subset.refl _
  | slots mode kind handle hss beginDepth endDepth n =>
    exact append_subset_append (List.Subset.refl _) (Slot.occurrencesAll_subset hss pattern 1)

namespace Lhs

theorem Beginning.reach_subset {l' l : Lhs Symbol α} (h : l'.Beginning l) (floor pattern : Nat) :
    reach floor pattern l' ⊆ reach floor pattern l := by
  induction h generalizing pattern with
  | last hcut ks =>
    refine append_subset_append (hcut.occurrences_subset pattern) ?_
    simp [reach]
  | cons k _ ih =>
    rw [reach, reach]
    refine append_subset_append (List.Subset.refl _) ?_
    split
    · exact ih (pattern + 1)
    · exact List.Subset.refl _

theorem Beginning.reachAfter_subset {l' l : Lhs Symbol α} (h : l'.Beginning l) (pattern : Nat)
    (k : Condition Symbol α) : reachAfter pattern k l' ⊆ reachAfter pattern k l := by
  rw [reachAfter, reachAfter]
  split
  · exact h.reach_subset k.beginDepth (pattern + 1)
  · exact List.Subset.refl _

theorem reachAfter_nil_subset (pattern : Nat) (k : Condition Symbol α) (xs : List Occurrence) :
    reachAfter pattern k [] ⊆ xs := by
  simp [reachAfter, reach]

end Lhs

/-! ## Compiling -/

/-- The note without its tests. -/
def Note.withoutOutputs (n : Note) : Note := { n with out := {} }

/-- The condition without the tests that it collects from its fields, which keep their own. -/
def Condition.withoutJoins (k : Condition Symbol Note) : Condition Symbol Note :=
  { k with note := k.note.withoutOutputs }

def Lhs.withoutJoins (l : Lhs Symbol Note) : Lhs Symbol Note := l.map Condition.withoutJoins

section Visits

variable {c : Context}

theorem Field.visitParts_prefix {fs rest : List (Field Symbol α)} {p : Place}
    {slotsAhead slotsAhead' beyond beyond' : List Occurrence} (hslots : slotsAhead' ⊆ slotsAhead)
    (hbeyond : beyond' ⊆ beyond) {k id : Nat} {σ : Scope} {vs : List (Visited (Field Symbol Note))}
    (h : visitParts c p slotsAhead beyond k id σ (fs ++ rest) = .ok vs) :
    ∃ us ws, visitParts c p slotsAhead' beyond' k id σ fs = .ok us ∧ vs = us ++ ws := by
  induction fs generalizing k id σ vs with
  | nil => exact ⟨[], vs, rfl, rfl⟩
  | cons f fs ih =>
    obtain ⟨v, vs, hv, hvs, rfl⟩ := visitParts_cons_eq_ok.1 h
    have hahead : slotsAhead' ++ occurrencesAll p.spot fs ++ beyond' ⊆
        slotsAhead ++ occurrencesAll p.spot (fs ++ rest) ++ beyond :=
      append_subset_append
        (append_subset_append hslots (occurrencesAll_subset (List.prefix_append fs rest) p.spot))
        hbeyond
    have hv := visit_of_relaxes (.refl c _) hahead hv
    obtain ⟨us, ws, hus, rfl⟩ := ih hvs
    exact ⟨v :: us, ws, visitParts_cons_eq_ok.2 ⟨v, us, hv, hus, rfl⟩, rfl⟩

namespace Slot

theorem visit_of_cut {s' s : Slot Symbol α} (hcut : s'.Cut s) {p : Place} {id : Nat} {σ : Scope}
    {slotsAhead slotsAhead' beyond beyond' : List Occurrence} (hslots : slotsAhead' ⊆ slotsAhead)
    (hbeyond : beyond' ⊆ beyond) {w : Visited (Slot Symbol Note)}
    (h : s.visit c p id σ slotsAhead beyond = .ok w) :
    ∃ w', s'.visit c p id σ slotsAhead' beyond' = .ok w' ∧ w'.result.Cut w.result := by
  cases hcut with
  | whole s => exact ⟨w, visit_of_relaxes (.refl c _) hslots hbeyond h, .whole _⟩
  | parts name hps as declared n =>
    obtain ⟨rest, rfl⟩ := hps
    obtain ⟨vs, hvs, h⟩ := bind_eq_ok.1 h
    obtain rfl := pure_eq_ok.1 h
    obtain ⟨us, ws, hus, rfl⟩ := Field.visitParts_prefix hslots hbeyond hvs
    refine ⟨_, bind_eq_ok.2 ⟨us, hus, rfl⟩, .parts name ?_ [] declared _⟩
    rw [List.map_append]
    exact List.prefix_append _ _

theorem visitAll_of_begins {ss' ss : List (Slot Symbol α)} (hbegins : Begins Cut ss' ss) {p : Place}
    {beyond beyond' : List Occurrence} (hbeyond : beyond' ⊆ beyond) {j id : Nat} {σ : Scope}
    {ws : List (Visited (Slot Symbol Note))} (h : visitAll c p beyond j id σ ss = .ok ws) :
    ∃ ws', visitAll c p beyond' j id σ ss' = .ok ws' ∧
      Begins Cut (ws'.map Visited.result) (ws.map Visited.result) := by
  induction hbegins generalizing j id σ ws with
  | last hcut ss =>
    obtain ⟨w, ws, hw, -, rfl⟩ := visitAll_cons_eq_ok.1 h
    obtain ⟨w', hw', hresult⟩ := visit_of_cut hcut (List.nil_subset _) hbeyond hw
    rw [placeIn, ← hcut.name_eq] at hw'
    exact ⟨[w'], visitAll_cons_eq_ok.2 ⟨w', [], hw', rfl, rfl⟩, .last hresult _⟩
  | cons s hbegins ih =>
    obtain ⟨w, ws, hw, hws, rfl⟩ := visitAll_cons_eq_ok.1 h
    have hahead := occurrencesAll_subset hbegins p.pattern (j + 1)
    have hw := visit_of_relaxes (.refl c _) hahead hbeyond hw
    obtain ⟨ws', hws', hresults⟩ := ih hws
    exact ⟨w :: ws', visitAll_cons_eq_ok.2 ⟨w, ws', hw, hws', rfl⟩, .cons _ hresults⟩

end Slot

theorem Condition.visit_of_cut {k' k : Condition Symbol α} (hcut : k'.Cut k) {pattern joins id : Nat}
    {σ : Scope} {rest : Lhs Symbol α} {v : VisitedCondition}
    (h : k.visit c pattern joins id σ rest = .ok v) :
    ∃ v', k'.visit c pattern joins id σ [] = .ok v' ∧
      v'.condition.withoutJoins.Cut v.condition.withoutJoins := by
  cases hcut with
  | whole => exact ⟨v, visit_of_relaxes (.refl c _) (Lhs.reachAfter_nil_subset ..) h, .whole _⟩
  | @slots mode kind handle ss' ss hss beginDepth endDepth n =>
    let k' : Condition Symbol α := ⟨.pattern mode ⟨kind, handle, ss'⟩, beginDepth, endDepth, n⟩
    let k : Condition Symbol α := ⟨.pattern mode ⟨kind, handle, ss⟩, beginDepth, endDepth, n⟩
    have hbeyond : Lhs.reachAfter pattern k' [] ⊆ Lhs.reachAfter pattern k rest :=
      Lhs.reachAfter_nil_subset ..
    obtain ⟨⟨⟩, hhandle, h⟩ := bind_eq_ok.1 h
    obtain ⟨⟨⟩, hown, h⟩ := bind_eq_ok.1 h
    obtain ⟨ws, hws, h⟩ := bind_eq_ok.1 h
    obtain rfl := pure_eq_ok.1 h
    obtain ⟨ws', hws', hresults⟩ := Slot.visitAll_of_begins hss hbeyond hws
    have hahead := append_subset_append (Slot.occurrencesAll_subset hss pattern 1) hbeyond
    exact ⟨_, bind_eq_ok.2 ⟨⟨⟩, hhandle, bind_eq_ok.2 ⟨⟨⟩,
      Context.forM_permit_of_subset hahead hown, bind_eq_ok.2 ⟨ws', hws', rfl⟩⟩⟩,
      .slots mode kind handle hresults beginDepth endDepth _⟩

namespace Lhs

theorem compileFrom_of_beginning {l' l : Lhs Symbol α} (hl : l'.Beginning l)
    {pattern joins id : Nat} {σ : Scope} {u : Lhs Symbol Note}
    (h : compileFrom c pattern joins id σ l = .ok u) :
    ∃ u', compileFrom c pattern joins id σ l' = .ok u' ∧ u'.withoutJoins.Beginning u.withoutJoins := by
  induction hl generalizing pattern joins id σ u with
  | last hcut ks =>
    obtain ⟨v, us, hv, -, rfl⟩ := compileFrom_cons_eq_ok.1 h
    obtain ⟨v', hv', hcondition⟩ := Condition.visit_of_cut hcut hv
    exact ⟨[v'.condition], compileFrom_cons_eq_ok.2 ⟨v', [], hv', rfl, rfl⟩, .last hcondition _⟩
  | cons k hbegins ih =>
    obtain ⟨v, us, hv, hus, rfl⟩ := compileFrom_cons_eq_ok.1 h
    have hahead := Beginning.reachAfter_subset hbegins pattern k
    have hv := Condition.visit_of_relaxes (.refl c _) hahead hv
    obtain ⟨us', hus', hbeginning⟩ := ih hus
    exact ⟨v.condition :: us', compileFrom_cons_eq_ok.2 ⟨v, us', hv, hus', rfl⟩, .cons _ hbeginning⟩

theorem withoutJoins_collapse (u : Lhs Symbol Note) : (collapse u).withoutJoins = u.withoutJoins := by
  refine (map_eq_map_of_forall₂ (forall₂_collapse u) fun k k' hk => ?_).symm
  obtain ⟨d, rfl⟩ := hk
  rfl

/-- **What comes later has no influence on notes.** A beginning of a left-hand side that compiles
compiles too, and its result is a beginning of the whole result, up to the tests that a condition
collects from its fields. -/
theorem compile_of_beginning {l' l : Lhs Symbol α} (hl : l'.Beginning l) {r : Lhs Symbol Note}
    (h : l.compile c = .ok r) :
    ∃ r', l'.compile c = .ok r' ∧ r'.withoutJoins.Beginning r.withoutJoins := by
  obtain ⟨u, hu, rfl⟩ := exists_compileFrom_of_compile h
  obtain ⟨u', hu', hbeginning⟩ := compileFrom_of_beginning hl hu
  refine ⟨collapse u', bind_eq_ok.2 ⟨u', hu', rfl⟩, ?_⟩
  rwa [withoutJoins_collapse, withoutJoins_collapse]

end Lhs

end Visits

end Antecedent
