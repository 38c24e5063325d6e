import Antecedent.Proofs.Renaming

/-!
# Scopes of renamed variables

What a variable finds in scope, what is demanded of it and what lies ahead of its binding go by the
equality of names. Renaming by a map that keeps different symbols apart therefore commutes with all of
it.

* `Scope.note_rename` is about what an occurrence of a name finds in a scope, `Field.resolve_rename`
  about the notes of a whole field.
* `Demand.ofConjuncts_rename` is about what a conjunction demands of its variables.
* `Binding.clashes_rename` and `Lhs.reachAfter_rename` are about the occurrences ahead of a binding.
-/

namespace Antecedent

variable {α β : Type}

/-! ## Scopes -/

def Binding.rename (ρ : Symbol → Symbol) (b : Binding) : Binding where
  name := ρ b.name
  arity := b.arity
  origin := b.origin.map (Origin.rename ρ)
  restriction := b.restriction.map (Restriction.rename ρ)
  floor := b.floor

@[simp] theorem Viewpoint.choose_rename (ρ : Symbol → Symbol) (v : Viewpoint) (old : Option Origin)
    (o : Origin) :
    v.choose (old.map (Origin.rename ρ)) (o.rename ρ) = (v.choose old o).map (Origin.rename ρ) := by
  cases old with
  | none => rfl
  | some old =>
    have hprefers : v.prefers (o.rename ρ) = v.prefers o := rfl
    simp only [Option.map_some, choose, hprefers]
    split <;> rfl

namespace Scope

/-- Renames the bindings of a scope. -/
def rename (ρ : Symbol → Symbol) (σ : Scope) : Scope := σ.map (Binding.rename ρ)

@[simp] theorem append_rename (ρ : Symbol → Symbol) (σ τ : Scope) :
    σ.rename ρ ++ τ.rename ρ = rename ρ (σ ++ τ) :=
  (List.map_append ..).symm

@[simp] theorem leave_rename (ρ : Symbol → Symbol) (g : α → β) (before inside : Scope)
    (k : Condition Symbol α) :
    leave (before.rename ρ) (inside.rename ρ) (k.rename ρ g) = (leave before inside k).rename ρ := by
  have hfilter : ∀ σ : Scope, (σ.rename ρ).filter (fun b => b.floor ≤ k.endDepth) =
      rename ρ (σ.filter fun b => b.floor ≤ k.endDepth) := by
    intro σ
    rw [rename, List.filter_map]
    rfl
  rw [leave, leave, Condition.mode_rename]
  split
  · exact hfilter inside
  · exact hfilter before

variable (ρ : Symbol ↪ Symbol) (σ : Scope)

@[simp] theorem named_rename (x : Symbol) : (σ.rename ρ).named (ρ x) = (σ.named x).rename ρ := by
  simp [named, rename, List.filter_map, Function.comp_def, Binding.rename]

@[simp] theorem origins_rename (x : Symbol) :
    (σ.rename ρ).origins (ρ x) = (σ.origins x).map (Origin.rename ρ) := by
  rw [origins, origins, named_rename, rename, List.filterMap_map, List.map_filterMap]
  rfl

@[simp] theorem origin?_rename (v : Viewpoint) (x : Symbol) :
    (σ.rename ρ).origin? v (ρ x) = (σ.origin? v x).map (Origin.rename ρ) := by
  rw [origin?, origin?, origins_rename, List.foldl_map]
  exact @List.foldl_hom _ _ _ (Option.map (Origin.rename ρ)) v.choose
    (fun old o => v.choose old (o.rename ρ)) (σ.origins x) none fun old o => v.choose_rename ρ old o

@[simp] theorem restriction?_rename (x : Symbol) (declared : Option Restriction) :
    (σ.rename ρ).restriction? (ρ x) (declared.map (Restriction.rename ρ)) =
      (σ.restriction? x declared).map (Restriction.rename ρ) := by
  rw [restriction?, restriction?, named_rename, rename, List.foldl_map]
  exact List.foldl_hom (Option.map (Restriction.rename ρ)) fun r b =>
    Restriction.inter?_rename ρ b.restriction r

/-- A renamed occurrence finds in the renamed scope what the occurrence finds, renamed. -/
@[simp] theorem note_rename (v : Viewpoint) (x : Symbol) (negated : Bool)
    (declared : Option Restriction) :
    (σ.rename ρ).note v (ρ x) negated (declared.map (Restriction.rename ρ)) =
      (σ.note v x negated declared).rename ρ := by
  simp only [note, restriction?_rename, origin?_rename, Note.rename, Note.mk.injEq]
  refine ⟨?_, trivial, rfl⟩
  split <;> rfl

end Scope

section Resolve

variable (ρ : Symbol ↪ Symbol) (g : α → β) (σ : Scope) (v : Viewpoint)

namespace Term

mutual

@[simp] theorem resolve_rename (t : Term Symbol α) :
    (t.rename ρ g).resolve (σ.rename ρ) v = (t.resolve σ v).rename ρ (Note.rename ρ) := by
  cases t with
  | call f args => rw [rename, resolve, resolve, rename, resolveAll_renameAll args]
  | var x arity n =>
    have hnote := Scope.note_rename ρ σ v x false none
    rw [Option.map_none] at hnote
    rw [rename, resolve, resolve, rename, hnote]
  | lit value => rfl
  | global x => rfl

theorem resolveAll_renameAll (ts : List (Term Symbol α)) :
    resolveAll (σ.rename ρ) v (renameAll ρ g ts) = renameAll ρ (Note.rename ρ) (resolveAll σ v ts) := by
  cases ts with
  | nil => rfl
  | cons t ts =>
    rw [renameAll, resolveAll, resolveAll, renameAll, resolve_rename t, resolveAll_renameAll ts]

end

end Term

@[simp] theorem Constraint.resolve_rename (k : Constraint Symbol α) :
    (k.rename ρ g).resolve (σ.rename ρ) v = (k.resolve σ v).rename ρ (Note.rename ρ) := by
  obtain ⟨shape, negated⟩ := k
  cases shape with
  | literal value => rfl
  | var x arity n =>
    have hnote := Scope.note_rename ρ σ v x negated none
    rw [Option.map_none] at hnote
    simp only [rename, resolve, hnote]
  | predicate t => simp only [rename, resolve, Term.resolve_rename]
  | returnValue t => simp only [rename, resolve, Term.resolve_rename]

@[simp] theorem Alternative.resolve_rename (a : Alternative Symbol α) :
    (a.rename ρ g).resolve (σ.rename ρ) v = (a.resolve σ v).rename ρ (Note.rename ρ) := by
  simp [rename, resolve]

@[simp] theorem Binder.resolve_rename (declared : Option Restriction) (b : Binder Symbol) :
    (b.rename ρ).resolve (σ.rename ρ) v (declared.map (Restriction.rename ρ)) =
      (b.resolve σ v declared).rename ρ := by
  cases b with
  | var x arity => exact Scope.note_rename ρ σ v x false declared
  | wildcard arity => rfl

namespace Field

mutual

@[simp] theorem resolve_rename (inner : Scope) (f : Field Symbol α) :
    (f.rename ρ g).resolve (σ.rename ρ) (inner.rename ρ) v =
      (f.resolve σ inner v).rename ρ (Note.rename ρ) := by
  cases f with
  | plain b as declared n => simp [rename, resolve]
  | multi ps as declared n =>
    rw [rename, resolve, resolve, rename, resolveAll_renameAll ps]
    rfl

theorem resolveAll_renameAll (fs : List (Field Symbol α)) :
    resolveAll (σ.rename ρ) v (renameAll ρ g fs) = renameAll ρ (Note.rename ρ) (resolveAll σ v fs) := by
  cases fs with
  | nil => rfl
  | cons f fs =>
    rw [renameAll, resolveAll, resolveAll, renameAll, resolve_rename σ f, resolveAll_renameAll fs]

end

end Field

end Resolve

/-! ## Demands -/

def Demand.rename (ρ : Symbol → Symbol) (d : Demand) : Demand :=
  ⟨ρ d.name, d.arity, d.restriction.rename ρ⟩

namespace Demand

variable (ρ : Symbol ↪ Symbol)

theorem insert_rename (ds : List Demand) (d : Demand) :
    insert (ds.map (rename ρ)) (d.rename ρ) = (insert ds d).map (rename ρ) := by
  induction ds with
  | nil => rfl
  | cons e es ih =>
    have hname : (e.rename ρ).name = (d.rename ρ).name ↔ e.name = d.name := ρ.apply_eq_iff_eq ..
    rw [List.map_cons, insert, insert]
    by_cases h : e.name = d.name
    · rw [if_pos h, if_pos (hname.2 h), List.map_cons]
      simp [rename]
    · rw [if_neg h, if_neg (mt hname.1 h), ih, List.map_cons]

theorem collect_rename (ds : List Demand) :
    collect (ds.map (rename ρ)) = (collect ds).map (rename ρ) := by
  rw [collect, collect, List.foldl_map]
  exact @List.foldl_hom _ _ _ (List.map (rename ρ)) insert (fun ds d => insert ds (d.rename ρ)) ds []
    fun ds d => insert_rename ρ ds d

end Demand

namespace Term

section Calls

variable (ρ : Symbol → Symbol) (g : α → β)

mutual

theorem calls_rename (t : Term Symbol α) :
    (t.rename ρ g).calls = t.calls.map fun (f, args) => (ρ f, renameAll ρ g args) := by
  cases t with
  | call f args => rw [rename, calls, calls, callsAll_renameAll args, List.map_cons]
  | var x arity n => rfl
  | lit v => rfl
  | global x => rfl

theorem callsAll_renameAll (ts : List (Term Symbol α)) :
    callsAll (renameAll ρ g ts) = (callsAll ts).map fun (f, args) => (ρ f, renameAll ρ g args) := by
  cases ts with
  | nil => rfl
  | cons t ts =>
    rw [renameAll, callsAll, callsAll, calls_rename t, callsAll_renameAll ts, List.map_append]

end

theorem argDemand_rename (s : Signature) (i : Nat) (t : Term Symbol α) :
    argDemand (s.rename ρ) i (t.rename ρ g) = (argDemand s i t).map (Demand.rename ρ) := by
  cases t with
  | call f args => rfl
  | var x arity n =>
    simp only [rename, argDemand, Signature.arg_rename, Option.map_map]
    rfl
  | lit v => rfl
  | global x => rfl

theorem callDemands_rename (s : Signature) (i : Nat) (ts : List (Term Symbol α)) :
    callDemands (s.rename ρ) i (renameAll ρ g ts) = (callDemands s i ts).map (Demand.rename ρ) := by
  induction ts generalizing i with
  | nil => rfl
  | cons t ts ih =>
    simp [renameAll, callDemands, argDemand_rename, ih, Option.toList_map]

end Calls

variable (ρ : Symbol ↪ Symbol) (symbols : SymbolTable) (e : Environment) (g : α → β)

theorem rawDemands_rename (t : Term Symbol α) :
    (t.rename ρ g).rawDemands (e.rename ρ symbols) = (t.rawDemands e).map (Demand.rename ρ) := by
  rw [rawDemands, rawDemands, calls_rename, List.flatMap_map, List.map_flatMap]
  congr 1
  funext ⟨f, args⟩
  simp only [Environment.signature?_rename]
  cases e.signature? f with
  | none => rfl
  | some s => exact callDemands_rename ρ g s 0 args

@[simp] theorem demands_rename (t : Term Symbol α) :
    (t.rename ρ g).demands (e.rename ρ symbols) = (t.demands e).map (Demand.rename ρ) := by
  rw [demands, demands, rawDemands_rename, Demand.collect_rename]

end Term

section Demands

variable (ρ : Symbol ↪ Symbol) (symbols : SymbolTable) (e : Environment) (g : α → β)

theorem Constraint.literalRestriction?_rename (k : Constraint Symbol α) :
    (k.rename ρ g).literalRestriction? = k.literalRestriction?.map (Restriction.rename ρ) := by
  obtain ⟨shape, negated⟩ := k
  cases shape with
  | literal v =>
    cases negated with
    | false => exact congrArg some (Restriction.ofValues_map ρ [v])
    | true => rfl
  | var x arity n => rfl
  | predicate t => rfl
  | returnValue t => rfl

theorem Constraint.demands_rename (literals : Option Restriction) (k : Constraint Symbol α) :
    (k.rename ρ g).demands (e.rename ρ symbols) (literals.map (Restriction.rename ρ)) =
      (k.demands e literals).map (Demand.rename ρ) := by
  obtain ⟨shape, negated⟩ := k
  cases shape with
  | literal v => rfl
  | var x arity n => cases negated <;> cases literals <;> rfl
  | predicate t => exact Term.demands_rename ρ symbols e g t
  | returnValue t => exact Term.demands_rename ρ symbols e g t

/-- A renamed conjunction makes the demands of the conjunction, renamed. -/
@[simp] theorem Demand.ofConjuncts_rename (ks : List (Constraint Symbol α)) :
    ofConjuncts (e.rename ρ symbols) (ks.map (Constraint.rename ρ g)) =
      (ofConjuncts e ks).map (rename ρ) := by
  have hliterals : (ks.map (Constraint.rename ρ g)).filterMap Constraint.literalRestriction? =
      (ks.filterMap Constraint.literalRestriction?).map (Restriction.rename ρ) := by
    rw [List.filterMap_map, List.map_filterMap]
    exact congrArg (ks.filterMap ·) (funext fun k => Constraint.literalRestriction?_rename ρ g k)
  rw [ofConjuncts, ofConjuncts, hliterals, Restriction.interAll_rename, ← collect_rename,
    List.flatMap_map, List.map_flatMap]
  simp only [Constraint.demands_rename]

end Demands

/-! ## Occurrences ahead -/

/-- Renames the slot of a spot. -/
def Spot.rename (ρ : Symbol → Symbol) (s : Spot) : Spot := { s with slot := s.slot.map ρ }

@[simp] theorem Place.spot_rename (ρ : Symbol → Symbol) (p : Place) :
    (p.rename ρ).spot = p.spot.rename ρ := rfl

def Occurrence.rename (ρ : Symbol → Symbol) (o : Occurrence) : Occurrence :=
  ⟨ρ o.name, o.role, o.spot.rename ρ⟩

@[simp] theorem Binding.clashes_rename (ρ : Symbol ↪ Symbol) (b : Binding) (o : Occurrence) :
    (b.rename ρ).clashes (o.rename ρ) = b.clashes o := by
  have hname : decide ((o.rename ρ).name = (b.rename ρ).name) = decide (o.name = b.name) :=
    decide_eq_decide.2 (ρ.apply_eq_iff_eq ..)
  have horigin : (b.rename ρ).origin.isSome = b.origin.isSome := Option.isSome_map
  rw [clashes, clashes, hname, horigin]
  rfl

section Occurrences

variable (ρ : Symbol → Symbol) (g : α → β)

theorem Constraint.occurrences_rename (spot : Spot) (k : Constraint Symbol α) :
    (k.rename ρ g).occurrences (spot.rename ρ) = (k.occurrences spot).map (Occurrence.rename ρ) := by
  obtain ⟨shape, negated⟩ := k
  cases shape <;> rfl

theorem Alternative.occurrences_rename (spot : Spot) (a : Alternative Symbol α) :
    (a.rename ρ g).occurrences (spot.rename ρ) = (a.occurrences spot).map (Occurrence.rename ρ) := by
  rw [occurrences, occurrences, constraints_rename, List.flatMap_map, List.map_flatMap]
  simp only [Constraint.occurrences_rename]

namespace Field

theorem ownOccurrence_rename (spot : Spot) (f : Field Symbol α) :
    (f.rename ρ g).ownOccurrence (spot.rename ρ) =
      (f.ownOccurrence spot).map (Occurrence.rename ρ) := by
  cases f with
  | plain b as declared n => cases b <;> rfl
  | multi ps as declared n => rfl

mutual

@[simp] theorem inside_rename (spot : Spot) (f : Field Symbol α) :
    (f.rename ρ g).inside (spot.rename ρ) = (f.inside spot).map (Occurrence.rename ρ) := by
  cases f with
  | plain b as declared n =>
    rw [rename, inside, inside, List.flatMap_map, List.map_flatMap]
    simp only [Alternative.occurrences_rename]
  | multi ps as declared n => rw [rename, inside, inside, occurrencesAll_renameAll spot ps]

@[simp] theorem occurrencesAll_renameAll (spot : Spot) (fs : List (Field Symbol α)) :
    occurrencesAll (spot.rename ρ) (renameAll ρ g fs) =
      (occurrencesAll spot fs).map (Occurrence.rename ρ) := by
  cases fs with
  | nil => rfl
  | cons f fs =>
    rw [renameAll, occurrencesAll, occurrencesAll, ownOccurrence_rename, inside_rename spot f,
      occurrencesAll_renameAll spot fs, List.map_append, List.map_append]

end

end Field

@[simp] theorem Slot.occurrencesAll_rename (pattern j : Nat) (ss : List (Slot Symbol α)) :
    occurrencesAll pattern j (ss.map (rename ρ g)) =
      (occurrencesAll pattern j ss).map (Occurrence.rename ρ) := by
  induction ss generalizing j with
  | nil => rfl
  | cons s ss ih =>
    have hown := Field.ownOccurrence_rename ρ g ⟨pattern, j, s.name⟩ s.field
    have hinside := Field.inside_rename ρ g ⟨pattern, j, s.name⟩ s.field
    simp only [Spot.rename] at hown hinside
    simp only [List.map_cons, occurrencesAll, rename, hown, hinside, List.map_append]
    rw [ih]

theorem Condition.occurrences_rename (pattern : Nat) (k : Condition Symbol α) :
    (k.rename ρ g).occurrences pattern = (k.occurrences pattern).map (Occurrence.rename ρ) := by
  obtain ⟨element, beginDepth, endDepth, n⟩ := k
  cases element with
  | pattern mode q =>
    simp only [rename, Element.rename, Pattern.rename, occurrences, Slot.occurrencesAll_rename,
      List.map_append]
    cases q.handle <;> rfl
  | test t => rfl

namespace Lhs

theorem reach_rename (floor pattern : Nat) (l : Lhs Symbol α) :
    reach floor pattern (l.rename ρ g) = (reach floor pattern l).map (Occurrence.rename ρ) := by
  induction l generalizing pattern with
  | nil => rfl
  | cons k ks ih =>
    rw [rename_cons, reach, reach, Condition.occurrences_rename, ih, Condition.endDepth_rename,
      List.map_append]
    split <;> rfl

@[simp] theorem reachAfter_rename (pattern : Nat) (k : Condition Symbol α) (rest : Lhs Symbol α) :
    reachAfter pattern (k.rename ρ g) (rest.rename ρ g) =
      (reachAfter pattern k rest).map (Occurrence.rename ρ) := by
  rw [reachAfter, reachAfter, Condition.mode_rename, reach_rename, Condition.beginDepth_rename,
    Condition.endDepth_rename]
  split <;> rfl

end Lhs

end Occurrences

end Antecedent
