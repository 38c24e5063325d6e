import Antecedent.Proofs.Faults
import Antecedent.Proofs.RenamedScopes
import Antecedent.Proofs.RenamedTests

/-!
# Compiling renamed left-hand sides

A compilation looks at symbols only to see whether they are equal. If a left-hand side and the tables of
an environment are renamed by a map that keeps different symbols apart, compiling gives the renamed
result, or fails where it failed before; only the names in the diagnostic come from the symbol table of
the renamed environment.

* `Agrees` says how two runs compare: both succeed and the second one answers the image of what the
  first one does, or both fail, under a condition with the same error. `Agrees.bind` puts steps together.
* `Term.bindAt_rename`, `Field.visit_rename`, `Condition.visit_rename` and `Lhs.compileFrom_rename` go
  through the steps of a compilation, with the names of symbols being kept as the condition.
* `Lhs.compile_rename_iff` is the main result.
-/

namespace Antecedent

variable {α β γ δ ε : Type}

/-! ## Runs that agree -/

/-- Two runs agree along a map: both succeed, the second one with the image of the first result, or both
fail, and then with the same error if the condition holds. -/
inductive Agrees (same : Prop) (f : α → β) : Except ε α → Except ε β → Prop where
  | ok (a : α) : Agrees same f (.ok a) (.ok (f a))
  | error {d d' : ε} (h : same → d' = d) : Agrees same f (.error d) (.error d')

namespace Agrees

variable {same : Prop} {f : α → β} {x : Except ε α} {y : Except ε β}

theorem bind {f' : γ → δ} {k : α → Except ε γ} {k' : β → Except ε δ} (h : Agrees same f x y)
    (hk : ∀ a, Agrees same f' (k a) (k' (f a))) : Agrees same f' (x >>= k) (y >>= k') := by
  cases h with
  | ok a => exact hk a
  | error h => exact .error h

theorem of_eq {a : α} {b : β} (h : b = f a) : Agrees same f (.ok a : Except ε α) (.ok b) := by
  rw [h]
  exact .ok a

theorem ok_iff (h : Agrees same f x y) (b : β) : y = .ok b ↔ ∃ a, x = .ok a ∧ f a = b := by
  cases h with
  | ok a => simp
  | error h => simp

theorem error_iff (h : Agrees same f x y) (hsame : same) (d : ε) : y = .error d ↔ x = .error d := by
  cases h with
  | ok a => simp
  | error h => rw [h hsame]; simp

theorem mapM {k : γ → Except ε α} {k' : δ → Except ε β} {g : γ → δ}
    (hk : ∀ a, Agrees same f (k a) (k' (g a))) (xs : List γ) :
    Agrees same (List.map f) (xs.mapM k) ((xs.map g).mapM k') := by
  induction xs with
  | nil => exact .ok []
  | cons a xs ih =>
    rw [List.map_cons, List.mapM_cons, List.mapM_cons]
    exact (hk a).bind fun b => ih.bind fun bs => .ok (b :: bs)

variable {k : α → Except ε Unit} {k' : β → Except ε Unit}

theorem forM (hk : ∀ a, Agrees same id (k a) (k' (f a))) (xs : List α) :
    Agrees same id (xs.forM k) ((xs.map f).forM k') := by
  induction xs with
  | nil => exact .ok ()
  | cons a xs ih => exact (hk a).bind fun _ => ih

theorem option_forM (hk : ∀ a, Agrees same id (k a) (k' (f a))) (o : Option α) :
    Agrees same id (o.forM k) ((o.map f).forM k') := by
  cases o with
  | none => exact .ok ()
  | some a => exact hk a

end Agrees

/-! ## Reports -/

section Renaming

variable (ρ : Symbol ↪ Symbol) (symbols : SymbolTable) (c : Context) (g : α → β)

/-- The symbol table of the renamed environment gives a renamed symbol the name that the symbol has. -/
def Context.KeepsNames : Prop := ∀ x, (c.rename ρ symbols).env.name (ρ x) = c.env.name x

namespace Context

variable {ρ symbols c}

theorem KeepsNames.map (h : c.KeepsNames ρ symbols) (x : Option Symbol) :
    (x.map ρ).map (c.rename ρ symbols).env.name = x.map c.env.name := by
  cases x with
  | none => rfl
  | some x => exact congrArg some (h x)

theorem KeepsNames.report (h : c.KeepsNames ρ symbols) (fault : Fault) (spot : Spot)
    (blamed : Option String) (function : Option Symbol) :
    (c.rename ρ symbols).report fault (spot.rename ρ) blamed (function.map ρ) =
      c.report fault spot blamed function := by
  simp only [Context.report, Spot.rename, h.map]
  rfl

theorem KeepsNames.blame (h : c.KeepsNames ρ symbols) (fault : Fault) (spot : Spot) (x : Symbol) :
    (c.rename ρ symbols).blame fault (spot.rename ρ) (ρ x) = c.blame fault spot x := by
  rw [Context.blame, h x]
  exact h.report fault spot _ none

end Context

/-! ## References -/

theorem Note.bindReference_rename (spot : Spot) (enclosing : Option Symbol) (x : Symbol) (arity : Arity)
    (n : Note) :
    Agrees (c.KeepsNames ρ symbols) (Origin.rename ρ) (n.bindReference c spot enclosing x arity)
      ((n.rename ρ).bindReference (c.rename ρ symbols) (spot.rename ρ) (enclosing.map ρ) (ρ x)
        arity) := by
  obtain ⟨restriction, origin, out⟩ := n
  cases origin with
  | none => exact .error fun h => by rw [h x]; exact h.report ..
  | some o =>
    simp only [bindReference, rename, Option.map_some, Restriction.unmatchable?_rename,
      Context.options_rename]
    split
    · exact .error fun h => by rw [h x]; exact h.report ..
    · exact .ok o

theorem Context.checkDepth_rename (spot : Spot) (enclosing : Option Symbol) (depth : Nat) :
    Agrees (c.KeepsNames ρ symbols) id (c.checkDepth spot enclosing depth)
      ((c.rename ρ symbols).checkDepth (spot.rename ρ) (enclosing.map ρ) depth) := by
  rw [checkDepth, checkDepth, options_rename]
  split
  · exact .error fun h => h.report ..
  · exact .ok ()

theorem Context.checkGlobal_rename (spot : Spot) (enclosing : Option Symbol) (x : Symbol) :
    Agrees (c.KeepsNames ρ symbols) id (c.checkGlobal spot enclosing x)
      ((c.rename ρ symbols).checkGlobal (spot.rename ρ) (enclosing.map ρ) (ρ x)) := by
  have hglobal : (c.rename ρ symbols).env.isGlobal (ρ x) = c.env.isGlobal x :=
    c.env.isGlobal_rename ρ symbols x
  rw [checkGlobal, checkGlobal, hglobal]
  split
  · exact .ok ()
  · exact .error fun h => by rw [h x]; exact h.report ..

namespace Term

mutual

theorem bindAt_rename (spot : Spot) (enclosing : Option Symbol) (depth : Nat) (t : Term Symbol Note) :
    Agrees (c.KeepsNames ρ symbols) (rename ρ (Origin.rename ρ)) (t.bindAt c spot enclosing depth)
      ((t.rename ρ (Note.rename ρ)).bindAt (c.rename ρ symbols) (spot.rename ρ) (enclosing.map ρ)
        depth) := by
  have hdepth := c.checkDepth_rename ρ symbols spot enclosing depth
  cases t with
  | call f args =>
    rw [rename, bindAt, bindAt]
    exact hdepth.bind fun _ => (bindAllAt_rename spot (some f) (depth + 1) args).bind fun us =>
      .ok (call f us)
  | var x arity n =>
    rw [rename, bindAt, bindAt]
    exact hdepth.bind fun _ => (n.bindReference_rename ρ symbols c spot enclosing x arity).bind fun o =>
      .ok (var x arity o)
  | lit v =>
    rw [rename, bindAt, bindAt]
    exact hdepth.bind fun _ => .ok (lit v)
  | global x =>
    rw [rename, bindAt, bindAt]
    exact hdepth.bind fun _ => (c.checkGlobal_rename ρ symbols spot enclosing x).bind fun _ =>
      .ok (global x)

theorem bindAllAt_rename (spot : Spot) (enclosing : Option Symbol) (depth : Nat)
    (ts : List (Term Symbol Note)) :
    Agrees (c.KeepsNames ρ symbols) (renameAll ρ (Origin.rename ρ))
      (bindAllAt c spot enclosing depth ts)
      (bindAllAt (c.rename ρ symbols) (spot.rename ρ) (enclosing.map ρ) depth
        (renameAll ρ (Note.rename ρ) ts)) := by
  cases ts with
  | nil => exact .ok []
  | cons t ts =>
    rw [renameAll, bindAllAt, bindAllAt]
    exact (bindAt_rename spot enclosing depth t).bind fun u =>
      (bindAllAt_rename spot enclosing depth ts).bind fun us => .ok (u :: us)

end

theorem bind_rename (spot : Spot) (t : Term Symbol Note) :
    Agrees (c.KeepsNames ρ symbols) (rename ρ (Origin.rename ρ)) (t.bind c spot)
      ((t.rename ρ (Note.rename ρ)).bind (c.rename ρ symbols) (spot.rename ρ)) :=
  bindAt_rename ρ symbols c spot none 1 t

end Term

theorem Constraint.bind_rename (spot : Spot) (field : Restriction) (k : Constraint Symbol Note) :
    Agrees (c.KeepsNames ρ symbols) (rename ρ (Origin.rename ρ)) (k.bind c spot field)
      ((k.rename ρ (Note.rename ρ)).bind (c.rename ρ symbols) (spot.rename ρ) (field.rename ρ)) := by
  obtain ⟨shape, negated⟩ := k
  cases shape with
  | literal v =>
    simp only [bind, rename, Restriction.check_rename, Context.options_rename]
    split
    · exact .error fun h => h.report _ spot none none
    · exact .ok (Constraint.mk (.literal v) negated)
  | var x arity n =>
    obtain ⟨restriction, origin, out⟩ := n
    cases origin with
    | none => exact .error fun h => h.blame ..
    | some o => exact .ok (Constraint.mk (.var x arity o) negated)
  | predicate t =>
    exact (t.bind_rename ρ symbols c spot).bind fun u => .ok (Constraint.mk (.predicate u) negated)
  | returnValue t =>
    exact (t.bind_rename ρ symbols c spot).bind fun u => .ok (Constraint.mk (.returnValue u) negated)

namespace Conjunct

theorem bindAll_rename (spot : Spot) (field : Restriction) (as : List (List (Conjunct Note))) :
    Agrees (c.KeepsNames ρ symbols) (List.map (List.map (rename ρ (Origin.rename ρ))))
      (bindAll c spot field as)
      (bindAll (c.rename ρ symbols) (spot.rename ρ) (field.rename ρ)
        (as.map (List.map (rename ρ (Note.rename ρ))))) :=
  .mapM (.mapM fun k => (k.constraint.bind_rename ρ symbols c spot field).bind fun u =>
    .ok (Conjunct.mk k.site u)) as

theorem restriction?_rename (k : Conjunct Note) :
    (k.rename ρ (Note.rename ρ)).restriction? = k.restriction?.map (Restriction.rename ρ) := by
  obtain ⟨site, shape, negated⟩ := k
  cases shape <;> cases negated <;> rfl

theorem satisfiable_rename (field : Restriction) (ks : List (Conjunct Note)) :
    satisfiable (field.rename ρ) (ks.map (rename ρ (Note.rename ρ))) = satisfiable field ks := by
  have hrestrictions : (ks.map (rename ρ (Note.rename ρ))).filterMap restriction? =
      (ks.filterMap restriction?).map (Restriction.rename ρ) := by
    rw [List.filterMap_map, List.map_filterMap]
    exact List.filterMap_congr fun k _ => restriction?_rename ρ k
  rw [satisfiable, satisfiable, hrestrictions, Restriction.foldl_inter_rename,
    Restriction.isUnmatchable_rename]

theorem checkSatisfiable_rename (spot : Spot) (own : Option Symbol) (restriction : Option Restriction)
    (as : List (List (Conjunct Note))) :
    Agrees (c.KeepsNames ρ symbols) id (checkSatisfiable c spot own restriction as)
      (checkSatisfiable (c.rename ρ symbols) (spot.rename ρ) (own.map ρ)
        (restriction.map (Restriction.rename ρ)) (as.map (List.map (rename ρ (Note.rename ρ))))) := by
  have halternatives : Agrees (c.KeepsNames ρ symbols) id
      (if as.isEmpty || as.any (satisfiable (restriction.getD .any)) then .ok ()
        else .error (c.report .unmatchable spot none none))
      (if as.isEmpty || as.any (satisfiable (restriction.getD .any)) then .ok ()
        else .error ((c.rename ρ symbols).report .unmatchable (spot.rename ρ) none none)) := by
    split
    · exact .ok ()
    · exact .error fun h => h.report _ spot none none
  -- Whether an alternative can be satisfied is the same for both, so only the reports are compared.
  simp only [checkSatisfiable, Restriction.unmatchable?_rename, Restriction.getD_any_rename,
    List.isEmpty_map, List.any_map,
    Function.comp_def, satisfiable_rename]
  cases own with
  | none => exact halternatives
  | some x =>
    cases Restriction.unmatchable? restriction with
    | false => exact halternatives
    | true => exact .error fun h => h.blame ..

end Conjunct

/-! ## Patterns -/

theorem Context.permit_rename (ahead : List Occurrence) (b : Binding) :
    Agrees (c.KeepsNames ρ symbols) id (c.permit ahead b)
      ((c.rename ρ symbols).permit (ahead.map (Occurrence.rename ρ)) (b.rename ρ)) := by
  have hfind : (ahead.map (Occurrence.rename ρ)).find? (b.rename ρ).clashes =
      (ahead.find? b.clashes).map (Occurrence.rename ρ) := by
    rw [List.find?_map]
    simp only [Function.comp_def, Binding.clashes_rename]
  rw [permit, permit, hfind]
  cases ahead.find? b.clashes with
  | none => exact .ok ()
  | some o => exact .error fun h => h.blame ..

theorem Scope.toList_rename (b : Option Binding) :
    (b.map (Binding.rename ρ)).toList = rename ρ b.toList := by
  cases b <;> rfl

theorem Demand.bindings_rename (floor : Nat) (ds : List Demand) :
    (ds.map (rename ρ)).map (binding floor) = (ds.map (binding floor)).map (Binding.rename ρ) := by
  rw [List.map_map, List.map_map]
  rfl

namespace Visited

/-- Renames what compiling a part of a pattern yields. -/
def rename (f : γ → δ) (v : Visited γ) : Visited δ :=
  ⟨f v.result, Scope.rename ρ v.bindings, v.join.rename ρ, v.deferred.rename ρ⟩

variable (f : γ → δ) (vs : List (Visited γ))

theorem map_result_rename : (vs.map (rename ρ f)).map result = (vs.map result).map f := by
  simp [rename]

theorem allBindings_rename : allBindings (vs.map (rename ρ f)) = Scope.rename ρ (allBindings vs) := by
  simp [allBindings, Scope.rename, List.flatMap_map, List.map_flatMap, rename]

theorem allJoin_rename : allJoin (vs.map (rename ρ f)) = (allJoin vs).rename ρ := by
  induction vs with
  | nil => rfl
  | cons v vs ih => rw [List.map_cons, allJoin, allJoin, ih, ← JoinOutput.append_rename]; rfl

theorem allDeferred_rename : allDeferred (vs.map (rename ρ f)) = (allDeferred vs).rename ρ := by
  induction vs with
  | nil => rfl
  | cons v vs ih => rw [List.map_cons, allDeferred, allDeferred, ih, ← JoinOutput.append_rename]; rfl

end Visited

namespace Field

theorem binding?_rename (p : Place) (id : Nat) (σ : Scope) (f : Field Symbol α) :
    (f.rename ρ g).binding? (p.rename ρ) id (σ.rename ρ) =
      (f.binding? p id σ).map (Binding.rename ρ) := by
  simp only [binding?, binds?_rename, declared_rename, Option.map_map, Function.comp_def,
    Scope.restriction?_rename]
  rfl

theorem demands_rename (e : Environment) (as : List (List (Conjunct Note))) :
    demands (e.rename ρ symbols) (as.map (List.map (Conjunct.rename ρ (Note.rename ρ)))) =
      (demands e as).map (Demand.rename ρ) := by
  match as with
  | [] => rfl
  | [ks] =>
    have hconstraints : (ks.map (Conjunct.rename ρ (Note.rename ρ))).map Conjunct.constraint =
        (ks.map Conjunct.constraint).map (Constraint.rename ρ (Note.rename ρ)) := by
      simp [Conjunct.rename]
    simp only [List.map_cons, List.map_nil, demands, hconstraints, Demand.ofConjuncts_rename]
  | ks :: ks' :: as => rfl

/-- A renamed field is compiled to the renamed result, or fails as the field does. -/
theorem visit_rename (p : Place) (id : Nat) (σ : Scope) (ahead : List Occurrence)
    (f : Field Symbol α) :
    Agrees (c.KeepsNames ρ symbols) (Visited.rename ρ (rename ρ (Note.rename ρ)))
      (f.visit c p id σ ahead)
      ((f.rename ρ g).visit (c.rename ρ symbols) (p.rename ρ) id (σ.rename ρ)
        (ahead.map (Occurrence.rename ρ))) := by
  -- What is computed without a check commutes with the renaming; then the five checks agree one by one.
  have hview : (p.rename ρ).viewpoint = p.viewpoint := rfl
  have hown : (f.binds?.map fun b => (ρ b.1, b.2)).map Prod.fst = (f.binds?.map Prod.fst).map ρ := by
    simp [Function.comp_def]
  simp only [visit, binding?_rename, binds?_rename, hown, hview, Place.spot_rename, Place.site_rename,
    Place.beginDepth_rename, Context.env_rename, inside_rename, resolve_rename, note_rename,
    conjuncts_rename, demands_rename, Demand.bindings_rename, Scope.toList_rename, Scope.append_rename,
    Note.restriction_rename, Note.origin_rename, Restriction.getD_any_rename]
  refine (Agrees.option_forM (c.permit_rename ρ symbols (f.inside p.spot)) _).bind fun _ => ?_
  refine (Agrees.forM (c.permit_rename ρ symbols ahead) _).bind fun _ => ?_
  refine (Conjunct.bindAll_rename ρ symbols c p.spot _ _).bind fun bound => ?_
  refine (Conjunct.checkSatisfiable_rename ρ symbols c p.spot _ _ _).bind fun _ => ?_
  refine (Agrees.option_forM (c.permit_rename ρ symbols ahead) _).bind fun _ => ?_
  refine .of_eq ?_
  rw [Outputs.ofField_rename, Visited.rename, ← withNote_rename, ← Scope.append_rename]
  rfl

theorem visitParts_rename (p : Place) (slotsAhead beyond : List Occurrence) (k id : Nat) (σ : Scope)
    (fs : List (Field Symbol α)) :
    Agrees (c.KeepsNames ρ symbols) (List.map (Visited.rename ρ (rename ρ (Note.rename ρ))))
      (visitParts c p slotsAhead beyond k id σ fs)
      (visitParts (c.rename ρ symbols) (p.rename ρ) (slotsAhead.map (Occurrence.rename ρ))
        (beyond.map (Occurrence.rename ρ)) k id (σ.rename ρ) (renameAll ρ g fs)) := by
  induction fs generalizing k id σ with
  | nil => exact .ok []
  | cons f fs ih =>
    have hpart : { p.rename ρ with site := (p.rename ρ).site.part (f.rename ρ g) k } =
        Place.rename ρ { p with site := p.site.part f k } :=
      congrArg (Place.mk p.pattern p.beginDepth) (Site.part_rename ρ g p.site f k)
    simp only [renameAll, visitParts, Place.spot_rename, hpart, occurrencesAll_renameAll,
      ← List.map_append, size_rename]
    refine (visit_rename ρ symbols c g _ id σ _ f).bind fun v => ?_
    have hscope : σ.rename ρ ++ (v.rename ρ (rename ρ (Note.rename ρ))).bindings =
        Scope.rename ρ (σ ++ v.bindings) := Scope.append_rename ρ σ v.bindings
    rw [hscope]
    exact (ih (k + 1) (id + f.size) (σ ++ v.bindings)).bind fun vs => .ok (v :: vs)

end Field

namespace Slot

theorem visit_rename (p : Place) (id : Nat) (σ : Scope) (slotsAhead beyond : List Occurrence)
    (s : Slot Symbol α) :
    Agrees (c.KeepsNames ρ symbols) (Visited.rename ρ (rename ρ (Note.rename ρ)))
      (s.visit c p id σ slotsAhead beyond)
      ((s.rename ρ g).visit (c.rename ρ symbols) (p.rename ρ) id (σ.rename ρ)
        (slotsAhead.map (Occurrence.rename ρ)) (beyond.map (Occurrence.rename ρ))) := by
  obtain ⟨name, f⟩ := s
  cases f with
  | plain b as declared n =>
    have hfield := Field.visit_rename ρ symbols c g p id σ (slotsAhead ++ beyond)
      (.plain b as declared n)
    rw [List.map_append] at hfield
    exact hfield.bind fun v => .ok { v with result := Slot.mk name v.result }
  | multi ps as declared n =>
    refine (Field.visitParts_rename ρ symbols c g p slotsAhead beyond 0 (id + 1) σ ps).bind
      fun vs => .of_eq ?_
    simp only [Visited.map_result_rename, Visited.allBindings_rename, Visited.allJoin_rename,
      Visited.allDeferred_rename, ← Field.renameAll_eq_map]
    rfl

theorem visitAll_rename (p : Place) (beyond : List Occurrence) (j id : Nat) (σ : Scope)
    (ss : List (Slot Symbol α)) :
    Agrees (c.KeepsNames ρ symbols) (List.map (Visited.rename ρ (rename ρ (Note.rename ρ))))
      (visitAll c p beyond j id σ ss)
      (visitAll (c.rename ρ symbols) (p.rename ρ) (beyond.map (Occurrence.rename ρ)) j id (σ.rename ρ)
        (ss.map (rename ρ g))) := by
  induction ss generalizing j id σ with
  | nil => exact .ok []
  | cons s ss ih =>
    have hsize : (s.rename ρ g).field.size = s.field.size := Field.size_rename ρ g s.field
    simp only [List.map_cons, visitAll, hsize, Place.pattern_rename, occurrencesAll_rename]
    refine (visit_rename ρ symbols c g { p with site := { p.site with index := j, name := s.name } }
      id σ _ beyond s).bind fun v => ?_
    have hscope : σ.rename ρ ++ (v.rename ρ (rename ρ (Note.rename ρ))).bindings =
        Scope.rename ρ (σ ++ v.bindings) := Scope.append_rename ρ σ v.bindings
    rw [hscope]
    exact (ih (j + 1) (id + s.field.size) (σ ++ v.bindings)).bind fun vs => .ok (v :: vs)

end Slot

/-! ## Conditions -/

theorem Pattern.checkHandle_rename (p : Place) (σ : Scope) (q : Pattern Symbol α) :
    Agrees (c.KeepsNames ρ symbols) id (q.checkHandle c p σ)
      ((q.rename ρ g).checkHandle (c.rename ρ symbols) (p.rename ρ) (σ.rename ρ)) := by
  obtain ⟨kind, handle, slots⟩ := q
  cases handle with
  | none => exact .ok ()
  | some h =>
    simp only [checkHandle, rename, Option.map_some, Scope.origins_rename, List.getLast?_map]
    cases (σ.origins h).getLast? with
    | none => exact .ok ()
    | some o => exact .error fun hnames => hnames.blame _ p.spot h

theorem Pattern.binding?_rename (p : Place) (id : Nat) (q : Pattern Symbol α) :
    (q.rename ρ g).binding? (p.rename ρ) id = (q.binding? p id).map (Binding.rename ρ) := by
  obtain ⟨kind, handle, slots⟩ := q
  cases handle <;> rfl

/-- Renames a compiled condition and the scope at its end. -/
def VisitedCondition.rename (v : VisitedCondition) : VisitedCondition :=
  ⟨v.condition.rename ρ (Note.rename ρ), v.inside.rename ρ⟩

namespace Condition

theorem visitPattern_rename (pattern joinDepth id : Nat) (σ : Scope) (beyond : List Occurrence)
    (beginDepth endDepth : Nat) (mode : Mode) (q : Pattern Symbol α) :
    Agrees (c.KeepsNames ρ symbols) (VisitedCondition.rename ρ)
      (visitPattern c pattern joinDepth id σ beyond beginDepth endDepth mode q)
      (visitPattern (c.rename ρ symbols) pattern joinDepth id (σ.rename ρ)
        (beyond.map (Occurrence.rename ρ)) beginDepth endDepth mode (q.rename ρ g)) := by
  let p : Place := ⟨pattern, beginDepth, ⟨q.kind, 0, none, none, joinDepth⟩⟩
  have hplace : (⟨pattern, beginDepth, ⟨(q.rename ρ g).kind, 0, none, none, joinDepth⟩⟩ : Place) =
      p.rename ρ := rfl
  have hslots : (q.rename ρ g).slots = q.slots.map (Slot.rename ρ g) := rfl
  simp only [visitPattern, hplace, hslots, Pattern.binding?_rename, Slot.occurrencesAll_rename,
    ← List.map_append, Scope.toList_rename, Scope.append_rename]
  refine (q.checkHandle_rename ρ symbols c g p σ).bind fun _ => ?_
  refine (Agrees.option_forM (c.permit_rename ρ symbols _) (q.binding? p id)).bind fun _ => ?_
  refine (Slot.visitAll_rename ρ symbols c g p beyond 1 (id + 1) _ q.slots).bind fun vs => ?_
  refine .of_eq ?_
  have hrestriction : ((q.binding? p id).map (Binding.rename ρ)).bind Binding.restriction =
      ((q.binding? p id).bind Binding.restriction).map (Restriction.rename ρ) := by
    cases q.binding? p id <;> rfl
  simp only [Visited.map_result_rename, Visited.allBindings_rename, Visited.allJoin_rename,
    Visited.allDeferred_rename, Scope.append_rename, hrestriction]
  rfl

theorem visitTest_rename (pattern joinDepth : Nat) (σ : Scope) (beginDepth endDepth : Nat)
    (t : Term Symbol α) :
    Agrees (c.KeepsNames ρ symbols) (VisitedCondition.rename ρ)
      (visitTest c pattern joinDepth σ beginDepth endDepth t)
      (visitTest (c.rename ρ symbols) pattern joinDepth (σ.rename ρ) beginDepth endDepth
        (t.rename ρ g)) := by
  simp only [visitTest, Term.resolve_rename, Context.env_rename, Term.demands_rename,
    Demand.bindings_rename]
  refine (Term.bind_rename ρ symbols c ⟨pattern, 0, none⟩ _).bind fun bound => ?_
  refine .of_eq ?_
  rw [Outputs.ofTest_rename, VisitedCondition.rename, ← Scope.append_rename]
  rfl

theorem visit_rename (pattern joins id : Nat) (σ : Scope) (rest : Lhs Symbol α)
    (k : Condition Symbol α) :
    Agrees (c.KeepsNames ρ symbols) (VisitedCondition.rename ρ) (k.visit c pattern joins id σ rest)
      ((k.rename ρ g).visit (c.rename ρ symbols) pattern joins id (σ.rename ρ) (rest.rename ρ g)) := by
  have hreach := Lhs.reachAfter_rename ρ g pattern k rest
  obtain ⟨element, beginDepth, endDepth, n⟩ := k
  cases element with
  | pattern mode q =>
    have hpattern := visitPattern_rename ρ symbols c g pattern (joins + 1) id σ
      (Lhs.reachAfter pattern ⟨.pattern mode q, beginDepth, endDepth, n⟩ rest) beginDepth endDepth
      mode q
    rw [← hreach] at hpattern
    exact hpattern
  | test t => exact visitTest_rename ρ symbols c g pattern joins σ beginDepth endDepth t

end Condition

/-! ## Left-hand sides -/

namespace Lhs

theorem compileFrom_rename (pattern joins id : Nat) (σ : Scope) (l : Lhs Symbol α) :
    Agrees (c.KeepsNames ρ symbols) (rename ρ (Note.rename ρ)) (compileFrom c pattern joins id σ l)
      (compileFrom (c.rename ρ symbols) pattern joins id (σ.rename ρ) (l.rename ρ g)) := by
  induction l generalizing pattern joins id σ with
  | nil => exact .ok []
  | cons k ks ih =>
    simp only [rename_cons, compileFrom, Condition.joinsAfter_rename, Condition.size_rename]
    -- The induction needs the scope behind the first condition in the form of a renamed scope.
    refine (k.visit_rename ρ symbols c g pattern joins id σ ks).bind fun v => ?_
    have hleave : (σ.rename ρ).leave (v.rename ρ).inside (k.rename ρ g) =
        (σ.leave v.inside k).rename ρ :=
      Scope.leave_rename ρ g σ v.inside k
    rw [hleave]
    exact (ih _ _ _ _).bind fun us => .ok (v.condition :: us)

end Lhs

end Renaming

section Collapse

variable (ρ : Symbol → Symbol)

namespace Condition

theorem deferred_rename (k : Condition Symbol Note) :
    (k.rename ρ (Note.rename ρ)).deferred = k.deferred.rename ρ := rfl

theorem withDeferred_rename (k : Condition Symbol Note) (d : JoinOutput) :
    (k.rename ρ (Note.rename ρ)).withDeferred (d.rename ρ) =
      (k.withDeferred d).rename ρ (Note.rename ρ) := rfl

end Condition

namespace Lhs

theorem runDeferred_rename (depth : Nat) (l : Lhs Symbol Note) :
    runDeferred depth (l.rename ρ (Note.rename ρ)) = (runDeferred depth l).rename ρ := by
  induction l with
  | nil => rfl
  | cons k ks ih =>
    rw [rename_cons, runDeferred, runDeferred, ih, Condition.beginDepth_rename,
      Condition.endDepth_rename, Condition.deferred_rename, ← JoinOutput.append_rename]
    congr 1 <;> split <;> rfl

theorem collapseFrom_rename (previousEnd : Nat) (opened : List Nat) (l : Lhs Symbol Note) :
    collapseFrom previousEnd opened (l.rename ρ (Note.rename ρ)) =
      (collapseFrom previousEnd opened l).rename ρ (Note.rename ρ) := by
  induction l generalizing previousEnd opened with
  | nil => rfl
  | cons k ks ih =>
    rw [rename_cons, collapseFrom, collapseFrom, rename_cons, ← Condition.withDeferred_rename, ← ih]
    simp only [apply_ite (JoinOutput.rename ρ), JoinOutput.rename_empty, ← runDeferred_rename,
      ← Condition.deferred_rename, rename_cons]
    rfl

theorem collapse_rename (l : Lhs Symbol Note) :
    collapse (l.rename ρ (Note.rename ρ)) = (collapse l).rename ρ (Note.rename ρ) :=
  collapseFrom_rename ρ 0 [] l

end Lhs

end Collapse

namespace Lhs

theorem compile_rename (ρ : Symbol ↪ Symbol) (symbols : SymbolTable) (c : Context) (g : α → β)
    (l : Lhs Symbol α) :
    Agrees (c.KeepsNames ρ symbols) (rename ρ (Note.rename ρ)) (l.compile c)
      ((l.rename ρ g).compile (c.rename ρ symbols)) := by
  refine (compileFrom_rename ρ symbols c g 1 0 0 [] l).bind fun u => .of_eq ?_
  exact collapse_rename ρ u

/-- **Compiling depends on symbols only through equality**: if a left-hand side and its environment are
renamed and different symbols are kept apart, a compilation succeeds exactly if it did before, and the
result is the renamed result. If the renamed symbols also keep their names, the failures are the same. -/
theorem compile_rename_iff (ρ : Symbol ↪ Symbol) (symbols : SymbolTable) (c : Context) (g : α → β)
    (l : Lhs Symbol α) :
    (∀ r', (l.rename ρ g).compile (c.rename ρ symbols) = .ok r' ↔
      ∃ r, l.compile c = .ok r ∧ r.rename ρ (Note.rename ρ) = r') ∧
    (c.KeepsNames ρ symbols → ∀ d,
      (l.rename ρ g).compile (c.rename ρ symbols) = .error d ↔ l.compile c = .error d) := by
  have hagrees := compile_rename ρ symbols c g l
  exact ⟨hagrees.ok_iff, hagrees.error_iff⟩

/-- A pattern whose only slot binds a variable, here symbol 3, and compares the given variable. -/
def comparing (x : Symbol) : Lhs Symbol Unit :=
  [⟨.pattern .plain ⟨.object, some ⟨1⟩, [⟨some ⟨2⟩, .plain (.var ⟨3⟩ .single)
    [⟨.predicate (.call ⟨0⟩ [.var x .single (), .lit (.integer 3)]), []⟩] none ()⟩]⟩, 0, 0, ()⟩]

/-- The context of that pattern. -/
def comparingAges : Context :=
  ⟨⟨⟨[">", "person", "age", "x", "y"], by decide⟩, [(⟨0⟩, .uniform .numeric)], []⟩, .standard⟩

/-- Makes room for one more symbol in front. -/
def shift : Symbol ↪ Symbol :=
  ⟨fun x => ⟨x.index + 1⟩, fun _ _ h => congrArg Symbol.mk (Nat.succ.inj (congrArg Symbol.index h))⟩

/-- The shifted pattern compiles to the shifted result, and it fails with the same diagnostic if it
compares an unbound variable. -/
theorem comparing_shifted :
    let symbols : SymbolTable := ⟨["new", ">", "person", "age", "x", "y"], by decide⟩
    let d : Diagnostic := ⟨.unboundVariable, ⟨1, some 1, some "age", some "y", some ">"⟩⟩
    (∃ r, (comparing ⟨3⟩).compile comparingAges = .ok r ∧
      ((comparing ⟨3⟩).rename shift id).compile (comparingAges.rename shift symbols) =
        .ok (r.rename shift (Note.rename shift))) ∧
    (comparing ⟨4⟩).compile comparingAges = .error d ∧
    ((comparing ⟨4⟩).rename shift id).compile (comparingAges.rename shift symbols) = .error d := by
  intro symbols d
  obtain ⟨r, hr, -⟩ := exists_ok_of_check (e := (comparing ⟨3⟩).compile comparingAges)
    (p := fun _ => true) (by decide +kernel)
  obtain ⟨d', hd', heq⟩ := exists_error_of_check (e := (comparing ⟨4⟩).compile comparingAges)
    (p := fun d' => d' = d) (by decide +kernel)
  obtain rfl := of_decide_eq_true heq
  have hnames : comparingAges.KeepsNames shift symbols := fun _ => rfl
  exact ⟨⟨r, hr, ((compile_rename_iff shift symbols comparingAges id _).1 _).2 ⟨r, hr, rfl⟩⟩, hd',
    ((compile_rename_iff shift symbols comparingAges id _).2 hnames _).2 hd'⟩

end Lhs

end Antecedent
