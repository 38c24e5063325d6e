import Antecedent.Lhs.Interning
import Antecedent.Proofs.Notes

/-!
# Spelling an interned left-hand side

An interned left-hand side is spelled by looking up its symbols in a symbol table. In the table that
interning ends with, and in every later one, this gives back what was written.

* `SymbolTable.Extends` says that a table is later than another: it keeps the names of its symbols.
* `Interning.Yields` says what a computation that interns names answers, in every later table.
  `Interning.Yields.bind` and `Interning.yields_mapM` put such computations together.
* `Lhs.spell` looks up the symbols of a left-hand side, and `Lhs.yields_intern` is the main result: it
  answers the left-hand side that was interned.
* `Lhs.stripped` is a left-hand side without the constraints that are attached to multifield slots
  themselves. `Lhs.bare_eq_stripped` says that nothing else is lost.
-/

namespace Antecedent

variable {ν α β γ δ : Type}

/-! ## Later tables -/

namespace SymbolTable

/-- Every symbol of the table `t` has the same name in the table `m`. -/
def Extends (m t : SymbolTable) : Prop := ∀ x name, t.name? x = some name → m.name? x = some name

theorem Extends.refl (t : SymbolTable) : t.Extends t := fun _ _ h => h

theorem Extends.trans {l m t : SymbolTable} (h : l.Extends m) (h' : m.Extends t) : l.Extends t :=
  fun x name hx => h x name (h' x name hx)

end SymbolTable

namespace Interning

/-- The computation keeps the names of all symbols, and its answer has a property in every later table. -/
def Yields (a : Interning β) (P : SymbolTable → β → Prop) : Prop :=
  ∀ t, (a t).2.Extends t ∧ ∀ m : SymbolTable, m.Extends (a t).2 → P m (a t).1

theorem yields_pure {b : β} {P : SymbolTable → β → Prop} (h : ∀ m, P m b) :
    Yields (pure b) P :=
  fun t => ⟨.refl t, fun m _ => h m⟩

theorem Yields.bind {a : Interning β} {f : β → Interning γ} {P : SymbolTable → β → Prop}
    {Q : SymbolTable → γ → Prop} (ha : Yields a P)
    (hf : ∀ b, Yields (f b) fun m c => P m b → Q m c) : Yields (a >>= f) Q := by
  intro t
  obtain ⟨hextends, hP⟩ := ha t
  obtain ⟨hextends', hQ⟩ := hf (a t).1 (a t).2
  exact ⟨hextends'.trans hextends, fun m hm => hQ m hm (hP m (hm.trans hextends'))⟩

theorem Yields.map {a : Interning β} {f : β → γ} {P : SymbolTable → β → Prop}
    {Q : SymbolTable → γ → Prop} (ha : Yields a P) (hf : ∀ m b, P m b → Q m (f b)) :
    Yields (f <$> a) Q :=
  fun t => ⟨(ha t).1, fun m hm => hf m _ ((ha t).2 m hm)⟩

theorem yields_name (s : String) : Yields (name s) fun m x => m.name? x = some s :=
  fun t => ⟨fun _ _ h => t.name?_intern_of_name? h s, fun _ hm => hm _ _ (t.name?_intern s)⟩

theorem yields_name? (s : Option String) :
    Yields (name? s) fun m x => x.mapM m.name? = some s := by
  cases s with
  | none => exact yields_pure fun _ => rfl
  | some s => exact (yields_name s).map fun _ _ hx => by simp [hx]

/-- The members of a list are interned one after the other. -/
theorem yields_mapM {ζ : Type} {g : β → Interning γ} {h : γ → δ} {f : SymbolTable → δ → Option ζ}
    {k : β → ζ} {xs : List β} (hxs : ∀ x ∈ xs, Yields (g x) fun m c => f m (h c) = some (k x)) :
    Yields (xs.mapM g) fun m cs => (cs.map h).mapM (f m) = some (xs.map k) := by
  induction xs with
  | nil => exact yields_pure fun _ => rfl
  | cons x xs ih =>
    rw [List.forall_mem_cons] at hxs
    rw [List.mapM_cons]
    refine hxs.1.bind fun c => (ih hxs.2).bind fun cs => yields_pure fun m hcs hc => ?_
    rw [List.map_cons, List.mapM_cons, hc, hcs]
    rfl

end Interning

open Interning (Yields yields_pure yields_name yields_name? yields_mapM)

/-! ## Spelling -/

/-- Looks up the name inside a literal. -/
def Literal.spell (m : SymbolTable) : Literal Symbol → Option (Literal String)
  | integer i => some (integer i)
  | float x => some (float x)
  | symbol s => symbol <$> m.name? s
  | string s => string <$> m.name? s
  | instanceName s => instanceName <$> m.name? s

theorem Literal.yields_intern (v : Literal String) :
    Yields v.intern fun m w => w.spell m = some v := by
  cases v with
  | integer i => exact yields_pure fun _ => rfl
  | float x => exact yields_pure fun _ => rfl
  | symbol s => exact (yields_name s).map fun m x hx => by simp [spell, hx]
  | string s => exact (yields_name s).map fun m x hx => by simp [spell, hx]
  | instanceName s => exact (yields_name s).map fun m x hx => by simp [spell, hx]

namespace Term

mutual

/-- Looks up the symbols of an expression. -/
def spell (m : SymbolTable) : Term Symbol α → Option (Term String α)
  | call f args => do return call (← m.name? f) (← spellAll m args)
  | var x arity n => do return var (← m.name? x) arity n
  | lit v => do return lit (← v.spell m)
  | global x => do return global (← m.name? x)

def spellAll (m : SymbolTable) : List (Term Symbol α) → Option (List (Term String α))
  | [] => some []
  | t :: ts => do return (← spell m t) :: (← spellAll m ts)

end

mutual

theorem yields_intern (t : Term String Unit) :
    Yields t.intern fun m u => (u.mapNotes fun _ => ()).spell m = some (t.mapNotes fun _ => ()) := by
  cases t with
  | call f args =>
    refine (yields_name f).bind fun f' => (yields_internAll args).bind fun args' =>
      yields_pure fun m hargs hf => ?_
    rw [mapNotes, spell, hf, hargs]
    rfl
  | var x arity n =>
    refine (yields_name x).bind fun x' => yields_pure fun m hx => ?_
    rw [mapNotes, spell, hx]
    rfl
  | lit v =>
    refine v.yields_intern.bind fun v' => yields_pure fun m hv => ?_
    rw [mapNotes, spell, hv]
    rfl
  | global x =>
    refine (yields_name x).bind fun x' => yields_pure fun m hx => ?_
    rw [mapNotes, spell, hx]
    rfl

theorem yields_internAll (ts : List (Term String Unit)) :
    Yields (internAll ts) fun m us =>
      spellAll m (mapNotesAll (fun _ => ()) us) = some (mapNotesAll (fun _ => ()) ts) := by
  cases ts with
  | nil => exact yields_pure fun _ => rfl
  | cons t ts =>
    refine (yields_intern t).bind fun t' => (yields_internAll ts).bind fun ts' =>
      yields_pure fun m hts ht => ?_
    rw [mapNotesAll, spellAll, ht, hts]
    rfl

end

end Term

namespace Constraint

/-- Looks up the symbols of a constraint. -/
def Shape.spell (m : SymbolTable) : Shape Symbol α → Option (Shape String α)
  | literal v => do return literal (← v.spell m)
  | var x arity n => do return var (← m.name? x) arity n
  | predicate t => do return predicate (← t.spell m)
  | returnValue t => do return returnValue (← t.spell m)

/-- Looks up the symbols of a constraint. -/
def spell (m : SymbolTable) (c : Constraint Symbol α) : Option (Constraint String α) := do
  return ⟨← c.shape.spell m, c.negated⟩

theorem yields_intern (c : Constraint String Unit) :
    Yields c.intern fun m d => (d.mapNotes fun _ => ()).spell m = some (c.mapNotes fun _ => ()) := by
  obtain ⟨shape, negated⟩ := c
  have hshape : Yields shape.intern fun m s =>
      (mapNotes (fun _ => ()) ⟨s, negated⟩).spell m = some (mapNotes (fun _ => ()) ⟨shape, negated⟩) := by
    cases shape with
    | literal v =>
      refine v.yields_intern.bind fun v' => yields_pure fun m hv => ?_
      simp [mapNotes, spell, Shape.spell, hv]
    | var x arity n =>
      refine (yields_name x).bind fun x' => yields_pure fun m hx => ?_
      simp [mapNotes, spell, Shape.spell, hx]
    | predicate t =>
      refine t.yields_intern.bind fun t' => yields_pure fun m ht => ?_
      simp [mapNotes, spell, Shape.spell, ht]
    | returnValue t =>
      refine t.yields_intern.bind fun t' => yields_pure fun m ht => ?_
      simp [mapNotes, spell, Shape.spell, ht]
  exact hshape.bind fun s => yields_pure fun m hs => hs

end Constraint

namespace Alternative

/-- Looks up the symbols of an alternative. -/
def spell (m : SymbolTable) (a : Alternative Symbol α) : Option (Alternative String α) := do
  return ⟨← a.first.spell m, ← a.rest.mapM (Constraint.spell m)⟩

theorem yields_intern (a : Alternative String Unit) :
    Yields a.intern fun m b => (b.mapNotes fun _ => ()).spell m = some (a.mapNotes fun _ => ()) := by
  have hrest : Yields (a.rest.mapM Constraint.intern) fun m cs =>
      (cs.map (Constraint.mapNotes fun _ => ())).mapM (Constraint.spell m) =
        some (a.rest.map (Constraint.mapNotes fun _ => ())) :=
    yields_mapM fun c _ => c.yields_intern
  refine a.first.yields_intern.bind fun first => hrest.bind fun rest =>
    yields_pure fun m hrest hfirst => ?_
  simp only [mapNotes, spell, hfirst, hrest]
  rfl

end Alternative

/-- Looks up the symbol of a binder. -/
def Binder.spell (m : SymbolTable) : Binder Symbol → Option (Binder String)
  | var x arity => do return var (← m.name? x) arity
  | wildcard arity => some (wildcard arity)

theorem Binder.yields_intern (b : Binder String) : Yields b.intern fun m c => c.spell m = some b := by
  cases b with
  | var x arity =>
    refine (yields_name x).bind fun x' => yields_pure fun m hx => ?_
    rw [spell, hx]
    rfl
  | wildcard arity => exact yields_pure fun _ => rfl

namespace Field

mutual

/-- Looks up the symbols of a field. -/
def spell (m : SymbolTable) : Field Symbol α → Option (Field String α)
  | plain b as declared n => do
    return plain (← b.spell m) (← as.mapM (Alternative.spell m)) declared n
  | multi ps as declared n => do
    return multi (← spellAll m ps) (← as.mapM (Alternative.spell m)) declared n

def spellAll (m : SymbolTable) : List (Field Symbol α) → Option (List (Field String α))
  | [] => some []
  | f :: fs => do return (← spell m f) :: (← spellAll m fs)

end

mutual

theorem yields_intern (f : Field String Unit) :
    Yields f.intern fun m g => (g.mapNotes fun _ => ()).spell m = some (f.mapNotes fun _ => ()) := by
  cases f with
  | plain b as declared n =>
    have has : Yields (as.mapM Alternative.intern) fun m bs =>
        (bs.map (Alternative.mapNotes fun _ => ())).mapM (Alternative.spell m) =
          some (as.map (Alternative.mapNotes fun _ => ())) :=
      yields_mapM fun a _ => a.yields_intern
    refine b.yields_intern.bind fun b' => has.bind fun as' => yields_pure fun m has hb => ?_
    simp only [mapNotes, spell, hb, has]
    rfl
  | multi ps as declared n =>
    refine (yields_internAll ps).bind fun ps' => yields_pure fun m hps => ?_
    simp only [mapNotes, spell, hps]
    rfl

theorem yields_internAll (fs : List (Field String Unit)) :
    Yields (internAll fs) fun m gs =>
      spellAll m (mapNotesAll (fun _ => ()) gs) = some (mapNotesAll (fun _ => ()) fs) := by
  cases fs with
  | nil => exact yields_pure fun _ => rfl
  | cons f fs =>
    refine (yields_intern f).bind fun f' => (yields_internAll fs).bind fun fs' =>
      yields_pure fun m hfs hf => ?_
    rw [mapNotesAll, spellAll, hf, hfs]
    rfl

end

end Field

namespace Slot

/-- Looks up the symbols of a slot. -/
def spell (m : SymbolTable) (s : Slot Symbol α) : Option (Slot String α) := do
  return ⟨← s.name.mapM m.name?, ← s.field.spell m⟩

theorem yields_intern (s : Slot String Unit) :
    Yields s.intern fun m r => (r.mapNotes fun _ => ()).spell m = some (s.mapNotes fun _ => ()) := by
  refine (yields_name? s.name).bind fun name => s.field.yields_intern.bind fun field =>
    yields_pure fun m hfield hname => ?_
  simp only [mapNotes, spell, hname, hfield]
  rfl

end Slot

namespace Pattern

/-- Looks up the symbols of a pattern. -/
def spell (m : SymbolTable) (q : Pattern Symbol α) : Option (Pattern String α) := do
  return ⟨q.kind, ← q.handle.mapM m.name?, ← q.slots.mapM (Slot.spell m)⟩

theorem yields_intern (q : Pattern String Unit) :
    Yields q.intern fun m r => (r.mapNotes fun _ => ()).spell m = some (q.mapNotes fun _ => ()) := by
  have hslots : Yields (q.slots.mapM Slot.intern) fun m ss =>
      (ss.map (Slot.mapNotes fun _ => ())).mapM (Slot.spell m) =
        some (q.slots.map (Slot.mapNotes fun _ => ())) :=
    yields_mapM fun s _ => s.yields_intern
  refine (yields_name? q.handle).bind fun handle => hslots.bind fun slots =>
    yields_pure fun m hslots hhandle => ?_
  simp only [mapNotes, spell, hhandle, hslots]
  rfl

end Pattern

/-- Looks up the symbols of a pattern or test. -/
def Element.spell (m : SymbolTable) : Element Symbol α → Option (Element String α)
  | pattern mode q => do return pattern mode (← q.spell m)
  | test t => do return test (← t.spell m)

namespace Condition

/-- Looks up the symbols of a condition. -/
def spell (m : SymbolTable) (k : Condition Symbol α) : Option (Condition String α) := do
  return ⟨← k.element.spell m, k.beginDepth, k.endDepth, k.note⟩

theorem yields_intern (k : Condition String Unit) :
    Yields k.intern fun m j => j.bare.spell m = some k.bare := by
  obtain ⟨element, beginDepth, endDepth, n⟩ := k
  have helement : Yields element.intern fun m e =>
      (e.mapNotes fun _ => ()).spell m = some (element.mapNotes fun _ => ()) := by
    cases element with
    | pattern mode q =>
      refine q.yields_intern.bind fun q' => yields_pure fun m hq => ?_
      simp only [Element.mapNotes, Element.spell, hq]
      rfl
    | test t =>
      refine t.yields_intern.bind fun t' => yields_pure fun m ht => ?_
      simp only [Element.mapNotes, Element.spell, ht]
      rfl
  refine helement.bind fun e => yields_pure fun m he => ?_
  simp only [bare, mapNotes, spell, he]
  rfl

end Condition

namespace Lhs

/-- Looks up the symbols of a left-hand side. -/
def spell (m : SymbolTable) (l : Lhs Symbol α) : Option (Lhs String α) := l.mapM (Condition.spell m)

/-- **An interned left-hand side is spelled as it was written**, in every later table. -/
theorem yields_intern (l : Lhs String Unit) :
    Yields l.intern fun m r => r.bare.spell m = some l.bare :=
  yields_mapM fun k _ => k.yields_intern

end Lhs

/-! ## What is lost -/

namespace Term

mutual

@[simp] theorem mapNotes_unit (t : Term ν Unit) : (t.mapNotes fun _ => ()) = t := by
  cases t with
  | call f args => rw [mapNotes, mapNotesAll_unit args]
  | var x arity n => rfl
  | lit v => rfl
  | global x => rfl

@[simp] theorem mapNotesAll_unit (ts : List (Term ν Unit)) : mapNotesAll (fun _ => ()) ts = ts := by
  cases ts with
  | nil => rfl
  | cons t ts => rw [mapNotesAll, mapNotes_unit t, mapNotesAll_unit ts]

end

end Term

@[simp] theorem Constraint.mapNotes_unit (c : Constraint ν Unit) : (c.mapNotes fun _ => ()) = c := by
  obtain ⟨shape, negated⟩ := c
  cases shape <;> simp [mapNotes]

@[simp] theorem Alternative.mapNotes_unit (a : Alternative ν Unit) : (a.mapNotes fun _ => ()) = a := by
  have hrest : a.rest.map (Constraint.mapNotes fun _ => ()) = a.rest :=
    List.map_congr_left (fun c _ => c.mapNotes_unit) |>.trans (List.map_id _)
  rw [mapNotes, hrest, Constraint.mapNotes_unit]

namespace Field

mutual

/-- The field without the constraints that are attached to multifield slots themselves. -/
def stripped : Field ν α → Field ν α
  | plain b as declared n => plain b as declared n
  | multi ps _ declared n => multi (strippedAll ps) [] declared n

def strippedAll : List (Field ν α) → List (Field ν α)
  | [] => []
  | f :: fs => stripped f :: strippedAll fs

end

mutual

theorem bare_eq_stripped (f : Field ν Unit) : f.bare = f.stripped := by
  cases f with
  | plain b as declared n =>
    have has : as.map (Alternative.mapNotes fun _ => ()) = as :=
      List.map_congr_left (fun a _ => a.mapNotes_unit) |>.trans (List.map_id _)
    rw [bare, mapNotes, has]
    rfl
  | multi ps as declared n =>
    rw [bare, mapNotes, stripped, mapNotesAll_eq_strippedAll ps]

theorem mapNotesAll_eq_strippedAll (fs : List (Field ν Unit)) :
    mapNotesAll (fun _ => ()) fs = strippedAll fs := by
  cases fs with
  | nil => rfl
  | cons f fs => rw [mapNotesAll, strippedAll, ← bare_eq_stripped f, mapNotesAll_eq_strippedAll fs, bare]

end

end Field

/-- The condition without the constraints that are attached to multifield slots themselves. -/
def Condition.stripped (k : Condition ν α) : Condition ν α :=
  match k.element with
  | .pattern mode q =>
    let slots := q.slots.map fun s => { s with field := s.field.stripped }
    { k with element := .pattern mode { q with slots } }
  | .test _ => k

theorem Condition.bare_eq_stripped (k : Condition ν Unit) : k.bare = k.stripped := by
  obtain ⟨element, beginDepth, endDepth, n⟩ := k
  cases element with
  | pattern mode q =>
    have hslots : q.slots.map (Slot.mapNotes fun _ => ()) =
        q.slots.map fun s => { s with field := s.field.stripped } :=
      List.map_congr_left fun s _ => by rw [Slot.mapNotes, ← Field.bare_eq_stripped, Field.bare]
    simp only [bare, mapNotes, Element.mapNotes, Pattern.mapNotes, hslots, stripped]
  | test t => simp only [bare, mapNotes, Element.mapNotes, Term.mapNotes_unit, stripped]

/-- The left-hand side without the constraints that are attached to multifield slots themselves. -/
def Lhs.stripped (l : Lhs ν α) : Lhs ν α := l.map Condition.stripped

theorem Lhs.bare_eq_stripped (l : Lhs ν Unit) : l.bare = l.stripped :=
  List.map_congr_left fun k _ => k.bare_eq_stripped

end Antecedent
