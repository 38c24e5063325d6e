import Antecedent.Compile
import Mathlib.Data.List.Forall2

/-!
# Changing the notes of a left-hand side

A left-hand side keeps its shape while its notes change: compiling leaves notes at its nodes, and
binding an expression puts binding occurrences in their place.

* `Term.mapNotes`, `Constraint.mapNotes`, ..., `Lhs.mapNotes` change the notes and nothing else,
  except that constraints attached to a multifield slot itself are dropped.
* `Lhs.bare` forgets the notes.
* `Term.traverse` and `Conjunct.traverse` replace the notes by computations that may fail.
* `Term.mapNotes_of_bind` and `Conjunct.forall₂_of_bindAll` say what binding does: it succeeds only
  if every variable has an origin, and then puts that in the place of the note.
-/

namespace Antecedent

variable {ν α β γ : Type}

/-! ## Computations that may fail -/

theorem bind_eq_ok {ε : Type} {x : Except ε α} {f : α → Except ε β} {b : β} :
    x >>= f = .ok b ↔ ∃ a, x = .ok a ∧ f a = .ok b := by
  cases x with
  | error e => simp [bind, Except.bind]
  | ok a => simp [bind, Except.bind]

theorem pure_eq_ok {ε : Type} {a b : α} : (pure a : Except ε α) = .ok b ↔ a = b := by
  simp [pure, Except.pure]

/-- The first member of a list is computed, and then the others. -/
theorem bind_cons_eq_ok {ε : Type} {x : Except ε α} {f : α → β} {g : α → Except ε (List β)}
    {bs : List β} : (do let a ← x; return f a :: (← g a)) = .ok bs ↔
      ∃ a cs, x = .ok a ∧ g a = .ok cs ∧ bs = f a :: cs := by
  simp only [bind_eq_ok, pure_eq_ok]
  constructor
  · rintro ⟨a, ha, cs, hcs, rfl⟩
    exact ⟨a, cs, ha, hcs, rfl⟩
  · rintro ⟨a, cs, ha, hcs, rfl⟩
    exact ⟨a, ha, cs, hcs, rfl⟩

/-- A computation that passes a check succeeds. -/
theorem exists_ok_of_check {ε : Type} {e : Except ε α} {p : α → Bool}
    (h : e.toOption.any p = true) : ∃ a, e = .ok a ∧ p a = true := by
  cases e with
  | error e => simp [Except.toOption] at h
  | ok a => exact ⟨a, rfl, by simpa [Except.toOption] using h⟩

theorem forall₂_of_mapM {ε : Type} {f : α → Except ε β} {xs : List α} {ys : List β}
    (h : xs.mapM f = .ok ys) : List.Forall₂ (fun x y => f x = .ok y) xs ys := by
  induction xs generalizing ys with
  | nil =>
    rw [List.mapM_nil, pure_eq_ok] at h
    exact h ▸ .nil
  | cons x xs ih =>
    rw [List.mapM_cons] at h
    obtain ⟨y, hy, h⟩ := bind_eq_ok.1 h
    obtain ⟨zs, hzs, h⟩ := bind_eq_ok.1 h
    exact pure_eq_ok.1 h ▸ .cons hy (ih hzs)

theorem mapM_eq_pure_of_forall₂ {m : Type → Type} [Monad m] [LawfulMonad m] {R : α → β → Prop}
    {f : α → m β} {xs : List α} {ys : List β} (h : List.Forall₂ R xs ys)
    (hf : ∀ x ∈ xs, ∀ y, R x y → f x = pure y) : xs.mapM f = pure ys := by
  induction h with
  | nil => rw [List.mapM_nil]
  | @cons x y xs ys hxy _ ih =>
    rw [List.mapM_cons, hf x List.mem_cons_self y hxy, pure_bind,
      ih fun x hx => hf x (List.mem_cons_of_mem _ hx), pure_bind]

theorem exists_of_mem_forall₂ {R : α → β → Prop} {xs : List α} {ys : List β}
    (h : List.Forall₂ R xs ys) {x : α} (hx : x ∈ xs) : ∃ y ∈ ys, R x y := by
  induction h with
  | nil => cases hx
  | @cons a b _ _ hab _ ih =>
    rcases List.mem_cons.1 hx with rfl | hx
    · exact ⟨b, List.mem_cons_self, hab⟩
    · obtain ⟨y, hy, hxy⟩ := ih hx
      exact ⟨y, List.mem_cons_of_mem _ hy, hxy⟩

theorem map_eq_map_of_forall₂ {R : α → β → Prop} {f : α → γ} {g : β → γ} {xs : List α}
    {ys : List β} (h : List.Forall₂ R xs ys) (hR : ∀ x y, R x y → f x = g y) :
    xs.map f = ys.map g := by
  induction h with
  | nil => rfl
  | cons hxy _ ih => rw [List.map_cons, List.map_cons, hR _ _ hxy, ih]

theorem forall_mem_iff_of_forall₂ {R : α → β → Prop} {P : α → Prop} {Q : β → Prop} {xs : List α}
    {ys : List β} (h : List.Forall₂ R xs ys) (hR : ∀ x y, R x y → (P x ↔ Q y)) :
    (∀ x ∈ xs, P x) ↔ ∀ y ∈ ys, Q y := by
  induction h with
  | nil => simp
  | cons hxy _ ih => rw [List.forall_mem_cons, List.forall_mem_cons, hR _ _ hxy, ih]

theorem exists_mem_iff_of_forall₂ {R : α → β → Prop} {P : α → Prop} {Q : β → Prop} {xs : List α}
    {ys : List β} (h : List.Forall₂ R xs ys) (hR : ∀ x y, R x y → (P x ↔ Q y)) :
    (∃ x ∈ xs, P x) ↔ ∃ y ∈ ys, Q y := by
  induction h with
  | nil => simp
  | cons hxy _ ih => rw [List.exists_mem_cons_iff, List.exists_mem_cons_iff, hR _ _ hxy, ih]

theorem Note.origin_ne_none_of_map_eq {os : List Origin} {ns : List Note}
    (h : os.map some = ns.map Note.origin) : ∀ n ∈ ns, n.origin ≠ none := by
  intro n hn hnone
  obtain ⟨o, -, ho⟩ := List.mem_map.1 (h ▸ List.mem_map_of_mem hn)
  rw [hnone] at ho
  cases ho

/-! ## Expressions -/

namespace Term

mutual

/-- Changes the notes of an expression. -/
def mapNotes (g : α → β) : Term ν α → Term ν β
  | call f args => call f (mapNotesAll g args)
  | var x arity n => var x arity (g n)
  | lit v => lit v
  | global x => global x

def mapNotesAll (g : α → β) : List (Term ν α) → List (Term ν β)
  | [] => []
  | t :: ts => mapNotes g t :: mapNotesAll g ts

end

mutual

theorem notes_mapNotes (g : α → β) (t : Term ν α) : (t.mapNotes g).notes = t.notes.map g := by
  cases t with
  | call f args => simpa [mapNotes, notes] using notesAll_mapNotesAll g args
  | var x arity n => rfl
  | lit v => rfl
  | global x => rfl

theorem notesAll_mapNotesAll (g : α → β) (ts : List (Term ν α)) :
    notesAll (mapNotesAll g ts) = (notesAll ts).map g := by
  cases ts with
  | nil => rfl
  | cons t ts => simp [mapNotesAll, notesAll, notes_mapNotes g t, notesAll_mapNotesAll g ts]

end

mutual

@[simp] theorem size_mapNotes (g : α → β) (t : Term ν α) : (t.mapNotes g).size = t.size := by
  cases t with
  | call f args => simpa [mapNotes, size] using sizeAll_mapNotesAll g args
  | var x arity n => rfl
  | lit v => rfl
  | global x => rfl

theorem sizeAll_mapNotesAll (g : α → β) (ts : List (Term ν α)) :
    sizeAll (mapNotesAll g ts) = sizeAll ts := by
  cases ts with
  | nil => rfl
  | cons t ts => simp [mapNotesAll, sizeAll, size_mapNotes g t, sizeAll_mapNotesAll g ts]

end

mutual

/-- What a variable finds depends on its name only, not on the note that was there. -/
theorem mapNotes_resolve (g : Note → Unit) (σ : Scope) (v : Viewpoint) (t : Term Symbol α) :
    (t.resolve σ v).mapNotes g = t.mapNotes fun _ => () := by
  cases t with
  | call f args => simpa [resolve, mapNotes] using mapNotesAll_resolveAll g σ v args
  | var x arity n => rfl
  | lit value => rfl
  | global x => rfl

theorem mapNotesAll_resolveAll (g : Note → Unit) (σ : Scope) (v : Viewpoint)
    (ts : List (Term Symbol α)) :
    mapNotesAll g (resolveAll σ v ts) = mapNotesAll (fun _ => ()) ts := by
  cases ts with
  | nil => rfl
  | cons t ts =>
    simp [resolveAll, mapNotesAll, mapNotes_resolve g σ v t, mapNotesAll_resolveAll g σ v ts]

end

mutual

/-- Binding an expression puts at every variable the origin that its note holds. -/
theorem mapNotes_of_bindAt {c : Context} {spot : Spot} {enclosing : Option Symbol} {depth : Nat}
    {t : Term Symbol Note} {u : Term Symbol Origin} (h : t.bindAt c spot enclosing depth = .ok u) :
    u.mapNotes some = t.mapNotes Note.origin := by
  cases t with
  | call f args =>
    rw [bindAt] at h
    obtain ⟨-, -, h⟩ := bind_eq_ok.1 h
    obtain ⟨us, hus, h⟩ := bind_eq_ok.1 h
    obtain rfl := pure_eq_ok.1 h
    rw [mapNotes, mapNotes, mapNotesAll_of_bindAllAt hus]
  | var x arity n =>
    rw [bindAt] at h
    obtain ⟨-, -, h⟩ := bind_eq_ok.1 h
    obtain ⟨o, ho, h⟩ := bind_eq_ok.1 h
    obtain rfl := pure_eq_ok.1 h
    have hn : n.origin = some o := by
      unfold Note.bindReference at ho
      split at ho
      · cases ho
      · split at ho <;> cases ho
        assumption
    rw [mapNotes, mapNotes, hn]
  | lit value =>
    rw [bindAt] at h
    obtain ⟨-, -, h⟩ := bind_eq_ok.1 h
    obtain rfl := pure_eq_ok.1 h
    rfl
  | global x =>
    rw [bindAt] at h
    obtain ⟨-, -, h⟩ := bind_eq_ok.1 h
    obtain ⟨-, -, h⟩ := bind_eq_ok.1 h
    obtain rfl := pure_eq_ok.1 h
    rfl

theorem mapNotesAll_of_bindAllAt {c : Context} {spot : Spot} {enclosing : Option Symbol}
    {depth : Nat} {ts : List (Term Symbol Note)} {us : List (Term Symbol Origin)}
    (h : bindAllAt c spot enclosing depth ts = .ok us) :
    mapNotesAll some us = mapNotesAll Note.origin ts := by
  cases ts with
  | nil =>
    rw [bindAllAt] at h
    obtain rfl := pure_eq_ok.1 h
    rfl
  | cons t ts =>
    rw [bindAllAt] at h
    obtain ⟨u, hu, h⟩ := bind_eq_ok.1 h
    obtain ⟨us, hus, h⟩ := bind_eq_ok.1 h
    obtain rfl := pure_eq_ok.1 h
    rw [mapNotesAll, mapNotesAll, mapNotes_of_bindAt hu, mapNotesAll_of_bindAllAt hus]

end

theorem mapNotes_of_bind {c : Context} {spot : Spot} {t : Term Symbol Note}
    {u : Term Symbol Origin} (h : t.bind c spot = .ok u) :
    u.mapNotes some = t.mapNotes Note.origin :=
  mapNotes_of_bindAt h

/-- An expression can be bound only if all its variables refer to something. -/
theorem origin_ne_none_of_bind {c : Context} {spot : Spot} {t : Term Symbol Note}
    {u : Term Symbol Origin} (h : t.bind c spot = .ok u) : ∀ n ∈ t.notes, n.origin ≠ none := by
  have hnotes : u.notes.map some = t.notes.map Note.origin := by
    rw [← notes_mapNotes, ← notes_mapNotes, mapNotes_of_bind h]
  exact Note.origin_ne_none_of_map_eq hnotes

mutual

/-- Replaces the notes of an expression in order, by a computation for each. -/
def traverse {m : Type → Type} [Monad m] (g : α → m β) : Term ν α → m (Term ν β)
  | call f args => do return call f (← traverseAll g args)
  | var x arity n => do return var x arity (← g n)
  | lit v => return lit v
  | global x => return global x

def traverseAll {m : Type → Type} [Monad m] (g : α → m β) : List (Term ν α) → m (List (Term ν β))
  | [] => return []
  | t :: ts => do
    let u ← traverse g t
    return u :: (← traverseAll g ts)

end

section Traverse

variable {m : Type → Type} [Monad m] [LawfulMonad m] {g : α → m β} {h : α → Option β}

mutual

/-- The computations for the notes are pure where `h` has a value, and so is that for the whole. -/
theorem traverse_of_mapNotes (t : Term ν α) {u : Term ν β} (hu : u.mapNotes some = t.mapNotes h)
    (hg : ∀ n ∈ t.notes, ∀ b, h n = some b → g n = pure b) : t.traverse g = pure u := by
  cases t with
  | call f args =>
    cases u with
    | call f' args' =>
      obtain ⟨rfl, hargs⟩ := call.inj hu
      rw [traverse, traverseAll_of_mapNotesAll args hargs hg, pure_bind]
    | _ => cases hu
  | var x arity n =>
    cases u with
    | var x' arity' b =>
      obtain ⟨rfl, rfl, hb⟩ := var.inj hu
      rw [traverse, hg n List.mem_cons_self b hb.symm, pure_bind]
    | _ => cases hu
  | lit v =>
    cases u with
    | lit v' => rw [traverse, lit.inj hu]
    | _ => cases hu
  | global x =>
    cases u with
    | global x' => rw [traverse, global.inj hu]
    | _ => cases hu

theorem traverseAll_of_mapNotesAll (ts : List (Term ν α)) {us : List (Term ν β)}
    (hus : mapNotesAll some us = mapNotesAll h ts)
    (hg : ∀ n ∈ notesAll ts, ∀ b, h n = some b → g n = pure b) : traverseAll g ts = pure us := by
  cases ts with
  | nil =>
    cases us with
    | nil => rw [traverseAll]
    | cons u us => cases hus
  | cons t ts =>
    cases us with
    | nil => cases hus
    | cons u us =>
      obtain ⟨hu, hus⟩ := List.cons.inj hus
      rw [traverseAll, traverse_of_mapNotes t hu fun n hn => hg n (List.mem_append_left _ hn),
        pure_bind, traverseAll_of_mapNotesAll ts hus fun n hn => hg n (List.mem_append_right _ hn),
        pure_bind]

end

end Traverse

end Term

/-! ## Constraints -/

/-- Changes the notes of a constraint. -/
def Constraint.mapNotes (g : α → β) (k : Constraint ν α) : Constraint ν β where
  shape :=
    match k.shape with
    | .literal v => .literal v
    | .var x arity n => .var x arity (g n)
    | .predicate t => .predicate (t.mapNotes g)
    | .returnValue t => .returnValue (t.mapNotes g)
  negated := k.negated

theorem Constraint.mapNotes_resolve (g : Note → Unit) (σ : Scope) (v : Viewpoint)
    (k : Constraint Symbol α) : (k.resolve σ v).mapNotes g = k.mapNotes fun _ => () := by
  obtain ⟨shape, negated⟩ := k
  cases shape <;> simp [resolve, mapNotes, Term.mapNotes_resolve]

@[simp] theorem Constraint.size_mapNotes (g : α → β) (k : Constraint ν α) :
    (k.mapNotes g).size = k.size := by
  obtain ⟨shape, negated⟩ := k
  cases shape <;> simp [mapNotes, size]

namespace Conjunct

/-- Changes the notes of a conjunct. -/
def mapNotes (g : α → β) (k : Conjunct α) : Conjunct β := ⟨k.site, k.constraint.mapNotes g⟩

/-- The notes of the variables of a conjunct. -/
def notes (k : Conjunct α) : List α :=
  match k.constraint.shape with
  | .literal _ => []
  | .var _ _ n => [n]
  | .predicate t | .returnValue t => t.notes

theorem notes_mapNotes (g : α → β) (k : Conjunct α) : (k.mapNotes g).notes = k.notes.map g := by
  obtain ⟨site, shape, negated⟩ := k
  cases shape <;> simp [mapNotes, Constraint.mapNotes, notes, Term.notes_mapNotes]

theorem origins_eq_notes (k : Conjunct Origin) : k.origins = k.notes := by
  obtain ⟨site, shape, negated⟩ := k
  cases shape <;> rfl

/-- The binding occurrences that a conjunct refers to. -/
def references (k : Conjunct Note) : List Origin := k.notes.filterMap Note.origin

theorem origins_of_bound {k : Conjunct Note} {k' : Conjunct Origin}
    (h : k'.mapNotes some = k.mapNotes Note.origin) : k'.origins = k.references := by
  have hnotes : k'.notes.map some = k.notes.map Note.origin := by
    rw [← notes_mapNotes, ← notes_mapNotes, h]
  calc k'.origins = (k'.notes.map some).filterMap id := by simp [origins_eq_notes]
    _ = (k.notes.map Note.origin).filterMap id := by rw [hnotes]
    _ = k.references := by rw [List.filterMap_map]; rfl

/-- Binding a conjunct puts at every variable the origin that its note holds. -/
theorem mapNotes_of_bind {c : Context} {spot : Spot} {field : Restriction} {k : Conjunct Note}
    {k' : Conjunct Origin} (h : k.bind c spot field = .ok k') :
    k'.mapNotes some = k.mapNotes Note.origin := by
  obtain ⟨site, shape, negated⟩ := k
  obtain ⟨a, ha, h⟩ := bind_eq_ok.1 h
  obtain rfl := pure_eq_ok.1 h
  cases shape with
  | literal v =>
    simp only [Constraint.bind] at ha
    split at ha
    · cases ha
    · obtain rfl := pure_eq_ok.1 ha
      rfl
  | var x arity n =>
    simp only [Constraint.bind] at ha
    split at ha
    · cases ha
    · next o ho =>
      obtain rfl := pure_eq_ok.1 ha
      simp [mapNotes, Constraint.mapNotes, ho]
  | predicate t =>
    obtain ⟨u, hu, ha⟩ := bind_eq_ok.1 ha
    obtain rfl := pure_eq_ok.1 ha
    simp [mapNotes, Constraint.mapNotes, Term.mapNotes_of_bind hu]
  | returnValue t =>
    obtain ⟨u, hu, ha⟩ := bind_eq_ok.1 ha
    obtain rfl := pure_eq_ok.1 ha
    simp [mapNotes, Constraint.mapNotes, Term.mapNotes_of_bind hu]

/-- What binding the alternatives of a field does to its conjuncts, one by one. -/
theorem forall₂_of_bindAll {c : Context} {spot : Spot} {field : Restriction}
    {as : List (List (Conjunct Note))} {bound : List (List (Conjunct Origin))}
    (h : bindAll c spot field as = .ok bound) :
    List.Forall₂ (List.Forall₂ fun k k' => k'.mapNotes some = k.mapNotes Note.origin) as bound := by
  refine (forall₂_of_mapM h).imp fun ks ks' hks => ?_
  exact (forall₂_of_mapM hks).imp fun k k' hk => mapNotes_of_bind hk

/-- A field's alternatives can be bound only if all variables in them refer to something. -/
theorem origin_ne_none_of_bindAll {c : Context} {spot : Spot} {field : Restriction}
    {as : List (List (Conjunct Note))} {bound : List (List (Conjunct Origin))}
    (h : bindAll c spot field as = .ok bound) :
    ∀ ks ∈ as, ∀ k ∈ ks, ∀ n ∈ k.notes, n.origin ≠ none := by
  intro ks hks k hk
  obtain ⟨ks', -, hpairs⟩ := exists_of_mem_forall₂ (forall₂_of_bindAll h) hks
  obtain ⟨k', -, hpair⟩ := exists_of_mem_forall₂ hpairs hk
  have hnotes : k'.notes.map some = k.notes.map Note.origin := by
    rw [← notes_mapNotes, ← notes_mapNotes, hpair]
  exact Note.origin_ne_none_of_map_eq hnotes

section Traverse

variable {m : Type → Type} [Monad m]

/-- Replaces the notes of a conjunct in order, by a computation for each. -/
def traverse (g : α → m β) (k : Conjunct α) : m (Conjunct β) :=
  let shape : m (Constraint.Shape Symbol β) :=
    match k.constraint.shape with
    | .literal v => return .literal v
    | .var x arity n => do return .var x arity (← g n)
    | .predicate t => do return .predicate (← t.traverse g)
    | .returnValue t => do return .returnValue (← t.traverse g)
  return ⟨k.site, ← shape, k.constraint.negated⟩

/-- Replaces the notes of the alternatives of a field in order, by a computation for each. -/
def traverseAll (g : α → m β) (as : List (List (Conjunct α))) : m (List (List (Conjunct β))) :=
  as.mapM fun ks => ks.mapM (traverse g)

variable [LawfulMonad m] {g : α → m β} {h : α → Option β}

theorem traverse_of_mapNotes {k : Conjunct α} {k' : Conjunct β}
    (hk : k'.mapNotes some = k.mapNotes h)
    (hg : ∀ n ∈ k.notes, ∀ b, h n = some b → g n = pure b) : k.traverse g = pure k' := by
  obtain ⟨site, shape, negated⟩ := k
  obtain ⟨site', shape', negated'⟩ := k'
  obtain ⟨rfl, hk⟩ := mk.inj hk
  obtain ⟨hshape, rfl⟩ := Constraint.mk.inj hk
  cases shape with
  | literal v =>
    cases shape' with
    | literal v' =>
      obtain rfl := Constraint.Shape.literal.inj hshape
      simp only [traverse, pure_bind]
    | _ => cases hshape
  | var x arity n =>
    cases shape' with
    | var x' arity' b =>
      obtain ⟨rfl, rfl, hb⟩ := Constraint.Shape.var.inj hshape
      simp only [traverse, hg n List.mem_cons_self b hb.symm, pure_bind]
    | _ => cases hshape
  | predicate t =>
    cases shape' with
    | predicate u =>
      have ht := t.traverse_of_mapNotes (Constraint.Shape.predicate.inj hshape) hg
      simp only [traverse, ht, pure_bind]
    | _ => cases hshape
  | returnValue t =>
    cases shape' with
    | returnValue u =>
      have ht := t.traverse_of_mapNotes (Constraint.Shape.returnValue.inj hshape) hg
      simp only [traverse, ht, pure_bind]
    | _ => cases hshape

theorem traverseAll_of_forall₂ {as : List (List (Conjunct α))} {bound : List (List (Conjunct β))}
    (hbound : List.Forall₂ (List.Forall₂ fun k k' => k'.mapNotes some = k.mapNotes h) as bound)
    (hg : ∀ ks ∈ as, ∀ k ∈ ks, ∀ n ∈ k.notes, ∀ b, h n = some b → g n = pure b) :
    traverseAll g as = pure bound := by
  refine mapM_eq_pure_of_forall₂ hbound fun ks hks ks' hpairs => ?_
  exact mapM_eq_pure_of_forall₂ hpairs fun k hk k' hpair =>
    traverse_of_mapNotes hpair (hg ks hks k hk)

end Traverse

end Conjunct

/-! ## Fields, patterns and conditions -/

/-- Changes the notes of an alternative. -/
def Alternative.mapNotes (g : α → β) (a : Alternative ν α) : Alternative ν β :=
  ⟨a.first.mapNotes g, a.rest.map (Constraint.mapNotes g)⟩

theorem Alternative.mapNotes_resolve (g : Note → Unit) (σ : Scope) (v : Viewpoint)
    (a : Alternative Symbol α) : (a.resolve σ v).mapNotes g = a.mapNotes fun _ => () := by
  simp [resolve, mapNotes, Constraint.mapNotes_resolve]

@[simp] theorem Alternative.size_mapNotes (g : α → β) (a : Alternative ν α) :
    (a.mapNotes g).size = a.size := by
  simp [mapNotes, size, constraints]

namespace Field

mutual

/-- Changes the notes of a field and of what is below it. -/
def mapNotes (g : α → β) : Field ν α → Field ν β
  | plain b as declared n => plain b (as.map (Alternative.mapNotes g)) declared (g n)
  | multi ps _ declared n => multi (mapNotesAll g ps) [] declared (g n)

def mapNotesAll (g : α → β) : List (Field ν α) → List (Field ν β)
  | [] => []
  | f :: fs => mapNotes g f :: mapNotesAll g fs

end

mutual

theorem mapNotes_resolve (g : Note → Unit) (σ inner : Scope) (v : Viewpoint)
    (f : Field Symbol α) : (f.resolve σ inner v).mapNotes g = f.mapNotes fun _ => () := by
  cases f with
  | plain b as declared n => simp [resolve, mapNotes, Alternative.mapNotes_resolve]
  | multi ps as declared n => simpa [resolve, mapNotes] using mapNotesAll_resolveAll g σ v ps

theorem mapNotesAll_resolveAll (g : Note → Unit) (σ : Scope) (v : Viewpoint)
    (fs : List (Field Symbol α)) :
    mapNotesAll g (resolveAll σ v fs) = mapNotesAll (fun _ => ()) fs := by
  cases fs with
  | nil => rfl
  | cons f fs =>
    simp [resolveAll, mapNotesAll, mapNotes_resolve g σ σ v f, mapNotesAll_resolveAll g σ v fs]

end

mutual

@[simp] theorem size_mapNotes (g : α → β) (f : Field ν α) : (f.mapNotes g).size = f.size := by
  cases f with
  | plain b as declared n => simp [mapNotes, size]
  | multi ps as declared n => simpa [mapNotes, size] using sizeAll_mapNotesAll g ps

theorem sizeAll_mapNotesAll (g : α → β) (fs : List (Field ν α)) :
    sizeAll (mapNotesAll g fs) = sizeAll fs := by
  cases fs with
  | nil => rfl
  | cons f fs => simp [mapNotesAll, sizeAll, size_mapNotes g f, sizeAll_mapNotesAll g fs]

end

/-- A field without notes. -/
def bare (f : Field ν α) : Field ν Unit := f.mapNotes fun _ => ()

@[simp] theorem bare_resolve (σ inner : Scope) (v : Viewpoint) (f : Field Symbol α) :
    (f.resolve σ inner v).bare = f.bare :=
  mapNotes_resolve ..

@[simp] theorem bare_withNote (n : α) (f : Field ν α) : (f.withNote n).bare = f.bare := by
  cases f <;> rfl

@[simp] theorem note_withNote (n : α) (f : Field ν α) : (f.withNote n).note = n := by
  cases f <;> rfl

@[simp] theorem conjuncts_withNote (site : Site) (n : α) (f : Field Symbol α) :
    (f.withNote n).conjuncts site = f.conjuncts site := by
  cases f <;> rfl

@[simp] theorem binds?_mapNotes (g : α → β) (f : Field ν α) : (f.mapNotes g).binds? = f.binds? := by
  cases f with
  | plain b as declared n => cases b <;> rfl
  | multi ps as declared n => rfl

@[simp] theorem arity_mapNotes (g : α → β) (f : Field ν α) : (f.mapNotes g).arity = f.arity := by
  cases f <;> rfl

theorem size_eq_of_bare {f : Field ν α} {g : Field ν β} (h : f.bare = g.bare) : f.size = g.size := by
  rw [← size_mapNotes (fun _ => ()) f, ← size_mapNotes (fun _ => ()) g]
  exact congrArg size h

theorem binds?_eq_of_bare {f : Field ν α} {g : Field ν β} (h : f.bare = g.bare) :
    f.binds? = g.binds? := by
  rw [← binds?_mapNotes (fun _ => ()) f, ← binds?_mapNotes (fun _ => ()) g]
  exact congrArg binds? h

theorem arity_eq_of_bare {f : Field ν α} {g : Field ν β} (h : f.bare = g.bare) :
    f.arity = g.arity := by
  rw [← arity_mapNotes (fun _ => ()) f, ← arity_mapNotes (fun _ => ()) g]
  exact congrArg arity h

end Field

/-- Changes the notes of a slot. -/
def Slot.mapNotes (g : α → β) (s : Slot ν α) : Slot ν β := ⟨s.name, s.field.mapNotes g⟩

/-- Changes the notes of a pattern. -/
def Pattern.mapNotes (g : α → β) (q : Pattern ν α) : Pattern ν β :=
  ⟨q.kind, q.handle, q.slots.map (Slot.mapNotes g)⟩

/-- Changes the notes of a pattern or test. -/
def Element.mapNotes (g : α → β) : Element ν α → Element ν β
  | pattern mode q => pattern mode (q.mapNotes g)
  | test t => test (t.mapNotes g)

/-- Changes the notes of a condition. -/
def Condition.mapNotes (g : α → β) (k : Condition ν α) : Condition ν β :=
  ⟨k.element.mapNotes g, k.beginDepth, k.endDepth, g k.note⟩

@[simp] theorem Condition.size_mapNotes (g : α → β) (k : Condition ν α) :
    (k.mapNotes g).size = k.size := by
  obtain ⟨element, beginDepth, endDepth, n⟩ := k
  cases element <;>
    simp [mapNotes, Element.mapNotes, Pattern.mapNotes, Slot.mapNotes, size]

/-- A condition without notes. -/
def Condition.bare (k : Condition ν α) : Condition ν Unit := k.mapNotes fun _ => ()

/-- A left-hand side without notes. -/
def Lhs.bare (l : Lhs ν α) : Lhs ν Unit := l.map Condition.bare

end Antecedent
