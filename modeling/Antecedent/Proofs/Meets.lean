import Antecedent.Compile

/-!
# Meets of restrictions

The meet of two restrictions admits exactly the literals that both of them admit, although it drops
types and values on the way. This needs bounds that are numbers: a bound that is not a number gives way
to the other one in a meet, while alone it excludes every number.

* `Restriction.Proper` says that the bounds are numbers; meets keep it, and so does everything that is
  demanded of a variable if the signatures of the functions have it.
* `Restriction.check_normalize` says that dropping types and values changes nothing.
* `Restriction.check_inter` is about the meet of two restrictions, and `Scope.passes_restriction?` about
  the meet of a declared restriction with those of all bindings of a name in a scope.
-/

namespace Antecedent

variable {α : Type}

/-! ## Comparisons of doubles -/

namespace Double

theorem isNaN_max {a b : Double} (ha : a.isNaN = false) (hb : b.isNaN = false) :
    (max a b).isNaN = false := by
  rw [max, ha, hb]
  cases a.le b
  · exact ha
  · exact hb

theorem isNaN_min {a b : Double} (ha : a.isNaN = false) (hb : b.isNaN = false) :
    (min a b).isNaN = false := by
  rw [min, ha, hb]
  cases a.le b
  · exact hb
  · exact ha

theorem max_number (s t : Bool) (r q : Fin (infinityRank + 1)) :
    max (number s r) (number t q) = if key s r ≤ key t q then number t q else number s r := by
  simp [max, isNaN, le]

theorem min_number (s t : Bool) (r q : Fin (infinityRank + 1)) :
    min (number s r) (number t q) = if key s r ≤ key t q then number s r else number t q := by
  simp [min, isNaN, le]

theorem max_le_iff {a b : Double} (ha : a.isNaN = false) (hb : b.isNaN = false) (x : Double) :
    (max a b).le x = true ↔ a.le x = true ∧ b.le x = true := by
  cases a with
  | nan => cases ha
  | number s r =>
    cases b with
    | nan => cases hb
    | number t q =>
      rw [max_number]
      cases x with
      | nan => simp [le]
      | number u p =>
        split <;> simp only [le, decide_eq_true_eq] <;> omega

theorem le_min_iff {a b : Double} (ha : a.isNaN = false) (hb : b.isNaN = false) (x : Double) :
    x.le (min a b) = true ↔ x.le a = true ∧ x.le b = true := by
  cases a with
  | nan => cases ha
  | number s r =>
    cases b with
    | nan => cases hb
    | number t q =>
      rw [min_number]
      cases x with
      | nan => simp [le]
      | number u p =>
        split <;> simp only [le, decide_eq_true_eq] <;> omega

theorem not_lt_of_le_of_le {a b x : Double} (hax : a.le x = true) (hxb : x.le b = true) :
    b.lt a = false := by
  cases a with
  | nan => cases hax
  | number s r =>
    cases b with
    | nan => rfl
    | number t q =>
      cases x with
      | nan => cases hax
      | number u p =>
        simp only [le, lt, decide_eq_true_eq, decide_eq_false_iff_not] at hax hxb ⊢
        omega

/-- Equality as numbers is symmetric and transitive. -/
instance : PartialEquivBEq Double where
  symm {a b} h := by
    cases a <;> cases b <;> simp_all [BEq.beq, eq]
  trans {a b c} hab hbc := by
    cases a <;> cases b <;> cases c <;> simp_all [BEq.beq, eq]

/-- Equal numbers are in the same place on the number line. -/
theorem le_congr {x y : Double} (h : (x == y) = true) (a : Double) :
    a.le x = a.le y ∧ x.le a = y.le a := by
  cases x <;> cases y <;> cases a <;> simp_all [BEq.beq, eq, le]

end Double

/-! ## Ranges -/

namespace Range

/-- The bounds are numbers. -/
def Proper (r : Range) : Prop := (∀ a ∈ r.min, a.isNaN = false) ∧ ∀ b ∈ r.max, b.isNaN = false

instance (r : Range) : Decidable r.Proper := inferInstanceAs (Decidable (_ ∧ _))

theorem proper_unbounded : unbounded.Proper := by decide

theorem Proper.inter {r s : Range} (hr : r.Proper) (hs : s.Proper) : (r ∩ s).Proper := by
  obtain ⟨a, b⟩ := r
  obtain ⟨a', b'⟩ := s
  constructor
  · change ∀ x ∈ combine Double.max a a', x.isNaN = false
    cases a with
    | none => exact hs.1
    | some a =>
      cases a' with
      | none => exact hr.1
      | some a' =>
        rintro x ⟨⟩
        exact Double.isNaN_max (hr.1 a rfl) (hs.1 a' rfl)
  · change ∀ x ∈ combine Double.min b b', x.isNaN = false
    cases b with
    | none => exact hs.2
    | some b =>
      cases b' with
      | none => exact hr.2
      | some b' =>
        rintro x ⟨⟩
        exact Double.isNaN_min (hr.2 b rfl) (hs.2 b' rfl)

theorem contains_iff {r : Range} {x : Double} :
    r.contains x = true ↔ (∀ a ∈ r.min, a.le x = true) ∧ ∀ b ∈ r.max, x.le b = true := by
  rw [contains, Bool.and_eq_true, Option.all_eq_true, Option.all_eq_true]
  rfl

theorem contains_inter {r s : Range} (hr : r.Proper) (hs : s.Proper) (x : Double) :
    (r ∩ s).contains x = true ↔ r.contains x = true ∧ s.contains x = true := by
  obtain ⟨a, b⟩ := r
  obtain ⟨a', b'⟩ := s
  have hmin : (∀ c ∈ combine Double.max a a', c.le x = true) ↔
      (∀ c ∈ a, c.le x = true) ∧ ∀ c ∈ a', c.le x = true := by
    cases a with
    | none => simp [combine]
    | some a =>
      cases a' with
      | none => simp [combine]
      | some a' => simpa [combine] using Double.max_le_iff (hr.1 a rfl) (hs.1 a' rfl) x
  have hmax : (∀ c ∈ combine Double.min b b', x.le c = true) ↔
      (∀ c ∈ b, x.le c = true) ∧ ∀ c ∈ b', x.le c = true := by
    cases b with
    | none => simp [combine]
    | some b =>
      cases b' with
      | none => simp [combine]
      | some b' => simpa [combine] using Double.le_min_iff (hr.2 b rfl) (hs.2 b' rfl) x
  rw [contains_iff, contains_iff, contains_iff]
  change (∀ c ∈ combine Double.max a a', c.le x = true) ∧
    (∀ c ∈ combine Double.min b b', x.le c = true) ↔ _
  rw [hmin, hmax]
  exact and_and_and_comm

/-- A range with crossing bounds contains nothing. -/
theorem contains_eq_false_of_isEmpty {r : Range} (hr : r.isEmpty = true) (x : Double) :
    r.contains x = false := by
  obtain ⟨a, b⟩ := r
  cases a with
  | none => cases hr
  | some a =>
    cases b with
    | none => cases hr
    | some b =>
      rw [Bool.eq_false_iff]
      intro hx
      obtain ⟨ha, hb⟩ := contains_iff.1 hx
      have hlt : b.lt a = false := Double.not_lt_of_le_of_le (ha a rfl) (hb b rfl)
      rw [isEmpty, hlt] at hr
      cases hr

theorem contains_congr {r : Range} {x y : Double} (h : (x == y) = true) :
    r.contains x = r.contains y := by
  have hmin : (fun a : Double => a.le x) = fun a => a.le y := by
    funext a
    exact (Double.le_congr h a).1
  have hmax : (fun b : Double => x.le b) = fun b => y.le b := by
    funext b
    exact (Double.le_congr h b).2
  rw [contains, contains, hmin, hmax]

end Range

/-! ## Equal literals -/

namespace Literal

/-- Equality of literals is symmetric and transitive; it fails to be reflexive at floats that are not
numbers. -/
instance : PartialEquivBEq (Literal Symbol) where
  symm {v w} h := by
    cases v <;> cases w <;> try cases h
    · exact BEq.symm (α := Int) h
    · exact BEq.symm (α := Double) h
    all_goals exact BEq.symm (α := Symbol) h
  trans {u v w} huv hvw := by
    cases u <;> cases v <;> try cases huv
    all_goals cases w <;> try cases hvw
    · exact BEq.trans (α := Int) huv hvw
    · exact BEq.trans (α := Double) huv hvw
    all_goals exact BEq.trans (α := Symbol) huv hvw

theorem type_eq_of_beq {v w : Literal Symbol} (h : (v == w) = true) : v.type = w.type := by
  cases v <;> cases w <;> first | rfl | cases h

/-- Equal literals lie in the same ranges. -/
theorem all_contains_congr {v w : Literal Symbol} (h : (v == w) = true) (r : Range) :
    v.number?.all r.contains = w.number?.all r.contains := by
  cases v <;> cases w <;> try cases h
  · next i j =>
    obtain rfl : i = j := eq_of_beq (α := Int) h
    rfl
  · exact Range.contains_congr h
  all_goals rfl

theorem contains_types {vs : List (Literal Symbol)} {t : ValueType} :
    (types vs).contains t = true ↔ ∃ v ∈ vs, v.type = t := by
  have hfold (s : TypeSet) : (vs.foldl (fun s v => s ∪ .single v.type) s).contains t = true ↔
      s.contains t = true ∨ ∃ v ∈ vs, v.type = t := by
    induction vs generalizing s with
    | nil => simp
    | cons v vs ih => simp [ih, or_assoc]
  rw [types, hfold]
  simp

end Literal

/-! ## Restrictions -/

namespace Restriction

/-- The bounds are numbers. -/
def Proper (r : Restriction) : Prop := r.range.Proper

instance (r : Restriction) : Decidable r.Proper := inferInstanceAs (Decidable r.range.Proper)

theorem range_normalize (r : Restriction) : r.normalize.range = r.range := by
  unfold normalize
  cases r.allowed <;> rfl

theorem Proper.inter {a b : Restriction} (ha : a.Proper) (hb : b.Proper) : (a ∩ b).Proper := by
  change Range.Proper (normalize _).range
  rw [range_normalize]
  exact Range.Proper.inter ha hb

theorem proper_ofValues (vs : List (Literal Symbol)) : (ofValues vs).Proper := Range.proper_unbounded

theorem proper_address : address.Proper := Range.proper_unbounded

/-- An empty range admits no number, so that the types of numbers can be dropped. -/
theorem admitsKind_dropNumbers {types : TypeSet} {range : Range} {v : Literal Symbol} :
    admitsKind (if range.isEmpty then types \ .number else types) range v =
      admitsKind types range v := by
  split
  · next hempty =>
    have hrange (x : Double) := Range.contains_eq_false_of_isEmpty hempty x
    cases v <;> simp [admitsKind, Literal.number?, Literal.type, hrange, TypeSet.number,
      TypeSet.ofList]
  · rfl

theorem check_eq_none_iff_admitsKind {r : Restriction} {v : Literal Symbol} :
    r.check v = none ↔ admitsKind r.types r.range v = true ∧
      ∀ vs ∈ r.allowed, ∃ w ∈ vs, (v == w) = true := by
  rw [check_eq_none_iff, admitsKind, Bool.and_eq_true, Option.all_eq_true]
  simp only [List.contains_iff_exists_mem_beq]
  constructor
  · rintro ⟨htype, hallowed, hrange⟩
    exact ⟨⟨htype, hrange⟩, hallowed⟩
  · rintro ⟨⟨htype, hrange⟩, hallowed⟩
    exact ⟨htype, hallowed, hrange⟩

theorem admitsKind_congr {types : TypeSet} {range : Range} {v w : Literal Symbol}
    (h : (v == w) = true) : admitsKind types range v = admitsKind types range w := by
  rw [admitsKind, admitsKind, Literal.type_eq_of_beq h, Literal.all_contains_congr h]

/-- Dropping types and values that the other parts exclude does not change what is admitted. -/
theorem check_normalize {r : Restriction} {v : Literal Symbol} :
    r.normalize.check v = none ↔ r.check v = none := by
  obtain ⟨types, allowed, range, single, sequence⟩ := r
  rw [check_eq_none_iff_admitsKind, check_eq_none_iff_admitsKind]
  cases allowed with
  | none =>
    change admitsKind (if range.isEmpty then types \ .number else types) range v = true ∧ _ ↔ _
    rw [admitsKind_dropNumbers]
    rfl
  | some vs =>
    let types' := if range.isEmpty then types \ .number else types
    let kept := vs.filter (admitsKind types' range)
    change admitsKind (types' ∩ Literal.types kept) range v = true ∧
      (∀ ws ∈ some kept, ∃ w ∈ ws, (v == w) = true) ↔
      admitsKind types range v = true ∧ ∀ ws ∈ some vs, ∃ w ∈ ws, (v == w) = true
    rw [← @admitsKind_dropNumbers types]
    have hkept : (∃ w ∈ kept, (v == w) = true) ↔
        admitsKind types' range v = true ∧ ∃ w ∈ vs, (v == w) = true := by
      constructor
      · rintro ⟨w, hw, heq⟩
        obtain ⟨hw, hadmits⟩ := List.mem_filter.1 hw
        exact ⟨(admitsKind_congr heq).trans hadmits, w, hw, heq⟩
      · rintro ⟨hadmits, w, hw, heq⟩
        exact ⟨w, List.mem_filter.2 ⟨hw, (admitsKind_congr heq).symm.trans hadmits⟩, heq⟩
    have htypes : (∃ w ∈ kept, (v == w) = true) → admitsKind types' range v = true →
        admitsKind (types' ∩ Literal.types kept) range v = true := by
      rintro ⟨w, hw, heq⟩ hadmits
      obtain ⟨htype, hrange⟩ := Bool.and_eq_true_iff.1 hadmits
      have hmem : (Literal.types kept).contains v.type = true :=
        Literal.contains_types.2 ⟨w, hw, (Literal.type_eq_of_beq heq).symm⟩
      rw [admitsKind, TypeSet.contains_inter, htype, hmem, hrange]
      rfl
    constructor
    · rintro ⟨-, hallowed⟩
      obtain ⟨hadmits, hvs⟩ := hkept.1 (hallowed kept rfl)
      exact ⟨hadmits, by rintro ws ⟨⟩; exact hvs⟩
    · rintro ⟨hadmits, hallowed⟩
      have hw := hkept.2 ⟨hadmits, hallowed vs rfl⟩
      exact ⟨htypes hw hadmits, by rintro ws ⟨⟩; exact hw⟩

theorem exists_commonValues {a b : Option (List (Literal Symbol))} {v : Literal Symbol} :
    (∀ vs ∈ commonValues a b, ∃ w ∈ vs, (v == w) = true) ↔
      (∀ vs ∈ a, ∃ w ∈ vs, (v == w) = true) ∧ ∀ vs ∈ b, ∃ w ∈ vs, (v == w) = true := by
  cases a with
  | none => simp [commonValues]
  | some vs =>
    cases b with
    | none => simp [commonValues]
    | some ws =>
      simp only [commonValues, Option.mem_some_iff, forall_eq', List.mem_filter,
        List.contains_iff_exists_mem_beq]
      constructor
      · rintro ⟨w, ⟨hw, u, hu, hwu⟩, hvw⟩
        exact ⟨⟨w, hw, hvw⟩, u, hu, BEq.trans hvw hwu⟩
      · rintro ⟨⟨w, hw, hvw⟩, u, hu, hvu⟩
        exact ⟨w, ⟨hw, u, hu, BEq.trans (BEq.symm hvw) hvu⟩, hvw⟩

theorem admitsKind_inter {a b : Restriction} (ha : a.Proper) (hb : b.Proper) {v : Literal Symbol} :
    admitsKind (a.types ∩ b.types) (a.range ∩ b.range) v = true ↔
      admitsKind a.types a.range v = true ∧ admitsKind b.types b.range v = true := by
  have hrange : v.number?.all (a.range ∩ b.range).contains = true ↔
      v.number?.all a.range.contains = true ∧ v.number?.all b.range.contains = true := by
    cases v.number? with
    | none => simp
    | some x => exact Range.contains_inter ha hb x
  simp only [admitsKind, Bool.and_eq_true, TypeSet.contains_inter, hrange]
  exact and_and_and_comm

/-- **A meet admits exactly what both restrictions admit**, if their bounds are numbers. -/
theorem check_inter {a b : Restriction} (ha : a.Proper) (hb : b.Proper) {v : Literal Symbol} :
    (a ∩ b).check v = none ↔ a.check v = none ∧ b.check v = none := by
  change (normalize _).check v = none ↔ _
  rw [check_normalize, check_eq_none_iff_admitsKind, check_eq_none_iff_admitsKind,
    check_eq_none_iff_admitsKind, admitsKind_inter ha hb, exists_commonValues]
  exact and_and_and_comm

theorem single_normalize (r : Restriction) : r.normalize.single = r.single := by
  unfold normalize
  cases r.allowed <;> rfl

theorem sequence_normalize (r : Restriction) : r.normalize.sequence = r.sequence := by
  unfold normalize
  cases r.allowed <;> rfl

/-- **The meet is exact**: it admits the literals that both restrictions admit, and one value or a
sequence if both do. -/
theorem inter_admits_iff {a b : Restriction} (ha : a.Proper) (hb : b.Proper) :
    (∀ v, (a ∩ b).check v = none ↔ a.check v = none ∧ b.check v = none) ∧
      (a ∩ b).single = (a.single && b.single) ∧ (a ∩ b).sequence = (a.sequence && b.sequence) :=
  ⟨fun _ => check_inter ha hb, single_normalize _, sequence_normalize _⟩

/-- Two lists, one with `0` and one with `-0`: a zero passes the meet, and what is not a number does not,
although both lists name it. -/
theorem inter_admits_zero :
    let zeros := (ofValues [.float .zero, .float .nan, .string ⟨0⟩]).singleOnly
    let naturals := (ofValues [.float (.ofRank true 0), .float .nan, .integer 3]).withRange
      ⟨some (.ofInt 0), none⟩
    (∀ v, (zeros ∩ naturals).check v = none ↔ zeros.check v = none ∧ naturals.check v = none) ∧
      (zeros ∩ naturals).check (.float (.ofRank true 0)) = none ∧
      (zeros ∩ naturals).check (.float .nan) ≠ none ∧
      (zeros ∩ naturals).single = true ∧ (zeros ∩ naturals).sequence = false := by
  intro zeros naturals
  have hmeet := inter_admits_iff (a := zeros) (b := naturals) (by decide) (by decide)
  refine ⟨hmeet.1, (hmeet.1 _).2 ?_, fun h => ?_, hmeet.2.1, hmeet.2.2⟩
  · decide +kernel
  · exact absurd ((hmeet.1 _).1 h).2 (by decide +kernel)

/-- A literal passes a restriction, or there is none. -/
def Passes (r : Option Restriction) (v : Literal Symbol) : Prop := ∀ a ∈ r, a.check v = none

instance (r : Option Restriction) (v : Literal Symbol) : Decidable (Passes r v) :=
  inferInstanceAs (Decidable (∀ a ∈ r, a.check v = none))

theorem passes_none (v : Literal Symbol) : Passes none v := by
  intro a ha
  cases ha

theorem proper_inter? {r s : Option Restriction} (hr : ∀ a ∈ r, a.Proper) (hs : ∀ a ∈ s, a.Proper) :
    ∀ a ∈ inter? r s, a.Proper := by
  cases r with
  | none => exact hs
  | some a =>
    cases s with
    | none => exact hr
    | some b =>
      rintro c ⟨⟩
      exact (hr a rfl).inter (hs b rfl)

theorem passes_inter? {r s : Option Restriction} (hr : ∀ a ∈ r, a.Proper) (hs : ∀ a ∈ s, a.Proper)
    {v : Literal Symbol} : Passes (inter? r s) v ↔ Passes r v ∧ Passes s v := by
  cases r with
  | none => exact (and_iff_right (passes_none v)).symm
  | some a =>
    cases s with
    | none => exact (and_iff_left (passes_none v)).symm
    | some b =>
      have hinter := @check_inter a b (hr a rfl) (hs b rfl) v
      simpa [Passes, inter?] using hinter

end Restriction

/-! ## Scopes -/

namespace Scope

/-- The bindings in a scope have restrictions whose bounds are numbers. -/
def Proper (σ : Scope) : Prop := ∀ b ∈ σ, ∀ a ∈ b.restriction, a.Proper

theorem Proper.append {σ τ : Scope} (hσ : σ.Proper) (hτ : τ.Proper) : Proper (σ ++ τ) := by
  intro b hb
  exact (List.mem_append.1 hb).elim (hσ b) (hτ b)

/-- What goes through the bindings of a name narrows a restriction by each of them. -/
theorem narrow_foldl {bs : List Binding} (hbs : Proper bs) {r : Option Restriction}
    (hr : ∀ a ∈ r, a.Proper) {v : Literal Symbol} :
    (∀ a ∈ bs.foldl (fun r b => Restriction.inter? b.restriction r) r, a.Proper) ∧
      (Restriction.Passes (bs.foldl (fun r b => Restriction.inter? b.restriction r) r) v ↔
        Restriction.Passes r v ∧ ∀ b ∈ bs, Restriction.Passes b.restriction v) := by
  induction bs generalizing r with
  | nil => exact ⟨hr, by simp⟩
  | cons b bs ih =>
    obtain ⟨hb, hbs⟩ := List.forall_mem_cons.1 hbs
    obtain ⟨hproper, hpasses⟩ := ih hbs (Restriction.proper_inter? hb hr)
    refine ⟨hproper, hpasses.trans ?_⟩
    rw [Restriction.passes_inter? hb hr, List.forall_mem_cons, and_comm (a := Restriction.Passes _ v),
      and_assoc]

theorem proper_named {σ : Scope} (hσ : σ.Proper) (x : Symbol) : Proper (σ.named x) :=
  fun b hb => hσ b (mem_named.1 hb).1

theorem proper_restriction? {σ : Scope} (hσ : σ.Proper) {declared : Option Restriction}
    (hdeclared : ∀ a ∈ declared, a.Proper) (x : Symbol) :
    ∀ a ∈ σ.restriction? x declared, a.Proper :=
  (narrow_foldl (v := .integer 0) (proper_named hσ x) hdeclared).1

/-- **An accumulated restriction** admits what the declared one and those of all bindings of the name
admit. -/
theorem passes_restriction? {σ : Scope} (hσ : σ.Proper) {declared : Option Restriction}
    (hdeclared : ∀ a ∈ declared, a.Proper) {x : Symbol} {v : Literal Symbol} :
    Restriction.Passes (σ.restriction? x declared) v ↔ Restriction.Passes declared v ∧
      ∀ b ∈ σ, b.name = x → Restriction.Passes b.restriction v := by
  rw [restriction?, (narrow_foldl (proper_named hσ x) hdeclared).2]
  simp only [mem_named, and_imp]

end Scope

/-! ## Demands -/

/-- The restrictions of the arguments have bounds that are numbers. -/
def Signature.Proper (s : Signature) : Prop :=
  (∀ r ∈ s.positional, ∀ a ∈ r, a.Proper) ∧ ∀ a ∈ s.rest, a.Proper

instance (s : Signature) : Decidable s.Proper := inferInstanceAs (Decidable (_ ∧ _))

/-- The signatures of the known functions have bounds that are numbers. -/
def Environment.Proper (e : Environment) : Prop := ∀ f ∈ e.functions, f.2.Proper

instance (e : Environment) : Decidable e.Proper :=
  inferInstanceAs (Decidable (∀ f ∈ e.functions, f.2.Proper))

theorem Signature.Proper.arg {s : Signature} (hs : s.Proper) (i : Nat) : ∀ a ∈ s.arg i, a.Proper := by
  unfold Signature.arg
  split
  · next r hr => exact hs.1 r (List.mem_of_getElem? hr)
  · exact hs.2

theorem Environment.Proper.signature? {e : Environment} (he : e.Proper) {f : Symbol} {s : Signature}
    (hs : e.signature? f = some s) : s.Proper := by
  obtain ⟨before, behind, heq, -⟩ := List.lookup_eq_some_iff.1 hs
  refine he (f, s) ?_
  rw [heq]
  exact List.mem_append_right _ List.mem_cons_self

namespace Demand

theorem proper_insert {ds : List Demand} {d : Demand} (hds : ∀ a ∈ ds, a.restriction.Proper)
    (hd : d.restriction.Proper) : ∀ a ∈ insert ds d, a.restriction.Proper := by
  induction ds with
  | nil => exact List.forall_mem_singleton.2 hd
  | cons a ds ih =>
    obtain ⟨ha, hds⟩ := List.forall_mem_cons.1 hds
    rw [insert]
    split
    · exact List.forall_mem_cons.2 ⟨ha.inter hd, hds⟩
    · exact List.forall_mem_cons.2 ⟨ha, ih hds⟩

theorem proper_collect {ds : List Demand} (hds : ∀ d ∈ ds, d.restriction.Proper) :
    ∀ d ∈ collect ds, d.restriction.Proper := by
  have hfold (es : List Demand) (hes : ∀ d ∈ es, d.restriction.Proper) :
      ∀ d ∈ ds.foldl insert es, d.restriction.Proper := by
    induction ds generalizing es with
    | nil => exact hes
    | cons d ds ih =>
      obtain ⟨hd, hds⟩ := List.forall_mem_cons.1 hds
      exact ih hds _ (proper_insert hes hd)
  exact hfold [] (by simp)

end Demand

namespace Term

theorem proper_callDemands {s : Signature} (hs : s.Proper) (i : Nat) (ts : List (Term Symbol α)) :
    ∀ d ∈ callDemands s i ts, d.restriction.Proper := by
  induction ts generalizing i with
  | nil => simp [callDemands]
  | cons t ts ih =>
    refine List.forall_mem_append.2 ⟨fun d hd => ?_, ih (i + 1)⟩
    cases t with
    | var x arity note =>
      obtain ⟨a, ha, rfl⟩ := Option.map_eq_some_iff.1 (Option.mem_toList.1 hd)
      exact hs.arg i a ha
    | call f args => cases hd
    | lit v => cases hd
    | global x => cases hd

theorem proper_demands {e : Environment} (he : e.Proper) (t : Term Symbol α) :
    ∀ d ∈ t.demands e, d.restriction.Proper := by
  refine Demand.proper_collect fun d hd => ?_
  obtain ⟨⟨f, args⟩, -, hd⟩ := List.mem_flatMap.1 hd
  dsimp only at hd
  split at hd
  · next s hs => exact proper_callDemands (he.signature? hs) 0 args d hd
  · cases hd

end Term

theorem Restriction.proper_interAll {rs : List Restriction} (hrs : ∀ r ∈ rs, r.Proper) :
    ∀ a ∈ interAll rs, a.Proper := by
  cases rs with
  | nil => simp [interAll]
  | cons r rs =>
    rintro a ⟨⟩
    obtain ⟨hr, hrs⟩ := List.forall_mem_cons.1 hrs
    exact List.foldlRecOn rs _ hr fun b hb s hs => hb.inter (hrs s hs)

theorem Constraint.proper_demands {e : Environment} (he : e.Proper) {literals : Option Restriction}
    (hliterals : ∀ a ∈ literals, a.Proper) (k : Constraint Symbol α) :
    ∀ d ∈ k.demands e literals, d.restriction.Proper := by
  obtain ⟨shape, negated⟩ := k
  cases shape with
  | literal v => simp [demands]
  | predicate t => exact t.proper_demands he
  | returnValue t => exact t.proper_demands he
  | var x arity note =>
    cases negated with
    | true => simp [demands]
    | false =>
      intro d hd
      obtain ⟨a, ha, rfl⟩ := Option.map_eq_some_iff.1 (Option.mem_toList.1 hd)
      exact hliterals a ha

theorem Demand.proper_ofConjuncts {e : Environment} (he : e.Proper) (ks : List (Constraint Symbol α)) :
    ∀ d ∈ ofConjuncts e ks, d.restriction.Proper := by
  have hliterals : ∀ a ∈ Restriction.interAll (ks.filterMap Constraint.literalRestriction?),
      a.Proper := by
    refine Restriction.proper_interAll fun r hr => ?_
    obtain ⟨k, -, hk⟩ := List.mem_filterMap.1 hr
    unfold Constraint.literalRestriction? at hk
    split at hk
    · obtain rfl := Option.some.inj hk
      exact Restriction.proper_ofValues _
    · cases hk
  refine proper_collect fun d hd => ?_
  obtain ⟨k, -, hd⟩ := List.mem_flatMap.1 hd
  exact k.proper_demands he hliterals d hd

/-- What a field demands has bounds that are numbers if the signatures have. -/
theorem Field.proper_demands {e : Environment} (he : e.Proper) (as : List (List (Conjunct Note))) :
    ∀ d ∈ demands e as, d.restriction.Proper := by
  unfold demands
  split
  · exact Demand.proper_ofConjuncts he _
  · simp

end Antecedent
