import Antecedent.Proofs.Meets
import Mathlib.Logic.Basic

/-!
# Laws of meets

Meets of restrictions are associative, and commutative up to the order, the repetitions and the signs
of zeros in the lists of values. Every meet drops types and values; the grouping does not matter, because
what a part of a meet drops is dropped by the whole as well.

* `Restriction.overlap` is the meet before anything is dropped, and `Restriction.normalize_overlap` says
  that it does not matter whether its operands were normalized.
* `Restriction.Normal` describes what a meet looks like, and `Restriction.Alike` how much the order of
  the operands matters.
* `Restriction.isUnmatchable_eq_inter_any_iff` says for which restrictions the meet with `any` is judged
  in the same way, and `Restriction.inter_narrows_iff` which meets admit no more than their operands when
  a bound may be something else than a number.
-/

namespace Antecedent

/-! ## Bounds -/

namespace Double

@[simp] theorem max_nan_left (a : Double) : max nan a = a := rfl

@[simp] theorem max_nan_right (a : Double) : max a nan = a := by cases a <;> rfl

@[simp] theorem min_nan_left (a : Double) : min nan a = a := rfl

@[simp] theorem min_nan_right (a : Double) : min a nan = a := by cases a <;> rfl

theorem max_assoc (a b c : Double) : max (max a b) c = max a (max b c) := by
  cases a with
  | nan => simp
  | number s r =>
    cases b with
    | nan => simp
    | number t q =>
      cases c with
      | nan => simp
      | number u p =>
        by_cases hab : key s r ≤ key t q <;> by_cases hbc : key t q ≤ key u p <;>
          by_cases hac : key s r ≤ key u p <;> first | omega | simp [max_number, hab, hbc, hac]

theorem min_assoc (a b c : Double) : min (min a b) c = min a (min b c) := by
  cases a with
  | nan => simp
  | number s r =>
    cases b with
    | nan => simp
    | number t q =>
      cases c with
      | nan => simp
      | number u p =>
        by_cases hab : key s r ≤ key t q <;> by_cases hbc : key t q ≤ key u p <;>
          by_cases hac : key s r ≤ key u p <;> first | omega | simp [min_number, hab, hbc, hac]

/-- One of the two zeros is not among some doubles. -/
def UnmixedZeros (xs : List Double) : Prop := (∀ x ∈ xs, x ≠ zero) ∨ ∀ x ∈ xs, x ≠ ofRank true 0

instance (xs : List Double) : Decidable (UnmixedZeros xs) := inferInstanceAs (Decidable (_ ∨ _))

theorem UnmixedZeros.mono {xs ys : List Double} (h : UnmixedZeros ys) (hsub : xs ⊆ ys) :
    UnmixedZeros xs :=
  h.imp (fun hys x hx => hys x (hsub hx)) fun hys x hx => hys x (hsub hx)

/-- Equal numbers are the same double, or two zeros. -/
theorem eq_or_zeros_of_beq {a b : Double} (h : (a == b) = true) :
    a = b ∨ (a = zero ∧ b = ofRank true 0) ∨ (a = ofRank true 0 ∧ b = zero) := by
  have hzero (s : Bool) (r : Fin (infinityRank + 1)) (hr : r.val = 0) : number s r = ofRank s 0 := by
    rw [ofRank]
    congr
    simp [Fin.ext_iff, hr]
  cases a with
  | nan => cases h
  | number s r =>
    cases b with
    | nan => cases h
    | number t q =>
      have hkey : key s r = key t q := of_decide_eq_true h
      cases s <;> cases t <;> simp only [key, if_true, Bool.false_eq_true, if_false] at hkey
      · exact .inl (congrArg (number false) (Fin.ext (by omega)))
      · exact .inr (.inl ⟨hzero _ r (by omega), hzero _ q (by omega)⟩)
      · exact .inr (.inr ⟨hzero _ r (by omega), hzero _ q (by omega)⟩)
      · exact .inl (congrArg (number true) (Fin.ext (by omega)))

theorem UnmixedZeros.eq_of_beq {xs : List Double} (hxs : UnmixedZeros xs) {a b : Double} (ha : a ∈ xs)
    (hb : b ∈ xs) (h : (a == b) = true) : a = b := by
  rcases eq_or_zeros_of_beq h with heq | ⟨rfl, rfl⟩ | ⟨rfl, rfl⟩
  · exact heq
  · exact hxs.elim (fun h => absurd rfl (h _ ha)) fun h => absurd rfl (h _ hb)
  · exact hxs.elim (fun h => absurd rfl (h _ hb)) fun h => absurd rfl (h _ ha)

/-- The order of the operands matters only for the sign of zero. -/
theorem max_comm_of {a b : Double} (h : (a == b) = true → a = b) : max a b = max b a := by
  cases a with
  | nan => simp
  | number s r =>
    cases b with
    | nan => simp
    | number t q =>
      rw [max_number, max_number]
      split <;> split
      · exact (h (decide_eq_true (by omega))).symm
      · rfl
      · rfl
      · omega

theorem min_comm_of {a b : Double} (h : (a == b) = true → a = b) : min a b = min b a := by
  cases a with
  | nan => simp
  | number s r =>
    cases b with
    | nan => simp
    | number t q =>
      rw [min_number, min_number]
      split <;> split
      · exact h (decide_eq_true (by omega))
      · rfl
      · rfl
      · omega

theorem le_refl {a : Double} (h : a.isNaN = false) : a.le a = true := by
  cases a with
  | nan => cases h
  | number s r => simp [le]

theorem isNaN_of_le {a b : Double} (h : a.le b = true) : a.isNaN = false ∧ b.isNaN = false := by
  cases a <;> cases b <;> first | cases h | exact ⟨rfl, rfl⟩

theorem le_of_not_lt {a b : Double} (ha : a.isNaN = false) (hb : b.isNaN = false)
    (h : b.lt a = false) : a.le b = true := by
  cases a with
  | nan => cases ha
  | number s r =>
    cases b with
    | nan => cases hb
    | number t q =>
      simp only [lt, le, decide_eq_false_iff_not, decide_eq_true_eq] at h ⊢
      omega

end Double

/-! ## Ranges -/

namespace Range

/-- The bounds of a range. -/
def bounds (r : Range) : List Double := r.min.toList ++ r.max.toList

theorem combine_assoc {f : Double → Double → Double} (hf : ∀ a b c, f (f a b) c = f a (f b c))
    (a b c : Option Double) : combine f (combine f a b) c = combine f a (combine f b c) := by
  cases a <;> cases b <;> cases c <;> simp [combine, hf]

theorem combine_comm {f : Double → Double → Double} {a b : Option Double}
    (hf : ∀ x ∈ a, ∀ y ∈ b, f x y = f y x) : combine f a b = combine f b a := by
  cases a with
  | none => cases b <;> rfl
  | some x =>
    cases b with
    | none => rfl
    | some y => exact congrArg some (hf x rfl y rfl)

theorem inter_assoc (r s t : Range) : r ∩ s ∩ t = r ∩ (s ∩ t) :=
  congrArg₂ mk (combine_assoc Double.max_assoc r.min s.min t.min)
    (combine_assoc Double.min_assoc r.max s.max t.max)

theorem inter_comm {r s : Range} (h : Double.UnmixedZeros (r.bounds ++ s.bounds)) : r ∩ s = s ∩ r := by
  refine congrArg₂ mk (combine_comm fun x hx y hy => Double.max_comm_of fun heq => ?_)
    (combine_comm fun x hx y hy => Double.min_comm_of fun heq => ?_)
  · exact h.eq_of_beq (by simp [bounds, Option.mem_def.1 hx]) (by simp [bounds, Option.mem_def.1 hy]) heq
  · exact h.eq_of_beq (by simp [bounds, Option.mem_def.1 hx]) (by simp [bounds, Option.mem_def.1 hy]) heq

@[simp] theorem inter_unbounded (r : Range) : r ∩ unbounded = r := by
  obtain ⟨a, b⟩ := r
  cases a <;> cases b <;> rfl

/-- A range between numbers that is not empty contains one of its bounds, or everything. -/
theorem exists_contains {r : Range} (hr : r.Proper) (h : r.isEmpty = false) :
    ∃ x, r.contains x = true := by
  obtain ⟨a, b⟩ := r
  cases a with
  | none =>
    cases b with
    | none => exact ⟨.zero, rfl⟩
    | some b => exact ⟨b, by simp [contains, Double.le_refl (hr.2 b rfl)]⟩
  | some a =>
    have ha := hr.1 a rfl
    cases b with
    | none => exact ⟨a, by simp [contains, Double.le_refl ha]⟩
    | some b =>
      have hle : a.le b = true := Double.le_of_not_lt ha (hr.2 b rfl) h
      exact ⟨a, by simp [contains, Double.le_refl ha, hle]⟩

/-- A meet with an empty range is empty. -/
theorem isEmpty_inter {r s : Range} (hr : r.Proper) (hs : s.Proper)
    (h : r.isEmpty = true ∨ s.isEmpty = true) : (r ∩ s).isEmpty = true := by
  rw [← Bool.not_eq_false]
  intro hne
  obtain ⟨x, hx⟩ := exists_contains (hr.inter hs) hne
  obtain ⟨hxr, hxs⟩ := (contains_inter hr hs x).1 hx
  rcases h with h | h
  · rw [contains_eq_false_of_isEmpty h x] at hxr
    cases hxr
  · rw [contains_eq_false_of_isEmpty h x] at hxs
    cases hxs

end Range

/-! ## Normalizing -/

namespace TypeSet

theorem inter_assoc (a b c : TypeSet) : a ∩ b ∩ c = a ∩ (b ∩ c) :=
  eq_of_contains fun t => by simp [Bool.and_assoc]

theorem inter_comm (a b : TypeSet) : a ∩ b = b ∩ a :=
  eq_of_contains fun t => by simp [Bool.and_comm]

@[simp] theorem inter_all (a : TypeSet) : a ∩ all = a :=
  eq_of_contains fun t => by simp

theorem isEmpty_eq_false_iff {a : TypeSet} : a.isEmpty = false ↔ ∃ t, a.contains t = true := by
  have hempty : a.isEmpty = true ↔ a = empty := by
    obtain ⟨mask⟩ := a
    simp [isEmpty, empty]
  rw [← Bool.not_eq_true, hempty]
  constructor
  · intro hne
    refine Classical.byContradiction fun hnone => hne (eq_of_contains fun t => ?_)
    rw [contains_empty, Bool.eq_false_iff]
    exact fun ht => hnone ⟨t, ht⟩
  · rintro ⟨t, ht⟩ rfl
    rw [contains_empty] at ht
    cases ht

end TypeSet

namespace Restriction

/-- The values of a list that have a permitted type and lie in the range. -/
def kept (r : Restriction) (vs : List (Literal Symbol)) : List (Literal Symbol) :=
  vs.filter (admitsKind r.types r.range)

theorem mem_kept {r : Restriction} {vs : List (Literal Symbol)} {v : Literal Symbol} :
    v ∈ r.kept vs ↔ v ∈ vs ∧ admitsKind r.types r.range v = true :=
  List.mem_filter

/-- The permitted types without those of numbers if the range is empty. -/
def inhabitedTypes (r : Restriction) : TypeSet :=
  if r.range.isEmpty then r.types \ .number else r.types

theorem contains_inhabitedTypes {r : Restriction} {t : ValueType} :
    r.inhabitedTypes.contains t = true ↔ r.types.contains t = true ∧
      (r.range.isEmpty = true → TypeSet.number.contains t = false) := by
  unfold inhabitedTypes
  split <;> simp_all

theorem normalize_of_none {r : Restriction} (h : r.allowed = none) :
    r.normalize = { r with types := r.inhabitedTypes } := by
  simp only [normalize, h]
  rfl

/-- With a list, the types that are left are those of the values that are left. -/
theorem normalize_of_some {r : Restriction} {vs : List (Literal Symbol)} (h : r.allowed = some vs) :
    r.normalize = { r with types := Literal.types (r.kept vs), allowed := some (r.kept vs) } := by
  have hkept : vs.filter (admitsKind r.inhabitedTypes r.range) = r.kept vs :=
    congrArg (vs.filter ·) (funext fun v => admitsKind_dropNumbers)
  have htypes : r.inhabitedTypes ∩ Literal.types (r.kept vs) = Literal.types (r.kept vs) := by
    refine TypeSet.eq_of_contains fun t => ?_
    rw [TypeSet.contains_inter, Bool.and_eq_right_iff_imp, Literal.contains_types]
    rintro ⟨v, hv, rfl⟩
    rw [← hkept] at hv
    exact (Bool.and_eq_true_iff.1 (List.mem_filter.1 hv).2).1
  simp only [normalize, h]
  change { r with
    types := r.inhabitedTypes ∩ Literal.types (vs.filter (admitsKind r.inhabitedTypes r.range))
    allowed := some (vs.filter (admitsKind r.inhabitedTypes r.range)) } = _
  rw [hkept, htypes]

theorem allowed_normalize (r : Restriction) : r.normalize.allowed = r.allowed.map r.kept := by
  cases h : r.allowed with
  | none => rw [normalize_of_none h, h, Option.map_none]
  | some vs => rw [normalize_of_some h, Option.map_some]

/-- Restrictions that keep the same types and values are normalized to the same restriction. -/
theorem normalize_congr {r s : Restriction} (hrange : r.range = s.range) (hsingle : r.single = s.single)
    (hsequence : r.sequence = s.sequence)
    (htypes : r.allowed = none → r.inhabitedTypes = s.inhabitedTypes)
    (hallowed : r.allowed.map r.kept = s.allowed.map s.kept) : r.normalize = s.normalize := by
  cases hr : r.allowed with
  | none =>
    have hs : s.allowed = none := by
      rw [hr, Option.map_none] at hallowed
      exact Option.map_eq_none_iff.1 hallowed.symm
    rw [normalize_of_none hr, normalize_of_none hs, htypes hr, hrange, hsingle, hsequence, hr, hs]
  | some vs =>
    obtain ⟨ws, hs⟩ : ∃ ws, s.allowed = some ws := by
      rw [← Option.isSome_iff_exists, ← Option.isSome_map (f := s.kept), ← hallowed, hr]
      rfl
    have hkept : r.kept vs = s.kept ws := by simpa [hr, hs] using hallowed
    rw [normalize_of_some hr, normalize_of_some hs, hkept, hrange, hsingle, hsequence]

/-- A value that is listed, or equal to a listed one, is of a kind that is dropped only if it was not
permitted before. -/
theorem admitsKind_normalize {r : Restriction} {v : Literal Symbol}
    (hv : ∀ vs ∈ r.allowed, v ∈ vs ∨ vs.contains v = true) :
    admitsKind r.normalize.types r.range v = admitsKind r.types r.range v := by
  cases hr : r.allowed with
  | none =>
    rw [normalize_of_none hr]
    exact admitsKind_dropNumbers
  | some vs =>
    have htypes : (Literal.types (r.kept vs)).contains v.type = true ↔
        ∃ w ∈ r.kept vs, w.type = v.type := Literal.contains_types
    rw [normalize_of_some hr, Bool.eq_iff_iff]
    refine ⟨fun h => ?_, fun h => ?_⟩
    · obtain ⟨htype, hrange⟩ := Bool.and_eq_true_iff.1 h
      obtain ⟨w, hw, heq⟩ := htypes.1 htype
      have hpermitted := (Bool.and_eq_true_iff.1 (mem_kept.1 hw).2).1
      rw [heq] at hpermitted
      exact Bool.and_eq_true_iff.2 ⟨hpermitted, hrange⟩
    · refine Bool.and_eq_true_iff.2 ⟨htypes.2 ?_, (Bool.and_eq_true_iff.1 h).2⟩
      rcases hv vs hr with hmem | hmem
      · exact ⟨v, mem_kept.2 ⟨hmem, h⟩, rfl⟩
      · obtain ⟨w, hw, heq⟩ := List.contains_iff_exists_mem_beq.1 hmem
        exact ⟨w, mem_kept.2 ⟨hw, (admitsKind_congr heq).symm.trans h⟩,
          (Literal.type_eq_of_beq heq).symm⟩

theorem inhabitedTypes_normalize {r : Restriction} (h : r.allowed = none) :
    r.normalize.inhabitedTypes = r.inhabitedTypes := by
  refine TypeSet.eq_of_contains fun t => ?_
  rw [Bool.eq_iff_iff, contains_inhabitedTypes, range_normalize, normalize_of_none h]
  change r.inhabitedTypes.contains t = true ∧ _ ↔ _
  rw [contains_inhabitedTypes, and_assoc, and_self]

/-- Normalizing twice changes nothing. -/
theorem normalize_normalize (r : Restriction) : r.normalize.normalize = r.normalize := by
  have hrange := range_normalize r
  refine normalize_congr hrange (single_normalize r) (sequence_normalize r) (fun hnone => ?_) ?_
  · have hr : r.allowed = none := by
      rw [allowed_normalize] at hnone
      exact Option.map_eq_none_iff.1 hnone
    exact inhabitedTypes_normalize hr
  · rw [allowed_normalize]
    cases hr : r.allowed with
    | none => rfl
    | some vs =>
      simp only [Option.map_some, Option.some.injEq]
      refine List.filter_eq_self.2 fun v hv => ?_
      obtain ⟨hmem, hadmits⟩ := mem_kept.1 hv
      rw [hrange, admitsKind_normalize fun ws hws => ?_, hadmits]
      rw [hr] at hws
      exact .inl (Option.some.inj hws ▸ hmem)

/-! ## Associativity -/

/-- What two restrictions permit, before types and values are dropped that other parts exclude. -/
def overlap (a b : Restriction) : Restriction where
  types := a.types ∩ b.types
  allowed := commonValues a.allowed b.allowed
  range := a.range ∩ b.range
  single := a.single && b.single
  sequence := a.sequence && b.sequence

theorem inter_eq_normalize (a b : Restriction) : a ∩ b = (overlap a b).normalize := rfl

theorem contains_filter_contains {vs ws : List (Literal Symbol)} {v : Literal Symbol} :
    (vs.filter fun w => ws.contains w).contains v = (vs.contains v && ws.contains v) := by
  rw [Bool.eq_iff_iff, Bool.and_eq_true]
  simp only [List.contains_iff_exists_mem_beq, List.mem_filter]
  constructor
  · rintro ⟨w, ⟨hw, u, hu, hwu⟩, hvw⟩
    exact ⟨⟨w, hw, hvw⟩, u, hu, BEq.trans hvw hwu⟩
  · rintro ⟨⟨w, hw, hvw⟩, u, hu, hvu⟩
    exact ⟨w, ⟨hw, u, hu, BEq.trans (BEq.symm hvw) hvu⟩, hvw⟩

theorem commonValues_assoc (a b c : Option (List (Literal Symbol))) :
    commonValues (commonValues a b) c = commonValues a (commonValues b c) := by
  cases a with
  | none => rfl
  | some us =>
    cases b with
    | none => rfl
    | some vs =>
      cases c with
      | none => rfl
      | some ws =>
        simp only [commonValues, List.filter_filter, contains_filter_contains, Bool.and_comm]

theorem overlap_assoc (a b c : Restriction) :
    overlap (overlap a b) c = overlap a (overlap b c) := by
  simp only [overlap, TypeSet.inter_assoc, commonValues_assoc, Range.inter_assoc, Bool.and_assoc]

theorem contains_kept {r : Restriction} {vs : List (Literal Symbol)} {v : Literal Symbol} :
    (r.kept vs).contains v = (vs.contains v && admitsKind r.types r.range v) := by
  rw [Bool.eq_iff_iff, Bool.and_eq_true]
  simp only [List.contains_iff_exists_mem_beq, mem_kept]
  constructor
  · rintro ⟨w, ⟨hw, hadmits⟩, heq⟩
    exact ⟨⟨w, hw, heq⟩, (admitsKind_congr heq).trans hadmits⟩
  · rintro ⟨⟨w, hw, heq⟩, hadmits⟩
    exact ⟨w, ⟨hw, (admitsKind_congr heq).symm.trans hadmits⟩, heq⟩

theorem proper_normalize {r : Restriction} (hr : r.Proper) : r.normalize.Proper := by
  rw [Proper, range_normalize]
  exact hr

theorem commonValues_eq_none_iff {a b : Option (List (Literal Symbol))} :
    commonValues a b = none ↔ a = none ∧ b = none := by
  cases a <;> cases b <;> simp [commonValues]

section Overlap

variable {a b : Restriction} (ha : a.Proper) (hb : b.Proper)

include ha hb

theorem admitsKind_overlap (v : Literal Symbol) :
    admitsKind (overlap a b).types (overlap a b).range v =
      (admitsKind a.types a.range v && admitsKind b.types b.range v) := by
  rw [Bool.eq_iff_iff, Bool.and_eq_true]
  exact admitsKind_inter ha hb

theorem contains_inhabitedTypes_overlap {t : ValueType} :
    (overlap a b).inhabitedTypes.contains t = true ↔ a.inhabitedTypes.contains t = true ∧
      b.inhabitedTypes.contains t = true ∧
      ((a.range ∩ b.range).isEmpty = true → TypeSet.number.contains t = false) := by
  have hempty (h : a.range.isEmpty = true ∨ b.range.isEmpty = true) :
      (a.range ∩ b.range).isEmpty = true := Range.isEmpty_inter ha hb h
  simp only [contains_inhabitedTypes, overlap, TypeSet.contains_inter, Bool.and_eq_true]
  constructor
  · rintro ⟨⟨hta, htb⟩, hnumber⟩
    exact ⟨⟨hta, fun h => hnumber (hempty (.inl h))⟩, ⟨htb, fun h => hnumber (hempty (.inr h))⟩, hnumber⟩
  · rintro ⟨⟨hta, -⟩, ⟨htb, -⟩, hnumber⟩
    exact ⟨⟨hta, htb⟩, hnumber⟩

/-- It does not matter whether the operands of a meet were normalized before. -/
theorem normalize_overlap :
    (overlap a.normalize b.normalize).normalize = (overlap a b).normalize := by
  have hkind (v : Literal Symbol) (hus : ∀ us ∈ a.allowed, v ∈ us ∨ us.contains v = true)
      (hws : ∀ ws ∈ b.allowed, v ∈ ws ∨ ws.contains v = true) :
      admitsKind (overlap a.normalize b.normalize).types (overlap a.normalize b.normalize).range v =
        (admitsKind a.types a.range v && admitsKind b.types b.range v) := by
    rw [admitsKind_overlap (proper_normalize ha) (proper_normalize hb), range_normalize,
      range_normalize, admitsKind_normalize hus, admitsKind_normalize hws]
  refine normalize_congr (congrArg₂ (· ∩ ·) (range_normalize a) (range_normalize b))
    (congrArg₂ and (single_normalize a) (single_normalize b))
    (congrArg₂ and (sequence_normalize a) (sequence_normalize b)) (fun hnone => ?_) ?_
  · obtain ⟨hus, hws⟩ := commonValues_eq_none_iff.1 hnone
    rw [allowed_normalize, Option.map_eq_none_iff] at hus hws
    refine TypeSet.eq_of_contains fun t => ?_
    rw [Bool.eq_iff_iff, contains_inhabitedTypes_overlap (proper_normalize ha) (proper_normalize hb),
      contains_inhabitedTypes_overlap ha hb, inhabitedTypes_normalize hus,
      inhabitedTypes_normalize hws, range_normalize, range_normalize]
  · -- What an operand drops from its list, the whole drops as well.
    change (commonValues a.normalize.allowed b.normalize.allowed).map _ =
      (commonValues a.allowed b.allowed).map _
    rw [allowed_normalize, allowed_normalize]
    cases hus : a.allowed with
    | none =>
      cases hws : b.allowed with
      | none => rfl
      | some ws =>
        simp only [Option.map_none, Option.map_some, commonValues, kept, List.filter_filter]
        refine congrArg some (List.filter_congr fun v hv => ?_)
        rw [hkind v (by simp [hus]) (by simp [hws, hv]), admitsKind_overlap ha hb]
        cases admitsKind b.types b.range v <;> simp
    | some us =>
      cases hws : b.allowed with
      | none =>
        simp only [Option.map_none, Option.map_some, commonValues, kept, List.filter_filter]
        refine congrArg some (List.filter_congr fun v hv => ?_)
        rw [hkind v (by simp [hus, hv]) (by simp [hws]), admitsKind_overlap ha hb]
        cases admitsKind a.types a.range v <;> simp
      | some ws =>
        simp only [Option.map_some, commonValues, contains_kept]
        simp only [kept, List.filter_filter]
        refine congrArg some (List.filter_congr fun v hv => ?_)
        cases hmem : ws.contains v with
        | false => simp
        | true =>
          rw [hkind v (by simp [hus, hv]) (by simp [hws, hmem]), admitsKind_overlap ha hb]
          cases admitsKind a.types a.range v <;> cases admitsKind b.types b.range v <;> rfl

theorem normalize_overlap_left : (overlap a.normalize b).normalize = (overlap a b).normalize := by
  rw [← normalize_overlap (proper_normalize ha) hb, normalize_normalize, normalize_overlap ha hb]

theorem normalize_overlap_right : (overlap a b.normalize).normalize = (overlap a b).normalize := by
  rw [← normalize_overlap ha (proper_normalize hb), normalize_normalize, normalize_overlap ha hb]

end Overlap

/-- **Meets are associative** if the bounds are numbers. -/
theorem inter_assoc {a b c : Restriction} (ha : a.Proper) (hb : b.Proper) (hc : c.Proper) :
    a ∩ b ∩ c = a ∩ (b ∩ c) := by
  have hab : (overlap a b).Proper := Range.Proper.inter ha hb
  have hbc : (overlap b c).Proper := Range.Proper.inter hb hc
  calc a ∩ b ∩ c = (overlap (overlap a b).normalize c).normalize := rfl
    _ = (overlap (overlap a b) c).normalize := normalize_overlap_left hab hc
    _ = (overlap a (overlap b c)).normalize := by rw [overlap_assoc]
    _ = (overlap a (overlap b c).normalize).normalize := (normalize_overlap_right ha hbc).symm
    _ = a ∩ (b ∩ c) := rfl

/-! ## Normal forms -/

/-- A restriction with nothing left to drop. -/
structure Normal (r : Restriction) : Prop where
  /-- The permitted types are those of the listed values. -/
  types_eq : ∀ vs ∈ r.allowed, r.types = Literal.types vs
  /-- The listed values are admitted; what is not a number equals nothing, so it never is. -/
  admitted : ∀ vs ∈ r.allowed, ∀ v ∈ vs, v ≠ .float .nan → r.check v = none
  /-- No type of numbers is permitted with an empty range. -/
  noNumber : r.range.isEmpty = true → r.types ∩ .number = .empty

theorem beq_self_of_ne_nan {v : Literal Symbol} (h : v ≠ .float .nan) : (v == v) = true := by
  cases v with
  | integer i => exact BEq.rfl (α := Int)
  | float x =>
    cases x with
    | nan => exact absurd rfl h
    | number s q => exact decide_eq_true rfl
  | symbol s => exact BEq.rfl (α := Symbol)
  | string s => exact BEq.rfl (α := Symbol)
  | instanceName s => exact BEq.rfl (α := Symbol)

theorem types_subset_normalize {r : Restriction} {t : ValueType}
    (h : r.normalize.types.contains t = true) : r.inhabitedTypes.contains t = true := by
  cases hr : r.allowed with
  | none => rwa [normalize_of_none hr] at h
  | some vs =>
    rw [normalize_of_some hr] at h
    obtain ⟨v, hv, rfl⟩ := Literal.contains_types.1 h
    have hadmits := (mem_kept.1 hv).2
    rw [← admitsKind_dropNumbers] at hadmits
    exact (Bool.and_eq_true_iff.1 hadmits).1

theorem normal_normalize (r : Restriction) : r.normalize.Normal := by
  refine ⟨fun vs hvs => ?_, fun vs hvs v hv hne => ?_, fun hempty => ?_⟩
  · rw [allowed_normalize] at hvs
    obtain ⟨ws, hws, rfl⟩ := Option.map_eq_some_iff.1 hvs
    rw [normalize_of_some hws]
  · have hself := beq_self_of_ne_nan hne
    rw [allowed_normalize] at hvs
    obtain ⟨ws, hws, rfl⟩ := Option.map_eq_some_iff.1 hvs
    obtain ⟨hmem, hadmits⟩ := mem_kept.1 hv
    rw [check_normalize, check_eq_none_iff_admitsKind]
    refine ⟨hadmits, fun us hus => ?_⟩
    obtain rfl := Option.some.inj (hws.symm.trans hus)
    exact ⟨v, hmem, hself⟩
  · refine TypeSet.eq_of_contains fun t => ?_
    rw [range_normalize] at hempty
    rw [TypeSet.contains_inter, TypeSet.contains_empty, Bool.and_eq_false_imp]
    intro ht
    exact (contains_inhabitedTypes.1 (types_subset_normalize ht)).2 hempty

/-- The meet with `any` only drops what the restriction itself excludes. -/
theorem inter_any (r : Restriction) : r ∩ any = r.normalize := by
  have hoverlap : overlap r any = r := by
    obtain ⟨types, allowed, range, single, sequence⟩ := r
    cases allowed <;> simp [overlap, any, commonValues]
  rw [inter_eq_normalize, hoverlap]

end Restriction

/-! ## The order of the operands -/

/-- The literal, with the sign of a zero dropped. -/
def Literal.unsigned {ν : Type} : Literal ν → Literal ν
  | .float x => .float (if x == .zero then .zero else x)
  | v => v

theorem Literal.unsigned_eq_of_beq {v w : Literal Symbol} (h : (v == w) = true) :
    v.unsigned = w.unsigned := by
  cases v <;> cases w <;> try cases h
  · exact congrArg integer (eq_of_beq (α := Int) h)
  · next x y =>
    have h : (x == y) = true := h
    rcases Double.eq_or_zeros_of_beq h with rfl | ⟨rfl, rfl⟩ | ⟨rfl, rfl⟩
    · rfl
    · rfl
    · rfl
  · exact congrArg symbol (eq_of_beq (α := Symbol) h)
  · exact congrArg string (eq_of_beq (α := Symbol) h)
  · exact congrArg instanceName (eq_of_beq (α := Symbol) h)

namespace Restriction

/-- The restrictions differ at most in the order and the repetitions of the listed values and in the
signs of zeros among them. -/
structure Alike (r s : Restriction) : Prop where
  types_eq : r.types = s.types
  allowed_alike :
    Option.Rel (fun vs ws => ∀ v, v ∈ vs.map Literal.unsigned ↔ v ∈ ws.map Literal.unsigned)
      r.allowed s.allowed
  range_eq : r.range = s.range
  single_eq : r.single = s.single
  sequence_eq : r.sequence = s.sequence

namespace Alike

theorem refl (r : Restriction) : r.Alike r := by
  refine ⟨rfl, ?_, rfl, rfl, rfl⟩
  cases r.allowed with
  | none => exact .none
  | some vs => exact .some fun _ => Iff.rfl

theorem isUnmatchable_eq {r s : Restriction} (h : r.Alike s) : r.isUnmatchable = s.isUnmatchable := by
  have hempty : r.allowed.any List.isEmpty = s.allowed.any List.isEmpty := by
    have halike := h.allowed_alike
    generalize r.allowed = us at halike
    generalize s.allowed = ws at halike
    cases halike with
    | none => rfl
    | @some vs ws hmem =>
      have hnil (xs : List (Literal Symbol)) :
          xs.isEmpty = true ↔ ∀ v, v ∉ xs.map Literal.unsigned := by
        rw [← List.eq_nil_iff_forall_not_mem, List.map_eq_nil_iff, List.isEmpty_iff]
      rw [Bool.eq_iff_iff, Option.any_some, Option.any_some, hnil, hnil]
      exact forall_congr' fun v => not_congr (hmem v)
  rw [isUnmatchable, isUnmatchable, h.types_eq, h.single_eq, h.sequence_eq, hempty]

end Alike

theorem overlap_comm_of_none {a b : Restriction} (hrange : a.range ∩ b.range = b.range ∩ a.range)
    (h : a.allowed = none ∨ b.allowed = none) : overlap a b = overlap b a := by
  have hallowed : commonValues a.allowed b.allowed = commonValues b.allowed a.allowed := by
    rcases h with h | h
    · cases hb : b.allowed <;> simp [h, commonValues]
    · cases ha : a.allowed <;> simp [h, commonValues]
  simp only [overlap, TypeSet.inter_comm a.types, hallowed, hrange, Bool.and_comm a.single,
    Bool.and_comm a.sequence]

/-- A value that is kept of one list because it is in the other equals one that is kept of the other. -/
theorem exists_beq_of_mem_kept {r : Restriction} {us ws : List (Literal Symbol)} {v : Literal Symbol}
    (hv : v ∈ r.kept (us.filter fun u => ws.contains u)) :
    ∃ w ∈ r.kept (ws.filter fun w => us.contains w), (v == w) = true := by
  obtain ⟨hv, hadmits⟩ := mem_kept.1 hv
  obtain ⟨hus, hws⟩ := List.mem_filter.1 hv
  obtain ⟨w, hw, heq⟩ := List.contains_iff_exists_mem_beq.1 hws
  have hback : us.contains w = true := List.contains_iff_exists_mem_beq.2 ⟨v, hus, BEq.symm heq⟩
  exact ⟨w, mem_kept.2 ⟨List.mem_filter.2 ⟨hw, hback⟩, (admitsKind_congr heq).symm.trans hadmits⟩, heq⟩

/-- **Meets are commutative** up to the listing of the values, if the bounds do not mix zeros. -/
theorem alike_inter_comm {a b : Restriction}
    (hzeros : Double.UnmixedZeros (a.range.bounds ++ b.range.bounds)) : (a ∩ b).Alike (b ∩ a) := by
  have hrange := Range.inter_comm hzeros
  rw [inter_eq_normalize, inter_eq_normalize]
  cases hus : a.allowed with
  | none =>
    rw [overlap_comm_of_none hrange (.inl hus)]
    exact .refl _
  | some us =>
    cases hws : b.allowed with
    | none =>
      rw [overlap_comm_of_none hrange (.inr hws)]
      exact .refl _
    | some ws =>
      have hab : (overlap a b).allowed = some (us.filter fun u => ws.contains u) := by
        simp [overlap, hus, hws, commonValues]
      have hba : (overlap b a).allowed = some (ws.filter fun w => us.contains w) := by
        simp [overlap, hus, hws, commonValues]
      have hkept (vs : List (Literal Symbol)) : (overlap b a).kept vs = (overlap a b).kept vs := by
        simp only [kept, overlap, hrange, TypeSet.inter_comm b.types]
      rw [normalize_of_some hab, normalize_of_some hba, hkept]
      refine ⟨TypeSet.eq_of_contains fun t => ?_, .some fun v => ?_, hrange, Bool.and_comm _ _,
        Bool.and_comm _ _⟩
      · rw [Bool.eq_iff_iff, Literal.contains_types, Literal.contains_types]
        constructor <;>
        · rintro ⟨v, hv, rfl⟩
          obtain ⟨w, hw, heq⟩ := exists_beq_of_mem_kept hv
          exact ⟨w, hw, (Literal.type_eq_of_beq heq).symm⟩
      · rw [List.mem_map, List.mem_map]
        constructor <;>
        · rintro ⟨u, hu, rfl⟩
          obtain ⟨w, hw, heq⟩ := exists_beq_of_mem_kept hu
          exact ⟨w, hw, (Literal.unsigned_eq_of_beq heq).symm⟩

/-- **The laws of meets.** They are associative; the order of the operands matters at most for the
listing of the values; and every meet is normal and is kept by `any`. -/
theorem inter_laws {a b c : Restriction} (ha : a.Proper) (hb : b.Proper) (hc : c.Proper)
    (hzeros : Double.UnmixedZeros (a.range.bounds ++ b.range.bounds ++ c.range.bounds)) :
    a ∩ b ∩ c = a ∩ (b ∩ c) ∧
      (a ∩ b).Alike (b ∩ a) ∧ (a ∩ b).isUnmatchable = (b ∩ a).isUnmatchable ∧
      (a ∩ b).Normal ∧ a ∩ b ∩ any = a ∩ b := by
  have halike : (a ∩ b).Alike (b ∩ a) :=
    alike_inter_comm (hzeros.mono (List.subset_append_left _ _))
  refine ⟨inter_assoc ha hb hc, halike, halike.isUnmatchable_eq, normal_normalize _, ?_⟩
  rw [inter_any, inter_eq_normalize, normalize_normalize]

/-- Two lists that share a zero, with either sign: the sign that is left is that of the first operand,
and a range from 1 on leaves nothing. -/
theorem inter_laws_zeros :
    let positive := ofValues [.float .zero, .string ⟨0⟩]
    let negative := ofValues [.integer 3, .float (.ofRank true 0), .float (.ofRank true 0)]
    let fromOne := any.withRange ⟨some (.ofInt 1), none⟩
    (positive ∩ negative).allowed = some [.float .zero] ∧
      (negative ∩ positive).allowed = some [.float (.ofRank true 0), .float (.ofRank true 0)] ∧
      (positive ∩ negative).Alike (negative ∩ positive) ∧
      (positive ∩ negative).isUnmatchable = false ∧
      positive ∩ negative ∩ fromOne = positive ∩ (negative ∩ fromOne) ∧
      (positive ∩ negative ∩ fromOne).isUnmatchable = true := by
  intro positive negative fromOne
  obtain ⟨hassoc, halike, -, -, -⟩ := inter_laws (a := positive) (b := negative) (c := fromOne)
    (by decide) (by decide) (by decide) (by decide)
  exact ⟨by decide +kernel, by decide +kernel, halike, by decide +kernel, hassoc, by decide +kernel⟩

/-! ## Restrictions that can match -/

/-- Something is left when the parts of a restriction are taken together: a listed value that has a
permitted type and lies in the range, or without a list a permitted type, which is not one of numbers
if the range is empty. -/
def Offers (r : Restriction) : Prop :=
  match r.allowed with
  | some vs => ∃ v ∈ vs, admitsKind r.types r.range v = true
  | none => ∃ t, r.types.contains t = true ∧
      (r.range.isEmpty = true → TypeSet.number.contains t = false)

theorem isUnmatchable_eq_false_iff {r : Restriction} :
    r.isUnmatchable = false ↔ (r.single = true ∨ r.sequence = true) ∧
      (∃ t, r.types.contains t = true) ∧ ∀ vs ∈ r.allowed, vs ≠ [] := by
  have hallowed : r.allowed.any List.isEmpty = false ↔ ∀ vs ∈ r.allowed, vs ≠ [] := by
    cases r.allowed <;> simp
  rw [isUnmatchable, Bool.or_eq_false_iff, Bool.or_eq_false_iff,
    TypeSet.isEmpty_eq_false_iff, hallowed, and_assoc]
  refine and_congr ?_ Iff.rfl
  cases r.single <;> cases r.sequence <;> simp

/-- A normalized restriction can match if it allows some arity and offers something. -/
theorem isUnmatchable_normalize_eq_false_iff {r : Restriction} :
    r.normalize.isUnmatchable = false ↔ (r.single = true ∨ r.sequence = true) ∧ r.Offers := by
  rw [isUnmatchable_eq_false_iff, single_normalize, sequence_normalize]
  refine and_congr Iff.rfl ?_
  cases hr : r.allowed with
  | none =>
    simp only [normalize_of_none hr, hr, Offers, contains_inhabitedTypes]
    simp
  | some vs =>
    simp only [normalize_of_some hr, hr, Offers, Literal.contains_types]
    constructor
    · rintro ⟨⟨t, v, hv, -⟩, -⟩
      exact ⟨v, mem_kept.1 hv⟩
    · rintro ⟨v, hv⟩
      have hkept : v ∈ r.kept vs := mem_kept.2 hv
      refine ⟨⟨v.type, v, hkept, rfl⟩, ?_⟩
      rintro ws ⟨⟩ hnil
      rw [hnil] at hkept
      cases hkept

theorem isUnmatchable_of_normalize {r : Restriction} (h : r.normalize.isUnmatchable = false) :
    r.isUnmatchable = false := by
  obtain ⟨harity, ⟨t, ht⟩, hallowed⟩ := isUnmatchable_eq_false_iff.1 h
  rw [single_normalize, sequence_normalize] at harity
  refine isUnmatchable_eq_false_iff.2 ⟨harity, ⟨t, ?_⟩, fun vs hvs hnil => ?_⟩
  · exact (contains_inhabitedTypes.1 (types_subset_normalize ht)).1
  · refine hallowed (r.kept vs) ?_ (by rw [hnil]; rfl)
    rw [allowed_normalize, Option.mem_def.1 hvs]
    rfl

/-- **A restriction is judged like its meet with `any`** if it is unmatchable as it stands, or if it
offers something. Otherwise it is passed as it stands, and rejected after any meet. -/
theorem isUnmatchable_eq_inter_any_iff (r : Restriction) :
    r.isUnmatchable = (r ∩ any).isUnmatchable ↔ r.isUnmatchable = true ∨ r.Offers := by
  rw [inter_any]
  cases h : r.isUnmatchable with
  | true =>
    simp only [true_or, iff_true]
    cases hn : r.normalize.isUnmatchable with
    | true => rfl
    | false =>
      rw [isUnmatchable_of_normalize hn] at h
      cases h
  | false =>
    have harity := (isUnmatchable_eq_false_iff.1 h).1
    rw [eq_comm, isUnmatchable_normalize_eq_false_iff, and_iff_right harity]
    simp

/-- Numbers from 5 to 1: there are none, but this is only seen after a meet. -/
theorem crossedBounds_judged_differently :
    let r := numeric.withRange ⟨some (.ofInt 5), some (.ofInt 1)⟩
    r.Proper ∧ r.isUnmatchable = false ∧ (r ∩ any).isUnmatchable = true := by
  decide +kernel

/-! ## Bounds that are not numbers -/

/-- A restriction that admits a number has bounds that are numbers. -/
theorem proper_of_check {r : Restriction} {v : Literal Symbol} (h : r.check v = none)
    (hv : v.number?.isSome = true) : r.Proper := by
  obtain ⟨x, hx⟩ := Option.isSome_iff_exists.1 hv
  have hrange : r.range.contains x = true := by
    simpa [hx] using (check_eq_none_iff.1 h).2.2
  obtain ⟨hmin, hmax⟩ := Range.contains_iff.1 hrange
  exact ⟨fun a ha => (Double.isNaN_of_le (hmin a ha)).1, fun b hb => (Double.isNaN_of_le (hmax b hb)).2⟩

/-- What is not a number passes a meet if it passes both restrictions, whatever the bounds are. -/
theorem check_inter_of_number?_eq_none {a b : Restriction} {v : Literal Symbol}
    (hv : v.number? = none) : (a ∩ b).check v = none ↔ a.check v = none ∧ b.check v = none := by
  have hkind (types : TypeSet) (range : Range) :
      admitsKind types range v = true ↔ types.contains v.type = true := by
    simp [admitsKind, hv]
  rw [inter_eq_normalize, check_normalize]
  simp only [check_eq_none_iff_admitsKind, hkind, overlap, exists_commonValues,
    TypeSet.contains_inter, Bool.and_eq_true]
  exact and_and_and_comm

/-- **A meet narrows both restrictions** if their bounds are numbers, and otherwise only if it admits no
number at all: a bound that is not a number excludes every number, but gives way to the other one. -/
theorem inter_narrows_iff {a b : Restriction} :
    (∀ v, (a ∩ b).check v = none → a.check v = none ∧ b.check v = none) ↔
      (a.Proper ∧ b.Proper) ∨ ∀ v, v.number?.isSome = true → (a ∩ b).check v ≠ none := by
  constructor
  · intro hnarrows
    refine or_iff_not_imp_right.2 fun hsome => ?_
    simp only [not_forall, ne_eq, not_not] at hsome
    obtain ⟨v, hnumber, hv⟩ := hsome
    obtain ⟨ha, hb⟩ := hnarrows v hv
    exact ⟨proper_of_check ha hnumber, proper_of_check hb hnumber⟩
  · rintro (⟨ha, hb⟩ | hnone) v hv
    · exact (check_inter ha hb).1 hv
    · have hnumber : v.number? = none := by
        rw [← Option.not_isSome_iff_eq_none]
        exact fun h => hnone v h hv
      exact (check_inter_of_number?_eq_none hnumber).1 hv

/-- A lower bound that is not a number, and one that is 0: the meet admits 3, which the first
restriction rejects. -/
theorem lostBound_admits_three :
    let a := any.withRange ⟨some .nan, none⟩
    let b := any.withRange ⟨some .zero, none⟩
    (a ∩ b).check (.integer 3) = none ∧ a.check (.integer 3) = some .range := by
  decide +kernel

end Restriction

end Antecedent
