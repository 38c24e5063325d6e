import Antecedent.Proofs.NegationBoundary

/-!
# What fetches address

A compiled test takes its values from entities by fetches. A fetch names a kind of entity, the side on
which the entity is found, and a value of it. All three have to agree with the left-hand side: the side
leads to a pattern, which must be over entities of that kind and have the value.

* `Pattern.HasAddress` says which values a pattern has: the entity itself if it has a handle, its plain
  fields, and the parts of its multifield slots.
* `Lhs.sites` lists what can be read, and `ConditionAt.exists_pattern_of_mem_sites` leads from a site
  to its pattern.
* `Test.Fits` says of a test that its fetches have a property and that its comparisons compare entities
  of their own kind. Tests that fit are put together to tests that fit.
* `Outputs.fits_ofField` and `Outputs.fits_ofTest` say that the tests of a field and of a test condition
  read sites of the left-hand side.
* `Lhs.fetches_address_patterns` says that every fetch in a compiled left-hand side addresses a value of
  the right pattern.
-/

namespace Antecedent

variable {α : Type}

/-! ## Values of a pattern -/

/-- A plain field is read as a whole, and a multifield slot part by part. -/
def Field.HasSegment : Field Symbol α → Option Segment → Prop
  | plain _ _ _ _, segment => segment = none
  | multi ps _ _ _, segment =>
    ∃ (k : Nat) (f : Field Symbol α), ps[k]? = some f ∧ segment = some (f.segment k)

/-- The name by which a slot is read from entities of a kind; the fields of facts have none. -/
def Slot.nameFor (kind : EntityKind) (s : Slot Symbol α) : Option Symbol :=
  match kind with
  | .fact => none
  | .object => s.name

/-- Which values of an entity a pattern has: the entity itself if there is a handle for it, and its
fields, counted from one. -/
def Pattern.HasAddress (q : Pattern Symbol α) : Address → Prop
  | .entity => q.handle ≠ none
  | .field index name segment => 1 ≤ index ∧ index ≤ q.slots.length ∧
      ∃ s, q.slots[index - 1]? = some s ∧ name = s.nameFor q.kind ∧ s.field.HasSegment segment

theorem Field.segment_of_mem_partsAt {p : Place} {k id : Nat} {fs : List (Field Symbol α)}
    {x : FieldAt α} (hx : x ∈ partsAt p k id fs) :
    ∃ i f, fs[i]? = some f ∧ x.place.site = p.site.part f (k + i) := by
  induction fs generalizing k id with
  | nil => cases hx
  | cons f fs ih =>
    rcases List.mem_cons.1 hx with rfl | hx
    · exact ⟨0, f, rfl, rfl⟩
    · obtain ⟨i, g, hg, hsite⟩ := ih hx
      refine ⟨i + 1, g, hg, ?_⟩
      rw [hsite, Nat.add_assoc, Nat.add_comm 1]

theorem Slot.site_of_mem_fieldsAt {p : Place} (hp : p.site.segment = none) {id : Nat}
    {s : Slot Symbol α} {x : FieldAt α} (hx : x ∈ s.fieldsAt p id) :
    ∃ segment, x.place.site = { p.site with segment } ∧ s.field.HasSegment segment := by
  obtain ⟨name, f⟩ := s
  cases f with
  | plain b as declared n =>
    obtain rfl := List.mem_singleton.1 hx
    refine ⟨none, by rw [← hp], ?_⟩
    rw [Field.HasSegment]
  | multi ps as declared n =>
    obtain ⟨k, g, hg, hsite⟩ := Field.segment_of_mem_partsAt hx
    rw [Nat.zero_add] at hsite
    exact ⟨some (g.segment k), hsite, k, g, hg, rfl⟩

theorem Slot.site_of_mem_fieldsAtAll {p : Place} (hp : p.site.segment = none) {j id : Nat}
    {ss : List (Slot Symbol α)} {x : FieldAt α} (hx : x ∈ fieldsAtAll p j id ss) :
    ∃ i s segment, ss[i]? = some s ∧ s.field.HasSegment segment ∧
      x.place.site = ⟨p.site.kind, j + i, s.name, segment, p.site.joinDepth⟩ := by
  induction ss generalizing j id with
  | nil => cases hx
  | cons s ss ih =>
    rcases List.mem_append.1 hx with hx | hx
    · obtain ⟨segment, hsite, hsegment⟩ := site_of_mem_fieldsAt (p := s.placeIn p j) hp hx
      exact ⟨0, s, segment, rfl, hsegment, hsite⟩
    · obtain ⟨i, s', segment, hs', hsegment, hsite⟩ := ih hx
      refine ⟨i + 1, s', segment, hs', hsegment, ?_⟩
      rw [hsite, Nat.add_assoc, Nat.add_comm 1]

/-! ## Sites of a left-hand side -/

theorem Site.address_of_handle {s : Site} (h : s.index = 0) (kind : EntityKind) :
    s.address kind = .entity :=
  if_pos h

theorem Site.address_of_field {s : Site} (h : s.index ≠ 0) (kind : EntityKind) :
    s.address kind =
      .field s.index (match kind with | .fact => none | .object => s.name) s.segment :=
  if_neg h

/-- The sites of a condition: that of its handle, and those of its fields. -/
def ConditionAt.sites (y : ConditionAt α) : List Site :=
  y.handle.toList.map (fun b => b.2.place.site) ++ y.fields.map fun x => x.place.site

/-- A site of a condition is a value of its pattern. -/
theorem ConditionAt.exists_pattern_of_mem_sites {y : ConditionAt α} {s : Site} (hs : s ∈ y.sites) :
    ∃ q, y.condition.pattern? = some q ∧ s.joinDepth = y.joinDepth ∧ s.kind = q.kind ∧
      q.HasAddress (s.address s.kind) := by
  obtain ⟨pattern, joins, id, k⟩ := y
  cases hk : k.element with
  | test t => simp [sites, handle, fields, Condition.fieldsAt, hk] at hs
  | pattern mode q =>
    have hdepth : (⟨pattern, joins, id, k⟩ : ConditionAt α).joinDepth = joins + 1 := by
      simp [joinDepth, Condition.joinsAfter, hk]
    have hpattern : k.pattern? = some q := by rw [Condition.pattern?, hk]
    rw [hdepth]
    refine ⟨q, hpattern, ?_⟩
    rcases List.mem_append.1 hs with hs | hs
    · obtain ⟨b, hb, rfl⟩ := List.mem_map.1 hs
      simp only [handle, hk, Option.mem_toList, Option.map_eq_some_iff] at hb
      obtain ⟨h, hh, rfl⟩ := hb
      refine ⟨rfl, rfl, ?_⟩
      rw [Site.address_of_handle rfl, Pattern.HasAddress, hh]
      exact Option.some_ne_none h
    · obtain ⟨x, hx, rfl⟩ := List.mem_map.1 hs
      simp only [fields, Condition.fieldsAt, hk] at hx
      obtain ⟨i, s, segment, hs, hsegment, hsite⟩ := Slot.site_of_mem_fieldsAtAll rfl hx
      rw [hsite]
      refine ⟨rfl, rfl, ?_⟩
      have hlt := (List.getElem?_eq_some_iff.1 hs).1
      rw [Site.address_of_field (by simp)]
      refine ⟨by simp, by simp only; omega, s, ?_, rfl, hsegment⟩
      rw [Nat.add_sub_cancel_left]
      exact hs

namespace Lhs

/-- The sites of a left-hand side. -/
def sites (l : Lhs Symbol α) : List Site := l.conditionsAt.flatMap ConditionAt.sites

theorem site_mem_of_mem_fields {l : Lhs Symbol α} {y : ConditionAt α} (hy : y ∈ l.conditionsAt)
    {x : FieldAt α} (hx : x ∈ y.fields) : x.place.site ∈ l.sites :=
  List.mem_flatMap.2 ⟨y, hy, List.mem_append_right _ (List.mem_map_of_mem hx)⟩

theorem site_mem_of_mem_binders {l : Lhs Symbol α} {b : Symbol × Origin} (hb : b ∈ l.binders) :
    b.2.place.site ∈ l.sites := by
  obtain ⟨y, hy, hb⟩ := List.mem_flatMap.1 hb
  rcases List.mem_append.1 hb with hb | hb
  · exact List.mem_flatMap.2 ⟨y, hy, List.mem_append_left _ (List.mem_map.2 ⟨b, hb, rfl⟩)⟩
  · obtain ⟨x, hx, hb⟩ := List.mem_filterMap.1 hb
    rw [(FieldAt.binder_eq_some_iff.1 hb).2]
    exact site_mem_of_mem_fields hy hx

/-- Collapsing keeps the sites. -/
theorem sites_collapse (u : Lhs Symbol Note) : (collapse u).sites = u.sites := by
  have hmap : u.conditionsAt.map ConditionAt.sites =
      (collapse u).conditionsAt.map ConditionAt.sites := by
    refine map_eq_map_of_forall₂ (forall₂_conditionsFrom (forall₂_collapse u) 1 0 0) ?_
    rintro z y ⟨d, rfl⟩
    rfl
  rw [sites, List.flatMap_def, ← hmap, ← List.flatMap_def]
  rfl

end Lhs

/-! ## Tests that fit -/

/-- The fetches of an operator have the property `P`, and a comparison is one of entities of its own
kind. -/
structure Op.Fits (P : Fetch → Prop) (op : Op) : Prop where
  reads : ∀ f ∈ Test.opFetches op, P f
  kinds : ∀ kind left right negated, op = .compare kind left right negated →
    left.kind = kind ∧ right.kind = kind

namespace Test

/-- All operators of a test fit. -/
def Fits (P : Fetch → Prop) (t : Test) : Prop := ∀ s ∈ t.subtests, s.op.Fits P

section Fits

variable {P : Fetch → Prop}

theorem fits_node {op : Op} {args : List Test} :
    (node op args).Fits P ↔ op.Fits P ∧ ∀ t ∈ args, t.Fits P := by
  rw [Fits, subtests, List.forall_mem_cons, subtestsAll_eq_flatMap]
  refine and_congr Iff.rfl ⟨fun h t ht s hs => h s (List.mem_flatMap.2 ⟨t, ht, hs⟩), fun h s hs => ?_⟩
  obtain ⟨t, ht, hs⟩ := List.mem_flatMap.1 hs
  exact h t ht s hs

/-- An operator that is neither a fetch nor a comparison fits. -/
theorem fits_op_of_opFetches {op : Op} (h : opFetches op = []) : op.Fits P := by
  refine ⟨fun f hf => ?_, fun kind left right negated hop => ?_⟩
  · rw [h] at hf
    cases hf
  · rw [hop] at h
    cases h

theorem fits_const (v : Literal Symbol) : (const v).Fits P :=
  fits_node.2 ⟨fits_op_of_opFetches rfl, by simp⟩

theorem fits_get {f : Fetch} (hf : P f) : (get f).Fits P :=
  fits_node.2 ⟨⟨by simpa [opFetches] using hf, by simp⟩, by simp⟩

theorem fits_compare {kind : EntityKind} {left right : Fetch} {negated : Bool} (hleft : P left)
    (hright : P right) (hkind : left.kind = kind ∧ right.kind = kind) :
    (leaf (.compare kind left right negated)).Fits P := by
  refine fits_node.2 ⟨⟨?_, ?_⟩, by simp⟩
  · simpa [opFetches] using And.intro hleft hright
  · rintro _ _ _ _ ⟨⟩
    exact hkind

theorem fits_negateIf {negated : Bool} {t : Test} (ht : t.Fits P) : (negateIf negated t).Fits P := by
  cases negated with
  | false => exact ht
  | true => exact fits_node.2 ⟨fits_op_of_opFetches rfl, by simpa using ht⟩

theorem fits_equality {negated : Bool} {a b : Test} (ha : a.Fits P) (hb : b.Fits P) :
    (equality negated a b).Fits P := by
  refine fits_node.2 ⟨fits_op_of_opFetches ?_, by simpa using And.intro ha hb⟩
  cases negated <;> rfl

theorem fits_conjuncts {t : Test} (ht : t.Fits P) : ∀ s ∈ t.conjuncts, s.Fits P := by
  obtain ⟨op, args⟩ := t
  cases op with
  | and => exact (fits_node.1 ht).2
  | _ => simpa [conjuncts] using ht

theorem fits_conjoin {a b : Option Test} (ha : ∀ t ∈ a, t.Fits P) (hb : ∀ t ∈ b, t.Fits P) :
    ∀ t ∈ conjoin a b, t.Fits P := by
  cases a with
  | none => simpa using hb
  | some a =>
    cases b with
    | none => simpa using ha
    | some b =>
      rintro t ⟨⟩
      refine fits_node.2 ⟨fits_op_of_opFetches rfl, List.forall_mem_append.2 ⟨?_, ?_⟩⟩
      · exact fits_conjuncts (ha a rfl)
      · exact fits_conjuncts (hb b rfl)

theorem fits_anyOf {ts : List Test} (h : ∀ t ∈ ts, t.Fits P) : ∀ t ∈ anyOf ts, t.Fits P := by
  match ts with
  | [] => simp [anyOf]
  | [t] => simpa [anyOf] using h
  | t :: t' :: ts =>
    rintro s ⟨⟩
    exact fits_node.2 ⟨fits_op_of_opFetches rfl, h⟩

end Fits

end Test

namespace Term

mutual

theorem fits_test {P : Fetch → Prop} {read : Origin → Test} {t : Term Symbol Origin}
    (h : ∀ o ∈ t.notes, (read o).Fits P) : (t.test read).Fits P := by
  cases t with
  | call f args => exact Test.fits_node.2 ⟨Test.fits_op_of_opFetches rfl, fits_testAll h⟩
  | var x arity o => exact h o List.mem_cons_self
  | lit v => exact Test.fits_const v
  | global x => exact Test.fits_node.2 ⟨Test.fits_op_of_opFetches rfl, by simp⟩

theorem fits_testAll {P : Fetch → Prop} {read : Origin → Test} {ts : List (Term Symbol Origin)}
    (h : ∀ o ∈ notesAll ts, (read o).Fits P) : ∀ t ∈ testAll read ts, t.Fits P := by
  cases ts with
  | nil => simp [testAll]
  | cons t ts =>
    obtain ⟨ht, hts⟩ := List.forall_mem_append.1 h
    exact List.forall_mem_cons.2 ⟨fits_test ht, fits_testAll hts⟩

end

end Term

/-! ## Reading sites -/

/-- The depth of the join at which the entity on a side enters, for a test that belongs to the join at
depth `carrier`. -/
def Side.joinDepth (carrier : Nat) : Side → Nat
  | candidate | joining => carrier
  | matched depth | nested depth => depth

/-- A fetch reads one of the sites `S`, for a test that belongs to the join at depth `carrier`. -/
def Fetch.ReadsFrom (S : Site → Prop) (carrier : Nat) (f : Fetch) : Prop :=
  ∃ s, S s ∧ s.joinDepth = f.side.joinDepth carrier ∧ f = s.fetch f.side

section ReadsFrom

variable {S : Site → Prop} {carrier : Nat}

theorem Site.readsFrom_fetch {s : Site} (hs : S s) {side : Side}
    (h : s.joinDepth = side.joinDepth carrier) : (s.fetch side).ReadsFrom S carrier :=
  ⟨s, hs, h, rfl⟩

/-- What a join reads apart from the entering entity depends on no carrier. -/
theorem Site.readsFrom_side {s : Site} (hs : S s) {role : Role}
    (h : role = .joining → s.joinDepth = carrier) :
    (s.fetch (s.side role)).ReadsFrom S carrier := by
  refine readsFrom_fetch hs ?_
  cases role with
  | matched => rfl
  | joining => exact h rfl
  | nested => rfl

theorem Site.fits_constantTest {P : Fetch → Prop} {s : Site} {negated : Bool} {v : Literal Symbol}
    {side : Side} (h : P (s.fetch side)) : (s.constantTest negated v side).Fits P := by
  have hequality : (Test.equality negated (.get (s.fetch side)) (.const v)).Fits P :=
    Test.fits_equality (Test.fits_get h) (Test.fits_const v)
  cases hkind : s.kind with
  | object => simpa [constantTest, EntityKind.constantTest?, hkind] using hequality
  | fact =>
    by_cases hsequence : s.segment.any Segment.sequence
    · simpa [constantTest, EntityKind.constantTest?, hkind, hsequence] using hequality
    · simp only [constantTest, EntityKind.constantTest?, hkind, hsequence]
      refine Test.fits_node.2 ⟨⟨?_, by simp⟩, by simpa using Test.fits_const v⟩
      simpa [Test.opFetches, fetchAs_eq_fetch hkind] using h

theorem Site.fits_compareJoin {P : Fetch → Prop} {s origin : Site} {negated : Bool}
    {role originRole : Role} (hs : P (s.fetch (s.side role)))
    (horigin : P (origin.fetch (origin.side originRole))) :
    (s.compareJoin negated origin role originRole).Fits P := by
  by_cases h : s.kind = origin.kind
  · rw [compareJoin, if_pos h]
    refine Test.fits_compare hs ?_ ⟨rfl, h.symm⟩
    rw [fetchAs_eq_fetch h.symm]
    exact horigin
  · rw [compareJoin, if_neg h]
    exact Test.fits_equality (Test.fits_get hs) (Test.fits_get horigin)

/-- In a join, an expression reads a binding occurrence from the entering entity only if that is the
entity of the join. -/
theorem Origin.fits_joinValue {o : Origin} {depth joinDepth : Nat} {deferred : Bool}
    (ho : S o.place.site) (h : deferred = true ∨ carrier = joinDepth) :
    (o.joinValue depth joinDepth deferred).Fits (Fetch.ReadsFrom S carrier) := by
  refine Test.fits_get (Site.readsFrom_side ho fun hrole => ?_)
  unfold role at hrole
  split at hrole
  · split at hrole <;> cases hrole
  · next hdeferred =>
    split at hrole
    · next hdepth => exact hdepth.symm.trans (h.resolve_left hdeferred).symm
    · cases hrole

end ReadsFrom

/-! ## The tests of a field -/

namespace Staging

/-- A binding occurrence is at one of the sites `S`, and if it has the number of the field's pattern it
belongs to that. -/
structure Knows (S : Site → Prop) (s : Staging) (o : Origin) : Prop where
  site : S o.place.site
  samePattern : o.place.pattern = s.place.pattern → o.place.SamePattern s.place

/-- The join at depth `carrier` may hold a test of the field at a stage: that of the field's own
pattern, or any one if the test is deferred. -/
def HeldAt (s : Staging) (stage : Stage) (carrier : Nat) : Prop :=
  stage = .deferred ∧ s.deferred = true ∨ carrier = s.place.site.joinDepth

variable {S : Site → Prop} {s : Staging} {stage : Stage} {carrier : Nat}

theorem heldAt_of_stage {os : List Origin} (h : s.stage os = stage)
    (hcarrier : stage ≠ .deferred → carrier = s.place.site.joinDepth) : s.HeldAt stage carrier := by
  by_cases hstage : stage = .deferred
  · subst hstage
    exact .inl ⟨rfl, deferred_of_stage h⟩
  · exact .inr (hcarrier hstage)

theorem pattern_eq_of_stage {os : List Origin} (h : s.stage os = .candidate) {o : Origin}
    (ho : o ∈ os) : o.place.pattern = s.place.pattern := by
  unfold stage at h
  split at h
  · next hbinds =>
    rw [Bool.and_eq_true, binds, List.all_eq_true] at hbinds
    exact of_decide_eq_true (hbinds.2 o ho)
  · split at h <;> cases h

theorem readsFrom_own (hs : S s.place.site) (h : s.HeldAt stage carrier) :
    (s.place.site.fetch (s.ownSide s.place.site stage)).ReadsFrom S carrier := by
  cases stage with
  | candidate =>
    obtain rfl := h.resolve_left (by simp)
    exact Site.readsFrom_fetch hs rfl
  | join =>
    obtain rfl := h.resolve_left (by simp)
    exact Site.readsFrom_side hs fun _ => rfl
  | deferred =>
    refine Site.readsFrom_side hs fun hrole => ?_
    rcases h with ⟨-, hdeferred⟩ | rfl
    · simp [ownRole, hdeferred] at hrole
    · rfl

theorem fits_comparison {negated : Bool} {o : Origin} (hs : S s.place.site) (ho : s.Knows S o)
    (hstage : stage = .candidate → o.place.pattern = s.place.pattern)
    (h : s.HeldAt stage carrier) :
    (s.comparison s.place.site negated o stage).Fits (Fetch.ReadsFrom S carrier) := by
  have hown := readsFrom_own hs h
  have horigin : (o.place.site.fetch (o.place.site.side (s.originRole o))).ReadsFrom S carrier := by
    refine Site.readsFrom_side ho.site fun hrole => ?_
    unfold originRole at hrole
    split at hrole <;> cases hrole
  cases stage with
  | candidate =>
    obtain rfl := h.resolve_left (by simp)
    have hsame := ho.samePattern (hstage rfl)
    refine Test.fits_compare hown ?_ ⟨rfl, hsame.kind_eq⟩
    rw [Site.fetchAs_eq_fetch hsame.kind_eq]
    exact Site.readsFrom_fetch ho.site hsame.joinDepth_eq
  | join => exact Site.fits_compareJoin hown horigin
  | deferred => exact Site.fits_compareJoin hown horigin

theorem fits_termTest {t : Term Symbol Origin} (ht : ∀ o ∈ t.notes, s.Knows S o)
    (hstage : stage = .candidate → ∀ o ∈ t.notes, o.place.pattern = s.place.pattern)
    (h : s.HeldAt stage carrier) : (s.termTest t stage).Fits (Fetch.ReadsFrom S carrier) := by
  cases stage with
  | candidate =>
    obtain rfl := h.resolve_left (by simp)
    refine Term.fits_test fun o ho => Test.fits_get (Site.readsFrom_fetch (ht o ho).site ?_)
    exact ((ht o ho).samePattern (hstage rfl o ho)).joinDepth_eq
  | join =>
    obtain rfl := h.resolve_left (by simp)
    exact Term.fits_test fun o ho => Origin.fits_joinValue (ht o ho).site (.inr rfl)
  | deferred =>
    exact Term.fits_test fun o ho => Origin.fits_joinValue (ht o ho).site (h.imp_left And.right)

theorem fits_conjunctTest {k : Conjunct Origin} (hs : S s.place.site) (hsite : k.site = s.place.site)
    (hk : ∀ o ∈ k.origins, s.Knows S o) (hstage : s.stage k.origins = stage)
    (h : s.HeldAt stage carrier) : (s.conjunctTest k stage).Fits (Fetch.ReadsFrom S carrier) := by
  have hown := readsFrom_own hs h
  have hpattern : stage = .candidate → ∀ o ∈ k.origins, o.place.pattern = s.place.pattern := by
    rintro rfl o ho
    exact pattern_eq_of_stage hstage ho
  obtain ⟨site, shape, negated⟩ := k
  obtain rfl : site = s.place.site := hsite
  cases shape with
  | literal v => exact Site.fits_constantTest hown
  | var x arity o =>
    exact fits_comparison hs (hk o List.mem_cons_self)
      (fun hc => hpattern hc o List.mem_cons_self) h
  | predicate t => exact Test.fits_negateIf (fits_termTest hk hpattern h)
  | returnValue t => exact Test.fits_equality (Test.fits_get hown) (fits_termTest hk hpattern h)

/-- The test of an alternative at a stage is put together from those of its conjuncts. -/
theorem fits_alternative {P : Fetch → Prop} {ks : List (Conjunct Origin)}
    (h : ∀ k ∈ ks, s.stage k.origins = stage → (s.conjunctTest k stage).Fits P) :
    ∀ t ∈ (s.alternative ks).test stage, t.Fits P := by
  induction ks with
  | nil => simp [alternative, StageTests.all]
  | cons k ks ih =>
    obtain ⟨hk, hks⟩ := List.forall_mem_cons.1 h
    rw [alternative, List.map_cons, StageTests.all, StageTests.test_append, test_conjunct]
    refine Test.fits_conjoin (fun t ht => ?_) (ih hks)
    split at ht
    · next hstage =>
      obtain rfl := Option.some.inj ht
      exact hk hstage
    · cases ht

end Staging

/-- The tests and the hash values of a join output. -/
def JoinOutput.tests (out : JoinOutput) : List Test :=
  out.test.toList ++ out.hash.flatMap fun h => [h.left, h.right]

/-- The tests of a node that are not deferred, with the hash values and the constant look-up. -/
def Outputs.undeferred (out : Outputs) : List Test :=
  out.candidate.toList ++ out.lookup.toList.flatMap (fun l => [l.selector, l.value]) ++ out.join.tests

/-- All tests of a node, with the hash values and the constant look-up. -/
def Outputs.tests (out : Outputs) : List Test := out.undeferred ++ out.deferred.tests

theorem JoinOutput.closed_fits (P : Fetch → Prop) :
    Closed fun out => ∀ t ∈ out.tests, t.Fits P where
  empty := by simp [tests]
  append a b ha hb := by
    obtain ⟨hat, hah⟩ := List.forall_mem_append.1 ha
    obtain ⟨hbt, hbh⟩ := List.forall_mem_append.1 hb
    rw [tests, test_append, hash_append, List.flatMap_append]
    refine List.forall_mem_append.2 ⟨?_, List.forall_mem_append.2 ⟨hah, hbh⟩⟩
    simp only [Option.mem_toList] at hat hbt ⊢
    exact Test.fits_conjoin hat hbt

namespace Outputs

section OfField

variable {S : Site → Prop} {p : Place} {own : Option Origin} {as : List (List (Conjunct Origin))}
  (hp : S p.site) (hsites : ∀ ks ∈ as, ∀ k ∈ ks, k.site = p.site)
  (hreferences : ∀ o ∈ Staging.references own as, S o.place.site ∧
    (o.place.pattern = p.pattern → o.place.SamePattern p))

include hp hsites hreferences

/-- The tests of a field at a stage read sites. -/
theorem fits_test_ofField {stage : Stage} {carrier : Nat}
    (hcarrier : stage ≠ .deferred → carrier = p.site.joinDepth) :
    ∀ t ∈ (ofField p own as).test stage, t.Fits (Fetch.ReadsFrom S carrier) := by
  have hknows (s : Staging) (hs : s.place = p) : ∀ o ∈ Staging.references own as, s.Knows S o := by
    subst hs
    exact fun o ho => ⟨(hreferences o ho).1, (hreferences o ho).2⟩
  have halternatives : ∀ t ∈ (ofAlternatives (as.map (Staging.ofField p own as).alternative)).test
      stage, t.Fits (Fetch.ReadsFrom S carrier) := by
    rw [test_ofAlternatives]
    refine Test.fits_anyOf fun t ht => ?_
    obtain ⟨a, ha, ht⟩ := List.mem_filterMap.1 ht
    obtain ⟨ks, hks, rfl⟩ := List.mem_map.1 ha
    refine Staging.fits_alternative (fun k hk hstage => ?_) t ht
    refine Staging.fits_conjunctTest hp (hsites ks hks k hk) (fun o ho => ?_) hstage
      (Staging.heldAt_of_stage hstage hcarrier)
    exact hknows _ rfl o (Staging.origin_mem_references own hks hk ho)
  cases hown : own with
  | none =>
    rw [hown] at halternatives
    exact halternatives
  | some o =>
    rw [hown] at halternatives hknows
    rw [ofField, test_compareOwn]
    refine Test.fits_conjoin (fun t ht => ?_) halternatives
    split at ht
    · next hstage =>
      obtain rfl := Option.some.inj ht
      have ho := hknows (Staging.ofOwn p o) rfl o (Staging.own_mem_references rfl)
      refine Staging.fits_comparison hp ho ?_ (Staging.heldAt_of_stage hstage hcarrier)
      rintro rfl
      exact Staging.pattern_eq_of_stage hstage List.mem_cons_self
    · cases ht

omit hreferences in
/-- The look-up of a field reads its own site. -/
theorem fits_lookup_ofField {l : ConstantLookup} (hl : (ofField p own as).lookup = some l) :
    l.selector.Fits (Fetch.ReadsFrom S p.site.joinDepth) ∧
      l.value.Fits (Fetch.ReadsFrom S p.site.joinDepth) := by
  obtain ⟨ks, hks, k, hk, v, rfl⟩ := exists_of_lookup_ofField hl
  rw [hsites ks hks k hk]
  exact ⟨Test.fits_get (Site.readsFrom_fetch hp rfl), Test.fits_const v⟩

omit hsites in
/-- The hash values of a field are read from its own site and from that of its binding occurrence. -/
theorem fits_hash_ofField :
    (∀ h ∈ (ofField p own as).join.hash, h.left.Fits (Fetch.ReadsFrom S p.site.joinDepth) ∧
      h.right.Fits (Fetch.ReadsFrom S p.site.joinDepth)) ∧
    ∀ h ∈ (ofField p own as).deferred.hash, ∀ carrier, h.left.Fits (Fetch.ReadsFrom S carrier) ∧
      h.right.Fits (Fetch.ReadsFrom S carrier) := by
  cases hown : own with
  | none => simp [ofField, ofAlternatives]
  | some o =>
    have ho := (hreferences o (Staging.own_mem_references hown)).1
    have hmatched {s : Site} (hs : S s) (carrier : Nat) :
        (s.joinValue .matched).Fits (Fetch.ReadsFrom S carrier) :=
      Test.fits_get (Site.readsFrom_side hs (by simp))
    rw [ofField, compareOwn]
    split
    · simp [ofAlternatives]
    · refine ⟨fun h hh => ?_, by simp [ofAlternatives]⟩
      obtain rfl := List.mem_singleton.1 hh
      exact ⟨hmatched ho _, Test.fits_get (Site.readsFrom_fetch hp rfl)⟩
    · refine ⟨by simp [ofAlternatives], fun h hh carrier => ?_⟩
      obtain rfl := List.mem_singleton.1 hh
      exact ⟨hmatched ho _, hmatched hp _⟩

/-- **The tests of a field** read sites, the deferred ones whichever join they end up in. -/
theorem fits_ofField :
    (∀ t ∈ (ofField p own as).undeferred, t.Fits (Fetch.ReadsFrom S p.site.joinDepth)) ∧
      ∀ carrier, ∀ t ∈ (ofField p own as).deferred.tests, t.Fits (Fetch.ReadsFrom S carrier) := by
  have htest (stage : Stage) (carrier : Nat)
      (hcarrier : stage ≠ .deferred → carrier = p.site.joinDepth) :
      ∀ t ∈ (ofField p own as).test stage, t.Fits (Fetch.ReadsFrom S carrier) :=
    fits_test_ofField hp hsites hreferences hcarrier
  obtain ⟨hjoin, hdeferred⟩ : (∀ h ∈ (ofField p own as).join.hash, _) ∧
      ∀ h ∈ (ofField p own as).deferred.hash, _ := fits_hash_ofField hp hreferences
  refine ⟨List.forall_mem_append.2 ⟨List.forall_mem_append.2 ⟨fun t ht => ?_, fun t ht => ?_⟩,
    List.forall_mem_append.2 ⟨fun t ht => ?_, fun t ht => ?_⟩⟩,
    fun carrier => List.forall_mem_append.2 ⟨fun t ht => ?_, fun t ht => ?_⟩⟩
  · exact htest .candidate _ (fun _ => rfl) t (Option.mem_toList.1 ht)
  · obtain ⟨l, hl, ht⟩ := List.mem_flatMap.1 ht
    obtain ⟨hselector, hvalue⟩ := fits_lookup_ofField hp hsites (Option.mem_toList.1 hl)
    simp only [List.mem_cons, List.not_mem_nil, or_false] at ht
    rcases ht with rfl | rfl
    · exact hselector
    · exact hvalue
  · exact htest .join _ (fun _ => rfl) t (Option.mem_toList.1 ht)
  · obtain ⟨h, hh, ht⟩ := List.mem_flatMap.1 ht
    simp only [List.mem_cons, List.not_mem_nil, or_false] at ht
    rcases ht with rfl | rfl
    · exact (hjoin h hh).1
    · exact (hjoin h hh).2
  · exact htest .deferred _ (fun hne => absurd rfl hne) t (Option.mem_toList.1 ht)
  · obtain ⟨h, hh, ht⟩ := List.mem_flatMap.1 ht
    simp only [List.mem_cons, List.not_mem_nil, or_false] at ht
    rcases ht with rfl | rfl
    · exact (hdeferred h hh carrier).1
    · exact (hdeferred h hh carrier).2

end OfField

/-- **The test of a test condition** reads sites, and whichever join it ends up in if it is deferred. -/
theorem fits_ofTest {S : Site → Prop} {beginDepth joinDepth : Nat} {t : Term Symbol Origin}
    (ht : ∀ o ∈ t.notes, S o.place.site) :
    (∀ s ∈ (ofTest beginDepth joinDepth t).undeferred, s.Fits (Fetch.ReadsFrom S joinDepth)) ∧
      ∀ carrier, ∀ s ∈ (ofTest beginDepth joinDepth t).deferred.tests,
        s.Fits (Fetch.ReadsFrom S carrier) := by
  have hfits (deferred : Bool) (carrier : Nat) (h : deferred = true ∨ carrier = joinDepth) :
      (t.test (Origin.joinValue beginDepth joinDepth deferred)).Fits (Fetch.ReadsFrom S carrier) :=
    Term.fits_test fun o ho => Origin.fits_joinValue (ht o ho) h
  cases hdeferred : t.notes.any (·.isOutside beginDepth) with
  | true =>
    simp only [ofTest, hdeferred, if_true]
    refine ⟨by simp [undeferred, JoinOutput.tests], fun carrier s hs => ?_⟩
    obtain rfl := List.mem_singleton.1 hs
    exact hfits true carrier (.inl rfl)
  | false =>
    simp only [ofTest, hdeferred, Bool.false_eq_true, if_false]
    refine ⟨fun s hs => ?_, by simp [JoinOutput.tests]⟩
    obtain rfl := List.mem_singleton.1 hs
    exact hfits false joinDepth (.inr rfl)

end Outputs

/-! ## Compiled left-hand sides -/

theorem ConditionAt.samePattern_of_mem_binders {y : ConditionAt α} {mode : Mode} {q : Pattern Symbol α}
    (hq : y.condition.element = .pattern mode q) {b : Symbol × Origin} (hb : b ∈ y.binders) :
    b.2.place.SamePattern (q.place y.pattern (y.joins + 1) y.condition.beginDepth) := by
  rcases List.mem_append.1 hb with hb | hb
  · simp only [handle, hq, Option.mem_toList, Option.map_eq_some_iff] at hb
    obtain ⟨x, -, rfl⟩ := hb
    exact ⟨rfl, rfl, rfl, rfl⟩
  · obtain ⟨x, hx, hxb⟩ := List.mem_filterMap.1 hb
    rw [(FieldAt.binder_eq_some_iff.1 hxb).2]
    exact Condition.samePattern_of_mem_fieldsAt hq hx

namespace Lhs

section Compiled

variable {c : Context} {l : Lhs Symbol α} {u : Lhs Symbol Note}

theorem InSight.mem_binders_compiled (hu : compileFrom c 1 0 0 [] l = .ok u) {pattern : Nat}
    {o : Origin} (h : l.InSight pattern o) : ∃ x, (x, o) ∈ u.binders := by
  obtain ⟨x, hx⟩ := h.mem_binders
  have hbinders : u.binders = l.binders := binders_of_compileFrom hu
  exact ⟨x, hbinders ▸ hx⟩

/-- A binding occurrence in the condition of a field is in the same pattern. -/
theorem samePattern_of_mem_binders {l : Lhs Symbol α} {b : Symbol × Origin} (hb : b ∈ l.binders)
    {y : ConditionAt α} (hy : y ∈ l.conditionsAt) {x : FieldAt α} (hx : x ∈ y.fields)
    (h : b.2.place.pattern = x.place.pattern) : b.2.place.SamePattern x.place := by
  obtain ⟨z, hz, hb⟩ := List.mem_flatMap.1 hb
  have hpattern : z.pattern = y.pattern := by
    rw [← (ConditionAt.place_of_mem_binders hb).1, h, (ConditionAt.place_of_mem_fields hx).1]
  obtain rfl := eq_of_pattern_eq hz hy hpattern
  cases hq : z.condition.element with
  | test t => simp [ConditionAt.fields, Condition.fieldsAt, hq] at hx
  | pattern mode q =>
    have hfield := Condition.samePattern_of_mem_fieldsAt hq hx
    obtain ⟨h₁, h₂, h₃, h₄⟩ := ConditionAt.samePattern_of_mem_binders hq hb
    exact ⟨h₁.trans hfield.pattern_eq.symm, h₂.trans hfield.beginDepth_eq.symm,
      h₃.trans hfield.kind_eq.symm, h₄.trans hfield.joinDepth_eq.symm⟩

/-- The fields of a compiled condition contribute tests that read sites. -/
theorem fits_outputs_of_mem (hflat : l.isFlat = true) (hu : compileFrom c 1 0 0 [] l = .ok u)
    {y : ConditionAt Note} (hy : y ∈ u.conditionsAt) {x : FieldAt Note} (hx : x ∈ y.fields) :
    (∀ t ∈ x.outputs.undeferred, t.Fits (Fetch.ReadsFrom (· ∈ u.sites) y.joinDepth)) ∧
      ∀ carrier, ∀ t ∈ x.outputs.deferred.tests, t.Fits (Fetch.ReadsFrom (· ∈ u.sites) carrier) := by
  have hsettled := settled_of_mem_fields hu hy x hx
  rw [← (ConditionAt.place_of_mem_fields hx).2.2]
  refine Outputs.fits_ofField (site_mem_of_mem_fields hy hx)
    (hsettled.site_eq (isPlain_of_compileFrom hflat hu hy hx)) fun o ho => ?_
  rw [hsettled.references_eq] at ho
  obtain ⟨name, hmem⟩ := (hsettled.inSight o ho).mem_binders_compiled hu
  exact ⟨site_mem_of_mem_binders hmem, samePattern_of_mem_binders hmem hy hx⟩

/-- The tests of a compiled condition read sites. -/
theorem fits_condition_of_mem (hflat : l.isFlat = true) (hu : compileFrom c 1 0 0 [] l = .ok u)
    {y : ConditionAt Note} (hy : y ∈ u.conditionsAt) :
    (∀ t ∈ y.condition.note.out.undeferred,
        t.Fits (Fetch.ReadsFrom (· ∈ u.sites) y.joinDepth)) ∧
      ∀ carrier, ∀ t ∈ y.condition.deferred.tests,
        t.Fits (Fetch.ReadsFrom (· ∈ u.sites) carrier) := by
  unfold Condition.deferred
  cases hq : y.condition.element with
  | pattern mode q =>
    obtain ⟨hout, -⟩ := outputs_of_pattern hu hy hq
    have hfields := fun x hx => fits_outputs_of_mem hflat hu hy (x := x) hx
    rw [hout]
    constructor
    · refine (JoinOutput.closed_fits _).all ?_
      rw [List.forall_mem_map]
      intro x hx t ht
      exact (hfields x hx).1 t (List.mem_append_right _ ht)
    · intro carrier
      refine (JoinOutput.closed_fits _).all ?_
      rw [List.forall_mem_map]
      intro x hx
      exact (hfields x hx).2 carrier
  | test t =>
    obtain ⟨e, -, hout, hsight⟩ := outputs_of_test hu hy hq
    have hdepth : y.joinDepth = y.joins := by rw [ConditionAt.joinDepth, Condition.joinsAfter, hq]
    rw [hout, hdepth]
    refine Outputs.fits_ofTest fun o ho => ?_
    obtain ⟨name, hmem⟩ := (hsight o ho).mem_binders_compiled hu
    exact site_mem_of_mem_binders hmem

/-- The tests of all nodes read sites of the left-hand side. -/
theorem allFrom_fits_of_compile (hflat : l.isFlat = true) {r : Lhs Symbol Note}
    (h : l.compile c = .ok r) :
    Node.AllFrom (Node.OutputsHave fun depth out =>
      ∀ t ∈ out.tests, t.Fits (Fetch.ReadsFrom (· ∈ r.sites) depth)) 0 r.nodes := by
  refine (allFrom_outputs_iff (by simp [Outputs.tests, Outputs.undeferred, JoinOutput.tests])
    hflat h).2 ?_
  obtain ⟨u, hu, rfl⟩ := exists_compileFrom_of_compile h
  rw [sites_collapse]
  have hundeferred : ∀ y ∈ (collapse u).conditionsAt,
      (∀ t ∈ y.condition.note.out.undeferred,
        t.Fits (Fetch.ReadsFrom (· ∈ u.sites) y.joinDepth)) ∧
      ∀ x ∈ y.fields, ∀ t ∈ x.field.note.out.tests,
        t.Fits (Fetch.ReadsFrom (· ∈ u.sites) y.joinDepth) := by
    refine (forall_conditionsAt_collapse (fun z d => Iff.rfl) u).2 fun z hz => ?_
    refine ⟨(fits_condition_of_mem hflat hu hz).1, fun x hx t ht => ?_⟩
    rw [(settled_of_mem_fields hu hz x hx).out_eq] at ht
    refine (fits_outputs_of_mem hflat hu hz hx).1 t ?_
    simp only [Outputs.tests, Outputs.undeferred, JoinOutput.tests, Option.toList_none,
      List.flatMap_nil, List.append_nil] at ht
    exact List.mem_append_left _ ht
  intro y hy
  refine ⟨List.forall_mem_append.2 ⟨(hundeferred y hy).1, ?_⟩, (hundeferred y hy).2⟩
  -- A deferred test ends up in another join, on which what it reads does not depend.
  obtain ⟨-, hget⟩ := getElem?_of_mem_conditionsFrom hy
  refine deferred_collapse_of_members (JoinOutput.closed_fits _) hget fun j x _ hx _ _ => ?_
  obtain ⟨z, hz, -, rfl⟩ := exists_conditionAt hx
  exact (fits_condition_of_mem hflat hu hz).2 y.joinDepth

end Compiled

/-- The pattern of a join is the only one. -/
theorem eq_of_joinDepth_eq {l : Lhs Symbol α} {y z : ConditionAt α} (hy : y ∈ l.conditionsAt)
    (hz : z ∈ l.conditionsAt) (hypattern : y.condition.pattern?.isSome = true)
    (hzpattern : z.condition.pattern?.isSome = true) (h : y.joinDepth = z.joinDepth) : y = z := by
  have hfound := patternAt?_eq hy hypattern
  rw [h, patternAt?_eq hz hzpattern] at hfound
  exact (Option.some.inj hfound).symm

/-- **Every fetch addresses a value of the right pattern.** Let a node of a compiled left-hand side hold
a test or a hash value. For every fetch in it there is exactly one pattern that enters at the join which
the side of the fetch names, that of the node itself for the candidate and the entering entity. The
pattern is over entities of the fetch's kind and has what it addresses. A comparison is one of two
entities of its own kind. -/
theorem fetches_address_patterns {c : Context} {l : Lhs Symbol α} {r : Lhs Symbol Note}
    (hflat : l.isFlat = true) (h : l.compile c = .ok r) {i : Nat} {n : Node}
    (hn : r.nodes[i]? = some n) {t : Test} (ht : t ∈ n.note.out.tests) :
    (∀ f ∈ t.fetches, ∃ y q,
      (∀ z, z ∈ r.conditionsAt ∧ z.condition.pattern?.isSome = true ∧
        z.joinDepth = f.side.joinDepth n.position.joinDepth ↔ z = y) ∧
      y.condition.pattern? = some q ∧ f.kind = q.kind ∧ q.HasAddress f.address) ∧
    ∀ s ∈ t.subtests, ∀ kind left right negated, s.op = .compare kind left right negated →
      left.kind = kind ∧ right.kind = kind := by
  have hfits := allFrom_fits_of_compile hflat h i n hn t ht
  refine ⟨fun f hf => ?_, fun s hs => (hfits s hs).kinds⟩
  obtain ⟨s, hs, hf⟩ := List.mem_flatMap.1 hf
  obtain ⟨site, hsite, hdepth, hfetch⟩ := (hfits s hs).reads f hf
  obtain ⟨y, hy, hsite⟩ := List.mem_flatMap.1 hsite
  obtain ⟨q, hq, hjoin, hkind, haddress⟩ := ConditionAt.exists_pattern_of_mem_sites hsite
  have hpattern : y.condition.pattern?.isSome = true := by rw [hq]; rfl
  refine ⟨y, q, fun z => ⟨fun ⟨hz, hzpattern, hzdepth⟩ => ?_, ?_⟩, hq, ?_, ?_⟩
  · exact eq_of_joinDepth_eq hz hy hzpattern hpattern (by rw [hzdepth, ← hdepth, hjoin])
  · rintro rfl
    exact ⟨hy, hpattern, by rw [← hjoin, hdepth]⟩
  · rw [hfetch]
    exact hkind
  · rw [hfetch]
    exact haddress

/-- A pattern over objects that binds `x` to the first part of its slot `a`, and one over facts that
binds `x` again. -/
def slotThenFact : List (Step String Unit) :=
  [.pattern
      { kind := .object
        handle := some "h"
        slots :=
          [⟨some "a", .multi [.plain (.var "x" .single) [] none (),
            .plain (.var "y" .sequence) [] none ()] [] none ()⟩] },
    .pattern (factPattern [some "x"])]

/-- The join of the second pattern reads the first part of the slot, which the first pattern has. -/
theorem slotThenFact_reads_part :
    ∃ r n f y q, compiledSteps slotThenFact = .ok r ∧ r.nodes[4]? = some n ∧
      (∃ t ∈ n.note.out.tests, f ∈ t.fetches) ∧ f.side = .matched 1 ∧
      (∃ x, f.address = .field 1 (some x) (some ⟨0, false⟩)) ∧ y ∈ r.conditionsAt ∧
      y.condition.pattern? = some q ∧ f.kind = q.kind ∧ q.HasAddress f.address := by
  obtain ⟨r, hr, hcheck⟩ := exists_ok_of_check (e := compiledSteps slotThenFact)
    (p := fun r => r.nodes[4]?.any fun n => n.note.out.tests.any fun t => t.fetches.any fun f =>
      decide (f.side = .matched 1 ∧ f.address = .field 1 (some ⟨1⟩) (some ⟨0, false⟩)))
    (by decide +kernel)
  obtain ⟨n, hn, hcheck⟩ := (Option.any_eq_true _ _).1 hcheck
  obtain ⟨t, ht, hcheck⟩ := List.any_eq_true.1 hcheck
  obtain ⟨f, hf, hcheck⟩ := List.any_eq_true.1 hcheck
  obtain ⟨hside, haddress⟩ := of_decide_eq_true hcheck
  have hflat : ((ofSteps slotThenFact).intern .empty).1.isFlat = true := by decide +kernel
  obtain ⟨y, q, honly, hq, hkind, hhas⟩ := (fetches_address_patterns hflat hr hn ht).1 f hf
  exact ⟨r, n, f, y, q, hr, hn, ⟨t, ht, hf⟩, hside, ⟨_, haddress⟩, ((honly y).2 rfl).1, hq, hkind, hhas⟩

end Lhs

end Antecedent
