import Antecedent.Proofs.Collapsing
import Antecedent.Proofs.NegationBoundary
import Mathlib.Data.List.NodupEquivFin

/-!
# Hash pairs and the tests that imply them

A join may look entities up by hash values before it evaluates its test. No match is lost by that if the
test demands of every pair of hash values that they are equal: a conjunct of the test, not one of its
alternatives, compares them, and does so for every pair.

* `HashPair.ImpliedBy` says that a conjunct compares the two values of a pair. The entering entity is
  read from another side by the hash value than by the test; `Side.entering` and `Side.nesting` say from
  which one, in the join of a pattern and in that of a negated group.
* `JoinOutput.Backed` says that the pairs of an output are implied by conjuncts of its test that come in
  the same order. `JoinOutput.closed_backed` puts such outputs together.
* `Outputs.backed_ofField` says so of what one field yields, and `Lhs.backed_of_compile` of a compiled
  condition.
* `Lhs.hash_pairs_implied` gives the conjuncts of the pairs by an order embedding.
-/

namespace Antecedent

variable {α β γ : Type}

/-! ## Pairs and conjuncts -/

/-- The side from which the join of a pattern reads what a hash value reads from the candidate. -/
def Side.entering : Side → Side
  | candidate => joining
  | side => side

/-- The side from which the join of a negated group reads what a hash value reads for a member. -/
def Side.nesting : Side → Side
  | matched depth => nested depth
  | side => side

/-- The conjunct `t` is an equality between the right value of a pair, with the entity read from the side
that `reads` gives for it, and the left value. -/
def HashPair.ImpliedBy (reads : Side → Side) (h : HashPair) (t : Test) : Prop :=
  ∃ left right : Fetch, h.left = .get left ∧ h.right = .get right ∧
    ((∃ kind, t = .leaf (.compare kind { right with side := reads right.side } left false)) ∨
      t = .equality false (.get { right with side := reads right.side }) (.get left))

theorem sublistForall₂_append {R : β → γ → Prop} {as bs : List β} {cs ds : List γ}
    (h₁ : List.SublistForall₂ R as cs) (h₂ : List.SublistForall₂ R bs ds) :
    List.SublistForall₂ R (as ++ bs) (cs ++ ds) := by
  obtain ⟨es, hes, hsub⟩ := List.sublistForall₂_iff.1 h₁
  obtain ⟨fs, hfs, hsub'⟩ := List.sublistForall₂_iff.1 h₂
  exact List.sublistForall₂_iff.2 ⟨es ++ fs, List.rel_append hes hfs, hsub.append hsub'⟩

namespace JoinOutput

/-- The pairs of an output are implied by conjuncts of its test, in the same order. -/
def Backed (reads : Side → Side) (o : JoinOutput) : Prop :=
  List.SublistForall₂ (HashPair.ImpliedBy reads) o.hash o.conjuncts

theorem closed_backed (reads : Side → Side) : Closed (Backed reads) where
  empty := .nil
  append a b ha hb := by
    rw [Backed, hash_append, conjuncts_append]
    exact sublistForall₂_append ha hb

/-- A comparison backs the pair of the values that it compares. -/
theorem backed_singleton {reads : Side → Side} {h : HashPair} {t : Test} (ht : h.ImpliedBy reads t)
    (hand : t.conjuncts = [t]) : Backed reads ⟨some t, [h]⟩ := by
  have hconjuncts : conjuncts ⟨some t, [h]⟩ = [t] := hand
  rw [Backed, hconjuncts]
  exact .cons ht .nil

/-- The conjuncts that back the pairs of an output are found by an order embedding. -/
theorem Backed.exists_orderEmbedding {reads : Side → Side} {o : JoinOutput} (h : o.Backed reads) :
    ∃ f : Fin o.hash.length ↪o Fin o.conjuncts.length,
      ∀ i, (o.hash.get i).ImpliedBy reads (o.conjuncts.get (f i)) := by
  obtain ⟨ts, hts, hsub⟩ := List.sublistForall₂_iff.1 h
  obtain ⟨f, hf⟩ := List.sublist_iff_exists_fin_orderEmbedding_get_eq.1 hsub
  have hlength := hts.length_eq
  refine ⟨(Fin.castOrderIso hlength).toOrderEmbedding.trans f, fun i => ?_⟩
  have hi : i.val < ts.length := hlength ▸ i.isLt
  have himplied := hts.get i.isLt hi
  rw [hf ⟨i, hi⟩] at himplied
  exact himplied

end JoinOutput

/-! ## Fields -/

namespace Site

/-- A join comparison implies the pair of the values that it compares. -/
theorem impliedBy_compareJoin {reads : Side → Side} {s origin : Site} {role originRole : Role}
    {side : Side} (hside : reads side = s.side role) :
    HashPair.ImpliedBy reads ⟨origin.joinValue originRole, .get (s.fetch side)⟩
      (s.compareJoin false origin role originRole) := by
  refine ⟨origin.fetch (origin.side originRole), s.fetch side, rfl, rfl, ?_⟩
  have hentering : { s.fetch side with side := reads (s.fetch side).side } =
      s.fetch (s.side role) := by
    rw [← hside]
    rfl
  rw [hentering, compareJoin]
  split
  · next hkind =>
    refine .inl ⟨s.kind, ?_⟩
    rw [EntityKind.compareJoin, fetch, fetch, hkind]
  · exact .inr rfl

theorem conjuncts_compareJoin (s : Site) (negated : Bool) (origin : Site) (role originRole : Role) :
    (s.compareJoin negated origin role originRole).conjuncts =
      [s.compareJoin negated origin role originRole] := by
  rw [compareJoin]
  cases negated <;> split <;> rfl

end Site

namespace Staging

/-- In the join of its pattern, a field is compared with the partial match. -/
theorem comparison_join {s : Staging} (h : s.deferred = false) (site : Site) (negated : Bool)
    (o : Origin) :
    s.comparison site negated o .join = site.compareJoin negated o.place.site .joining .matched := by
  simp [comparison, ownRole, originRole, h]

/-- In the join of a negated group, a field of a member is compared with the partial match if the
variable is bound at another depth. -/
theorem comparison_deferred {s : Staging} {o : Origin} (h : s.deferred = true)
    (hne : s.place.beginDepth ≠ o.place.beginDepth) (site : Site) (negated : Bool) :
    s.comparison site negated o .deferred =
      site.compareJoin negated o.place.site .nested .matched := by
  simp [comparison, ownRole, originRole, h, hne]

end Staging

namespace Outputs

/-- **The hash pairs of a field are implied** by the comparison of its own variable, which is a conjunct
of its test whatever its alternatives are. -/
theorem backed_ofField (p : Place) (own : Option Origin) (as : List (List (Conjunct Origin))) :
    (ofField p own as).join.Backed Side.entering ∧
      (ofField p own as).deferred.Backed Side.nesting := by
  cases own with
  | none => exact ⟨.nil, .nil⟩
  | some o =>
    rw [ofField, compareOwn]
    split
    · exact ⟨.nil, .nil⟩
    · next hstage =>
      refine ⟨(JoinOutput.closed_backed _).append _ _ ?_ .nil, .nil⟩
      have hdeferred := (Staging.stage_eq_join_iff.1 hstage).2
      rw [hstage, Staging.comparison_join hdeferred]
      exact JoinOutput.backed_singleton (Site.impliedBy_compareJoin rfl)
        (Site.conjuncts_compareJoin ..)
    · next hstage =>
      refine ⟨.nil, (JoinOutput.closed_backed _).append _ _ ?_ .nil⟩
      have houtside : o.place.beginDepth < p.beginDepth :=
        of_decide_eq_true (Staging.deferred_of_stage hstage)
      rw [hstage, Staging.comparison_deferred (Staging.deferred_of_stage hstage) houtside.ne']
      exact JoinOutput.backed_singleton (Site.impliedBy_compareJoin rfl)
        (Site.conjuncts_compareJoin ..)

theorem backed_ofTest (beginDepth joinDepth : Nat) (t : Term Symbol Origin) :
    (ofTest beginDepth joinDepth t).join.Backed Side.entering ∧
      (ofTest beginDepth joinDepth t).deferred.Backed Side.nesting := by
  rw [ofTest]
  split <;> exact ⟨.nil, .nil⟩

end Outputs

/-! ## Compiled conditions -/

namespace Lhs

/-- What the conditions of a compiled left-hand side evaluate before collapsing. -/
theorem backed_of_compileFrom {c : Context} {l : Lhs Symbol α} {u : Lhs Symbol Note}
    (hu : compileFrom c 1 0 0 [] l = .ok u) {k : Condition Symbol Note} (hk : k ∈ u) :
    k.note.out.join.Backed Side.entering ∧ k.deferred.Backed Side.nesting := by
  obtain ⟨j, hj⟩ := List.mem_iff_getElem?.1 hk
  obtain ⟨y, hy, -, rfl⟩ : ∃ y ∈ u.conditionsAt, y.pattern = 1 + j ∧ y.condition = k :=
    exists_conditionAt hj
  cases helement : y.condition.element with
  | pattern mode q =>
    obtain ⟨hout, -⟩ := outputs_of_pattern hu hy helement
    rw [Condition.deferred, hout]
    constructor
    · exact (JoinOutput.closed_backed _).all
        (List.forall_mem_map.2 fun x _ => (Outputs.backed_ofField ..).1)
    · exact (JoinOutput.closed_backed _).all
        (List.forall_mem_map.2 fun x _ => (Outputs.backed_ofField ..).2)
  | test t =>
    obtain ⟨e, -, hout, -⟩ := outputs_of_test hu hy helement
    rw [Condition.deferred, hout]
    exact Outputs.backed_ofTest ..

/-- Moving what is deferred keeps the pairs with their conjuncts. -/
theorem backed_of_compile {c : Context} {l : Lhs Symbol α} {r : Lhs Symbol Note}
    (h : l.compile c = .ok r) {k : Condition Symbol Note} (hk : k ∈ r) :
    k.note.out.join.Backed Side.entering ∧ k.note.out.deferred.Backed Side.nesting := by
  obtain ⟨u, hu, rfl⟩ := exists_compileFrom_of_compile h
  obtain ⟨j, hj⟩ := List.mem_iff_getElem?.1 hk
  constructor
  · obtain ⟨k', hk', d, rfl⟩ := exists_of_mem_forall₂ (forall₂_collapse u).flip hk
    exact (backed_of_compileFrom hu hk').1
  · refine deferred_collapse_of_members (JoinOutput.closed_backed _) hj fun i x _ hx _ _ => ?_
    exact (backed_of_compileFrom hu (List.mem_of_getElem? hx)).2

/-- **Hash pairs are implied by the tests.** In a compiled condition, the left and the right hash values
of its join come in pairs, and an order embedding gives for each pair a conjunct of the join's test that
is an equality between the two: the right value read from the entering entity, and the left value. So do
those of the join of the negated group, where the right value is read for a member. -/
theorem hash_pairs_implied {c : Context} {l : Lhs Symbol α} {r : Lhs Symbol Note}
    (h : l.compile c = .ok r) {k : Condition Symbol Note} (hk : k ∈ r) :
    let join := k.note.out.join
    let deferred := k.note.out.deferred
    (join.leftHash.length = join.rightHash.length ∧
      ∃ f : Fin join.hash.length ↪o Fin join.conjuncts.length,
        ∀ i, (join.hash.get i).ImpliedBy Side.entering (join.conjuncts.get (f i))) ∧
    deferred.leftHash.length = deferred.rightHash.length ∧
      ∃ f : Fin deferred.hash.length ↪o Fin deferred.conjuncts.length,
        ∀ i, (deferred.hash.get i).ImpliedBy Side.nesting (deferred.conjuncts.get (f i)) := by
  obtain ⟨hjoin, hdeferred⟩ := backed_of_compile h hk
  exact ⟨⟨JoinOutput.length_leftHash _, hjoin.exists_orderEmbedding⟩,
    JoinOutput.length_leftHash _, hdeferred.exists_orderEmbedding⟩

/-- The first member of a negated group carries the hash pairs of both members. -/
theorem plainGroup_hash_pairs :
    ∃ r k, compiledSteps plainGroup = .ok r ∧ k ∈ r ∧ k.note.out.deferred.hash.length = 2 ∧
      ∃ f : Fin k.note.out.deferred.hash.length ↪o Fin k.note.out.deferred.conjuncts.length,
        ∀ i, (k.note.out.deferred.hash.get i).ImpliedBy Side.nesting
          (k.note.out.deferred.conjuncts.get (f i)) := by
  obtain ⟨r, hr, hcheck⟩ := exists_ok_of_check (e := compiledSteps plainGroup)
    (p := fun r => r.any fun k => k.note.out.deferred.hash.length == 2) (by decide +kernel)
  obtain ⟨k, hk, hlength⟩ := List.any_eq_true.1 hcheck
  exact ⟨r, k, hr, hk, beq_iff_eq.1 hlength, (hash_pairs_implied hr hk).2.2⟩

end Lhs

end Antecedent
