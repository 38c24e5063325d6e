import Antecedent.Compile
import Antecedent.Proofs.Meets
import Mathlib.Data.List.Induction
import Mathlib.Data.List.Nodup

/-!
# What an expression demands of its variables

A known function may restrict its arguments. An expression demands of a variable what is demanded at the
places where it passes the variable, as an argument of its own, to such a function. All these demands are
collected into one per name.

* `Term.part?` follows a path into an expression. An `ArgPlace` is a path to a call with the number of one
  of its arguments, and `ArgPlace.Before` is the order of these places: calls in pre-order, and the arguments
  of a call from left to right before the calls inside it.
* `Term.DemandsAt` says what an expression demands at a place, in terms of paths.
* `Term.placedDemands` lists the demands of an expression with their places. `Term.mem_placedDemands` and
  `Term.pairwise_placedDemands` say that it lists all of them, in order.
* `Demand.Firsts` relates demands in order to what is collected from them; collecting one more demand keeps it
  (`Demand.Firsts.insert`).
* `Term.demands_exact` is the main result.
-/

namespace Antecedent

variable {ν α : Type}

/-! ## Restricted arguments -/

namespace Signature

/-- A signature restricts an argument: the first ones by an entry of their own, if it is not blank, and all
further ones alike. -/
def Restricts (s : Signature) (i : Nat) (r : Restriction) : Prop :=
  s.positional[i]? = some (some r) ∨ s.positional.length ≤ i ∧ s.rest = some r

theorem arg_eq_some_iff {s : Signature} {i : Nat} {r : Restriction} :
    s.arg i = some r ↔ s.Restricts i r := by
  unfold arg Restricts
  split
  · next entry hentry =>
    have hlt := (List.getElem?_eq_some_iff.1 hentry).1
    simp [hentry, Nat.not_le.2 hlt]
  · next hnone => simp [List.getElem?_eq_none_iff.1 hnone]

end Signature

/-! ## Places of arguments -/

/-- The place of an argument in an expression. -/
structure ArgPlace where
  /-- The way to the call, by the numbers of the arguments that lead there. -/
  path : List Nat
  /-- The number of the argument, counted from zero. -/
  index : Nat
  deriving DecidableEq, Repr

namespace ArgPlace

/-- The calls come in the order of their paths, so that a call comes before those inside it. The arguments of
a call come from left to right. -/
def Before (p q : ArgPlace) : Prop := p.path < q.path ∨ p.path = q.path ∧ p.index < q.index

/-- The place in a call that has the expression as its argument with number `i`. -/
def inside (i : Nat) (p : ArgPlace) : ArgPlace := { p with path := i :: p.path }

theorem inside_before_iff {i j : Nat} {p q : ArgPlace} :
    (p.inside i).Before (q.inside j) ↔ i < j ∨ i = j ∧ p.Before q := by
  simp only [Before, inside, List.cons_lt_cons_iff, List.cons.injEq]
  tauto

end ArgPlace

namespace Term

/-- The part of an expression at the end of a path. -/
def part? : Term ν α → List Nat → Option (Term ν α)
  | t, [] => some t
  | call _ args, i :: path => args[i]?.bind fun t => t.part? path
  | _, _ :: _ => none

/-- An expression demands something at a place: a variable stands there, as an argument of a known function
that restricts it. -/
def DemandsAt (e : Environment) (t : Term Symbol α) (p : ArgPlace) (d : Demand) : Prop :=
  ∃ f args n s, t.part? p.path = some (call f args) ∧ args[p.index]? = some (var d.name d.arity n) ∧
    e.signature? f = some s ∧ s.Restricts p.index d.restriction

/-- The first place where an expression demands something of a variable. -/
def FirstDemandsAt (e : Environment) (t : Term Symbol α) (p : ArgPlace) (d : Demand) : Prop :=
  t.DemandsAt e p d ∧ ∀ q d', t.DemandsAt e q d' → d'.name = d.name → q = p ∨ p.Before q

/-! ## Demands in order -/

/-- What a call demands of its own arguments, from the one with number `i` on. -/
def placedArgs (s : Signature) (i : Nat) : List (Term Symbol α) → List (ArgPlace × Demand)
  | [] => []
  | t :: ts => ((argDemand s i t).toList.map fun d => (⟨[], i⟩, d)) ++ placedArgs s (i + 1) ts

mutual

/-- The demands of an expression with their places. -/
def placedDemands (e : Environment) : Term Symbol α → List (ArgPlace × Demand)
  | call f args =>
    (e.signature? f).elim [] (fun s => placedArgs s 0 args) ++ placedInside e 0 args
  | var _ _ _ => []
  | lit _ => []
  | global _ => []

/-- The demands inside the arguments of a call, from the one with number `i` on. -/
def placedInside (e : Environment) (i : Nat) : List (Term Symbol α) → List (ArgPlace × Demand)
  | [] => []
  | t :: ts => ((placedDemands e t).map fun v => (v.1.inside i, v.2)) ++ placedInside e (i + 1) ts

end

section Listing

variable {e : Environment}

theorem rawDemands_call (f : Symbol) (args : List (Term Symbol α)) :
    (call f args).rawDemands e =
      (e.signature? f).elim [] (fun s => callDemands s 0 args) ++ args.flatMap (rawDemands e) := by
  have hinside : callsAll args = args.flatMap calls := by
    induction args with
    | nil => rfl
    | cons t ts ih => rw [callsAll, ih, List.flatMap_cons]
  rw [rawDemands, calls, List.flatMap_cons, hinside, List.flatMap_assoc]
  refine congrArg₂ (· ++ ·) ?_ rfl
  dsimp only
  cases e.signature? f <;> rfl

theorem map_snd_placedArgs (s : Signature) (i : Nat) (ts : List (Term Symbol α)) :
    (placedArgs s i ts).map Prod.snd = callDemands s i ts := by
  induction ts generalizing i with
  | nil => rfl
  | cons t ts ih => simp [placedArgs, callDemands, ih, Function.comp_def]

mutual

/-- Without their places, these are the demands of the expression one by one. -/
theorem map_snd_placedDemands (t : Term Symbol α) :
    (t.placedDemands e).map Prod.snd = t.rawDemands e := by
  cases t with
  | call f args =>
    rw [placedDemands, List.map_append, map_snd_placedInside args, rawDemands_call]
    cases e.signature? f with
    | none => rfl
    | some s => rw [Option.elim_some, Option.elim_some, map_snd_placedArgs]
  | var x arity n => rfl
  | lit v => rfl
  | global x => rfl

theorem map_snd_placedInside (ts : List (Term Symbol α)) {i : Nat} :
    (placedInside e i ts).map Prod.snd = ts.flatMap (rawDemands e) := by
  cases ts with
  | nil => rfl
  | cons t ts =>
    rw [placedInside, List.map_append, map_snd_placedInside ts, List.map_map, List.flatMap_cons]
    exact congrArg (· ++ _) (map_snd_placedDemands t)

end

theorem mem_argDemand {s : Signature} {i : Nat} {t : Term Symbol α} {d : Demand} :
    d ∈ argDemand s i t ↔ ∃ n, t = var d.name d.arity n ∧ s.Restricts i d.restriction := by
  constructor
  · intro hd
    cases t with
    | var x arity n =>
      obtain ⟨r, hr, rfl⟩ := Option.map_eq_some_iff.1 hd
      exact ⟨n, rfl, Signature.arg_eq_some_iff.1 hr⟩
    | call f args => cases hd
    | lit v => cases hd
    | global x => cases hd
  · rintro ⟨n, rfl, hr⟩
    exact Option.map_eq_some_iff.2 ⟨d.restriction, Signature.arg_eq_some_iff.2 hr, rfl⟩

theorem mem_placedArgs {s : Signature} {i : Nat} {ts : List (Term Symbol α)} {p : ArgPlace} {d : Demand} :
    (p, d) ∈ placedArgs s i ts ↔ ∃ j n, p = ⟨[], i + j⟩ ∧ ts[j]? = some (var d.name d.arity n) ∧
      s.Restricts (i + j) d.restriction := by
  induction ts generalizing i with
  | nil => simp [placedArgs]
  | cons t ts ih =>
    rw [placedArgs, List.mem_append, ih]
    constructor
    · rintro (hd | ⟨j, n, rfl, hget, hr⟩)
      · obtain ⟨d, hmem, heq⟩ := List.mem_map.1 hd
        obtain ⟨rfl, rfl⟩ := Prod.mk.inj heq
        obtain ⟨n, rfl, hr⟩ := mem_argDemand.1 (Option.mem_toList.1 hmem)
        exact ⟨0, n, rfl, rfl, hr⟩
      · refine ⟨j + 1, n, ?_, hget, ?_⟩
        · rw [Nat.add_right_comm, Nat.add_assoc]
        · rwa [Nat.add_right_comm, Nat.add_assoc] at hr
    · rintro ⟨j, n, rfl, hget, hr⟩
      cases j with
      | zero =>
        have hd : d ∈ argDemand s i t := mem_argDemand.2 ⟨n, Option.some.inj hget, hr⟩
        exact .inl (List.mem_map.2 ⟨d, Option.mem_toList.2 hd, rfl⟩)
      | succ j =>
        have hindex : i + (j + 1) = i + 1 + j := by omega
        rw [hindex] at hr ⊢
        exact .inr ⟨j, n, rfl, hget, hr⟩

/-- The arguments of a call come from left to right. -/
theorem pairwise_placedArgs (s : Signature) (i : Nat) (ts : List (Term Symbol α)) :
    (placedArgs s i ts).Pairwise fun v w => v.1.Before w.1 := by
  induction ts generalizing i with
  | nil => exact .nil
  | cons t ts ih =>
    refine List.pairwise_append.2 ⟨?_, ih (i + 1), fun v hv w hw => ?_⟩
    · cases argDemand s i t <;> simp
    · obtain ⟨d, -, rfl⟩ := List.mem_map.1 hv
      obtain ⟨j, n, hw, -⟩ := mem_placedArgs.1 hw
      rw [hw]
      exact .inr ⟨rfl, show i < i + 1 + j by omega⟩

/-- Where an expression is no call, there is no call inside it. -/
theorem not_demandsAt {t : Term Symbol α} (ht : ∀ f args, t ≠ call f args) (p : ArgPlace) (d : Demand) :
    ¬ t.DemandsAt e p d := by
  rintro ⟨f, args, n, s, hpart, -⟩
  obtain ⟨path, index⟩ := p
  cases path with
  | nil => exact ht f args (Option.some.inj hpart)
  | cons i path =>
    cases t with
    | call g args' => exact ht g args' rfl
    | var x arity n => cases hpart
    | lit v => cases hpart
    | global x => cases hpart

mutual

/-- These are the demands that the expression has at its places. -/
theorem mem_placedDemands (t : Term Symbol α) {p : ArgPlace} {d : Demand} :
    (p, d) ∈ t.placedDemands e ↔ t.DemandsAt e p d := by
  cases t with
  | call f args =>
    rw [placedDemands, List.mem_append, mem_placedInside args]
    constructor
    · rintro (h | ⟨j, t, q, ht, rfl, g, args', n, s, hpart, hrest⟩)
      · cases hs : e.signature? f with
        | none => simp [hs] at h
        | some s =>
          rw [hs] at h
          obtain ⟨j, n, hp, hget, hr⟩ := mem_placedArgs.1 h
          rw [Nat.zero_add] at hp hr
          subst hp
          exact ⟨f, args, n, s, rfl, hget, hs, hr⟩
      · exact ⟨g, args', n, s, by simp [ArgPlace.inside, part?, ht, hpart], hrest⟩
    · rintro ⟨g, args', n, s, hpart, hget, hs, hr⟩
      obtain ⟨path, index⟩ := p
      cases path with
      | nil =>
        obtain ⟨rfl, rfl⟩ := call.inj (Option.some.inj hpart)
        rw [hs]
        refine .inl (mem_placedArgs.2 ⟨index, n, ?_, hget, ?_⟩)
        · rw [Nat.zero_add]
        · rwa [Nat.zero_add]
      | cons i path =>
        obtain ⟨t, ht, hpart⟩ := Option.bind_eq_some_iff.1 hpart
        refine .inr ⟨i, t, ⟨path, index⟩, ht, ?_, g, args', n, s, hpart, hget, hs, hr⟩
        rw [Nat.zero_add]
        rfl
  | var x arity n => exact iff_of_false List.not_mem_nil (not_demandsAt (by simp) p d)
  | lit v => exact iff_of_false List.not_mem_nil (not_demandsAt (by simp) p d)
  | global x => exact iff_of_false List.not_mem_nil (not_demandsAt (by simp) p d)

theorem mem_placedInside (ts : List (Term Symbol α)) {i : Nat} {p : ArgPlace} {d : Demand} :
    (p, d) ∈ placedInside e i ts ↔ ∃ (j : Nat) (t : Term Symbol α) (q : ArgPlace),
      ts[j]? = some t ∧ p = q.inside (i + j) ∧ t.DemandsAt e q d := by
  cases ts with
  | nil => simp [placedInside]
  | cons t ts =>
    rw [placedInside, List.mem_append, mem_placedInside ts]
    constructor
    · rintro (h | ⟨j, u, q, hu, rfl, hq⟩)
      · obtain ⟨⟨q, d⟩, hq, heq⟩ := List.mem_map.1 h
        obtain ⟨rfl, rfl⟩ := Prod.mk.inj heq
        exact ⟨0, t, q, rfl, rfl, (mem_placedDemands t).1 hq⟩
      · exact ⟨j + 1, u, q, hu, by rw [Nat.add_right_comm, Nat.add_assoc], hq⟩
    · rintro ⟨j, u, q, hu, rfl, hq⟩
      cases j with
      | zero =>
        obtain rfl : t = u := Option.some.inj hu
        exact .inl (List.mem_map.2 ⟨(q, d), (mem_placedDemands t).2 hq, rfl⟩)
      | succ j => exact .inr ⟨j, u, q, hu, by rw [Nat.add_right_comm, Nat.add_assoc], hq⟩

end

mutual

/-- The demands are listed in the order of their places. -/
theorem pairwise_placedDemands (t : Term Symbol α) :
    (t.placedDemands e).Pairwise fun v w => v.1.Before w.1 := by
  cases t with
  | call f args =>
    refine List.pairwise_append.2 ⟨?_, pairwise_placedInside args 0, fun v hv w hw => ?_⟩
    · cases e.signature? f with
      | none => exact .nil
      | some s => exact pairwise_placedArgs s 0 args
    · -- the path to the call itself is empty, and those to the calls inside it are not
      cases hs : e.signature? f with
      | none => simp [hs] at hv
      | some s =>
        rw [hs] at hv
        obtain ⟨j, n, hv, -⟩ := mem_placedArgs.1 hv
        obtain ⟨i, t, q, -, hw, -⟩ := (mem_placedInside args).1 hw
        rw [hv, hw]
        exact .inl (List.nil_lt_cons _ _)
  | var x arity n => exact .nil
  | lit v => exact .nil
  | global x => exact .nil

theorem pairwise_placedInside (ts : List (Term Symbol α)) (i : Nat) :
    (placedInside e i ts).Pairwise fun v w => v.1.Before w.1 := by
  cases ts with
  | nil => exact .nil
  | cons t ts =>
    refine List.pairwise_append.2 ⟨?_, pairwise_placedInside ts (i + 1), fun v hv w hw => ?_⟩
    · rw [List.pairwise_map]
      exact (pairwise_placedDemands t).imp fun h => ArgPlace.inside_before_iff.2 (.inr ⟨rfl, h⟩)
    · obtain ⟨u, -, rfl⟩ := List.mem_map.1 hv
      obtain ⟨j, t', q, -, hw, -⟩ := (mem_placedInside ts).1 hw
      rw [hw]
      exact ArgPlace.inside_before_iff.2 (.inl (by omega))

end

end Listing

end Term

/-! ## Collecting demands -/

namespace Demand

theorem collect_concat (ds : List Demand) (d : Demand) :
    collect (ds ++ [d]) = insert (collect ds) d := by
  rw [collect, List.foldl_append]
  rfl

/-- A demand on a new name comes last; one on a known name narrows what is there. -/
theorem insert_cases (es : List Demand) (d : Demand) :
    ((∀ a ∈ es, a.name ≠ d.name) ∧ insert es d = es ++ [d]) ∨
      ∃ before a behind, es = before ++ a :: behind ∧ a.name = d.name ∧
        insert es d = before ++ { a with restriction := a.restriction ∩ d.restriction } :: behind := by
  induction es with
  | nil => exact .inl ⟨by simp, rfl⟩
  | cons b es ih =>
    by_cases hb : b.name = d.name
    · exact .inr ⟨[], b, es, rfl, hb, by rw [insert, if_pos hb, List.nil_append]⟩
    · rw [insert, if_neg hb]
      rcases ih with ⟨hnew, heq⟩ | ⟨before, a, behind, rfl, hname, heq⟩
      · exact .inl ⟨List.forall_mem_cons.2 ⟨hb, hnew⟩, by rw [heq, List.cons_append]⟩
      · exact .inr ⟨b :: before, a, behind, rfl, hname, by rw [heq, List.cons_append]⟩

/-- There is one demand per name. -/
theorem nodup_collect (ds : List Demand) : ((collect ds).map name).Nodup := by
  induction ds using List.reverseRecOn with
  | nil => exact List.nodup_nil
  | append_singleton ds d ih =>
    rw [collect_concat]
    rcases insert_cases (collect ds) d with ⟨hnew, heq⟩ | ⟨before, a, behind, hes, hname, heq⟩
    · rw [heq, List.map_append, List.map_singleton]
      refine List.nodup_append.2 ⟨ih, List.nodup_singleton _, fun x hx y hy => ?_⟩
      obtain ⟨a, ha, rfl⟩ := List.mem_map.1 hx
      rw [List.mem_singleton.1 hy]
      exact hnew a ha
    · rw [hes] at ih
      rw [heq]
      simpa using ih

theorem mem_map_name_collect {ds : List Demand} {x : Symbol} :
    x ∈ (collect ds).map name ↔ x ∈ ds.map name := by
  induction ds using List.reverseRecOn with
  | nil => rfl
  | append_singleton ds d ih =>
    rw [collect_concat, List.map_append, List.mem_append, ← ih]
    rcases insert_cases (collect ds) d with ⟨-, heq⟩ | ⟨before, a, behind, hes, hname, heq⟩
    · rw [heq, List.map_append, List.mem_append]
    · have hmem : x ∈ [d].map name → x ∈ (collect ds).map name := by
        rw [hes]
        simp +contextual [hname]
      rw [or_iff_left_of_imp hmem, heq, hes]
      simp

/-- **A collected demand admits what all demands on its name admit**, if the bounds are numbers. -/
theorem check_collect {ds : List Demand} (hds : ∀ d ∈ ds, d.restriction.Proper) (v : Literal Symbol) :
    ∀ a ∈ collect ds, a.restriction.check v = none ↔
      ∀ d ∈ ds, d.name = a.name → d.restriction.check v = none := by
  induction ds using List.reverseRecOn with
  | nil => simp [collect]
  | append_singleton ds d ih =>
    obtain ⟨hds, hd⟩ := List.forall_mem_append.1 hds
    -- nothing new is demanded of another name
    have hother {a : Demand} (ha : a ∈ collect ds) (hne : a.name ≠ d.name) :
        a.restriction.check v = none ↔ ∀ b ∈ ds ++ [d], b.name = a.name → b.restriction.check v = none := by
      rw [ih hds a ha, List.forall_mem_append, List.forall_mem_singleton]
      exact (and_iff_left fun heq => absurd heq.symm hne).symm
    rw [collect_concat]
    rcases insert_cases (collect ds) d with ⟨hnew, heq⟩ | ⟨before, a, behind, hes, hname, heq⟩
    · rw [heq, List.forall_mem_append, List.forall_mem_singleton]
      refine ⟨fun a ha => hother ha (hnew a ha), ?_⟩
      rw [List.forall_mem_append, List.forall_mem_singleton]
      refine ⟨fun h => ⟨fun b hb hsame => ?_, fun _ => h⟩, fun h => h.2 rfl⟩
      obtain ⟨a, ha, hname⟩ := List.mem_map.1 (mem_map_name_collect.2 (List.mem_map_of_mem hb))
      exact absurd (hname.trans hsame) (hnew a ha)
    · have hmem (b : Demand) (hb : b ∈ before ++ a :: behind) : b ∈ collect ds := hes ▸ hb
      have hnodup := nodup_collect ds
      rw [hes, List.map_append, List.map_cons, List.nodup_middle, List.nodup_cons, hname] at hnodup
      have hne (b : Demand) (hb : b ∈ before ++ behind) : b.name ≠ d.name := fun heq =>
        hnodup.1 (heq ▸ List.map_append ▸ List.mem_map_of_mem hb)
      rw [heq]
      refine List.forall_mem_append.2 ⟨fun b hb => ?_, List.forall_mem_cons.2 ⟨?_, fun b hb => ?_⟩⟩
      · exact hother (hmem b (by simp [hb])) (hne b (by simp [hb]))
      · -- the demand on the name is narrowed, so that it also admits only what the new one admits
        have ha := hmem a (by simp)
        rw [Restriction.check_inter (proper_collect hds a ha) (hd d (by simp)), ih hds a ha,
          List.forall_mem_append, List.forall_mem_singleton]
        exact and_congr_right' ⟨fun h _ => h, fun h => h hname.symm⟩
      · exact hother (hmem b (by simp [hb])) (hne b (by simp [hb]))

/-- Among demands in order, the first ones on their names: they are what the collected demands stand for, one
by one. -/
structure Firsts (ps firsts : List (ArgPlace × Demand)) (es : List Demand) : Prop where
  sublist : firsts.Sublist ps
  heads : firsts.map (fun v => (v.2.name, v.2.arity)) = es.map fun d => (d.name, d.arity)
  least : ∀ v ∈ firsts, ∀ w ∈ ps, w.2.name = v.2.name → w = v ∨ v.1.Before w.1

namespace Firsts

variable {ps firsts : List (ArgPlace × Demand)} {es : List Demand}

/-- **Collecting one more demand**: it is the first on its name, or a further one. -/
theorem insert (h : Firsts ps firsts es) {w : ArgPlace × Demand} (hw : ∀ v ∈ ps, v.1.Before w.1)
    (hcovered : ∀ v ∈ ps, ∃ d ∈ es, d.name = v.2.name) :
    ∃ firsts', Firsts (ps ++ [w]) firsts' (Demand.insert es w.2) := by
  have hleast (v : ArgPlace × Demand) (hv : v ∈ firsts) :
      ∀ u ∈ ps ++ [w], u.2.name = v.2.name → u = v ∨ v.1.Before u.1 :=
    List.forall_mem_append.2 ⟨h.least v hv, List.forall_mem_singleton.2 fun _ =>
      .inr (hw v (h.sublist.subset hv))⟩
  rcases insert_cases es w.2 with ⟨hnew, heq⟩ | ⟨before, a, behind, rfl, hname, heq⟩
  · refine ⟨firsts ++ [w], h.sublist.append (List.Sublist.refl _), ?_, ?_⟩
    · rw [heq, List.map_append, List.map_append, h.heads]
      rfl
    · refine List.forall_mem_append.2 ⟨hleast, List.forall_mem_singleton.2 ?_⟩
      refine List.forall_mem_append.2 ⟨fun v hv hsame => ?_, List.forall_mem_singleton.2 fun _ => .inl rfl⟩
      obtain ⟨d, hd, hname⟩ := hcovered v hv
      exact absurd (hname.trans hsame) (hnew d hd)
  · refine ⟨firsts, h.sublist.trans (List.sublist_append_left _ _), ?_, hleast⟩
    rw [heq, h.heads, List.map_append, List.map_append]
    rfl

/-- Demands in order have their first ones. -/
theorem exists_collect {ps : List (ArgPlace × Demand)} (hps : ps.Pairwise fun v w => v.1.Before w.1) :
    ∃ firsts, Firsts ps firsts (collect (ps.map Prod.snd)) := by
  induction ps using List.reverseRecOn with
  | nil => exact ⟨[], .slnil, rfl, by simp⟩
  | append_singleton ps w ih =>
    obtain ⟨hps, -, hw⟩ := List.pairwise_append.1 hps
    obtain ⟨firsts, h⟩ := ih hps
    rw [List.map_append, List.map_singleton, collect_concat]
    refine h.insert (fun v hv => hw v hv w (by simp)) fun v hv => ?_
    have hmem : v.2.name ∈ (collect (ps.map Prod.snd)).map name :=
      mem_map_name_collect.2 (List.mem_map_of_mem (List.mem_map_of_mem hv))
    exact List.mem_map.1 hmem

end Firsts

end Demand

/-! ## Derived demands -/

namespace Term

variable {e : Environment}

theorem mem_rawDemands {t : Term Symbol α} {d : Demand} :
    d ∈ t.rawDemands e ↔ ∃ p, t.DemandsAt e p d := by
  rw [← map_snd_placedDemands, List.mem_map]
  constructor
  · rintro ⟨⟨p, d⟩, hd, rfl⟩
    exact ⟨p, (mem_placedDemands t).1 hd⟩
  · rintro ⟨p, hd⟩
    exact ⟨(p, d), (mem_placedDemands t).2 hd, rfl⟩

theorem DemandsAt.proper (he : e.Proper) {t : Term Symbol α} {p : ArgPlace} {d : Demand}
    (h : t.DemandsAt e p d) : d.restriction.Proper := by
  obtain ⟨f, args, n, s, -, -, hs, hr⟩ := h
  exact (he.signature? hs).arg p.index d.restriction (Signature.arg_eq_some_iff.2 hr)

theorem mem_map_name_demands {t : Term Symbol α} {x : Symbol} :
    x ∈ (t.demands e).map Demand.name ↔ ∃ p d, t.DemandsAt e p d ∧ d.name = x := by
  rw [demands, Demand.mem_map_name_collect, List.mem_map]
  constructor
  · rintro ⟨d, hd, hname⟩
    obtain ⟨p, hd⟩ := mem_rawDemands.1 hd
    exact ⟨p, d, hd, hname⟩
  · rintro ⟨p, d, hd, hname⟩
    exact ⟨d, mem_rawDemands.2 ⟨p, hd⟩, hname⟩

/-- The collected demands come in the order of the first demands on their names, and have their arities. -/
theorem exists_firstDemands (t : Term Symbol α) :
    ∃ places : List ArgPlace, places.Pairwise ArgPlace.Before ∧
      List.Forall₂ (fun p a => ∃ d, t.FirstDemandsAt e p d ∧ d.name = a.name ∧ d.arity = a.arity) places
        (t.demands e) := by
  obtain ⟨firsts, h⟩ := Demand.Firsts.exists_collect (pairwise_placedDemands t (e := e))
  rw [map_snd_placedDemands] at h
  have hfirst (v : ArgPlace × Demand) (hv : v ∈ firsts) : t.FirstDemandsAt e v.1 v.2 := by
    refine ⟨(mem_placedDemands t).1 (h.sublist.subset hv), fun q d hd hname => ?_⟩
    exact (h.least v hv (q, d) ((mem_placedDemands t).2 hd) hname).imp_left (congrArg Prod.fst)
  have hheads := h.heads
  rw [← List.forall₂_eq_eq_eq, List.forall₂_map_left_iff, List.forall₂_map_right_iff] at hheads
  refine ⟨firsts.map Prod.fst, ?_, ?_⟩
  · rw [List.pairwise_map]
    exact (pairwise_placedDemands t).sublist h.sublist
  · rw [List.forall₂_map_left_iff]
    refine List.Forall₂.imp ?_ ((List.forall₂_and_left _ _).2 ⟨hfirst, hheads⟩)
    rintro v a ⟨hv, heq⟩
    exact ⟨v.2, hv, Prod.mk.inj heq⟩

/-- A collected demand admits the literals that are admitted everywhere its name is passed to a function. -/
theorem check_demands (he : e.Proper) {t : Term Symbol α} {a : Demand} (ha : a ∈ t.demands e)
    (v : Literal Symbol) :
    a.restriction.check v = none ↔
      ∀ p d, t.DemandsAt e p d → d.name = a.name → d.restriction.check v = none := by
  have hproper (d : Demand) (hd : d ∈ t.rawDemands e) : d.restriction.Proper := by
    obtain ⟨p, hd⟩ := mem_rawDemands.1 hd
    exact hd.proper he
  rw [Demand.check_collect hproper v a ha]
  constructor
  · intro h p d hd
    exact h d (mem_rawDemands.2 ⟨p, hd⟩)
  · intro h d hd
    obtain ⟨p, hd⟩ := mem_rawDemands.1 hd
    exact h p d hd

/-- **What an expression demands of its variables**, if the bounds of all signatures are numbers. There is one
binding for each name that the expression demands something of. The bindings come in the order of the first
demands on their names and have the arities that the variables have there. A binding comes from no condition,
and it admits the literals that are admitted by all demands on its name. -/
theorem demands_exact (he : e.Proper) (t : Term Symbol α) (floor : Nat) :
    let bs := (t.demands e).map (Demand.binding floor)
    (bs.map Binding.name).Nodup ∧
      (∀ x, x ∈ bs.map Binding.name ↔ ∃ p d, t.DemandsAt e p d ∧ d.name = x) ∧
      (∃ places : List ArgPlace, places.Pairwise ArgPlace.Before ∧
        List.Forall₂ (fun p b => ∃ d, t.FirstDemandsAt e p d ∧ d.name = b.name ∧ d.arity = b.arity)
          places bs) ∧
      ∀ b ∈ bs, b.origin = none ∧ ∃ r, b.restriction = some r ∧ ∀ v, r.check v = none ↔
        ∀ p d, t.DemandsAt e p d → d.name = b.name → d.restriction.check v = none := by
  have hnames : ((t.demands e).map (Demand.binding floor)).map Binding.name =
      (t.demands e).map Demand.name := List.map_map
  intro bs
  rw [hnames]
  refine ⟨Demand.nodup_collect _, fun x => mem_map_name_demands, ?_, fun b hb => ?_⟩
  · obtain ⟨places, hplaces, hfirst⟩ := exists_firstDemands t (e := e)
    exact ⟨places, hplaces, List.forall₂_map_right_iff.2 hfirst⟩
  · obtain ⟨a, ha, rfl⟩ := List.mem_map.1 hb
    exact ⟨rfl, a.restriction, rfl, check_demands he ha⟩

/-- The expression `(near ?z (+ (abs ?x) $?y ?x) (str-length ?y))` for names `x`, `y` and `z` and a function
`near` that is not known. -/
def nearSum : Term Symbol Unit :=
  .call ⟨14⟩ [.var ⟨17⟩ .single (),
    .call ⟨0⟩ [.call ⟨10⟩ [.var ⟨15⟩ .single ()], .var ⟨16⟩ .sequence (), .var ⟨15⟩ .single ()],
    .call ⟨12⟩ [.var ⟨16⟩ .single ()]]

/-- The sum demands something of `y`, as of a sequence, before the call inside it demands something of `x`.
Nothing is demanded of `z`, and `y` cannot be a number since it also has to be a text. -/
theorem nearSum_demands :
    let e := Environment.withBuiltins
    e.Proper ∧ (nearSum.demands e).map (fun d => (d.name, d.arity)) = [(⟨16⟩, .sequence), (⟨15⟩, .single)] ∧
      (∀ x, x ∈ [(⟨16⟩ : Symbol), ⟨15⟩] ↔ ∃ p d, nearSum.DemandsAt e p d ∧ d.name = x) ∧
      ∀ b ∈ (nearSum.demands e).map (Demand.binding 0), b.name = ⟨16⟩ →
        ∃ r, b.restriction = some r ∧ r.check (.integer 1) ≠ none := by
  have hproper : Environment.withBuiltins.Proper := by decide +kernel
  obtain ⟨-, hnames, -, hbindings⟩ := demands_exact hproper nearSum 0
  refine ⟨hproper, by decide +kernel, hnames, fun b hb hname => ?_⟩
  obtain ⟨-, r, hr, hcheck⟩ := hbindings b hb
  refine ⟨r, hr, fun hnone => ?_⟩
  have hlexeme := (hcheck (.integer 1)).1 hnone ⟨[2], 0⟩ ⟨⟨16⟩, .single, .lexeme⟩
    ⟨⟨12⟩, _, (), .ofPositional [some .lexeme], rfl, rfl, by decide +kernel, .inl rfl⟩ hname.symm
  exact absurd hlexeme (by decide +kernel)

end Term

end Antecedent
