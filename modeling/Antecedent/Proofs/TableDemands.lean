import Antecedent.Proofs.ArgumentDemands
import Antecedent.Proofs.TableReading

/-!
# Demands from a node table

What an expression demands of its variables can be found in a node table with a stack of expressions that
are still to be looked at. A call is looked at before the calls inside it, and what it demands of its
arguments is merged into what was found before.

* `DemandSearch.step` looks at the expression on top of the stack, and `DemandSearch.run` at a number of
  them. `DemandSearch.run_eq` says what is found, for any stack.
* `NodeTable.expressionDemands_eq` says that the search of an expression finds `Term.demands`.
* `NodeTable.fieldDemands_eq` says that what is found for a field is `Field.demands`.
-/

namespace Antecedent

theorem Term.sizeAll_append {ν α : Type} (ts us : List (Term ν α)) :
    sizeAll (ts ++ us) = sizeAll ts + sizeAll us := by
  induction ts with
  | nil => simp [sizeAll]
  | cons t ts ih => rw [List.cons_append, sizeAll, sizeAll, ih, Nat.add_assoc]

namespace NodeTable

/-- The nodes are the first ones of these expressions. -/
def HoldsTerms (t : NodeTable) : List Nat → List (Term Symbol Note) → Prop :=
  List.Forall₂ fun id u => ∃ p next, t.Holds id (u.nodes p id next)

section Terms

variable {t : NodeTable}

theorem Holds.length_le {id : Nat} {ns : List Node} (h : t.Holds id ns) (hns : ns ≠ []) :
    id + ns.length ≤ t.size := by
  have hpos := List.length_pos_iff.2 hns
  have hlast := lt_size_of_node? (h (ns.length - 1) _ (List.getElem?_eq_getElem (by omega)))
  rw [size]
  omega

theorem holdsTerms_args {p : Position} {id : Nat} {us : List (Term Symbol Note)}
    (h : t.Holds id (Term.nodesAll p id us)) :
    t.HoldsTerms (t.chain Node.next (linkTo id us)) us := by
  induction us generalizing id with
  | nil => exact .nil
  | cons u us ih =>
    rw [Term.nodesAll] at h
    obtain ⟨hu, hus⟩ := h.split (Term.length_nodes ..)
    obtain ⟨n, hn, hnext⟩ := Holds.term_head hu
    rw [chain_linkTo_cons hn u.size_pos hnext]
    exact .cons ⟨p, _, hu⟩ (ih hus)

end Terms

/-- Merges what a function demands of its arguments, from the one with index `i` on, into what was
found. -/
def addArgDemands (t : NodeTable) (s : Option Signature) :
    Nat → List Nat → List Demand → Except TableFault (List Demand)
  | _, [], ds => return ds
  | i, id :: ids, ds => do
    let n ← t.get id
    t.addArgDemands s (i + 1) ids <|
      match n.asVariable, s.bind fun s => s.arg i with
      | some (x, arity), some r => Demand.insert ds ⟨x, arity, r⟩
      | _, _ => ds

theorem addArgDemands_eq {t : NodeTable} {ids : List Nat} {us : List (Term Symbol Note)}
    (h : t.HoldsTerms ids us) (s : Option Signature) (i : Nat) (ds : List Demand) :
    t.addArgDemands s i ids ds =
      .ok ((s.elim [] fun s => Term.callDemands s i us).foldl Demand.insert ds) := by
  unfold HoldsTerms at h
  induction h generalizing i ds with
  | nil => cases s <;> rfl
  | @cons id u ids us head tail ih =>
    obtain ⟨p, next, hu⟩ := head
    rw [addArgDemands]
    cases u with
    | var x arity n =>
      rw [get_eq_ok (Node.numbered_cons.1 hu).1, ok_bind, ih]
      cases s with
      | none => rfl
      | some s =>
        simp only [Node.asVariable, Option.bind_some, Option.elim_some, Term.callDemands, Term.argDemand]
        cases s.arg i <;> rfl
    | call f args =>
      rw [get_eq_ok (Node.numbered_cons.1 hu).1, ok_bind, ih]
      cases s <;> rfl
    | lit v =>
      rw [get_eq_ok (Node.numbered_cons.1 hu).1, ok_bind, ih]
      cases s <;> rfl
    | global x =>
      rw [get_eq_ok (Node.numbered_cons.1 hu).1, ok_bind, ih]
      cases s <;> rfl

end NodeTable

/-! ## Expressions -/

/-- Where the search for the demands of an expression stands. -/
structure DemandSearch where
  /-- The expressions to look at, the next one first. -/
  pending : List Nat
  found : List Demand

namespace DemandSearch

/-- Looks at the next expression. -/
def step (e : Environment) (t : NodeTable) (s : DemandSearch) : Except TableFault DemandSearch :=
  match s.pending with
  | [] => return s
  | id :: rest => do
    let n ← t.get id
    match n.kind with
    | .call f =>
      let args := t.args id
      return ⟨args ++ rest, ← t.addArgDemands (e.signature? f) 0 args s.found⟩
    | _ => return ⟨rest, s.found⟩

/-- Looks at a number of expressions. -/
def run (e : Environment) (t : NodeTable) : Nat → DemandSearch → Except TableFault DemandSearch
  | 0, s => return s
  | m + 1, s => do run e t m (← s.step e t)

variable {e : Environment} {t : NodeTable}

/-- **One step** puts the arguments of a call on the stack and does not change what is found in the
end. -/
theorem step_eq {ids : List Nat} {u : Term Symbol Note} {us : List (Term Symbol Note)}
    (h : t.HoldsTerms ids (u :: us)) (ds : List Demand) :
    ∃ ids' us' ds', step e t ⟨ids, ds⟩ = .ok ⟨ids', ds'⟩ ∧ t.HoldsTerms ids' us' ∧
      Term.sizeAll us' < Term.sizeAll (u :: us) ∧
      (us'.flatMap (Term.rawDemands e)).foldl Demand.insert ds' =
        ((u :: us).flatMap (Term.rawDemands e)).foldl Demand.insert ds := by
  cases h with
  | @cons id _ ids _ head tail =>
    obtain ⟨p, next, hu⟩ := head
    cases u with
    | call f args =>
      obtain ⟨hn, hargs⟩ := Node.numbered_cons.1 hu
      have hterms := NodeTable.holdsTerms_args hargs
      have hlist : t.args id = t.chain Node.next (linkTo (id + 1) args) := by
        rw [NodeTable.args, hn]
        rfl
      let own := (e.signature? f).elim [] fun s => Term.callDemands s 0 args
      refine ⟨t.args id ++ ids, args ++ us, own.foldl Demand.insert ds, ?_,
        hlist ▸ List.rel_append hterms tail, ?_, ?_⟩
      · simp only [step, NodeTable.get_eq_ok hn, ok_bind, hlist, NodeTable.addArgDemands_eq hterms]
        rfl
      · rw [Term.sizeAll_append, Term.sizeAll, Term.size]
        omega
      · rw [List.flatMap_cons, Term.rawDemands_call, List.append_assoc, ← List.flatMap_append,
          List.foldl_append]
    | var x arity n =>
      refine ⟨ids, us, ds, ?_, tail, by simp [Term.sizeAll, Term.size], rfl⟩
      simp only [step, NodeTable.get_eq_ok (Node.numbered_cons.1 hu).1, ok_bind]
      rfl
    | lit v =>
      refine ⟨ids, us, ds, ?_, tail, by simp [Term.sizeAll, Term.size], rfl⟩
      simp only [step, NodeTable.get_eq_ok (Node.numbered_cons.1 hu).1, ok_bind]
      rfl
    | global x =>
      refine ⟨ids, us, ds, ?_, tail, by simp [Term.sizeAll, Term.size], rfl⟩
      simp only [step, NodeTable.get_eq_ok (Node.numbered_cons.1 hu).1, ok_bind]
      rfl

/-- **What a search finds**, for any expressions on the stack. -/
theorem run_eq {m : Nat} {ids : List Nat} {us : List (Term Symbol Note)} (h : t.HoldsTerms ids us)
    (hm : Term.sizeAll us ≤ m) (ds : List Demand) :
    run e t m ⟨ids, ds⟩ = .ok ⟨[], (us.flatMap (Term.rawDemands e)).foldl Demand.insert ds⟩ := by
  induction m generalizing ids us ds with
  | zero =>
    cases h with
    | nil => rfl
    | @cons id u ids us head tail =>
      have := Term.sizeAll_pos (List.cons_ne_nil u us)
      omega
  | succ m ih =>
    cases us with
    | nil =>
      cases h
      exact ih .nil (Nat.zero_le m) ds
    | cons u us =>
      obtain ⟨ids', us', ds', hstep, hterms, hsize, hfound⟩ := step_eq (e := e) h ds
      rw [run, hstep, ok_bind, ih hterms (by omega), hfound]

end DemandSearch

namespace NodeTable

variable {t : NodeTable} {e : Environment}

/-- What the expression at a node demands of its variables. -/
def expressionDemands (t : NodeTable) (e : Environment) (root : Nat) : Except TableFault (List Demand) := do
  return (← DemandSearch.run e t t.size ⟨[root], []⟩).found

/-- **The stack finds the demands of an expression**, collected in the same order. -/
theorem expressionDemands_eq {u : Term Symbol Note} {p : Position} {root : Nat} {next : Option Nat}
    (h : t.Holds root (u.nodes p root next)) : t.expressionDemands e root = .ok (u.demands e) := by
  have hterms : t.HoldsTerms [root] [u] := .cons ⟨p, next, h⟩ .nil
  have hsize : Term.sizeAll [u] ≤ t.size := by
    have hpos := u.size_pos
    have hle := h.length_le (List.ne_nil_of_length_pos (by rwa [Term.length_nodes]))
    rw [Term.length_nodes] at hle
    rw [Term.sizeAll, Term.sizeAll]
    omega
  rw [expressionDemands, DemandSearch.run_eq hterms hsize, List.flatMap_singleton]
  rfl

/-! ## Fields -/

/-- What the conjunct at a node demands of the variables in it, given what literals beside it demand. -/
def conjunctDemands (t : NodeTable) (e : Environment) (literals : Option Restriction) (id : Nat) :
    Except TableFault (List Demand) := do
  let n ← t.get id
  match n.kind, n.subexpr with
  | .var x arity, _ =>
    return if n.negated then [] else (literals.map fun r => ⟨x, arity, r⟩).toList
  | .predicate, some root => t.expressionDemands e root
  | .returnValue, some root => t.expressionDemands e root
  | _, _ => return []

/-- The restriction to a literal that the conjunct at a node states. -/
def literalAt (t : NodeTable) (id : Nat) : Except TableFault (Option Restriction) := do
  let n ← t.get id
  match n.kind, n.negated with
  | .literal v, false => return some (.ofValues [v])
  | _, _ => return none

/-- What the alternative that starts at a node demands of its variables. -/
def alternativeDemands (t : NodeTable) (e : Environment) (id : Nat) :
    Except TableFault (List Demand) := do
  let literals := Restriction.interAll (← (t.conjuncts id).mapM t.literalAt).reduceOption
  let demands ← (t.conjuncts id).mapM (t.conjunctDemands e literals)
  return Demand.collect demands.flatten

/-- What the field at a node demands of variables, if it has one alternative. -/
def fieldDemands (t : NodeTable) (e : Environment) (id : Nat) : Except TableFault (List Demand) :=
  match t.alternatives id with
  | [a] => t.alternativeDemands e a
  | _ => return []

theorem StandsFor.literalAt_eq {id : Nat} {k : Option (Conjunct Note)} (h : t.StandsFor id k) :
    t.literalAt id = .ok (k.bind fun k => k.constraint.literalRestriction?) := by
  cases h with
  | @literal n p v node place kind =>
    simp only [literalAt, get_eq_ok node, ok_bind, kind]
    cases n.negated <;> rfl
  | var node place kind =>
    simp only [literalAt, get_eq_ok node, ok_bind, kind]
    rfl
  | predicate node place kind subexpr term =>
    simp only [literalAt, get_eq_ok node, ok_bind, kind]
    rfl
  | returnValue node place kind subexpr term =>
    simp only [literalAt, get_eq_ok node, ok_bind, kind]
    rfl
  | wildcard node place kind =>
    simp only [literalAt, get_eq_ok node, ok_bind, kind]
    rfl
  | multislot node place kind =>
    simp only [literalAt, get_eq_ok node, ok_bind, kind]
    rfl

theorem StandsFor.conjunctDemands_eq {id : Nat} {k : Option (Conjunct Note)} (h : t.StandsFor id k)
    (literals : Option Restriction) :
    t.conjunctDemands e literals id = .ok (k.elim [] fun k => k.constraint.demands e literals) := by
  cases h with
  | literal node place kind =>
    simp only [conjunctDemands, get_eq_ok node, ok_bind, kind]
    rfl
  | var node place kind =>
    simp only [conjunctDemands, get_eq_ok node, ok_bind, kind]
    rfl
  | predicate node place kind subexpr term =>
    simp only [conjunctDemands, get_eq_ok node, ok_bind, kind, subexpr, expressionDemands_eq term]
    rfl
  | returnValue node place kind subexpr term =>
    simp only [conjunctDemands, get_eq_ok node, ok_bind, kind, subexpr, expressionDemands_eq term]
    rfl
  | wildcard node place kind =>
    simp only [conjunctDemands, get_eq_ok node, ok_bind, kind]
    rfl
  | multislot node place kind =>
    simp only [conjunctDemands, get_eq_ok node, ok_bind, kind]
    rfl

namespace StandFor

variable {ids : List Nat} {ks : List (Conjunct Note)}

theorem exists_literals (h : t.StandFor ids ks) :
    ∃ rs, ids.mapM t.literalAt = .ok rs ∧
      rs.reduceOption = (ks.map Conjunct.constraint).filterMap Constraint.literalRestriction? := by
  induction h with
  | nil => exact ⟨[], rfl, rfl⟩
  | @cons id ids k ks head tail ih =>
    obtain ⟨rs, hrs, hreduce⟩ := ih
    refine ⟨(k.bind fun k => k.constraint.literalRestriction?) :: rs, ?_, ?_⟩
    · rw [List.mapM_cons, head.literalAt_eq, ok_bind, hrs]
      rfl
    · rw [List.map_append, List.filterMap_append, ← hreduce]
      cases k with
      | none => rfl
      | some k => cases hk : k.constraint.literalRestriction? <;> simp [hk]

theorem exists_demands (h : t.StandFor ids ks) (literals : Option Restriction) :
    ∃ dss, ids.mapM (t.conjunctDemands e literals) = .ok dss ∧
      dss.flatten = (ks.map Conjunct.constraint).flatMap (Constraint.demands e literals) := by
  induction h with
  | nil => exact ⟨[], rfl, rfl⟩
  | @cons id ids k ks head tail ih =>
    obtain ⟨dss, hdss, hflatten⟩ := ih
    refine ⟨(k.elim [] fun k => k.constraint.demands e literals) :: dss, ?_, ?_⟩
    · rw [List.mapM_cons, head.conjunctDemands_eq, ok_bind, hdss]
      rfl
    · rw [List.flatten_cons, hflatten]
      cases k <;> simp

theorem alternativeDemands_eq {id : Nat} (h : t.StandFor (t.conjuncts id) ks) :
    t.alternativeDemands e id = .ok (Demand.ofConjuncts e (ks.map Conjunct.constraint)) := by
  obtain ⟨rs, hrs, hreduce⟩ := h.exists_literals
  obtain ⟨dss, hdss, hflatten⟩ := h.exists_demands (e := e) (Restriction.interAll rs.reduceOption)
  rw [hreduce] at hdss hflatten
  simp only [alternativeDemands, hrs, ok_bind, hreduce, hdss, hflatten]
  rfl

end StandFor

/-- **What is found for a field** is what its only alternative demands. -/
theorem fieldDemands_eq {f : Field Symbol Note} {p : Place} {endDepth id : Nat} {next : Option Nat}
    (h : t.Holds id (f.nodes (p.position endDepth) id next)) :
    t.fieldDemands e id = .ok (Field.demands e (f.conjuncts p.site)) := by
  obtain ⟨n, hn, -⟩ := h.field_head
  have hlist : t.alternatives id = t.chain Node.child n.child := by
    rw [alternatives, hn]
    rfl
  have hlists := lists_field f h hn
  rw [Lists, ← hlist] at hlists
  rw [fieldDemands]
  generalize t.alternatives id = ids at hlists
  generalize f.conjuncts p.site = as at hlists
  cases hlists with
  | nil => rfl
  | cons head tail =>
    cases tail with
    | nil => exact head.alternativeDemands_eq
    | cons head' tail => rfl

end NodeTable

end Antecedent
