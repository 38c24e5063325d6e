import Antecedent.Proofs.ScopePlaces
import Antecedent.Proofs.TableCompiler

/-!
# Fields in a node table

The fields of a pattern are compiled in a node table as they are compiled outside of it, if their nodes have
noted what they find in scope.

* `NodeTable.Step` says what a part of a pattern does to the table. The nodes of the part get their notes, the
  nodes that see its bindings receive them, and the pattern gets its share in the joins. All other nodes stay
  as they are.
* `NodeTable.Step.append` puts two parts together. The second one sees the bindings of the first one.
* `NodeTable.visitField_refines` is about one field, `NodeTable.visitParts_refines` about the parts of a slot,
  `NodeTable.visitSlot_refines` about a slot and `NodeTable.visitSlots_refines` about all slots of a pattern.
  In each of them `t₀` is the table of the left-hand side, and `t` differs from it in notes only.
-/

namespace Antecedent

open Halt (check look)
open Set (Ico)

theorem Node.contribute_contribute (join deferred join' deferred' : JoinOutput) (n : Node) :
    (n.contribute join deferred).contribute join' deferred' =
      n.contribute (join ++ join') (deferred ++ deferred') := by
  simp only [contribute, withOut, JoinOutput.append_assoc]

theorem Node.contribute_empty (n : Node) : n.contribute {} {} = n := by
  simp only [contribute, withOut, JoinOutput.append_empty]

namespace NodeTable

theorem alike_modify (t : NodeTable) (id : Nat) {f : Node → Node} (hf : ∀ n, (f n).bare = n.bare) :
    (t.modify id f).Alike t where
  first_eq := rfl
  node?_eq j := by
    rw [node?_modify]
    split
    · rw [Option.map_map]
      exact congrArg (Option.map · _) (funext hf)
    · rfl

theorem alike_record (t : NodeTable) (head id : Nat) (out : Outputs) : (t.record head id out).Alike t :=
  (alike_modify _ head (f := Node.contribute out.join out.deferred) fun _ => rfl).trans
    (t.alike_modify id (f := Node.withOut { candidate := out.candidate, lookup := out.lookup }) fun _ => rfl)

/-- The links of the table make it a tree, and its nodes are regular. -/
structure WellFormed (t : NodeTable) : Prop where
  isTree : t.IsTree
  regular {j : Nat} {n : Node} (hn : t.node? j = some n) : n.Regular

theorem Holds.regular {t : NodeTable} (ht : t.WellFormed) {id : Nat} {ns : List Node} (h : t.Holds id ns) :
    ∀ n ∈ ns, n.Regular := by
  intro n hn
  obtain ⟨i, hi⟩ := List.getElem?_of_mem hn
  exact ht.regular (h i n hi)

/-! ## Steps -/

/-- What compiling a part of a pattern does to a table. The nodes of the part, from number `id` on, become
`ns`. The bindings that it makes are received by the nodes in `A`, and the pattern gets its share in the
joins. -/
structure Step (head id : Nat) (A : Set Nat) (bs : List Binding) (ns : List Node)
    (join deferred : JoinOutput) (t t' : NodeTable) : Prop where
  alike : t'.Alike t
  holds : t'.Holds id ns
  head_eq : t'.node? head = (t.node? head).map (Node.contribute join deferred)
  ahead {j : Nat} (hj : j ∈ A) : t'.node? j = (t.node? j).map (Node.receiveAll bs)
  other {j : Nat} (hhead : j ≠ head) (hA : j ∉ A) (hid : j ∉ Ico id (id + ns.length)) :
    t'.node? j = t.node? j

/-- The pattern comes before its parts, and what sees their bindings comes after them. -/
structure Apart (head id size : Nat) (A : Set Nat) : Prop where
  head_lt : head < id
  head_notMem : head ∉ A
  disjoint : Disjoint (Ico id (id + size)) A

namespace Apart

variable {head id m n : Nat} {A : Set Nat}

/-- What sees the bindings of a part is the rest, and what sees the bindings of the rest. -/
theorem front (h : Apart head id (m + n) A) : Apart head id m (Ico (id + m) (id + m + n) ∪ A) where
  head_lt := h.head_lt
  head_notMem hmem := by
    have hlt := h.head_lt
    exact hmem.elim (fun hmem => by have := hmem.1; omega) h.head_notMem
  disjoint := by
    rw [Set.disjoint_union_right, Set.disjoint_left]
    refine ⟨fun j hj hj' => by have := hj.2; have := hj'.1; omega, ?_⟩
    exact h.disjoint.mono_left (Set.Ico_subset_Ico_right (by omega))

theorem rest (h : Apart head id (m + n) A) : Apart head (id + m) n A where
  head_lt := by have := h.head_lt; omega
  head_notMem := h.head_notMem
  disjoint := h.disjoint.mono_left (Set.Ico_subset_Ico (by omega) (by omega))

end Apart

namespace Step

variable {head id : Nat} {A : Set Nat} {bs bs' : List Binding} {ns ms : List Node}
  {join join' deferred deferred' : JoinOutput} {t t₁ t' : NodeTable}

theorem refl (h : t.Holds id ns) (head : Nat) (A : Set Nat) : Step head id A [] ns {} {} t t := by
  refine ⟨.refl t, h, ?_, fun {j} _ => ?_, fun _ _ _ => rfl⟩
  · cases t.node? head with
    | none => rfl
    | some n => rw [Option.map_some, n.contribute_empty]
  · cases t.node? j <;> rfl

/-- A step can begin with bindings that are received inside the part. -/
theorem of_receives {S : Set Nat} (h : Receives bs' S t t₁) (hS : S ⊆ Ico id (id + ns.length))
    (h' : Step head id A bs ns join deferred t₁ t') (hapart : Apart head id ns.length A) :
    Step head id A bs ns join deferred t t' where
  alike := h'.alike.trans h.alike
  holds := h'.holds
  head_eq := by
    have hhead : head ∉ S := fun hmem => Nat.not_le.2 hapart.head_lt (hS hmem).1
    rw [h'.head_eq, h.outside hhead]
  ahead hj := by
    rw [h'.ahead hj, h.outside fun hmem => Set.disjoint_left.1 hapart.disjoint (hS hmem) hj]
  other hhead hA hid := by
    rw [h'.other hhead hA hid, h.outside fun hmem => hid (hS hmem)]

/-- A step can end with more bindings. -/
theorem receives (h : Step head id A bs ns join deferred t t₁) (h' : Receives bs' A t₁ t')
    (hapart : Apart head id ns.length A) :
    Step head id A (bs ++ bs') ns join deferred t t' where
  alike := h'.alike.trans h.alike
  holds := h'.holds_outside hapart.disjoint h.holds
  head_eq := (h'.outside hapart.head_notMem).trans h.head_eq
  ahead hj := by
    rw [h'.inside hj, h.ahead hj, Node.map_receiveAll]
  other hhead hA hid := (h'.outside hA).trans (h.other hhead hA hid)

/-- **Two parts one after the other.** The second one sees the bindings of the first one, and what sees the
bindings of the second one sees both. -/
theorem append {m n : Nat} (hns : ns.length = m) (hms : ms.length = n)
    (h : Step head id (Ico (id + m) (id + m + n) ∪ A) bs ns join deferred t t₁)
    (h' : Step head (id + m) A bs' ms join' deferred' t₁ t') (hapart : Apart head id (m + n) A) :
    Step head id A (bs ++ bs') (ns ++ ms) (join ++ join') (deferred ++ deferred') t t' := by
  subst hns hms
  have hlt := hapart.head_lt
  refine ⟨h'.alike.trans h.alike, ?_, ?_, fun {j} hj => ?_, fun {j} hhead hA hid => ?_⟩
  · -- the second part leaves the nodes of the first one as they are
    refine Node.numbered_append.2 ⟨h.holds.congr fun j hj hj' => ?_, h'.holds⟩
    exact h'.other (by omega)
      (Set.disjoint_left.1 hapart.disjoint ⟨hj, by omega⟩) fun hmem => by have := hmem.1; omega
  · rw [h'.head_eq, h.head_eq, Option.map_map]
    exact congrArg (Option.map · _) (funext (Node.contribute_contribute join deferred join' deferred'))
  · rw [h'.ahead hj, h.ahead (.inr hj), Node.map_receiveAll]
  · rw [List.length_append] at hid
    rw [h'.other hhead hA fun hmem => hid ⟨by have := hmem.1; omega, by have := hmem.2; omega⟩]
    refine h.other hhead (fun hmem => ?_) fun hmem => hid ⟨hmem.1, by have := hmem.2; omega⟩
    exact hmem.elim (fun hmem => hid ⟨by have := hmem.1; omega, by have := hmem.2; omega⟩) hA

end Step

end NodeTable

/-! ## Fields -/

theorem Demand.floor_of_mem {floor : Nat} {ds : List Demand} {b : Binding}
    (h : b ∈ ds.map (Demand.binding floor)) : b.floor = floor := by
  obtain ⟨d, -, rfl⟩ := List.mem_map.1 h
  rfl

theorem Place.viewpoint_position (p : Place) (endDepth : Nat) :
    (p.position endDepth).viewpoint = p.viewpoint := rfl

namespace FieldAt

/-- The bindings that the demands of a field amount to. -/
def demanded (c : Context) (σ : Scope) (x : FieldAt Note) : List Binding :=
  (Field.demands c.env (x.alternatives σ)).map (Demand.binding x.place.beginDepth)

/-- What is checked between the two times that a field's own variable is permitted. -/
def process (c : Context) (σ : Scope) (ahead : List Occurrence) (x : FieldAt Note) :
    Except Diagnostic (List (List (Conjunct Origin))) := do
  (x.demanded c σ).forM (c.permit ahead)
  let restriction := (x.noted σ).note.restriction
  let bound ← Conjunct.bindAll c x.place.spot (restriction.getD .any) (x.alternatives σ)
  Conjunct.checkSatisfiable c x.place.spot (x.field.binds?.map Prod.fst) restriction (x.alternatives σ)
  return bound

theorem bindings_outcome (c : Context) (σ : Scope) (x : FieldAt Note)
    (bound : List (List (Conjunct Origin))) :
    (x.outcome c σ bound).bindings = x.demanded c σ ++ (x.own σ).toList := rfl

theorem Compiles.floor_of_mem {c : Context} {σ : Scope} {x : FieldAt Note} {v : Visited (Field Symbol Note)}
    (h : x.Compiles c σ v) {b : Binding} (hb : b ∈ v.bindings) : b.floor = x.place.beginDepth := by
  obtain ⟨bound, -, rfl⟩ := h
  rcases List.mem_append.1 hb with hb | hb
  · exact Demand.floor_of_mem hb
  · obtain ⟨y, -, rfl⟩ := Option.map_eq_some_iff.1 (Option.mem_toList.1 hb)
    rfl

theorem length_nodes_outcome {c : Context} (σ : Scope) (x : FieldAt Note)
    (bound : List (List (Conjunct Origin))) (p : Position) (next : Option Nat) :
    ((x.outcome c σ bound).result.nodes p x.id next).length = x.field.size := by
  rw [Field.length_nodes]
  exact Field.size_eq_of_bare (by simp [outcome, noted])

theorem visit_eq (c : Context) (σ : Scope) (ahead : List Occurrence) (x : FieldAt Note) :
    x.field.visit c x.place x.id σ ahead = do
      (x.own σ).forM (c.permit (x.field.inside x.place.spot))
      let bound ← x.process c σ ahead
      (x.own σ).forM (c.permit ahead)
      return x.outcome c σ bound := by
  simp only [process, bind_assoc, pure_bind]
  rfl

end FieldAt

namespace NodeTable

section Fields

variable {t₀ t : NodeTable} {c : Context} {σ : Scope} {x : FieldAt Note} {head endDepth : Nat}
  {slot next : Option Nat} {ahead : List Occurrence} {A : Set Nat}

/-- Recording the tests of a field completes a step. -/
theorem step_record {id : Nat} {bs : List Binding} {t₁ : NodeTable} {g : Field Symbol Note} {p : Position}
    (h : Receives bs A t t₁) (hapart : Apart head id g.size A) (ht₁ : t₁.Holds id (g.nodes p id next))
    (out : Outputs) :
    Step head id A bs
      ((g.withNote { g.note with out := { candidate := out.candidate, lookup := out.lookup } }).nodes
        p id next) out.join out.deferred t (t₁.record head id out) := by
  obtain ⟨n, ms, hnodes, hhead, hnote⟩ := g.exists_nodes_eq p id next
  have hlength : ms.length + 1 = g.size := by rw [← g.length_nodes p id next, hnodes, List.length_cons]
  have hlt := hapart.head_lt
  have hrecord {j : Nat} (hj : j ≠ head) (hid : j ≠ id) :
      (t₁.record head id out).node? j = t₁.node? j := by
    rw [record, node?_modify_of_ne hj.symm, node?_modify_of_ne hid.symm]
  rw [hnote, ← hhead.note_eq]
  rw [hnodes] at ht₁
  refine ⟨?_, ?_, ?_, fun {j} hj => ?_, fun {j} hj hA hid => ?_⟩
  · exact (t₁.alike_record head id out).trans h.alike
  · exact (ht₁.modify_head _).congr fun j hj _ => node?_modify_of_ne (by omega) _
  · rw [record, node?_modify, if_pos rfl, node?_modify_of_ne (by omega), h.outside hapart.head_notMem]
  · have hid : j ≠ id := by
      rintro rfl
      exact Set.disjoint_left.1 hapart.disjoint ⟨Nat.le_refl j, by omega⟩ hj
    rw [hrecord (fun hj' => hapart.head_notMem (hj' ▸ hj)) hid, h.inside hj]
  · rw [List.length_cons, hlength] at hid
    rw [hrecord hj fun hj' => hid ⟨by omega, by omega⟩, h.outside hA]

/-- **Processing a field** that knows what it finds in scope. -/
theorem processField_refines (halike : t.Alike t₀) (hσ : σ.PlacedIn t₀)
    (hahead : t₀.Propagates c head slot x.id x.place.beginDepth ahead A)
    (hapart : Apart head x.id x.field.size A)
    (ht : t.Holds x.id ((x.noted σ).nodes (x.place.position endDepth) x.id next)) :
    Refines (fun bound t' => Step head x.id A (x.demanded c σ)
        ((x.outcome c σ bound).result.nodes (x.place.position endDepth) x.id next)
        (x.outcome c σ bound).join (x.outcome c σ bound).deferred t t')
      (x.process c σ ahead) (t.processField c head slot x.id) := by
  have hsize : (x.noted σ).size = x.field.size := Field.size_resolve ..
  have hplace : t₀.Places ⟨x.id, x.place⟩ := by
    obtain ⟨n, hn, hhead⟩ := ht.field_head
    refine halike.symm.places ?_
    rw [Places, placeAt_eq hn, hhead.position_eq, Place.place_position]
  have hown : Scope.PlacedIn t₀ (σ ++ (x.own σ).toList) := by
    refine hσ.append fun o ho => ?_
    rw [FieldAt.eq_of_mem_own ho]
    exact hplace
  refine .look_bind (halike.places hplace) (.look_bind (fieldDemands_eq ht) ?_)
  refine (hahead.foldlM halike fun b hb => Demand.floor_of_mem hb).bind fun _ t₁ _ hreceives => ?_
  have ht₁ : t₁.Holds x.id ((x.noted σ).nodes (x.place.position endDepth) x.id next) := by
    refine hreceives.holds_outside ?_ ht
    rw [Field.length_nodes, hsize]
    exact hapart.disjoint
  have hplaces {o : Origin} (ho : t₀.Places o) : t₁.Places o := (hreceives.alike.trans halike).places ho
  obtain ⟨n, hn, hhead⟩ := ht₁.field_head
  have hbinds : n.asVariable = x.field.binds? := by
    rw [hhead.asVariable_eq]
    exact Field.binds?_eq_of_bare (Field.bare_resolve ..)
  refine .look_bind (get_eq_ok hn) ?_
  have has : t₁.alternativesAt pure x.id = .ok (x.alternatives σ) := by
    rw [alternativesAt_eq ht₁, Conjunct.traverseAll_pure]
    rfl
  refine .look_bind has ?_
  rw [hbinds, hhead.note_eq]
  refine .check_bind fun bound hbound => .check_bind fun _ _ => ?_
  have hout := fieldOutputs_eq ht₁ FieldAt.origin_noted_of_binds?
    (fun o ho => hplaces (hσ o (FieldAt.origin_mem ho))) (Conjunct.forall₂_of_bindAll hbound)
    fun ks hks k hk n hn o ho => hplaces (hown o (FieldAt.reference_mem hks hk hn ho))
  refine .look_bind hout (.pure ?_)
  exact step_record hreceives (hsize ▸ hapart) ht₁ _

/-- A field that binds nothing finds in scope what all its nodes find. -/
theorem holds_noted_of_own (hown : x.own σ = none)
    (ht : t.Holds x.id ((x.field.nodes (x.place.position endDepth) x.id next).map (Node.resolved σ))) :
    t.Holds x.id ((x.noted σ).nodes (x.place.position endDepth) x.id next) := by
  rw [FieldAt.noted, hown, Option.toList_none, List.append_nil,
    Field.nodes_resolve x.field (x.place.viewpoint_position endDepth)]
  exact ht

theorem exists_plain_of_own {own : Binding} (hown : x.own σ = some own) :
    ∃ y arity as declared note, x.field = .plain (.var y arity) as declared note ∧
      own = ⟨y, arity, some ⟨x.id, x.place⟩, σ.restriction? y declared, x.place.beginDepth⟩ := by
  obtain ⟨p, id, f⟩ := x
  cases f with
  | multi ps as declared note => cases hown
  | plain b as declared note =>
    cases b with
    | wildcard arity => cases hown
    | var y arity => exact ⟨y, arity, as, declared, note, rfl, (Option.some.inj hown).symm⟩

/-- A field that binds a variable first makes its binding known inside it. -/
theorem exists_visitField_eq (c : Context) (head : Nat) (slot : Option Nat) {own : Binding}
    (hown : x.own σ = some own)
    (ht : t.Holds x.id ((x.field.nodes (x.place.position endDepth) x.id next).map (Node.resolved σ))) :
    ∃ n, t.node? x.id = some n ∧ t.visitField c head slot x.id =
      (pendingAt n.child false).foldlM (spread c own) t >>= fun t₁ =>
        t₁.processField c head slot x.id >>= fun t₂ => t₂.propagate c head slot x.id own := by
  obtain ⟨y, arity, as, declared, note, hfield, rfl⟩ := exists_plain_of_own hown
  rw [hfield] at ht
  obtain ⟨hn, -⟩ := Node.numbered_cons.1 ht
  refine ⟨_, hn, ?_⟩
  rw [visitField, get_eq_ok hn, Halt.look_ok, ok_bind]
  show (look (t.placeAt x.id) >>= fun p => _) = _
  rw [placeAt_eq hn]
  rfl

/-- Inside a field that binds a variable, the nodes then find the binding. -/
theorem holds_noted_of_receives {own : Binding} {t' : NodeTable} (h₀ : t₀.WellFormed)
    (hown : x.own σ = some own)
    (hfield : t₀.Holds x.id (x.field.nodes (x.place.position endDepth) x.id next))
    (ht : t.Holds x.id ((x.field.nodes (x.place.position endDepth) x.id next).map (Node.resolved σ)))
    (h : Receives [own] (Ico (x.id + 1) (x.id + x.field.size)) t t') :
    t'.Holds x.id ((x.noted σ).nodes (x.place.position endDepth) x.id next) := by
  rw [FieldAt.noted, hown, Option.toList_some]
  obtain ⟨y, arity, as, declared, note, hplain, -⟩ := exists_plain_of_own hown
  obtain ⟨m, ms, hnodes, hresolve⟩ := Field.nodes_resolve_plain σ (σ ++ [own]) (.var y arity) as
    declared note (x.place.viewpoint_position endDepth) x.id next
  rw [← hplain] at hnodes hresolve
  have hlength : ms.length + 1 = x.field.size := by
    rw [← x.field.length_nodes (x.place.position endDepth) x.id next, hnodes, List.length_cons]
  rw [hnodes] at hfield ht
  rw [hresolve]
  obtain ⟨hm, hms⟩ := Node.numbered_cons.1 ht
  refine Node.numbered_cons.2 ⟨(h.outside fun hid => Nat.lt_irrefl x.id hid.1).trans hm, ?_⟩
  refine Holds.receiveAll hms (hfield.regular h₀ · <| List.mem_cons_of_mem m ·) fun j hj => h.inside ?_
  exact ⟨hj.1, by have := hj.2; omega⟩

/-- **Compiling a field** whose nodes know what they find in scope. -/
theorem visitField_refines (h₀ : t₀.WellFormed) (halike : t.Alike t₀) (hσ : σ.PlacedIn t₀)
    (hahead : t₀.Propagates c head slot x.id x.place.beginDepth ahead A)
    (hapart : Apart head x.id x.field.size A)
    (hfield : t₀.Holds x.id (x.field.nodes (x.place.position endDepth) x.id next))
    (ht : t.Holds x.id ((x.field.nodes (x.place.position endDepth) x.id next).map (Node.resolved σ))) :
    Refines (fun v t' => Step head x.id A v.bindings
        (v.result.nodes (x.place.position endDepth) x.id next) v.join v.deferred t t')
      (x.field.visit c x.place x.id σ ahead) (t.visitField c head slot x.id) := by
  rw [FieldAt.visit_eq]
  cases hown : x.own σ with
  | none =>
    have hnoted := holds_noted_of_own hown ht
    have hprocess := processField_refines halike hσ hahead hapart hnoted
    obtain ⟨n, hn, hhead⟩ := hnoted.field_head
    have hvariable : n.asVariable = none := by
      rw [hhead.asVariable_eq, FieldAt.noted, Field.binds?_eq_of_bare (Field.bare_resolve ..)]
      exact Option.map_eq_none_iff.1 hown
    refine .look_bind (get_eq_ok hn) ?_
    rw [hvariable, ← bind_pure (t.processField c head slot x.id)]
    refine hprocess.bind fun bound t' _ hstep => .pure ?_
    rw [FieldAt.bindings_outcome, hown, Option.toList_none, List.append_nil]
    exact hstep
  | some own =>
    obtain ⟨n, hn, hvisit⟩ := exists_visitField_eq c head slot hown ht
    obtain ⟨m, hm, -⟩ := hfield.field_head
    have hchild : n.child = m.child := by
      obtain ⟨n', hn', hbare⟩ := halike.exists_node hm
      rw [hn] at hn'
      rw [Option.some.inj hn']
      show n'.bare.child = m.bare.child
      rw [hbare]
    have hpasses : t₀.Passes x.place.beginDepth _ _ _ := x.field.passes_inside hfield hm
    have hinside := spreads_of_passes (c := c) h₀.isTree hpasses
    have hfloor : own.floor = x.place.beginDepth := by
      obtain ⟨-, -, -, -, -, -, rfl⟩ := exists_plain_of_own hown
      rfl
    -- the binding is received inside the field, then what it demands and at last the binding ahead of it
    rw [hvisit, hchild]
    refine (hinside t own halike hfloor).bind fun _ t₁ _ hreceives => ?_
    have halike₁ := hreceives.alike.trans halike
    have hprocess := processField_refines halike₁ hσ hahead hapart
      (holds_noted_of_receives h₀ hown hfield ht hreceives)
    refine hprocess.bind fun bound t₂ _ hstep => ?_
    rw [← bind_pure (t₂.propagate c head slot x.id own)]
    refine (hahead t₂ own (hstep.alike.trans halike₁) hfloor).bind fun _ t' _ hreceives' => .pure ?_
    have hlength := x.length_nodes_outcome (c := c) σ bound (x.place.position endDepth) next
    rw [FieldAt.bindings_outcome, hown, Option.toList_some]
    refine .of_receives hreceives (fun j hj => ?_) (hstep.receives hreceives' ?_) ?_
    · rw [hlength]
      exact ⟨by have := hj.1; omega, hj.2⟩
    · rwa [hlength]
    · rwa [hlength]

end Fields

/-! ## Slots -/

section Slots

variable {t₀ t : NodeTable} {c : Context} {σ : Scope} {p : Place} {head endDepth : Nat}
  {slotsAhead beyond : List Occurrence} {S B : Set Nat} {h : Node}

theorem propagates_field {id floor : Nat} {n : Node} {os : List Occurrence}
    (hn : t₀.node? id = some n) (hhead : t₀.node? head = some h)
    (hnext : t₀.Spreads c floor (pendingAt n.next false) os S)
    (hbeyond : t₀.Spreads c floor h.beyond beyond B) (hdisjoint : Disjoint S B) :
    t₀.Propagates c head none id floor (os ++ beyond) (S ∪ B) := by
  refine propagates_of_spreads ?_ (hnext.append hbeyond hdisjoint)
  rw [starts, get_eq_ok hn, get_eq_ok hhead]
  rfl

theorem propagates_part {slot id floor : Nat} {s n : Node} {os : List Occurrence} {P : Set Nat}
    (hs : t₀.node? slot = some s) (hn : t₀.node? id = some n) (hhead : t₀.node? head = some h)
    (hslots : t₀.Spreads c floor (pendingAt s.next false) slotsAhead S)
    (hnext : t₀.Spreads c floor (pendingAt n.next false) os P)
    (hbeyond : t₀.Spreads c floor h.beyond beyond B) (hSB : Disjoint S B) (hP : Disjoint P (S ∪ B)) :
    t₀.Propagates c head (some slot) id floor (slotsAhead ++ os ++ beyond) (P ∪ (S ∪ B)) := by
  rw [Set.disjoint_union_right] at hP
  rw [← Set.union_assoc, Set.union_comm P S]
  refine propagates_of_spreads ?_
    ((hslots.append hnext hP.1.symm).append hbeyond (Set.disjoint_union_left.2 ⟨hSB, hP.2⟩))
  rw [starts, Option.mapM_some, get_eq_ok hs, get_eq_ok hn, get_eq_ok hhead]
  rfl

/-- **Compiling the parts of a slot** one after the other. -/
theorem visitParts_refines (h₀ : t₀.WellFormed) {slot : Nat} {s : Node} (hs : t₀.node? slot = some s)
    (hhead : t₀.node? head = some h)
    (hslots : t₀.Spreads c p.beginDepth (pendingAt s.next false) slotsAhead S)
    (hbeyond : t₀.Spreads c p.beginDepth h.beyond beyond B) (hSB : Disjoint S B)
    {fs : List (Field Symbol Note)} {k id : Nat} (hapart : Apart head id (Field.sizeAll fs) (S ∪ B))
    (hparts : t₀.Holds id (Field.nodesAll (p.position endDepth) id k fs)) (halike : t.Alike t₀)
    (hσ : σ.PlacedIn t₀)
    (ht : t.Holds id ((Field.nodesAll (p.position endDepth) id k fs).map (Node.resolved σ))) :
    Refines (fun vs t' => Step head id (S ∪ B) (Visited.allBindings vs)
          (Field.nodesAll (p.position endDepth) id k (vs.map Visited.result)) (Visited.allJoin vs)
          (Visited.allDeferred vs) t t' ∧
        vs.length = fs.length ∧ Field.sizeAll (vs.map Visited.result) = Field.sizeAll fs)
      (Field.visitParts c p slotsAhead beyond k id σ fs)
      ((numbers Field.size id fs).foldlM (visitField c head (some slot)) t) := by
  induction fs generalizing k id σ t with
  | nil => exact .pure ⟨.refl (Node.numbered_nil id) head _, rfl, rfl⟩
  | cons f fs ih =>
    let x : FieldAt Note := ⟨{ p with site := p.site.part f k }, id, f⟩
    rw [Field.nodesAll] at hparts ht
    rw [List.map_append] at ht
    obtain ⟨hf₀, hfs₀⟩ := hparts.split (Field.length_nodes ..)
    obtain ⟨hf, hfs⟩ := ht.split ((List.length_map ..).trans (Field.length_nodes ..))
    rw [Field.sizeAll] at hapart
    obtain ⟨n, hn, hnode⟩ := hf₀.field_head
    have hnext : t₀.Spreads c p.beginDepth (pendingAt n.next false) (Field.occurrencesAll p.spot fs)
        (Ico (id + f.size) (id + f.size + Field.sizeAll fs)) := by
      rw [hnode.next_eq]
      exact spreads_of_passes h₀.isTree (Field.passes_nodesAll fs hfs₀)
    have hahead := propagates_part hs hn hhead hslots hnext hbeyond hSB hapart.rest.disjoint
    have hvisit : Refines _ (f.visit c x.place id σ _) (t.visitField c head (some slot) id) :=
      visitField_refines (x := x) h₀ halike hσ hahead hapart.front hf₀ hf
    rw [Field.visitParts, numbers, List.foldlM_cons]
    refine hvisit.bind fun v t₁ hv hstep => ?_
    have hcompiles : x.Compiles c σ v := FieldAt.compiles_of_visit hv
    have hsize : v.result.size = f.size := Field.size_eq_of_bare hcompiles.bare_result
    have hsegment : v.result.segment k = f.segment k := by
      rw [Field.segment, Field.segment, Field.arity_eq_of_bare hcompiles.bare_result]
    have hbindings := hcompiles.placedIn (t := t₀) ⟨endDepth, _, hf₀⟩
    -- the parts after this one now find its bindings too, which is what their visit asks for
    have hfs₁ := hfs.receiveAll (hfs₀.regular h₀) fun j hj => hstep.ahead (.inl (by
      rwa [Field.length_nodesAll] at hj))
    have hrest := ih hapart.rest hfs₀ (hstep.alike.trans halike) (hσ.append hbindings) hfs₁
    rw [← bind_pure (List.foldlM ..)]
    refine hrest.bind fun vs t' _ h => .pure ?_
    obtain ⟨hstep', hlength, hsizes⟩ := h
    refine ⟨?_, congrArg Nat.succ hlength, ?_⟩
    · rw [List.map_cons, Field.nodesAll, hsize, hsegment,
        linkTo_eq_of_length ((List.length_map ..).trans hlength)]
      exact hstep.append ((Field.length_nodes ..).trans hsize) ((Field.length_nodesAll ..).trans hsizes)
        hstep' hapart
    · rw [List.map_cons, Field.sizeAll, Field.sizeAll, hsize, hsizes]

/-- The parts of a slot are found along their links. -/
theorem parts_eq {ps : List (Field Symbol Note)} {as : List (Alternative Symbol Note)}
    {declared : Option Restriction} {note : Note} {q : Position} {id : Nat} {next : Option Nat}
    (hs : t₀.Holds id (Field.nodes q id next (.multi ps as declared note))) (halike : t.Alike t₀) :
    t.parts id = numbers Field.size (id + 1) ps := by
  obtain ⟨hn, hps⟩ := Node.numbered_cons.1 hs
  obtain ⟨m, hm, hbare⟩ := halike.exists_node hn
  rw [parts, hm, halike.chain_eq (fun _ => rfl), ← chain_parts hps]
  exact congrArg _ (congrArg Node.child hbare)

/-- **Compiling a slot** whose nodes know what they find in scope. -/
theorem visitSlot_refines (h₀ : t₀.WellFormed) (hhead : t₀.node? head = some h)
    {s : Slot Symbol Note} {id : Nat} {next : Option Nat}
    (hslots : t₀.Spreads c p.beginDepth (pendingAt next false) slotsAhead S)
    (hbeyond : t₀.Spreads c p.beginDepth h.beyond beyond B) (hSB : Disjoint S B)
    (hapart : Apart head id s.field.size (S ∪ B))
    (hs : t₀.Holds id (s.field.nodes (p.position endDepth) id next)) (halike : t.Alike t₀)
    (hσ : σ.PlacedIn t₀)
    (ht : t.Holds id ((s.field.nodes (p.position endDepth) id next).map (Node.resolved σ))) :
    Refines (fun v t' => Step head id (S ∪ B) v.bindings
          (v.result.field.nodes (p.position endDepth) id next) v.join v.deferred t t' ∧
        v.result.name = s.name ∧ v.result.field.size = s.field.size)
      (s.visit c p id σ slotsAhead beyond) (t.visitSlot c head id) := by
  obtain ⟨name, f⟩ := s
  obtain ⟨m, hm, hnode⟩ := Holds.field_head hs
  cases f with
  | plain b as declared note =>
    let x : FieldAt Note := ⟨p, id, .plain b as declared note⟩
    have hahead := propagates_field hm hhead (hnode.next_eq ▸ hslots) hbeyond hSB
    have hvisit := visitField_refines (x := x) h₀ halike hσ hahead hapart hs ht
    have hslot : t.visitSlot c head id = t.visitField c head none id := by
      rw [visitSlot, get_eq_ok (Node.numbered_cons.1 ht).1]
      cases b <;> rfl
    rw [hslot, ← bind_pure (visitField ..)]
    refine hvisit.bind fun v t' hv hstep => .pure ⟨hstep, rfl, ?_⟩
    exact Field.size_eq_of_bare (FieldAt.compiles_of_visit (x := x) hv).bare_result
  | multi ps as declared note =>
    obtain ⟨hn₀, hps₀⟩ := Node.numbered_cons.1 hs
    obtain ⟨hn, hps⟩ := Node.numbered_cons.1 ht
    have hparts := visitParts_refines h₀ hn₀ hhead hslots hbeyond hSB hapart.rest hps₀ halike hσ hps
    have hslot : t.visitSlot c head id =
        (numbers Field.size (id + 1) ps).foldlM (visitField c head (some id)) t := by
      rw [visitSlot, get_eq_ok hn, ← parts_eq hs halike]
      rfl
    rw [hslot, ← bind_pure (List.foldlM ..)]
    refine hparts.bind fun vs t' _ h => .pure ?_
    obtain ⟨hstep, hlength, hsizes⟩ := h
    refine ⟨?_, rfl, by rw [Field.size, Field.size, hsizes]⟩
    have hfront : t.Holds id [_] := Node.numbered_cons.2 ⟨hn, Node.numbered_nil _⟩
    have happend :=
      Step.append rfl ((Field.length_nodesAll ..).trans hsizes) (.refl hfront head _) hstep hapart
    rw [JoinOutput.empty_append, JoinOutput.empty_append] at happend
    rw [Field.nodes, linkTo_eq_of_length ((List.length_map ..).trans hlength)]
    exact happend

theorem placedIn_of_visitSlot {s : Slot Symbol Note} {id : Nat} {v : Visited (Slot Symbol Note)}
    (h : s.visit c p id σ slotsAhead beyond = .ok v) (hs : t₀.Shows ⟨p, id, s.field⟩) :
    Scope.PlacedIn t₀ v.bindings := by
  obtain ⟨ts, hrun, hsource, -, hbindings, -⟩ := Slot.exists_run_of_visit h
  rw [hbindings]
  exact hrun.placedIn (hsource ▸ hs.fieldsAt)

/-- **Compiling the slots of a pattern** one after the other. -/
theorem visitSlots_refines (h₀ : t₀.WellFormed) (hhead : t₀.node? head = some h)
    (hbeyond : t₀.Spreads c p.beginDepth h.beyond beyond B) {ss : List (Slot Symbol Note)} {j id : Nat}
    (hapart : Apart head id (totalSize (fun s => s.field.size) ss) B)
    (hslots : t₀.Holds id (Slot.nodesAll (p.position endDepth) id j ss)) (halike : t.Alike t₀)
    (hσ : σ.PlacedIn t₀)
    (ht : t.Holds id ((Slot.nodesAll (p.position endDepth) id j ss).map (Node.resolved σ))) :
    Refines (fun vs t' => Step head id B (Visited.allBindings vs)
          (Slot.nodesAll (p.position endDepth) id j (vs.map Visited.result)) (Visited.allJoin vs)
          (Visited.allDeferred vs) t t' ∧
        vs.length = ss.length ∧
        totalSize (fun s => s.field.size) (vs.map Visited.result) = totalSize (fun s => s.field.size) ss)
      (Slot.visitAll c p beyond j id σ ss)
      ((numbers (fun s => s.field.size) id ss).foldlM (visitSlot c head) t) := by
  induction ss generalizing j id σ t with
  | nil => exact .pure ⟨.refl (Node.numbered_nil id) head _, rfl, rfl⟩
  | cons s ss ih =>
    obtain ⟨hshows, hss₀⟩ := shows_cons hslots
    rw [Slot.nodesAll] at hslots ht
    rw [List.map_append] at ht
    obtain ⟨hs₀, -⟩ := Node.numbered_append.1 hslots
    obtain ⟨hs, hss⟩ := ht.split ((List.length_map ..).trans (Field.length_nodes ..))
    rw [totalSize_cons] at hapart
    have hnext : t₀.Spreads c p.beginDepth (pendingAt (linkTo (id + s.field.size) ss) false)
        (Slot.occurrencesAll p.pattern (j + 1) ss)
        (Ico (id + s.field.size) (id + s.field.size + totalSize (fun s => s.field.size) ss)) :=
      spreads_of_passes h₀.isTree (Slot.passes_nodesAll hss₀)
    have hvisit : Refines _ (s.visit c (s.placeIn p j) id σ _ _) (t.visitSlot c head id) :=
      visitSlot_refines (p := s.placeIn p j) h₀ hhead hnext hbeyond hapart.rest.disjoint hapart.front
        hs₀ halike hσ hs
    rw [Slot.visitAll, numbers, List.foldlM_cons]
    refine hvisit.bind fun v t₁ hv h => ?_
    obtain ⟨hstep, hname, hsize⟩ := h
    have hss₁ := hss.receiveAll (hss₀.regular h₀) fun i hi => hstep.ahead (.inl (by
      rwa [Slot.length_nodesAll] at hi))
    have hrest := ih hapart.rest hss₀ (hstep.alike.trans halike)
      (hσ.append (placedIn_of_visitSlot hv hshows)) hss₁
    rw [← bind_pure (List.foldlM ..)]
    refine hrest.bind fun vs t' _ h => .pure ?_
    obtain ⟨hstep', hlength, hsizes⟩ := h
    refine ⟨?_, congrArg Nat.succ hlength, ?_⟩
    · rw [List.map_cons, Slot.nodesAll, hname, hsize,
        linkTo_eq_of_length ((List.length_map ..).trans hlength)]
      exact hstep.append ((Field.length_nodes ..).trans hsize) ((Slot.length_nodesAll ..).trans hsizes)
        hstep' hapart
    · rw [List.map_cons, totalSize_cons, totalSize_cons, hsize, hsizes]

end Slots

end NodeTable

end Antecedent
