import Antecedent.Proofs.TableFields

/-!
# Compiling in a node table

A left-hand side is compiled in its node table with the same result, or the same fault, as outside of it.

* `NodeTable.Settles` says what a condition does to the table, and `NodeTable.visitCondition_refines` that
  a pattern (`NodeTable.visitPattern_refines`) or a test (`NodeTable.visitTest_refines`) does so.
* `Lhs.awaiting` is the invariant of a run: the nodes of the conditions that are still to be compiled know what
  they find of the bindings made so far. A condition keeps it (`NodeTable.Settles.awaiting_leave`), because its
  bindings reach just the conditions that have them in scope (`NodeTable.Holds.awaiting_append`).
* `NodeTable.visitConditions_refines` is about all conditions, one after the other.
* `Lhs.compileByTable_refines` is the simulation, from notes that are reset to negated runs that are collapsed,
  and `Lhs.compileByTable_eq_compile` says what follows: no entry of the table is ever missing.
-/

namespace Antecedent

open Halt (check look)
open Set (Ico)

namespace NodeTable

/-! ## Conditions that are settled -/

/-- What compiling a condition does to a table. The nodes of the condition, from number `id` on, become `ns`,
and the bindings that it makes are received by the nodes in `A`. -/
structure Settles (id : Nat) (A : Set Nat) (bs : List Binding) (ns : List Node) (t t' : NodeTable) :
    Prop where
  alike : t'.Alike t
  holds : t'.Holds id ns
  ahead {j : Nat} (hj : j ∈ A) : t'.node? j = (t.node? j).map (Node.receiveAll bs)
  other {j : Nat} (hA : j ∉ A) (hid : j ∉ Ico id (id + ns.length)) : t'.node? j = t.node? j

namespace Settles

variable {id : Nat} {A : Set Nat} {bs bs' : List Binding} {n : Node} {ns : List Node}
  {join deferred : JoinOutput} {t t₁ t' : NodeTable}

theorem of_receives (h : Receives bs A t t') (ht : t'.Holds id ns) : Settles id A bs ns t t' where
  alike := h.alike
  holds := ht
  ahead hj := h.inside hj
  other hA _ := h.outside hA

/-- Changing the node of a condition and receiving bindings ahead of it. -/
theorem of_modify {f : Node → Node} (hf : ∀ n, (f n).bare = n.bare) (hn : t.node? id = some n)
    (h : Receives bs A (t.modify id f) t') (hid : id ∉ A) : Settles id A bs [f n] t t' where
  alike := h.alike.trans (t.alike_modify id hf)
  holds := by
    refine Node.numbered_cons.2 ⟨?_, Node.numbered_nil _⟩
    rw [h.outside hid, node?_modify, if_pos rfl, hn, Option.map_some]
  ahead hj := by
    rw [h.inside hj, node?_modify_of_ne]
    rintro rfl
    exact hid hj
  other hA hj := by
    rw [h.outside hA, node?_modify_of_ne]
    rintro rfl
    exact hj ⟨Nat.le_refl _, Nat.lt_succ_self _⟩

theorem modify {f : Node → Node} (h : Settles id A bs (n :: ns) t t') (hf : ∀ n, (f n).bare = n.bare)
    (hid : id ∉ A) : Settles id A bs (f n :: ns) t (t'.modify id f) where
  alike := (t'.alike_modify id hf).trans h.alike
  holds := h.holds.modify_head f
  ahead hj := by
    rw [node?_modify_of_ne, h.ahead hj]
    rintro rfl
    exact hid hj
  other hA hj := by
    rw [node?_modify_of_ne, h.other hA hj]
    rintro rfl
    exact hj ⟨Nat.le_refl _, by rw [List.length_cons]; omega⟩

/-- A pattern is settled with its node, then with its slots. -/
theorem append_step {m : Nat} (hm : ns.length = m)
    (h : Settles id (Ico (id + 1) (id + 1 + m) ∪ A) bs [n] t t₁)
    (h' : Step id (id + 1) A bs' ns join deferred t₁ t') :
    Settles id A (bs ++ bs') (n.contribute join deferred :: ns) t t' where
  alike := h'.alike.trans h.alike
  holds := by
    refine Node.numbered_cons.2 ⟨?_, h'.holds⟩
    rw [h'.head_eq, (Node.numbered_cons.1 h.holds).1, Option.map_some]
  ahead hj := by
    rw [h'.ahead hj, h.ahead (.inr hj), Node.map_receiveAll]
  other {j} hA hid := by
    rw [List.length_cons] at hid
    have hhead : j ≠ id := fun hj => hid ⟨by omega, by omega⟩
    have hslots : j ∉ Ico (id + 1) (id + 1 + ns.length) := fun hj =>
      hid ⟨by have := hj.1; omega, by have := hj.2; omega⟩
    rw [h'.other hhead hA hslots]
    refine h.other (fun hj => hj.elim (hm ▸ hslots) hA) fun hj => hhead ?_
    exact Nat.le_antisymm (Nat.le_of_lt_succ hj.2) hj.1

end Settles

/-! ## Patterns -/

/-- The node of a binding occurrence says whether it is a match handle. -/
theorem exists_node_of_places {t : NodeTable} (ht : t.WellFormed) {o : Origin} (ho : t.Places o) :
    ∃ n, t.node? o.id = some n ∧ n.isPattern = o.isHandle := by
  cases hn : t.node? o.id with
  | none =>
    rw [Places, placeAt, get, hn] at ho
    cases ho
  | some n =>
    refine ⟨n, rfl, ?_⟩
    rw [Places, placeAt_eq hn, Position.place] at ho
    cases hkind : n.position.kind with
    | none =>
      rw [hkind] at ho
      cases ho
    | some kind =>
      rw [hkind] at ho
      have hindex : n.position.field = o.place.site.index :=
        congrArg (fun p : Place => p.site.index) (Except.ok.inj ho)
      rw [Bool.eq_iff_iff, (ht.regular hn).pattern (by rw [hkind]; rfl), hindex, Origin.isHandle,
        decide_eq_true_iff]

section Patterns

variable {t₀ t : NodeTable} {c : Context} {σ : Scope} {p : Place} {id endDepth : Nat} {h : Node}
  {q : Pattern Symbol Note}

/-- **Checking a handle** at a node that knows what it finds in scope. -/
theorem checkHandle_refines (h₀ : t₀.WellFormed) (halike : t.Alike t₀) (hσ : σ.PlacedIn t₀)
    (hposition : h.position = p.position endDepth) (hkind : h.kind = .pattern q.handle)
    (ht : t.node? id = some (h.resolved σ)) :
    Refines (fun _ _ => True) (q.checkHandle c p σ) (t.checkHandle c id) := by
  refine .look_bind (get_eq_ok ht) ?_
  have hhandle : (h.resolved σ).asHandle = q.handle := by
    show h.asHandle = q.handle
    rw [Node.asHandle, hkind]
  rw [hhandle, Pattern.checkHandle]
  cases hq : q.handle with
  | none => exact ⟨(), rfl, trivial⟩
  | some x =>
    dsimp only
    have horigin : (h.resolved σ).note.origin = (σ.origins x).getLast? := by
      rw [Node.resolved, hkind, hq]
    rw [horigin]
    cases ho : (σ.origins x).getLast? with
    | none => exact ⟨(), rfl, trivial⟩
    | some o =>
      have hplace : t₀.Places o := hσ o (Scope.origins_subset σ x (List.mem_of_getLast? ho))
      obtain ⟨n, hn, hpattern⟩ := exists_node_of_places h₀ hplace
      obtain ⟨m, hm, hbare⟩ := halike.exists_node hn
      have hm' : m.isPattern = o.isHandle := by
        rw [← hpattern]
        show m.bare.isPattern = n.bare.isPattern
        rw [hbare]
      have hspot : (h.resolved σ).position.spot = p.spot := by
        show h.position.spot = p.spot
        rw [hposition]
        rfl
      refine .look_bind (get_eq_ok hm) ?_
      rw [hm', hspot]
      rfl

/-- A handle that is bound nowhere before leaves nothing at its node. -/
theorem resolved_of_checkHandle (hkind : h.kind = .pattern q.handle) (hdeclared : h.declared = none)
    {u : Unit} (hok : q.checkHandle c p σ = .ok u) : h.resolved σ = h.bare := by
  refine congrArg (fun note => { h with note }) ?_
  rw [hkind, hdeclared]
  rw [Pattern.checkHandle] at hok
  cases hq : q.handle with
  | none => rfl
  | some x =>
    rw [hq] at hok
    cases ho : (σ.origins x).getLast? with
    | none =>
      dsimp only
      rw [ho]
    | some o =>
      simp only [ho] at hok
      cases hok

/-- **Binding a handle** at a node where nothing is noted yet. -/
theorem bindHandle_refines {ahead : List Occurrence} {A : Set Nat} {n : Node} (halike : t.Alike t₀)
    (hahead : t₀.Propagates c id none id p.beginDepth ahead A) (hid : id ∉ A)
    (hposition : n.position = p.position endDepth) (hkind : n.kind = .pattern q.handle)
    (hnote : n.note = {}) (ht : t.node? id = some n) :
    Refines (fun _ t' => Settles id A (q.binding? p id).toList
        [n.withRestriction ((q.binding? p id).bind Binding.restriction)] t t')
      ((q.binding? p id).forM (c.permit ahead)) (t.bindHandle c id) := by
  refine .look_bind (get_eq_ok ht) ?_
  rw [Node.asHandle, hkind, Pattern.binding?]
  cases q.handle with
  | none =>
    refine .pure (.of_receives (.nil A t) (Node.numbered_cons.2 ⟨?_, Node.numbered_nil _⟩))
    rw [ht, Node.withRestriction, hnote]
    show some n = some { n with note := {} }
    rw [← hnote]
  | some x =>
    have hplace : t.placeAt id = .ok p := by rw [placeAt_eq ht, hposition, Place.place_position]
    refine .look_bind hplace ?_
    have hmodify := t.alike_modify id (f := Node.withRestriction (some .address)) fun _ => rfl
    refine (hahead _ _ (hmodify.trans halike) rfl).mono fun _ t' _ hreceives => ?_
    exact .of_modify (fun _ => rfl) ht hreceives hid

/-- The fields of a pattern are found along their links. -/
theorem fields_eq {k : Condition Symbol Note} {mode : Mode} (helement : k.element = .pattern mode q)
    {pattern joins : Nat} {child : Option Nat} (hk : t₀.Holds id (k.nodes pattern joins id child))
    (halike : t.Alike t₀) : t.fields id = numbers (fun s => s.field.size) (id + 1) q.slots := by
  obtain ⟨element, beginDepth, endDepth, note⟩ := k
  obtain rfl : element = .pattern mode q := helement
  obtain ⟨hn, hslots⟩ := Node.numbered_cons.1 hk
  obtain ⟨m, hm, hbare⟩ := halike.exists_node hn
  rw [fields, hm, halike.chain_eq (fun _ => rfl), ← chain_slots hslots]
  exact congrArg _ (congrArg Node.next hbare)

/-- What comes after a pattern is apart from its slots. -/
theorem apart_of_le {m : Nat} {B : Set Nat} (hB : ∀ j ∈ B, id + (1 + m) ≤ j) : Apart id (id + 1) m B := by
  refine ⟨Nat.lt_succ_self id, fun hid => ?_, Set.disjoint_left.2 fun j hj hj' => ?_⟩
  · have hle := hB id hid
    omega
  · have hle := hB j hj'
    have hlt := hj.2
    omega

/-- **Compiling a pattern** whose nodes know what they find in scope. -/
theorem visitPattern_refines (h₀ : t₀.WellFormed) (halike : t.Alike t₀) (hσ : σ.PlacedIn t₀)
    {k : Condition Symbol Note} {mode : Mode} (helement : k.element = .pattern mode q)
    {pattern joins : Nat} {child : Option Nat} {beyond : List Occurrence} {B : Set Nat}
    (hk : t₀.Holds id (k.nodes pattern joins id child)) (hhead : t₀.node? id = some h)
    (hbeyond : t₀.Spreads c k.beginDepth h.beyond beyond B) (hB : ∀ j ∈ B, id + k.size ≤ j)
    (ht : t.Holds id ((k.nodes pattern joins id child).map (Node.resolved σ))) :
    Refines (fun v t' => ∃ bs, v.inside = σ ++ bs ∧
        Settles id B bs (v.condition.nodes pattern joins id child) t t')
      (Condition.visitPattern c pattern joins id σ beyond k.beginDepth k.endDepth mode q)
      (t.visitPattern c id) := by
  obtain ⟨element, beginDepth, endDepth, note⟩ := k
  obtain rfl : element = .pattern mode q := helement
  obtain ⟨hhead', hslots₀⟩ := Node.numbered_cons.1 hk
  obtain ⟨hn, hslots⟩ := Node.numbered_cons.1 ht
  have hnode := Option.some.inj (hhead.symm.trans hhead')
  rw [← hnode] at hn
  let p : Place := q.place pattern joins beginDepth
  let m := totalSize (fun s : Slot Symbol Note => s.field.size) q.slots
  have hposition : h.position = p.position endDepth := by rw [hnode]; rfl
  have hkind : h.kind = .pattern q.handle := by rw [hnode]
  have hapart : Apart id (id + 1) m B := apart_of_le hB
  have hnext : t₀.Spreads c beginDepth (pendingAt h.next false)
      (Slot.occurrencesAll pattern 1 q.slots) (Ico (id + 1) (id + 1 + m)) := by
    rw [hnode]
    exact spreads_of_passes h₀.isTree (Slot.passes_nodesAll hslots₀)
  have hahead := propagates_field hhead hhead hnext hbeyond hapart.disjoint
  have hid : id ∉ Ico (id + 1) (id + 1 + m) ∪ B := fun hid =>
    hid.elim (fun hid => Nat.lt_irrefl id hid.1) hapart.head_notMem
  have hplace : t₀.Places ⟨id, p⟩ := by rw [Places, placeAt_eq hhead, hposition, Place.place_position]
  refine (checkHandle_refines (p := p) h₀ halike hσ hposition hkind hn).bind fun _ _ hok _ => ?_
  -- nothing is noted at the pattern now, so its final note comes from its handle and its slots alone
  rw [resolved_of_checkHandle hkind (by rw [hnode]) hok] at hn
  have hbind := bindHandle_refines (p := p) (n := h.bare) halike hahead hid hposition hkind rfl hn
  refine hbind.bind fun _ t₁ _ hsettles => ?_
  have halike₁ := hsettles.alike.trans halike
  have hslots₁ := Holds.receiveAll hslots (Holds.regular h₀ hslots₀) fun j hj => hsettles.ahead (.inl (by
    rwa [Slot.length_nodesAll] at hj))
  have hown : Scope.PlacedIn t₀ (σ ++ (q.binding? p id).toList) := by
    refine hσ.append fun o ho => ?_
    rw [q.eq_of_mem_binding? ho]
    exact hplace
  rw [fields_eq rfl hk halike₁, ← bind_pure (List.foldlM ..)]
  have hvisit := visitSlots_refines (p := p) h₀ hhead hbeyond hapart hslots₀ halike₁ hown hslots₁
  refine hvisit.bind fun vs t' _ hvs => .pure ?_
  obtain ⟨hstep, hlength, hsizes⟩ := hvs
  refine ⟨_, List.append_assoc .., ?_⟩
  have happend := hsettles.append_step ((Slot.length_nodesAll ..).trans hsizes) hstep
  rw [hnode, ← linkTo_eq_of_length ((List.length_map Visited.result).trans hlength)] at happend
  simp only [Node.contribute, Node.withOut, Node.withRestriction, Node.bare, JoinOutput.empty_append]
    at happend
  exact happend

end Patterns

end NodeTable

/-! ## Tests -/

/-- What an expression demands of variables does not clash with match handles. -/
theorem Context.forM_permit_demands (c : Context) {os : List Occurrence}
    (hos : ∀ o ∈ os, o.role = .handle) (floor : Nat) (ds : List Demand) :
    (ds.map (Demand.binding floor)).forM (c.permit os) = .ok () := by
  induction ds with
  | nil => rfl
  | cons d ds ih =>
    have hpermit : c.permit os (d.binding floor) = .ok () := by
      have hfind : os.find? (d.binding floor).clashes = none := by
        refine List.find?_eq_none.2 fun o ho => ?_
        rw [Binding.clashes, hos o ho]
        simp [Demand.binding]
      rw [Context.permit, hfind]
    show (c.permit os (d.binding floor) >>= fun _ =>
      (ds.map (Demand.binding floor)).forM (c.permit os)) = _
    rw [hpermit, ok_bind, ih]

namespace NodeTable

/-- **Compiling a test** whose nodes know what they find in scope. -/
theorem visitTest_refines {t₀ t : NodeTable} {c : Context} {σ : Scope} {id : Nat}
    (halike : t.Alike t₀) (hσ : σ.PlacedIn t₀)
    {k : Condition Symbol Note} {e : Term Symbol Note} (helement : k.element = .test e)
    {pattern joins : Nat} {child : Option Nat} {handles : List Occurrence} {B : Set Nat}
    (hhandles : ∀ o ∈ handles, o.role = .handle)
    (hahead : t₀.Propagates c id none id k.beginDepth handles B) (hB : ∀ j ∈ B, id + k.size ≤ j)
    (ht : t.Holds id ((k.nodes pattern joins id child).map (Node.resolved σ))) :
    Refines (fun v t' => ∃ bs, v.inside = σ ++ bs ∧
        Settles id B bs (v.condition.nodes pattern joins id child) t t')
      (Condition.visitTest c pattern joins σ k.beginDepth k.endDepth e) (t.visitTest c id) := by
  obtain ⟨element, beginDepth, endDepth, note⟩ := k
  obtain rfl : element = .test e := helement
  have hdisjoint : Disjoint (Ico id (id + (1 + e.size))) B := by
    refine Set.disjoint_left.2 fun j hj hj' => ?_
    have hle : id + (1 + e.size) ≤ j := hB j hj'
    have := hj.2
    omega
  obtain ⟨hn, he⟩ := Node.numbered_cons.1 ht
  let u := e.resolve σ ⟨pattern, none⟩
  let p : Position := ⟨pattern, joins, 0, none, none, beginDepth, endDepth, none⟩
  have hu : t.Holds (id + 1) (u.nodes p (id + 1) none) := by
    rw [e.nodes_resolve (show p.viewpoint = ⟨pattern, none⟩ from rfl)]
    exact he
  have hterm : t.termAt pure (id + 1) = .ok u := by rw [termAt_eq u hu, u.traverse_pure]
  refine .look_bind (get_eq_ok hn) (.look_bind hterm (.check_bind fun bound hbound => ?_))
  refine .look_bind (expressionDemands_eq hu) ?_
  have hdemands : Refines _ (((u.demands c.env).map (Demand.binding beginDepth)).forM (c.permit handles)) _ :=
    hahead.foldlM halike fun b hb => Demand.floor_of_mem hb
  -- so nothing stops the bindings that the expression demands
  rw [c.forM_permit_demands hhandles] at hdemands
  obtain ⟨t₁, hfold, hreceives⟩ := hdemands
  have hnodes : t.Holds id (_ :: u.nodes p (id + 1) none) := Node.numbered_cons.2 ⟨hn, hu⟩
  have ht₁ := hreceives.holds_outside (by
    rw [List.length_cons, Term.length_nodes, Term.size_resolve, Nat.add_comm e.size]
    exact hdisjoint) hnodes
  obtain ⟨hn₁, hu₁⟩ := Node.numbered_cons.1 ht₁
  have hout := testOutputs_eq hn₁ rfl hu₁ (Term.mapNotes_of_bind hbound) fun m hm o ho => by
    obtain ⟨x, rfl⟩ := Term.exists_origin?_of_mem_notes hm
    exact (hreceives.alike.trans halike).places (hσ o (Scope.mem_allOrigins_of_origin? ho))
  refine .ok_bind hfold (.look_bind hout (.pure ⟨_, rfl, ?_⟩))
  have hid : id ∉ B := Set.disjoint_left.1 hdisjoint ⟨Nat.le_refl id, by omega⟩
  exact (Settles.of_receives hreceives ht₁).modify
    (f := Node.withOut (Outputs.ofTest beginDepth joins bound)) (fun _ => rfl) hid

end NodeTable

/-! ## Conditions -/

theorem Lhs.le_of_mem_reached {floor id j : Nat} {l : Lhs Symbol Note} (h : j ∈ reached floor id l) :
    id ≤ j := by
  induction l generalizing id with
  | nil => cases h
  | cons k ks ih =>
    rcases h with h | h
    · exact h.1
    · split at h
      · exact Nat.le_trans (Nat.le_add_right id k.size) (ih h)
      · cases h

/-- The nodes after a condition that see the bindings made in it. -/
def Lhs.reachedAfter (id : Nat) (k : Condition Symbol Note) (rest : Lhs Symbol Note) : Set Nat :=
  if k.mode = .plain ∧ k.beginDepth ≤ k.endDepth then reached k.beginDepth (id + k.size) rest else ∅

theorem Lhs.le_of_mem_reachedAfter {id j : Nat} {k : Condition Symbol Note} {rest : Lhs Symbol Note}
    (h : j ∈ reachedAfter id k rest) : id + k.size ≤ j := by
  rw [reachedAfter] at h
  split at h
  · exact le_of_mem_reached h
  · cases h

/-- From where on the bindings made in a condition are seen after it. -/
theorem Condition.beyond_eq {k : Condition Symbol Note} {pattern joins id : Nat} {child : Option Nat}
    {n : Node} {ns : List Node} (h : k.nodes pattern joins id child = n :: ns) :
    n.beyond = if k.mode = .plain ∧ k.beginDepth ≤ k.endDepth then pendingAt child k.pattern?.isNone
      else [] := by
  obtain ⟨element, beginDepth, endDepth, note⟩ := k
  cases element with
  | pattern mode q =>
    obtain ⟨rfl, -⟩ := List.cons.inj h
    cases mode <;> simp [Node.beyond, Node.escapes, Node.isCondition, Condition.mode, pattern?]
  | test e =>
    obtain ⟨rfl, -⟩ := List.cons.inj h
    simp [Node.beyond, Node.escapes, Node.isCondition, mode, pattern?]

namespace NodeTable

section Conditions

variable {t₀ t : NodeTable} {c : Context} {σ : Scope} {k : Condition Symbol Note} {ks : Lhs Symbol Note}
  {pattern joins id : Nat} {n : Node} {ns : List Node}

theorem spreads_beyond (h₀ : t₀.WellFormed) (hpattern : k.pattern?.isNone = false)
    (hnodes : k.nodes pattern joins id (linkTo (id + k.size) ks) = n :: ns)
    (hks : t₀.Holds (id + k.size) (ks.nodesFrom (pattern + 1) joins (id + k.size))) :
    t₀.Spreads c k.beginDepth n.beyond (Lhs.reachAfter pattern k ks) (Lhs.reachedAfter id k ks) := by
  rw [Condition.beyond_eq hnodes, hpattern, Lhs.reachAfter, Lhs.reachedAfter]
  split
  · exact spreads_of_passes h₀.isTree (Lhs.passes_nodesFrom hks)
  · exact spreads_nil

/-- After a test, arities do not count. -/
theorem exists_spreads_beyond (h₀ : t₀.WellFormed) (htest : k.pattern?.isNone = true)
    (hnodes : k.nodes pattern joins id (linkTo (id + k.size) ks) = n :: ns)
    (hks : t₀.Holds (id + k.size) (ks.nodesFrom (pattern + 1) joins (id + k.size))) :
    ∃ handles, (∀ o ∈ handles, o.role = .handle) ∧
      t₀.Spreads c k.beginDepth n.beyond handles (Lhs.reachedAfter id k ks) := by
  rw [Condition.beyond_eq hnodes, htest, Lhs.reachedAfter]
  split
  · exact exists_spreads_free h₀.isTree (Lhs.passes_nodesFrom hks)
  · exact ⟨[], nofun, spreads_nil⟩

/-- **Compiling a condition** whose nodes know what they find in scope. -/
theorem visitCondition_refines (h₀ : t₀.WellFormed) (halike : t.Alike t₀) (hσ : σ.PlacedIn t₀)
    (hk : t₀.Holds id (k.nodes pattern (k.joinsAfter joins) id (linkTo (id + k.size) ks)))
    (hks : t₀.Holds (id + k.size) (ks.nodesFrom (pattern + 1) (k.joinsAfter joins) (id + k.size)))
    (ht : t.Holds id
      ((k.nodes pattern (k.joinsAfter joins) id (linkTo (id + k.size) ks)).map (Node.resolved σ))) :
    Refines (fun v t' => ∃ bs, v.inside = σ ++ bs ∧ Settles id (Lhs.reachedAfter id k ks) bs
        (v.condition.nodes pattern (k.joinsAfter joins) id (linkTo (id + k.size) ks)) t t')
      (k.visit c pattern joins id σ ks) (t.visitCondition c id) := by
  obtain ⟨element, beginDepth, endDepth, note⟩ := k
  cases element with
  | pattern mode q =>
    obtain ⟨hhead, -⟩ := Node.numbered_cons.1 hk
    obtain ⟨hn, -⟩ := Node.numbered_cons.1 ht
    have hvisit : t.visitCondition c id = t.visitPattern c id := by
      rw [visitCondition, get_eq_ok hn]
      rfl
    rw [hvisit]
    exact visitPattern_refines h₀ halike hσ rfl hk hhead (spreads_beyond h₀ rfl rfl hks)
      (fun j hj => Lhs.le_of_mem_reachedAfter hj) ht
  | test e =>
    obtain ⟨hhead, -⟩ := Node.numbered_cons.1 hk
    obtain ⟨hn, -⟩ := Node.numbered_cons.1 ht
    have hvisit : t.visitCondition c id = t.visitTest c id := by
      rw [visitCondition, get_eq_ok hn]
      rfl
    obtain ⟨handles, hhandles, hbeyond⟩ := exists_spreads_beyond (c := c) h₀ rfl rfl hks
    have hahead := propagates_field hhead hhead spreads_nil hbeyond (Set.empty_disjoint _)
    rw [List.nil_append, Set.empty_union] at hahead
    rw [hvisit]
    exact visitTest_refines halike hσ rfl hhandles hahead (fun j hj => Lhs.le_of_mem_reachedAfter hj) ht

end Conditions

end NodeTable

/-! ## Left-hand sides -/

/-- All bindings made in a condition have the depth at which it begins as their floor. -/
theorem Condition.floor_of_visit {c : Context} {pattern joins id : Nat} {σ : Scope}
    {rest : Lhs Symbol Note} {k : Condition Symbol Note} {v : VisitedCondition} {bs : List Binding}
    (h : k.visit c pattern joins id σ rest = .ok v) (hbs : v.inside = σ ++ bs) :
    ∀ b ∈ bs, b.floor = k.beginDepth := by
  cases helement : k.element with
  | pattern mode q =>
    obtain ⟨ts, hrun, hsource, -, hinside, -⟩ := exists_run_of_visit helement h
    rw [hbs, List.append_assoc] at hinside
    rw [List.append_cancel_left hinside]
    refine List.forall_mem_append.2 ⟨fun b hb => ?_, fun b hb => ?_⟩
    · obtain ⟨x, -, rfl⟩ := Option.map_eq_some_iff.1 (Option.mem_toList.1 hb)
      rfl
    · obtain ⟨w, hw, hb⟩ := List.mem_flatMap.1 hb
      obtain ⟨t, ht, rfl⟩ := List.mem_map.1 hw
      have hfield : t.source ∈ k.fieldsAt pattern joins id := hsource ▸ List.mem_map_of_mem ht
      exact ((hrun.compiles t ht).floor_of_mem hb).trans
        (ConditionAt.place_of_mem_fields (y := ⟨pattern, joins, id, k⟩) hfield).2.1
  | test e =>
    obtain ⟨u, -, -, hinside⟩ := exists_bind_of_visit helement h
    rw [hbs] at hinside
    rw [List.append_cancel_left hinside]
    exact fun b hb => Demand.floor_of_mem hb

/-- Bindings with one floor are seen to the same depth. -/
theorem Scope.filter_eq_of_floor {bs : List Binding} {floor : Nat} (hbs : ∀ b ∈ bs, b.floor = floor)
    (depth : Nat) :
    bs.filter (fun b => b.floor ≤ depth) = if floor ≤ depth then bs else [] := by
  split
  · rename_i hle
    refine List.filter_eq_self.2 fun b hb => ?_
    rwa [hbs b hb, decide_eq_true_iff]
  · rename_i hle
    refine List.filter_eq_nil_iff.2 fun b hb => ?_
    rwa [hbs b hb, decide_eq_true_iff]

/-- After a condition, what was bound before it is seen up to its end, and what was bound in it if it
escapes. -/
theorem Scope.leave_append {σ : Scope} {bs : List Binding} {k : Condition Symbol Note}
    (hbs : ∀ b ∈ bs, b.floor = k.beginDepth) :
    σ.leave (σ ++ bs) k = σ.filter (fun b => b.floor ≤ k.endDepth) ++
      if k.mode = .plain ∧ k.beginDepth ≤ k.endDepth then bs else [] := by
  rw [leave]
  by_cases hmode : k.mode = .plain
  · simp only [hmode, if_true, true_and, List.filter_append, filter_eq_of_floor hbs]
  · simp only [hmode, if_false, false_and, List.append_nil]

namespace Lhs

/-- The nodes of conditions that are still to be compiled, from the one numbered `pattern` on, when `σ` is
the scope before it. Every node knows what it finds of the bindings made so far. -/
def awaiting (σ : Scope) (pattern joins id : Nat) : Lhs Symbol Note → List Node
  | [] => []
  | k :: ks =>
    (k.nodes pattern (k.joinsAfter joins) id (linkTo (id + k.size) ks)).map (Node.resolved σ) ++
      awaiting (σ.filter fun b => b.floor ≤ k.endDepth) (pattern + 1) (k.joinsAfter joins)
        (id + k.size) ks

end Lhs

namespace NodeTable

section Conditions

variable {t₀ t t' : NodeTable} {c : Context} {σ : Scope} {l ks : Lhs Symbol Note}
  {k : Condition Symbol Note} {pattern joins id floor : Nat} {bs : List Binding}

/-- **More bindings.** What conditions found in a scope, they find with the bindings that reach them. -/
theorem Holds.awaiting_append (h₀ : t₀.WellFormed) (hl : t₀.Holds id (l.nodesFrom pattern joins id))
    (hbs : ∀ b ∈ bs, b.floor = floor) (ht : t.Holds id (l.awaiting σ pattern joins id))
    (hreached : ∀ j ∈ l.reached floor id, t'.node? j = (t.node? j).map (Node.receiveAll bs))
    (hother : ∀ j, id ≤ j → j ∉ l.reached floor id → t'.node? j = t.node? j) :
    t'.Holds id (l.awaiting (σ ++ bs) pattern joins id) := by
  induction l generalizing σ pattern joins id with
  | nil => exact Node.numbered_nil id
  | cons k ks ih =>
    rw [Lhs.nodesFrom] at hl
    rw [Lhs.awaiting] at ht ⊢
    obtain ⟨hk₀, hks₀⟩ := hl.split (Condition.length_nodes ..)
    obtain ⟨hk, hks⟩ := ht.split ((List.length_map ..).trans (Condition.length_nodes ..))
    have hk' := hk.receiveAll (hk₀.regular h₀) fun j hj => hreached j (.inl (by
      rwa [Condition.length_nodes] at hj))
    refine Node.numbered_append.2 ⟨hk', ?_⟩
    rw [List.length_map, Condition.length_nodes, List.filter_append, Scope.filter_eq_of_floor hbs]
    rw [Lhs.reached] at hreached hother
    have hfront {j : Nat} (hj : id + k.size ≤ j) : j ∉ Ico id (id + k.size) := fun hmem =>
      Nat.not_lt.2 hj hmem.2
    by_cases hfloor : floor ≤ k.endDepth
    · rw [if_pos hfloor] at hreached hother ⊢
      exact ih hks₀ hks (fun j hj => hreached j (.inr hj)) fun j hj hmem =>
        hother j (by omega) fun hmem' => hmem'.elim (hfront hj) hmem
    · rw [if_neg hfloor, Set.union_empty] at hother
      rw [if_neg hfloor, List.append_nil]
      exact Holds.congr hks fun j hj _ => hother j (by omega) (hfront hj)

/-- **Leaving a condition.** The conditions after it know what they find in the scope after it. -/
theorem Settles.awaiting_leave {ns : List Node} (h₀ : t₀.WellFormed)
    (hks : t₀.Holds (id + k.size) (ks.nodesFrom pattern joins (id + k.size)))
    (h : Settles id (Lhs.reachedAfter id k ks) bs ns t t') (hns : ns.length = k.size)
    (hbs : ∀ b ∈ bs, b.floor = k.beginDepth)
    (ht : t.Holds (id + k.size)
      (ks.awaiting (σ.filter fun b => b.floor ≤ k.endDepth) pattern joins (id + k.size))) :
    t'.Holds (id + k.size) (ks.awaiting (σ.leave (σ ++ bs) k) pattern joins (id + k.size)) := by
  have hother {j : Nat} (hj : id + k.size ≤ j) (hmem : j ∉ Lhs.reachedAfter id k ks) :
      t'.node? j = t.node? j :=
    h.other hmem fun hid => Nat.not_lt.2 hj (hns ▸ hid.2)
  rw [Scope.leave_append hbs]
  by_cases hescapes : k.mode = .plain ∧ k.beginDepth ≤ k.endDepth
  · have hreached : Lhs.reachedAfter id k ks = ks.reached k.beginDepth (id + k.size) := if_pos hescapes
    rw [hreached] at h hother
    rw [if_pos hescapes]
    exact Holds.awaiting_append h₀ hks hbs ht (fun j hj => h.ahead hj) fun j hj hmem => hother hj hmem
  · have hreached : Lhs.reachedAfter id k ks = ∅ := if_neg hescapes
    rw [hreached] at hother
    rw [if_neg hescapes, List.append_nil]
    exact ht.congr fun j hj _ => hother hj (Set.notMem_empty j)

/-- **Compiling the conditions** one after the other. -/
theorem visitConditions_refines (h₀ : t₀.WellFormed) (halike : t.Alike t₀) (hσ : σ.PlacedIn t₀)
    (hl : t₀.Holds id (l.nodesFrom pattern joins id)) (ht : t.Holds id (l.awaiting σ pattern joins id)) :
    Refines (fun r t' => t'.Alike t ∧ t'.Holds id (r.nodesFrom pattern joins id) ∧
        ∀ j < id, t'.node? j = t.node? j)
      (Lhs.compileFrom c pattern joins id σ l)
      ((numbers Condition.size id l).foldlM (visitCondition c) t) := by
  induction l generalizing σ pattern joins id t with
  | nil => exact .pure ⟨.refl t, Node.numbered_nil id, fun _ _ => rfl⟩
  | cons k ks ih =>
    rw [Lhs.nodesFrom] at hl
    rw [Lhs.awaiting] at ht
    obtain ⟨hk₀, hks₀⟩ := hl.split (Condition.length_nodes ..)
    obtain ⟨hk, hks⟩ := ht.split ((List.length_map ..).trans (Condition.length_nodes ..))
    have hvisit := visitCondition_refines (c := c) h₀ halike hσ hk₀ hks₀ hk
    rw [Lhs.compileFrom, numbers, List.foldlM_cons]
    refine hvisit.bind fun v t₁ hv h => ?_
    obtain ⟨bs, hinside, hsettles⟩ := h
    have hbare := Condition.bare_of_visit hv
    have hsize : v.condition.size = k.size := Condition.size_of_bare hbare
    have hlength : (v.condition.nodes pattern (k.joinsAfter joins) id (linkTo (id + k.size) ks)).length =
        k.size := by
      rw [Condition.length_nodes, hsize]
    have hks₁ := hsettles.awaiting_leave h₀ hks₀ hlength (Condition.floor_of_visit hv hinside) hks
    rw [← hinside] at hks₁
    have hσ₁ := Condition.placedIn_leave (k := k) hσ (Condition.placedIn_inside hk₀ hσ hv)
    -- the conditions after `k` leave its nodes as they are now
    rw [← bind_pure (List.foldlM ..)]
    refine (ih (hsettles.alike.trans halike) hσ₁ hks₀ hks₁).bind fun r t' hr h => .pure ?_
    obtain ⟨halike', hr', hbefore⟩ := h
    refine ⟨halike'.trans hsettles.alike, ?_, fun j hj => ?_⟩
    · rw [Lhs.nodesFrom, hsize, Condition.joinsAfter_of_bare hbare,
        linkTo_eq_of_length (Lhs.length_of_compileFrom hr)]
      refine Node.numbered_append.2 ⟨hsettles.holds.congr fun j _ hj => hbefore j ?_, ?_⟩
      · rwa [hlength] at hj
      · rwa [hlength]
    · have hpos := k.size_pos
      rw [hbefore j (by omega), hsettles.other]
      · exact fun hmem => by have := Lhs.le_of_mem_reachedAfter hmem; omega
      · exact fun hmem => Nat.not_lt.2 hmem.1 hj

end Conditions

/-! ## Whole tables -/

/-- A node that is reset has noted what it finds where nothing is in scope. -/
theorem node?_reset (t : NodeTable) (j : Nat) : t.reset.node? j = (t.node? j).map (Node.resolved []) := by
  have hreset (n : Node) : { n with note := { restriction := n.declared } } = n.resolved [] := by
    refine congrArg (fun note => { n with note }) ?_
    split
    · exact congrArg (fun r => { restriction := r : Note }) (ite_self n.declared).symm
    · rfl
    · rfl
  show (t.nodes.map _)[j]? = (t.nodes[j]?).map (Node.resolved [])
  rw [Array.getElem?_map]
  exact congrArg (Option.map · _) (funext hreset)

theorem alike_reset (t : NodeTable) : t.reset.Alike t where
  first_eq := rfl
  node?_eq j := by
    rw [node?_reset, Option.map_map]
    rfl

theorem wellFormed_ofLhs (l : Lhs Symbol Note) : (ofLhs l).WellFormed where
  isTree := isTree_ofLhs l
  regular hn := regular_ofLhs hn

end NodeTable

namespace Lhs

/-- Before anything is compiled, nothing is in scope. -/
theorem awaiting_nil (pattern joins id : Nat) (l : Lhs Symbol Note) :
    l.awaiting [] pattern joins id = (l.nodesFrom pattern joins id).map (Node.resolved []) := by
  induction l generalizing pattern joins id with
  | nil => rfl
  | cons k ks ih => rw [awaiting, nodesFrom, List.filter_nil, ih, List.map_append]

/-- **Compiling in the table** does what compiling the left-hand side does. -/
theorem compileByTable_refines (c : Context) (l : Lhs Symbol Note) :
    Refines (fun r t => t = .ofLhs r) (l.compile c) (l.compileByTable c) := by
  let t := (NodeTable.ofLhs l).reset
  have halike : t.Alike (.ofLhs l) := NodeTable.alike_reset _
  have ht : t.Holds 0 (l.awaiting [] 1 0 0) := by
    intro i n hn
    rw [awaiting_nil, List.getElem?_map] at hn
    rw [NodeTable.node?_reset, NodeTable.node?_ofLhs, Nat.zero_add]
    exact hn
  have hconditions : t.conditions = NodeTable.numbers Condition.size 0 l := by
    rw [← NodeTable.conditions_ofLhs l, NodeTable.conditions, halike.chain_eq fun _ => rfl, halike.first_eq]
    rfl
  have hvisit := NodeTable.visitConditions_refines (c := c) (NodeTable.wellFormed_ofLhs l) halike
    (fun o ho => by cases ho) (NodeTable.holds_ofLhs l) ht
  rw [compile, compileByTable, NodeTable.compile]
  refine Refines.bind (hconditions ▸ hvisit) fun r t' hr h => ?_
  obtain ⟨halike', hholds, -⟩ := h
  have hbare := bare_of_compileFrom hr
  have hlength := length_of_compileFrom hr
  obtain rfl : t' = .ofLhs r := by
    refine NodeTable.eq_ofLhs hholds ?_ ?_
    · rw [(halike'.trans halike).size_eq, NodeTable.size_ofLhs, nodes, nodes, length_nodesFrom,
        length_nodesFrom]
      simpa [bare, Condition.bare] using congrArg (totalSize Condition.size) hbare.symm
    · rw [(halike'.trans halike).first_eq, NodeTable.first_ofLhs, linkTo_eq_of_length hlength]
  rw [NodeTable.collapse_ofLhs]
  exact .pure rfl

/-- **No entry of the node table is ever missing.** Every link of a left-hand side leads forward to one of
its nodes. Compiling it in its node table follows the links from condition to condition and from field to
field, and knows nodes, kinds and binding occurrences by number only. It ends as compiling the left-hand side
does: with the table of the result, or with the same fault. -/
theorem compileByTable_eq_compile (c : Context) (l : Lhs Symbol Note) :
    (∀ (i : Nat) (n : Node), l.nodes[i]? = some n → ∀ j,
      n.next = some j ∨ n.child = some j ∨ n.subexpr = some j → i < j ∧ j < l.nodes.length) ∧
    l.compileByTable c = ((l.compile c).map NodeTable.ofLhs).mapError Halt.fault := by
  constructor
  · intro i n hn j hj
    obtain ⟨hnext, hchild, hsubexpr⟩ := l.forward_nodes i n hn
    rw [Nat.zero_add] at hnext hchild hsubexpr
    rcases hj with hj | hj | hj
    · exact hnext j hj
    · exact hchild j hj
    · exact hsubexpr j hj
  · have hrefines := l.compileByTable_refines c
    cases hcompile : l.compile c with
    | error d =>
      rw [hcompile] at hrefines
      exact hrefines
    | ok r =>
      rw [hcompile] at hrefines
      obtain ⟨t, ht, rfl⟩ := hrefines
      exact ht

end Lhs

end Antecedent
