import Antecedent.Proofs.NegationBoundary
import Mathlib.Logic.Relation

/-!
# The root of a variable

A variable refers to a binding occurrence, and that may refer to an earlier one of the same name. This
goes on until there is nothing earlier to refer to.

* `Lhs.exists_conditionAt_of_node` says in which condition a node stands.
* `Lhs.visible_of_mem` says that what is visible at a binding occurrence is what is visible further on
  and comes before it. This needs conditions that nest.
* `Lhs.origin_of_mem_binders` says what the binding occurrences refer to themselves; a match handle
  refers to nothing, because nothing of its name is visible.
* `Lhs.refers_to_first_visible` says that all occurrences of a variable in scope share one root, the
  first binding occurrence that they see.
-/

namespace Antecedent

variable {α : Type}

/-! ## Nodes, condition by condition -/

namespace Field

mutual

theorem pattern_of_mem_nodes {p : Position} {id : Nat} {next : Option Nat} {f : Field Symbol Note}
    {n : Node} (h : n ∈ f.nodes p id next) : n.position.pattern = p.pattern := by
  cases f with
  | plain b as declared note =>
    rcases List.mem_cons.1 h with rfl | h
    · rfl
    · rw [(Alternative.foundIn_of_mem_nodesAll h).position_eq]
  | multi ps as declared note =>
    rcases List.mem_cons.1 h with rfl | h
    · rfl
    · exact pattern_of_mem_nodesAll h

theorem pattern_of_mem_nodesAll {p : Position} {id k : Nat} {fs : List (Field Symbol Note)}
    {n : Node} (h : n ∈ nodesAll p id k fs) : n.position.pattern = p.pattern := by
  cases fs with
  | nil => cases h
  | cons f fs =>
    rcases List.mem_append.1 h with h | h
    · have hpattern := pattern_of_mem_nodes h
      exact hpattern
    · exact pattern_of_mem_nodesAll h

end

end Field

theorem Slot.pattern_of_mem_nodesAll {p : Position} {id j : Nat} {ss : List (Slot Symbol Note)}
    {n : Node} (h : n ∈ nodesAll p id j ss) : n.position.pattern = p.pattern := by
  induction ss generalizing id j with
  | nil => cases h
  | cons s ss ih =>
    rcases List.mem_append.1 h with h | h
    · have hpattern := Field.pattern_of_mem_nodes h
      exact hpattern
    · exact ih h

theorem Condition.pattern_of_mem_nodes {pattern joinDepth id : Nat} {child : Option Nat}
    {k : Condition Symbol Note} {n : Node} (h : n ∈ k.nodes pattern joinDepth id child) :
    n.position.pattern = pattern := by
  obtain ⟨element, beginDepth, endDepth, note⟩ := k
  cases element with
  | pattern mode q =>
    rcases List.mem_cons.1 h with rfl | h
    · rfl
    · exact Slot.pattern_of_mem_nodesAll h
  | test t =>
    rcases List.mem_cons.1 h with rfl | h
    · rfl
    · rw [(Term.foundIn_of_mem_nodes h).position_eq]

namespace Lhs

theorem exists_conditionAt_of_nodeFrom {pattern joins id i : Nat} {l : Lhs Symbol Note} {n : Node}
    (h : (nodesFrom pattern joins id l)[i]? = some n) :
    ∃ y ∈ conditionsFrom pattern joins id l, n.position.pattern = y.pattern ∧ y.id ≤ id + i ∧
      id + i < y.id + y.condition.size := by
  induction l generalizing pattern joins id i with
  | nil => cases h
  | cons k ks ih =>
    rw [nodesFrom] at h
    by_cases hi : i < k.size
    · rw [List.getElem?_append_left (by simpa using hi)] at h
      have hpattern := Condition.pattern_of_mem_nodes (List.mem_of_getElem? h)
      exact ⟨_, List.mem_cons_self, hpattern, Nat.le_add_right _ _, Nat.add_lt_add_left hi id⟩
    · rw [List.getElem?_append_right (by simpa using hi), Condition.length_nodes] at h
      obtain ⟨y, hy, hpattern, hlo, hhi⟩ := ih h
      exact ⟨y, List.mem_cons_of_mem _ hy, hpattern, by omega, by omega⟩

/-- A node stands in the condition that its position names. -/
theorem exists_conditionAt_of_node {l : Lhs Symbol Note} {i : Nat} {n : Node}
    (h : l.nodes[i]? = some n) :
    ∃ y ∈ l.conditionsAt, n.position.pattern = y.pattern ∧ y.id ≤ i ∧
      i < y.id + y.condition.size := by
  have hnode := exists_conditionAt_of_nodeFrom h
  simp only [Nat.zero_add] at hnode
  exact hnode

/-- A binding occurrence in an earlier condition has a lower number than any node of a later one. -/
theorem id_lt_of_pattern_lt {l : Lhs Symbol α} {b : Symbol × Origin} (hb : b ∈ l.binders)
    {y : ConditionAt α} (hy : y ∈ l.conditionsAt) (hlt : b.2.place.pattern < y.pattern) {i : Nat}
    (hi : y.id ≤ i) : b.2.id < i := by
  obtain ⟨z, hz, hb⟩ := List.mem_flatMap.1 hb
  rw [(ConditionAt.place_of_mem_binders hb).1] at hlt
  have hid := (ConditionAt.id_of_mem_binders hb).2
  have hle := id_add_size_le_of_pattern_lt hz hy hlt
  omega

theorem id_lt_of_sees {l : Lhs Symbol α} {b b' : Symbol × Origin} (hb : b ∈ l.binders)
    (hb' : b' ∈ l.binders) (h : l.Sees b.2.place.pattern b.2.id b'.2) : b'.2.id < b.2.id := by
  rcases h with ⟨-, hlt⟩ | ⟨hlt, -⟩
  · exact hlt
  · obtain ⟨y, hy, hb⟩ := List.mem_flatMap.1 hb
    rw [(ConditionAt.place_of_mem_binders hb).1] at hlt
    exact id_lt_of_pattern_lt hb' hy hlt (ConditionAt.id_of_mem_binders hb).1

/-! ## What is visible at a binding occurrence -/

theorem Reaches.mono {l : Lhs Symbol α} {pattern pattern' : Nat} {o : Origin}
    (h : l.Reaches pattern o) (hle : pattern' ≤ pattern) : l.Reaches pattern' o := by
  obtain ⟨k, hk, hmode, hbetween⟩ := h
  exact ⟨k, hk, hmode, fun z hz => hbetween z (between_subset le_rfl (by omega) hz)⟩

/-- What is visible where a binding occurrence is, is visible wherever that is. -/
theorem Sees.trans {l : Lhs Symbol α} (hl : l.Nested) {b b' : Symbol × Origin} (hb : b ∈ l.binders)
    (hb' : b' ∈ l.binders) (h' : l.Sees b.2.place.pattern b.2.id b'.2) {pattern i : Nat}
    (h : l.Sees pattern i b.2) : l.Sees pattern i b'.2 := by
  obtain ⟨k, hk, hpos, -⟩ := exists_of_mem_binders hb
  obtain ⟨k', hk', hpos', -⟩ := exists_of_mem_binders hb'
  rcases h with ⟨rfl, hlt⟩ | ⟨hlt, hreaches⟩
  · rcases h' with ⟨heq', hlt'⟩ | h'
    · exact .inl ⟨heq', by omega⟩
    · exact .inr h'
  · obtain ⟨-, hbetween⟩ := (reaches_iff_of_getElem? hk).1 hreaches
    rcases h' with ⟨heq', -⟩ | ⟨hlt', hreaches'⟩
    · refine .inr ⟨by omega, ?_⟩
      rw [Reaches, heq']
      exact hreaches
    · obtain ⟨hmode', hbetween'⟩ := (reaches_iff_of_getElem? hk').1 hreaches'
      refine .inr ⟨by omega, (reaches_iff_of_getElem? hk').2 ⟨hmode', fun z hz => ?_⟩⟩
      -- Up to `b` nothing ends too low for `b'`; from `b` on nothing ends below where `b` begins.
      have hbegin : k'.beginDepth ≤ k.beginDepth := hl.le_beginDepth (by omega) hbetween' hk
      obtain ⟨m, hm, hm', hz⟩ := exists_of_mem_between hz
      by_cases hlow : m < b.2.place.pattern - 1
      · exact hbetween' z (mem_between hz hm hlow)
      · exact hbegin.trans (hbetween z (mem_between hz (by omega) hm'))

/-- Of two visible binding occurrences, the earlier one is visible where the later one is. -/
theorem Sees.of_id_lt {l : Lhs Symbol α} {b b' : Symbol × Origin} (hb : b ∈ l.binders)
    (hb' : b' ∈ l.binders) {pattern i : Nat} (h : l.Sees pattern i b.2) (h' : l.Sees pattern i b'.2)
    (hlt : b'.2.id < b.2.id) : l.Sees b.2.place.pattern b.2.id b'.2 := by
  obtain ⟨y, hy, hby⟩ := List.mem_flatMap.1 hb
  obtain ⟨z, hz, hbz⟩ := List.mem_flatMap.1 hb'
  have hpattern := (ConditionAt.place_of_mem_binders hby).1
  have hpattern' := (ConditionAt.place_of_mem_binders hbz).1
  have hle : b'.2.place.pattern ≤ b.2.place.pattern := by
    by_contra hgt
    have hid := id_add_size_le_of_pattern_lt hy hz (by omega)
    have hid' := (ConditionAt.id_of_mem_binders hby).2
    have hlo := (ConditionAt.id_of_mem_binders hbz).1
    omega
  rcases Nat.lt_or_eq_of_le hle with hne | heq
  · have hupto : b.2.place.pattern ≤ pattern := by
      rcases h with ⟨heq, -⟩ | ⟨hlt, -⟩ <;> omega
    rcases h' with ⟨heq', -⟩ | ⟨-, hreaches'⟩
    · omega
    · exact .inr ⟨hne, hreaches'.mono hupto⟩
  · exact .inl ⟨heq, hlt⟩

/-- **What is visible at a binding occurrence** is what is visible further on and comes before it. -/
theorem visible_of_mem {l : Lhs Symbol α} (hl : l.Nested) {pattern i : Nat} {x : Symbol} {o : Origin}
    (ho : o ∈ l.visible pattern i x) :
    l.visible o.place.pattern o.id x = (l.visible pattern i x).filter fun o' => o'.id < o.id := by
  obtain ⟨hb, hsees⟩ := mem_visible_iff.1 ho
  rw [visible, visible, List.filter_map, List.filter_filter]
  refine congrArg _ (List.filter_congr fun b' hb' => ?_)
  rw [Function.comp_apply, ← Bool.decide_and, decide_eq_decide]
  constructor
  · rintro ⟨hname, h⟩
    exact ⟨id_lt_of_sees hb hb' h, hname, h.trans hl hb hb' hsees⟩
  · rintro ⟨hlt, hname, h⟩
    exact ⟨hname, hsees.of_id_lt hb hb' h hlt⟩

/-- Every binding occurrence that a node sees either sees the same first one, or is that itself. -/
theorem head?_visible_of_mem {l : Lhs Symbol α} (hl : l.Nested) {pattern i : Nat} {x : Symbol}
    {o : Origin} (ho : o ∈ l.visible pattern i x) :
    (l.visible pattern i x).head? = some ((l.visible o.place.pattern o.id x).head?.getD o) := by
  have hvisible := visible_of_mem hl ho
  have hpair := l.pairwise_visible pattern i x
  cases hos : l.visible pattern i x with
  | nil =>
    rw [hos] at ho
    cases ho
  | cons first os =>
    rw [hos] at ho hvisible hpair
    obtain ⟨hfirst, -⟩ := List.pairwise_cons.1 hpair
    rcases List.mem_cons.1 ho with rfl | ho
    · have hempty : (o :: os).filter (fun o' => decide (o'.id < o.id)) = [] := by
        rw [List.filter_eq_nil_iff]
        intro o' ho' hlt
        have hlt := of_decide_eq_true hlt
        rcases List.mem_cons.1 ho' with rfl | ho'
        · omega
        · have hgt := hfirst o' ho'
          omega
      rw [hvisible, hempty]
      rfl
    · have hbefore : decide (first.id < o.id) = true := decide_eq_true (hfirst o ho)
      rw [hvisible, List.filter_cons, if_pos hbefore]
      rfl

end Lhs

/-! ## What binding occurrences refer to -/

namespace Lhs

/-- The node of a compiled condition refers to nothing, and nothing of its handle's name is visible. -/
theorem visible_handle_of_compile {c : Context} {l : Lhs Symbol α} {r : Lhs Symbol Note}
    (h : l.compile c = .ok r) : ∀ y ∈ r.conditionsAt, ∀ b ∈ y.handle,
      y.condition.note.origin = none ∧ l.visible y.pattern y.id b.1 = [] := by
  obtain ⟨u, hu, rfl⟩ := exists_compileFrom_of_compile h
  refine (forall_conditionsAt_collapse (fun z d => Iff.rfl) u).2 fun z hz b hb => ?_
  obtain ⟨pre, k, rest, τ, v, heq, hv, hτ, rfl⟩ := exists_visit_following Scope.follows_nil hu hz
  obtain rfl : l = pre ++ k :: rest := heq
  have hy : pre.next k ∈ (pre ++ k :: rest).conditionsAt := mem_conditionsAt_split.2 (.inr (.inl rfl))
  have hhandle : (pre.next k).handle = some b := (Condition.handle_of_visit hv).symm.trans hb
  refine ⟨?_, visible_handle_eq_nil h hy hhandle⟩
  cases hk : k.element with
  | pattern mode q => exact (Condition.origins_handle_of_visit hk hv).1
  | test t => simp [ConditionAt.handle, next, hk] at hhandle

/-- **What a binding occurrence refers to** is the chosen one of those that are visible at it. -/
theorem origin_of_mem_binders {c : Context} {l : Lhs Symbol α} {r : Lhs Symbol Note}
    (hflat : l.isFlat = true) (h : l.compile c = .ok r) {b : Symbol × Origin} (hb : b ∈ l.binders) :
    ∃ n, r.nodes[b.2.id]? = some n ∧
      n.note.origin = n.position.choose (l.visible b.2.place.pattern b.2.id b.1) := by
  rw [← binders_compile h] at hb
  obtain ⟨y, hy, hb⟩ := List.mem_flatMap.1 hb
  have hpattern := (ConditionAt.place_of_mem_binders hb).1
  rcases List.mem_append.1 hb with hb | hb
  · have hid := ConditionAt.id_of_mem_handle hb
    have hb := Option.mem_toList.1 hb
    obtain ⟨n, hn, -, -, hnote⟩ := exists_node_of_mem_handle h hy hb
    obtain ⟨horigin, hempty⟩ := visible_handle_of_compile h y hy b hb
    refine ⟨n, hn, ?_⟩
    rw [hpattern, hid, hempty, hnote, horigin]
    rfl
  · obtain ⟨x, hx, hb⟩ := List.mem_filterMap.1 hb
    obtain ⟨n, hn, ⟨arity, hkind⟩, hposition, -⟩ := exists_node_of_mem_fields h hy hx hb
    have hresolved := (allFrom_resolved_of_compile hflat h b.2.id n hn b.1 arity hkind).1
    have hplace : n.position.pattern = b.2.place.pattern := by
      rw [hposition, (FieldAt.binder_eq_some_iff.1 hb).2]
      rfl
    rw [Nat.zero_add, hplace] at hresolved
    exact ⟨n, hn, hresolved⟩

/-! ## Following references -/

/-- The number of the binding occurrence that a node refers to. -/
def referent? (r : Lhs Symbol Note) (i : Nat) : Option Nat :=
  r.nodes[i]?.bind fun n => n.note.origin.map Origin.id

/-- One node refers to another. -/
def RefersTo (r : Lhs Symbol Note) (i j : Nat) : Prop := r.referent? i = some j

/-- Node number `i` is a binding occurrence of a name. -/
def Binds (l : Lhs Symbol α) (i : Nat) (x : Symbol) : Prop := ∃ o, (x, o) ∈ l.binders ∧ o.id = i

end Lhs

theorem Position.choose_eq_none_iff {p : Position} {os : List Origin} :
    p.choose os = none ↔ os = [] := by
  rw [choose, Option.or_eq_none_iff, List.head?_eq_none_iff]
  refine ⟨And.right, fun h => ⟨?_, h⟩⟩
  rw [h]
  rfl

namespace Lhs

/-- A binding occurrence refers to one that is visible at it, unless none is. -/
theorem referent?_of_mem_binders {c : Context} {l : Lhs Symbol α} {r : Lhs Symbol Note}
    (hflat : l.isFlat = true) (h : l.compile c = .ok r) {x : Symbol} {o : Origin}
    (ho : (x, o) ∈ l.binders) :
    (l.visible o.place.pattern o.id x = [] ∧ r.referent? o.id = none) ∨
      ∃ o' ∈ l.visible o.place.pattern o.id x, r.referent? o.id = some o'.id := by
  obtain ⟨n, hn, horigin⟩ := origin_of_mem_binders hflat h ho
  have hreferent : r.referent? o.id = n.note.origin.map Origin.id := by rw [referent?, hn]; rfl
  cases hsome : n.note.origin with
  | none =>
    rw [hsome] at horigin hreferent
    exact .inl ⟨Position.choose_eq_none_iff.1 horigin.symm, hreferent⟩
  | some o' =>
    rw [hsome] at horigin hreferent
    exact .inr ⟨o', Position.mem_of_choose horigin.symm, hreferent⟩

section Chain

variable {c : Context} {l : Lhs Symbol α} {r : Lhs Symbol Note} {pattern i : Nat} {x : Symbol}

/-- A step from a visible binding occurrence leads to an earlier one that is visible as well. -/
theorem exists_of_refersTo_visible (hl : l.Nested) (hflat : l.isFlat = true) (h : l.compile c = .ok r)
    {o : Origin} (ho : o ∈ l.visible pattern i x) {k : Nat} (hk : r.RefersTo o.id k) :
    ∃ o' ∈ l.visible pattern i x, o'.id = k ∧ k < o.id := by
  rcases referent?_of_mem_binders hflat h (mem_binders_of_mem_visible ho) with
    ⟨-, hnone⟩ | ⟨o', ho', hsome⟩
  · rw [RefersTo, hnone] at hk
    cases hk
  · obtain rfl := Option.some.inj (hsome.symm.trans hk)
    rw [visible_of_mem hl ho] at ho'
    obtain ⟨ho', hlt⟩ := List.mem_filter.1 ho'
    exact ⟨o', ho', rfl, of_decide_eq_true hlt⟩

/-- From a visible binding occurrence the references lead to the first visible one, which refers to
nothing. -/
theorem exists_root_of_mem_visible (hl : l.Nested) (hflat : l.isFlat = true)
    (h : l.compile c = .ok r) {o : Origin} (ho : o ∈ l.visible pattern i x) :
    ∃ root, (l.visible pattern i x).head? = some root ∧
      Relation.ReflTransGen r.RefersTo o.id root.id ∧ r.referent? root.id = none := by
  -- The numbers decrease along the references.
  induction hid : o.id using Nat.strong_induction_on generalizing o with
  | _ m ih =>
    subst hid
    have hhead := head?_visible_of_mem hl ho
    rcases referent?_of_mem_binders hflat h (mem_binders_of_mem_visible ho) with
      ⟨hempty, hnone⟩ | ⟨o', ho', hsome⟩
    · rw [hempty] at hhead
      exact ⟨o, hhead, .refl, hnone⟩
    · rw [visible_of_mem hl ho] at ho'
      obtain ⟨ho', hlt⟩ := List.mem_filter.1 ho'
      obtain ⟨root, hroot, hchain, hnone⟩ := ih o'.id (of_decide_eq_true hlt) ho' rfl
      exact ⟨root, hroot, .head hsome hchain, hnone⟩

/-- Whatever a node leads to is the node itself or a binding occurrence that it sees. -/
theorem eq_or_mem_visible_of_chain (hl : l.Nested) (hflat : l.isFlat = true) (h : l.compile c = .ok r)
    (hfirst : ∀ k, r.RefersTo i k → ∃ o ∈ l.visible pattern i x, o.id = k) {j : Nat}
    (hj : Relation.ReflTransGen r.RefersTo i j) : j = i ∨ ∃ o ∈ l.visible pattern i x, o.id = j := by
  induction hj with
  | refl => exact .inl rfl
  | tail _ hstep ih =>
    rcases ih with rfl | ⟨o, ho, rfl⟩
    · exact .inr (hfirst _ hstep)
    · obtain ⟨o', ho', hid, -⟩ := exists_of_refersTo_visible hl hflat h ho hstep
      exact .inr ⟨o', ho', hid⟩

end Chain

/-- **All occurrences of a variable in scope share one root.** If no depths are overridden, following
references from a variable leads to an earlier binding occurrence of its name at each step, and ends at
the first one that is visible at the variable, which refers to nothing. -/
theorem refers_to_first_visible {steps : List (Step String Unit)}
    (hsteps : Step.keepsDepthsAll steps = true) {t : SymbolTable} {l : Lhs Symbol Note}
    (hl : l = ((ofSteps steps).intern t).1) (hflat : l.isFlat = true) {c : Context}
    {r : Lhs Symbol Note} (h : l.compile c = .ok r) {i : Nat} {n : Node}
    (hn : r.nodes[i]? = some n) {x : Symbol} {arity : Arity} (hx : n.kind = .var x arity)
    (hset : n.note.origin ≠ none) :
    (∀ j k, Relation.ReflTransGen r.RefersTo i j → r.RefersTo j k → k < j ∧ l.Binds k x) ∧
      ∃ root, (l.visible n.position.pattern i x).head? = some root ∧
        Relation.TransGen r.RefersTo i root.id ∧ r.referent? root.id = none := by
  have hnested : l.Nested := by
    rw [hl]
    exact (nested_ofSteps hsteps).of_depths (map_depths_intern _ t).symm
  obtain ⟨o, ho⟩ := Option.ne_none_iff_exists'.1 hset
  have hreferent : r.referent? i = some o.id := by simp [referent?, hn, ho]
  have hvisible : o ∈ l.visible n.position.pattern i x := by
    have hresolved := (allFrom_resolved_of_compile hflat h i n hn x arity hx).1
    rw [Nat.zero_add] at hresolved
    exact Position.mem_of_choose (hresolved.symm.trans ho)
  have hfirst : ∀ k, r.RefersTo i k → ∃ o ∈ l.visible n.position.pattern i x, o.id = k :=
    fun k hk => ⟨o, hvisible, Option.some.inj (hreferent.symm.trans hk)⟩
  refine ⟨fun j k hj hk => ?_, ?_⟩
  · rcases eq_or_mem_visible_of_chain hnested hflat h hfirst hj with rfl | ⟨o', ho', rfl⟩
    · obtain ⟨o', ho', rfl⟩ := hfirst k hk
      obtain ⟨hmem, hsees⟩ := mem_visible_iff.1 ho'
      refine ⟨?_, o', hmem, rfl⟩
      obtain ⟨y, hy, hpattern, hid, -⟩ := exists_conditionAt_of_node hn
      rcases hsees with ⟨-, hlt⟩ | ⟨hlt, -⟩
      · exact hlt
      · rw [hpattern] at hlt
        exact id_lt_of_pattern_lt (b := (x, o')) ((binders_compile h).symm ▸ hmem) hy hlt hid
    · obtain ⟨o'', ho'', rfl, hlt⟩ := exists_of_refersTo_visible hnested hflat h ho' hk
      exact ⟨hlt, o'', mem_binders_of_mem_visible ho'', rfl⟩
  · obtain ⟨root, hroot, hchain, hnone⟩ := exists_root_of_mem_visible hnested hflat h hvisible
    exact ⟨root, hroot, .head' hreferent hchain, hnone⟩

/-- Three patterns over facts that bind `x`, the last one negated. -/
def threeBindings : List (Step String Unit) :=
  [.pattern (factPattern [some "x"]), .pattern (factPattern [some "x"]),
    .notPattern (factPattern [some "x"])]

/-- The field of the last pattern refers to that of the second one, and that to the first one. -/
theorem threeBindings_share_root :
    ∃ r, compiledSteps threeBindings = .ok r ∧ r.referent? 5 = some 3 ∧
      Relation.TransGen r.RefersTo 5 1 ∧ r.referent? 1 = none := by
  obtain ⟨r, hr, hcheck⟩ := exists_ok_of_check (e := compiledSteps threeBindings)
    (p := fun r => r.referent? 5 == some 3 && r.nodes[5]?.any fun (n : Node) =>
      decide (n.kind = .var ⟨0⟩ .single ∧ n.note.origin.isSome ∧
        ((((ofSteps threeBindings).intern .empty).1.visible n.position.pattern 5 ⟨0⟩).head?.map
          Origin.id = some 1)))
    (by decide +kernel)
  rw [Bool.and_eq_true, beq_iff_eq] at hcheck
  obtain ⟨hreferent, hcheck⟩ := hcheck
  obtain ⟨n, hn, hcheck⟩ := (Option.any_eq_true _ _).1 hcheck
  obtain ⟨hkind, hsome, hfirst⟩ := of_decide_eq_true hcheck
  obtain ⟨-, root, hroot, hchain, hnone⟩ := @refers_to_first_visible threeBindings
    (by decide +kernel) _ _ rfl (by decide +kernel) _ _ hr _ _ hn _ _ hkind
    (Option.isSome_iff_ne_none.1 hsome)
  rw [hroot] at hfirst
  obtain hid : root.id = 1 := Option.some.inj hfirst
  rw [hid] at hchain hnone
  exact ⟨r, hr, hreferent, hchain, hnone⟩

end Lhs

end Antecedent
