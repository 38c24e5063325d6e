import Antecedent.Proofs.Entries
import Antecedent.Proofs.Roots

/-!
# How variables are narrowed

Every binding in scope narrows the variables of its name: a binding occurrence by the restriction that
it has accumulated itself, and a field or a test by what it demands of a variable.

* `Lhs.Narrows` lists the restrictions that narrow an occurrence, without scopes: those of the visible
  binding occurrences of its name, those that visible fields demand, and those that earlier tests
  demand.
* `Lhs.Accumulates` says that a variable accumulates what is in scope at it; all variables of a compiled
  left-hand side do.
* `Lhs.Narrows.exists_inScope` and `Lhs.narrows_of_inScope` say that what is in scope is what narrows.
* `Lhs.passes_restriction_iff` says that the restriction noted at a variable admits a literal exactly if
  the declared restriction and everything that narrows the variable admit it.
-/

namespace Antecedent

variable {α : Type}

/-! ## What narrows an occurrence -/

/-- A restriction narrows the occurrence of the variable `x` at node number `i` of condition number
`pattern` in a compiled left-hand side. -/
inductive Lhs.Narrows (e : Environment) (r : Lhs Symbol Note) (pattern i : Nat) (x : Symbol) :
    Option Restriction → Prop where
  /-- A visible binding occurrence narrows by the restriction noted at its own node. -/
  | binding {o : Origin} {n : Node} (mem : (x, o) ∈ r.binders) (sees : r.Sees pattern i o)
      (node : r.nodes[o.id]? = some n) : Narrows e r pattern i x n.note.restriction
  /-- A field narrows what comes after it by what it demands of the variable. -/
  | field {y : ConditionAt Note} {z : FieldAt Note} {d : Demand} (condition : y ∈ r.conditionsAt)
      (mem : z ∈ y.fields) (sees : r.Sees pattern i ⟨z.id, z.place⟩)
      (outside : ¬ (z.id ≤ i ∧ i < z.id + z.field.size)) (demand : d ∈ Field.demands e z.conjuncts)
      (name : d.name = x) : Narrows e r pattern i x (some d.restriction)
  /-- An earlier test narrows by what it demands of the variable. -/
  | test {y : ConditionAt Note} {t : Term Symbol Note} {d : Demand} (condition : y ∈ r.conditionsAt)
      (element : y.condition.element = .test t) (earlier : y.pattern < pattern)
      (seen : ∀ k ∈ r.between (y.pattern - 1) (pattern - 1), y.condition.beginDepth ≤ k.endDepth)
      (demand : d ∈ t.demands e) (name : d.name = x) : Narrows e r pattern i x (some d.restriction)

/-! ## What the variables find -/

/-- A node that is a variable has no declared restriction and finds what is in a scope. -/
def Node.Finds (σ : Scope) (v : Viewpoint) (n : Node) : Prop :=
  ∀ x arity, n.kind = .var x arity → n.declared = none ∧ n.note = σ.note v x n.negated none

mutual

theorem Term.finds_of_mem_nodes {σ : Scope} {v : Viewpoint} {p : Position} {id : Nat}
    {next : Option Nat} {t : Term Symbol α} {n : Node} (h : n ∈ (t.resolve σ v).nodes p id next) :
    n.Finds σ v := by
  intro x arity hx
  cases t with
  | call f args =>
    rcases List.mem_cons.1 h with rfl | h
    · cases hx
    · exact Term.finds_of_mem_nodesAll h x arity hx
  | var y arity' note =>
    obtain rfl := List.mem_singleton.1 h
    cases hx
    exact ⟨rfl, rfl⟩
  | lit value =>
    obtain rfl := List.mem_singleton.1 h
    cases hx
  | global y =>
    obtain rfl := List.mem_singleton.1 h
    cases hx

theorem Term.finds_of_mem_nodesAll {σ : Scope} {v : Viewpoint} {p : Position} {id : Nat}
    {ts : List (Term Symbol α)} {n : Node} (h : n ∈ Term.nodesAll p id (Term.resolveAll σ v ts)) :
    n.Finds σ v := by
  cases ts with
  | nil => cases h
  | cons t ts =>
    rcases List.mem_append.1 h with h | h
    · exact Term.finds_of_mem_nodes h
    · exact Term.finds_of_mem_nodesAll h

end

theorem Constraint.finds_of_mem_nodes {σ : Scope} {v : Viewpoint} {p : Position} {id : Nat}
    {next child : Option Nat} {k : Constraint Symbol α} {n : Node}
    (h : n ∈ (k.resolve σ v).nodes p id next child) : n.Finds σ v := by
  intro x arity hx
  obtain ⟨shape, negated⟩ := k
  cases shape with
  | literal value =>
    obtain rfl := List.mem_singleton.1 h
    cases hx
  | var y arity' note =>
    obtain rfl := List.mem_singleton.1 h
    cases hx
    exact ⟨rfl, rfl⟩
  | predicate t =>
    rcases List.mem_cons.1 h with rfl | h
    · cases hx
    · exact Term.finds_of_mem_nodes h x arity hx
  | returnValue t =>
    rcases List.mem_cons.1 h with rfl | h
    · cases hx
    · exact Term.finds_of_mem_nodes h x arity hx

theorem Constraint.finds_of_mem_nodesAll {σ : Scope} {v : Viewpoint} {p : Position} {id : Nat}
    {ks : List (Constraint Symbol α)} {n : Node}
    (h : n ∈ nodesAll p id (ks.map (Constraint.resolve σ v))) : n.Finds σ v := by
  induction ks generalizing id with
  | nil => cases h
  | cons k ks ih =>
    rcases List.mem_append.1 h with h | h
    · exact finds_of_mem_nodes h
    · exact ih h

theorem Alternative.finds_of_mem_nodesAll {σ : Scope} {v : Viewpoint} {p : Position} {id : Nat}
    {as : List (Alternative Symbol α)} {n : Node}
    (h : n ∈ nodesAll p id (as.map (Alternative.resolve σ v))) : n.Finds σ v := by
  induction as generalizing id with
  | nil => cases h
  | cons a as ih =>
    rcases List.mem_append.1 h with h | h
    · rcases List.mem_append.1 h with h | h
      · exact Constraint.finds_of_mem_nodes h
      · exact Constraint.finds_of_mem_nodesAll h
    · exact ih h

/-- A variable at node number `i` has accumulated, on top of its declared restriction, those of all
bindings in scope there. -/
def Lhs.Accumulates (e : Environment) (u : Lhs Symbol Note) (i : Nat) (n : Node) : Prop :=
  ∀ x arity, n.kind = .var x arity → n.negated = false →
    ∃ σ : Scope, σ.Proper ∧ (∀ a ∈ n.declared, a.Proper) ∧
      n.note.restriction = σ.restriction? x n.declared ∧
      ∀ b, b ∈ σ ↔ u.InScope e n.position.pattern i b

/-- The variables below a field or a test accumulate what is in scope there. -/
theorem Node.described_accumulates {e : Environment} {u : Lhs Symbol Note} {p : Position} {σ : Scope}
    {v : Viewpoint} {id : Nat} {ns : List Node} (h : ∀ n ∈ ns, n.position = p ∧ n.Finds σ v)
    (hσ : σ.Proper)
    (hscope : ∀ i b, id ≤ i → i < id + ns.length → (b ∈ σ ↔ u.InScope e p.pattern i b)) :
    Node.Described (u.Accumulates e) id ns := by
  intro i n hn x arity hx hnegated
  obtain ⟨hi, rfl⟩ := List.getElem?_eq_some_iff.1 hn
  obtain ⟨hposition, hfinds⟩ := h _ (List.getElem_mem hi)
  obtain ⟨hdeclared, hnote⟩ := hfinds x arity hx
  have hdeclared : ns[i].unlinked.declared = none := hdeclared
  have hposition : ns[i].unlinked.position = p := hposition
  have hrestriction : ns[i].unlinked.note.restriction = σ.restriction? x none := by
    change ns[i].note.restriction = _
    have hnegated : ns[i].negated = false := hnegated
    rw [hnote, hnegated]
    rfl
  refine ⟨σ, hσ, ?_, ?_, fun b => ?_⟩
  · rw [hdeclared]
    simp
  · rw [hrestriction, hdeclared]
  · rw [hposition]
    exact hscope (id + i) b (by omega) (by omega)

/-- A compiled plain field is plain, its variable accumulates what is in its scope, and its alternatives
are resolved in that scope together with its own binding. -/
theorem FieldVisit.exists_resolved_result {c : Context} {t : FieldVisit α}
    (h : t.source.Compiles c t.scope t.visited) (hplain : t.source.field.isPlain = true) :
    ∃ (b : Binder Symbol) (as : List (Alternative Symbol α)) (n : Note),
      t.result.field = .plain b (as.map (Alternative.resolve
        (t.scope ++ (t.source.own t.scope).toList) t.source.place.viewpoint))
          t.source.field.declared n ∧
      ∀ x arity, b = .var x arity →
        n.restriction = t.scope.restriction? x t.source.field.declared := by
  obtain ⟨σ, ⟨p, id, f⟩, visited⟩ := t
  obtain ⟨bound, -, hv⟩ := h
  dsimp only at hv
  subst hv
  cases f with
  | multi ps as declared n => cases hplain
  | plain b as declared n =>
    refine ⟨b, as, _, rfl, fun x arity hb => ?_⟩
    subst hb
    rfl

/-- The variables of a compiled field accumulate what is in scope at it and below it. -/
theorem FieldVisit.described_accumulates {c : Context} {e : Environment} {u : Lhs Symbol Note}
    {t : FieldVisit α} (h : t.source.Compiles c t.scope t.visited)
    (hplain : t.source.field.isPlain = true) (hσ : t.scope.Proper)
    (hdeclared : ∀ a ∈ t.source.field.declared, a.Proper)
    (hscope : ∀ i b, t.source.id ≤ i → i < t.source.id + t.source.field.size →
      (b ∈ t.scope ∨ (t.source.id < i ∧ b ∈ t.source.own t.scope) ↔
        u.InScope e t.source.place.pattern i b)) (endDepth : Nat) :
    Node.Described (u.Accumulates e) t.result.id (t.result.nodes endDepth) := by
  obtain ⟨b, as, n, hfield, hrestriction⟩ := exists_resolved_result h hplain
  have hown : Scope.Proper (t.source.own t.scope).toList := by
    intro b' hb'
    obtain ⟨⟨y, arity⟩, -, rfl⟩ := Option.map_eq_some_iff.1 (Option.mem_toList.1 hb')
    exact Scope.proper_restriction? hσ hdeclared y
  have hsize := Field.size_eq_of_bare h.bare_result
  rw [show t.visited.result = t.result.field from rfl, hfield, Field.size] at hsize
  rw [FieldAt.nodes, hfield, Field.nodes]
  refine Node.numbered_cons.2 ⟨fun x arity hx _ => ?_, ?_⟩
  · have hb : b = .var x arity := by
      cases b with
      | var y arity' =>
        obtain ⟨rfl, rfl⟩ := NodeKind.var.inj hx
        rfl
      | wildcard arity' => cases hx
    refine ⟨t.scope, hσ, hdeclared, hrestriction x arity hb, fun b' => ?_⟩
    refine Iff.trans ?_ (hscope t.source.id b' (Nat.le_refl _) (by omega))
    exact (or_iff_left fun hlt => Nat.lt_irrefl _ hlt.1).symm
  · refine Node.described_accumulates (p := t.source.place.position endDepth)
      (fun m hm => ⟨(Alternative.foundIn_of_mem_nodesAll hm).position_eq,
        Alternative.finds_of_mem_nodesAll hm⟩) (hσ.append hown) fun i b' hlo hhi => ?_
    have hlo : t.source.id + 1 ≤ i := hlo
    have hhi : i < t.source.id + 1 + _ := hhi
    rw [Alternative.length_nodesAll] at hhi
    rw [List.mem_append, Option.mem_toList]
    refine Iff.trans (or_congr_right ?_) (hscope i b' (by omega) (by omega))
    exact (and_iff_right (by omega)).symm

/-- The node of a condition is no variable. -/
theorem ConditionAt.accumulates_node (e : Environment) (u : Lhs Symbol Note) (y : ConditionAt Note) :
    u.Accumulates e y.id y.node := by
  intro x arity hx
  have hx : y.nodeKind = .var x arity := hx
  unfold ConditionAt.nodeKind at hx
  split at hx <;> cases hx

/-- The scope of a field has proper restrictions if the scope in front of all fields has. -/
theorem FieldVisit.Run.proper_scope {c : Context} (he : c.env.Proper) {σ : Scope}
    {us ws : List (FieldVisit α)} {t : FieldVisit α} (h : Run c σ (us ++ t :: ws)) (hσ : σ.Proper)
    (hdeclared : ∀ s ∈ us, ∀ a ∈ s.source.field.declared, a.Proper) : t.scope.Proper := by
  obtain ⟨hbefore, hscope⟩ := h.scope_eq
  rw [hscope]
  exact hσ.append (hbefore.proper_bindings he hσ hdeclared)

section Visit

variable {c : Context} {pre post : Lhs Symbol Note} {rest : Lhs Symbol α} {k : Condition Symbol α}
  {τ : Scope} {v : VisitedCondition}

/-- The variables of the fields of a compiled condition accumulate what is in scope there. -/
theorem Condition.accumulates_fields_of_visit (he : c.env.Proper) (hτ : τ.Collects c.env pre)
    (h : k.visit c (pre.length + 1) pre.joins pre.nodeCount τ rest = .ok v)
    (hflat : k.isFlat = true)
    (hk : (⟨pre.length + 1, pre.joins, pre.nodeCount, k⟩ : ConditionAt α).Proper)
    {z : FieldAt Note} (hz : z ∈ (pre.next v.condition).fields) (endDepth : Nat) :
    Node.Described (Lhs.Accumulates c.env (pre ++ v.condition :: post)) z.id (z.nodes endDepth) := by
  cases helement : k.element with
  | test t =>
    obtain ⟨w, -, hv, -⟩ := exists_bind_of_visit helement h
    rw [ConditionAt.fields, Condition.fieldsAt, show (pre.next v.condition).condition.element = _ from
      congrArg Condition.element hv] at hz
    cases hz
  | pattern mode q =>
    obtain ⟨ts, hrun, hsource, hresult, -, -, -⟩ := exists_run_of_visit helement h
    have hz : z ∈ ts.map FieldVisit.result := hresult ▸ hz
    obtain ⟨t, ht, rfl⟩ := List.mem_map.1 hz
    have hmem : ∀ s ∈ ts, s.source ∈ k.fieldsAt (pre.length + 1) pre.joins pre.nodeCount :=
      fun s hs => hsource ▸ List.mem_map_of_mem hs
    have hpattern : t.source.place.pattern = pre.length + 1 :=
      (samePattern_of_mem_fieldsAt helement (hmem t ht)).pattern_eq
    have hcompiles := hrun.compiles t ht
    have hsize : t.result.field.size = t.source.field.size :=
      Field.size_eq_of_bare hcompiles.bare_result
    obtain ⟨us, ws, rfl⟩ := List.append_of_mem ht
    obtain ⟨hbefore, hscope⟩ := hrun.scope_eq
    have hfields : (pre.next v.condition).fields =
        us.map FieldVisit.result ++ t.result :: ws.map FieldVisit.result := by
      rw [← List.map_cons, ← List.map_append]
      exact hresult.symm
    have hproper : t.scope.Proper :=
      hrun.proper_scope he (hτ.proper.append (Scope.proper_handle _ _ q)) fun s hs =>
        hk s.source (hmem s (List.mem_append_left _ hs))
    refine FieldVisit.described_accumulates hcompiles (isPlain_of_mem_fieldsAt hflat (hmem t ht))
      hproper (hk t.source (hmem t ht)) (fun i b hlo hhi => ?_) _
    have hentries := ConditionAt.exists_entry_iff (demands_of_visit h helement c.env) hfields
      (i := i) (b := b) hlo (hsize.symm ▸ hhi)
    rw [hpattern, Lhs.inScope_iff hτ]
    refine Iff.trans ?_ (or_congr_right hentries).symm
    rw [handleBinding_of_visit h helement, FieldVisit.ownBinding_result hcompiles,
      hbefore.map_binding_entries, ← or_assoc, ← List.mem_append, ← List.append_assoc, ← hscope]
    rfl

/-- The variables of a compiled test accumulate what is in scope there. -/
theorem Condition.accumulates_test_of_visit (hτ : τ.Collects c.env pre)
    (h : k.visit c (pre.length + 1) pre.joins pre.nodeCount τ rest = .ok v) {u : Term Symbol Note}
    (hu : (pre.next v.condition).condition.element = .test u) (p : Position)
    (hp : p.pattern = pre.length + 1) :
    Node.Described (Lhs.Accumulates c.env (pre ++ v.condition :: post)) (pre.nodeCount + 1)
      (u.nodes p (pre.nodeCount + 1) none) := by
  cases helement : k.element with
  | pattern mode q => exact absurd hu (element_ne_test_of_bare (bare_of_visit h) helement u)
  | test t =>
    obtain ⟨w, -, hv, -⟩ := exists_bind_of_visit helement h
    have helement' : (pre.next v.condition).condition.element =
        .test (t.resolve τ ⟨pre.length + 1, none⟩) := congrArg Condition.element hv
    obtain rfl := Element.test.inj (helement'.symm.trans hu)
    refine Node.described_accumulates (fun m hm => ⟨(Term.foundIn_of_mem_nodes hm).position_eq,
      Term.finds_of_mem_nodes hm⟩) hτ.proper fun i b hlo hhi => ?_
    have hsize : (pre.next v.condition).condition.size =
        1 + (t.resolve τ ⟨pre.length + 1, none⟩).size := by
      rw [Condition.size, helement']
    rw [Term.length_nodes] at hhi
    have hid : (pre.next v.condition).id = pre.nodeCount := rfl
    have hnone := ConditionAt.not_exists_entry_of_test helement' (e := c.env) (b := b) (i := i)
      (by omega)
    rw [hp]
    exact ((Lhs.inScope_iff hτ).trans (or_iff_left hnone)).symm

end Visit

/-! ## Compiled left-hand sides -/

namespace Lhs

theorem outlasts_collapse_iff {u : Lhs Symbol Note} {pattern : Nat} {y : ConditionAt Note} :
    (collapse u).Outlasts pattern y ↔ u.Outlasts pattern y := by
  rw [Outlasts, Outlasts, forall_between_iff, forall_between_iff, map_depths_of_bare (bare_collapse u)]

/-- Collapsing negated runs does not change what is in scope. -/
theorem inScope_collapse_iff {e : Environment} {u : Lhs Symbol Note} {pattern i : Nat} {b : Binding} :
    (collapse u).InScope e pattern i b ↔ u.InScope e pattern i b := by
  refine (exists_mem_iff_of_forall₂ (forall₂_conditionsFrom (forall₂_collapse u) 1 0 0) ?_).symm
  rintro z y ⟨d, rfl⟩
  refine exists_congr fun m => and_congr_right fun _ => and_congr_right fun _ => ?_
  exact or_congr_right (and_congr_right fun _ => outlasts_collapse_iff.symm)

/-- Every variable of a compiled left-hand side accumulates what is in scope at it. -/
theorem described_accumulates {c : Context} {l : Lhs Symbol α} {r : Lhs Symbol Note}
    (hflat : l.isFlat = true) (he : c.env.Proper) (hl : ∀ y ∈ l.conditionsAt, y.Proper)
    (h : l.compile c = .ok r) : Node.Described (r.Accumulates c.env) 0 r.nodes := by
  refine (described_nodes_iff h fun i n hkind _ x arity hx => ?_).2 ?_
  · rw [hkind] at hx
    cases hx
  obtain ⟨u, hu, rfl⟩ := exists_compileFrom_of_compile h
  have hsame : (collapse u).Accumulates c.env = u.Accumulates c.env := by
    funext i n
    simp only [Accumulates, inScope_collapse_iff]
  rw [hsame]
  have hinside : ∀ y ∈ (collapse u).conditionsAt,
      (∀ z ∈ y.fields, Node.Described (u.Accumulates c.env) z.id (z.nodes y.condition.endDepth)) ∧
      ∀ t, y.condition.element = .test t → Node.Described (u.Accumulates c.env) (y.id + 1)
        (t.nodes y.position (y.id + 1) none) := by
    refine (forall_conditionsAt_collapse (fun z d => Iff.rfl) u).2 fun z hz => ?_
    obtain ⟨pre, post, k, rest, τ, v, heq, hmem, hk, hv, hτ, rfl⟩ :=
      exists_visit_collecting he (Scope.collects_nil c.env) hl hu hz
    have heq : u = pre ++ v.condition :: post := heq
    rw [heq]
    have hk' := List.all_eq_true.1 hflat k hmem
    exact ⟨fun z hz => Condition.accumulates_fields_of_visit he hτ hv hk' hk hz _,
      fun t ht => Condition.accumulates_test_of_visit hτ hv ht _ rfl⟩
  exact fun y hy => ⟨y.accumulates_node c.env u, (hinside y hy).1, (hinside y hy).2⟩

end Lhs

/-- The note at a condition with a handle restricts it to an address. -/
theorem Condition.restriction_of_visit {c : Context} {pattern joins id : Nat} {σ : Scope}
    {rest : Lhs Symbol α} {k : Condition Symbol α} {v : VisitedCondition}
    (h : k.visit c pattern joins id σ rest = .ok v) {b : Symbol × Origin}
    (hb : b ∈ (⟨pattern, joins, id, v.condition⟩ : ConditionAt Note).handle) :
    v.condition.note.restriction = some .address := by
  rw [handle_of_visit h] at hb
  obtain ⟨element, beginDepth, endDepth, n⟩ := k
  cases element with
  | test t => cases hb
  | pattern mode q =>
    obtain ⟨x, hx, -⟩ := Option.map_eq_some_iff.1 hb
    obtain ⟨-, -, h⟩ := bind_eq_ok.1 h
    obtain ⟨-, -, h⟩ := bind_eq_ok.1 h
    obtain ⟨ws, -, h⟩ := bind_eq_ok.1 h
    obtain rfl := pure_eq_ok.1 h
    simp [Pattern.binding?, hx]

namespace Lhs

theorem restriction_of_mem_handle {c : Context} {l : Lhs Symbol α} {r : Lhs Symbol Note}
    (h : l.compile c = .ok r) : ∀ y ∈ r.conditionsAt, ∀ b ∈ y.handle,
      y.condition.note.restriction = some .address := by
  obtain ⟨u, hu, rfl⟩ := exists_compileFrom_of_compile h
  refine (forall_conditionsAt_collapse (fun z d => Iff.rfl) u).2 fun z hz b hb => ?_
  obtain ⟨k, σ, rest, v, -, hv, hcondition, -⟩ := exists_visit_of_mem hu Scope.before_nil hz
  obtain ⟨pattern, joins, id, condition⟩ := z
  obtain rfl : v.condition = condition := hcondition
  exact Condition.restriction_of_visit hv hb

/-- A binding occurrence or a field in a condition is visible where its condition is outlasted. -/
theorem sees_iff_outlasts {r : Lhs Symbol Note} {y : ConditionAt Note} (hy : y ∈ r.conditionsAt)
    {o : Origin} (ho : o.place.pattern = y.pattern) {pattern i : Nat} :
    r.Sees pattern i o ↔ (y.pattern = pattern ∧ o.id < i) ∨
      (y.pattern < pattern ∧ r.Outlasts pattern y) := by
  have hget : r[o.place.pattern - 1]? = some y.condition := by
    rw [ho]
    exact (getElem?_of_mem_conditionsFrom hy).2
  rw [Sees, reaches_iff_of_getElem? hget, ho, Outlasts]

/-- What narrows a node is in scope there. -/
theorem Narrows.exists_inScope {c : Context} {l : Lhs Symbol α} {r : Lhs Symbol Note}
    (h : l.compile c = .ok r) {e : Environment} {pattern i : Nat} {x : Symbol}
    {q : Option Restriction} (hq : r.Narrows e pattern i x q) :
    ∃ b, r.InScope e pattern i b ∧ b.name = x ∧ b.restriction = q := by
  cases hq with
  | @binding o n mem sees node =>
    obtain ⟨y, hy, hb⟩ := List.mem_flatMap.1 mem
    have hseen := (sees_iff_outlasts hy (ConditionAt.place_of_mem_binders hb).1).1 sees
    rcases List.mem_append.1 hb with hb | hb
    · have hid : o.id = y.id := ConditionAt.id_of_mem_handle hb
      have hb := Option.mem_toList.1 hb
      obtain ⟨n', hn', -, -, hnote⟩ := exists_node_of_mem_handle h hy hb
      obtain rfl := Option.some.inj (hn'.symm.trans node)
      rw [hnote, restriction_of_mem_handle h y hy _ hb]
      rw [hid] at hseen
      refine ⟨⟨x, .single, some o, some .address, y.condition.beginDepth⟩, ?_, rfl, rfl⟩
      exact ⟨y, hy, _, ConditionAt.mem_entries_iff.2
        (.inl ⟨_, Option.map_eq_some_iff.2 ⟨_, hb, rfl⟩, rfl⟩), rfl, hseen⟩
    · obtain ⟨z, hz, hb⟩ := List.mem_filterMap.1 hb
      obtain ⟨n', hn', -, -, hnote⟩ := exists_node_of_mem_fields h hy hz hb
      obtain rfl := Option.some.inj (hn'.symm.trans node)
      obtain ⟨⟨arity, hbinds⟩, horigin⟩ := FieldAt.binder_eq_some_iff.1 hb
      obtain rfl : o = ⟨z.id, z.place⟩ := horigin
      rw [hnote]
      refine ⟨⟨x, arity, some ⟨z.id, z.place⟩, z.field.note.restriction, z.place.beginDepth⟩, ?_, rfl,
        rfl⟩
      exact ⟨y, hy, _, ConditionAt.mem_entries_iff.2 (.inr (.inl ⟨z, hz, FieldAt.mem_entries_iff.2
        (.inr ⟨_, Option.map_eq_some_iff.2 ⟨_, hbinds, rfl⟩, rfl⟩)⟩)), rfl, hseen⟩
  | @field y z d hy hz sees outside hd name =>
    have hseen := (sees_iff_outlasts hy (ConditionAt.place_of_mem_fields hz).1).1 sees
    refine ⟨d.binding z.place.beginDepth, ⟨y, hy, _, ConditionAt.mem_entries_iff.2 (.inr (.inl
      ⟨z, hz, FieldAt.mem_entries_iff.2 (.inl ⟨d, hd, rfl⟩)⟩)), rfl, ?_⟩, name, rfl⟩
    refine hseen.imp_left fun ⟨heq, hlt⟩ => ⟨heq, ?_⟩
    dsimp only at hlt ⊢
    omega
  | @test y t d hy element earlier seen hd name =>
    have hdemand : d ∈ y.demands e := by
      rw [ConditionAt.demands, element]
      exact hd
    have hmode : y.condition.mode = .plain := by rw [Condition.mode, element]
    exact ⟨d.binding y.condition.beginDepth, ⟨y, hy, _, ConditionAt.mem_entries_iff.2
      (.inr (.inr ⟨d, hdemand, rfl⟩)), rfl, .inr ⟨earlier, hmode, seen⟩⟩, name, rfl⟩

section Entries

variable {c : Context} {l : Lhs Symbol α} {r : Lhs Symbol Note} {e : Environment} {y : ConditionAt Note}
  {pattern i : Nat}

theorem narrows_of_mem_handleBinding (h : l.compile c = .ok r) (hy : y ∈ r.conditionsAt) {b : Binding}
    (hb : b ∈ y.handleBinding) (hseen : (y.pattern = pattern ∧ y.id + 1 ≤ i) ∨
      (y.pattern < pattern ∧ r.Outlasts pattern y)) : r.Narrows e pattern i b.name b.restriction := by
  obtain ⟨⟨x, o⟩, ho, rfl⟩ := Option.map_eq_some_iff.1 hb
  have hmem : (x, o) ∈ y.binders := List.mem_append_left _ (Option.mem_toList.2 ho)
  have hid : o.id = y.id := ConditionAt.id_of_mem_handle (Option.mem_toList.2 ho)
  have hsees : r.Sees pattern i o :=
    (sees_iff_outlasts hy (ConditionAt.place_of_mem_binders hmem).1).2 (hid ▸ hseen)
  obtain ⟨n, hn, -, -, hnote⟩ := exists_node_of_mem_handle h hy ho
  have hnarrows := Narrows.binding (e := e) (x := x) (List.mem_flatMap.2 ⟨y, hy, hmem⟩) hsees hn
  rw [hnote, restriction_of_mem_handle h y hy _ ho] at hnarrows
  exact hnarrows

theorem narrows_of_mem_ownBinding (h : l.compile c = .ok r) (hy : y ∈ r.conditionsAt)
    {z : FieldAt Note} (hz : z ∈ y.fields) {b : Binding} (hb : b ∈ z.ownBinding)
    (hseen : (y.pattern = pattern ∧ z.id + 1 ≤ i) ∨ (y.pattern < pattern ∧ r.Outlasts pattern y)) :
    r.Narrows e pattern i b.name b.restriction := by
  obtain ⟨⟨x, arity⟩, hbinds, rfl⟩ := Option.map_eq_some_iff.1 hb
  have hbinder : z.binder = some (x, ⟨z.id, z.place⟩) :=
    FieldAt.binder_eq_some_iff.2 ⟨⟨arity, hbinds⟩, rfl⟩
  have hmem : (x, ⟨z.id, z.place⟩) ∈ y.binders :=
    List.mem_append_right _ (List.mem_filterMap.2 ⟨z, hz, hbinder⟩)
  have hsees : r.Sees pattern i ⟨z.id, z.place⟩ :=
    (sees_iff_outlasts hy (ConditionAt.place_of_mem_fields hz).1).2 hseen
  obtain ⟨n, hn, -, -, hnote⟩ := exists_node_of_mem_fields h hy hz hbinder
  have hnarrows := Narrows.binding (e := e) (x := x) (List.mem_flatMap.2 ⟨y, hy, hmem⟩) hsees hn
  rw [hnote] at hnarrows
  exact hnarrows

theorem narrows_of_mem_fieldDemands {y₀ : ConditionAt Note} (hy₀ : y₀ ∈ r.conditionsAt)
    (hi : y₀.id ≤ i) (hy : y ∈ r.conditionsAt) {z : FieldAt Note} (hz : z ∈ y.fields) {d : Demand}
    (hd : d ∈ Field.demands e z.conjuncts)
    (hseen : (y.pattern = y₀.pattern ∧ z.id + z.field.size ≤ i) ∨
      (y.pattern < y₀.pattern ∧ r.Outlasts y₀.pattern y)) :
    r.Narrows e y₀.pattern i d.name (some d.restriction) := by
  have hsees : r.Sees y₀.pattern i ⟨z.id, z.place⟩ := by
    refine (sees_iff_outlasts hy (ConditionAt.place_of_mem_fields hz).1).2
      (hseen.imp_left fun hstart => ⟨hstart.1, ?_⟩)
    exact Nat.lt_of_lt_of_le (Nat.lt_add_of_pos_right z.field.size_pos) hstart.2
  refine .field hy hz hsees ?_ hd rfl
  rintro ⟨-, hinside⟩
  rcases hseen with ⟨-, hstart⟩ | ⟨hlt, -⟩
  · exact absurd hstart (Nat.not_le.2 hinside)
  · have hle := id_add_size_le_of_pattern_lt hy hy₀ hlt
    have hend := y.spread_fields.id_add_size_le hz
    omega

end Entries

/-- What is in scope at a node narrows it. -/
theorem narrows_of_inScope {c : Context} {l : Lhs Symbol α} {r : Lhs Symbol Note}
    (h : l.compile c = .ok r) {i : Nat} {n : Node} (hn : r.nodes[i]? = some n) {e : Environment}
    {b : Binding} (hb : r.InScope e n.position.pattern i b) :
    r.Narrows e n.position.pattern i b.name b.restriction := by
  obtain ⟨y₀, hy₀, hpattern, hlo, hhi⟩ := exists_conditionAt_of_node hn
  rw [hpattern] at hb ⊢
  obtain ⟨y, hy, m, hm, rfl, hseen⟩ := hb
  rcases ConditionAt.mem_entries_iff.1 hm with ⟨b, hb, rfl⟩ | ⟨z, hz, hm⟩ | ⟨d, hd, rfl⟩
  · exact narrows_of_mem_handleBinding h hy hb hseen
  · rcases FieldAt.mem_entries_iff.1 hm with ⟨d, hd, rfl⟩ | ⟨b, hb, rfl⟩
    · exact narrows_of_mem_fieldDemands hy₀ hlo hy hz hd hseen
    · exact narrows_of_mem_ownBinding h hy hz hb hseen
  · cases htest : y.condition.element with
    | pattern mode q =>
      rw [ConditionAt.demands, htest] at hd
      cases hd
    | test t =>
      rw [ConditionAt.demands, htest] at hd
      rcases hseen with ⟨heq, hstart⟩ | ⟨hlt, -, hends⟩
      · obtain rfl := eq_of_pattern_eq hy hy₀ heq
        exact absurd hstart (Nat.not_le.2 hhi)
      · exact .test hy htest hlt hends hd rfl

/-- **Accumulated restrictions are exact**: if the bounds in the declared restrictions and in the
signatures are numbers, then the restriction noted at an occurrence of a variable that is not negated
admits a literal exactly if the declared restriction of the occurrence admits it and so does every
restriction that narrows the occurrence. -/
theorem passes_restriction_iff {c : Context} {l : Lhs Symbol α} {r : Lhs Symbol Note}
    (hflat : l.isFlat = true) (he : c.env.Proper) (hl : ∀ y ∈ l.conditionsAt, y.Proper)
    (h : l.compile c = .ok r) {i : Nat} {n : Node} (hn : r.nodes[i]? = some n) {x : Symbol}
    {arity : Arity} (hx : n.kind = .var x arity) (hnegated : n.negated = false)
    (v : Literal Symbol) :
    Restriction.Passes n.note.restriction v ↔ Restriction.Passes n.declared v ∧
      ∀ q, r.Narrows c.env n.position.pattern i x q → Restriction.Passes q v := by
  have hnode : r.Accumulates c.env (0 + i) n := described_accumulates hflat he hl h i n hn
  rw [Nat.zero_add] at hnode
  obtain ⟨σ, hσ, hdeclared, hrestriction, hscope⟩ := hnode x arity hx hnegated
  rw [hrestriction, Scope.passes_restriction? hσ hdeclared]
  refine and_congr_right fun _ => ⟨fun hpasses q hq => ?_, fun hpasses b hb hname => ?_⟩
  · obtain ⟨b, hb, hname, rfl⟩ := hq.exists_inScope h
    exact hpasses b ((hscope b).2 hb) hname
  · subst hname
    exact hpasses b.restriction (narrows_of_inScope h hn ((hscope b).1 hb))

/-- A pattern that binds a number up to 10, a test that compares it, and a pattern with the same
variable. -/
def comparedNumber : List (Step String Unit) :=
  [.pattern
      { kind := .fact
        handle := none
        slots := [⟨none, .plain (.var "x" .single) []
          (some (Restriction.any.withRange ⟨none, some (.ofInt 10)⟩)) ()⟩] },
    .test (.call ">" [.var "x" .single (), .lit (.integer 3)]),
    .pattern (factPattern [some "x"])]

/-- A context in which the comparison takes numbers. -/
def comparingNumbers : Context :=
  ⟨(Environment.empty.defineFunction ">" (.uniform .numeric)).2, .standard⟩

/-- The variable of the last pattern, which is node number 7, is narrowed to numbers up to 10. -/
theorem comparedNumber_narrowed :
    ∃ r, ((ofSteps comparedNumber).intern comparingNumbers.env.symbols).1.compile comparingNumbers =
        .ok r ∧
      (∀ q, r.Narrows comparingNumbers.env 3 7 ⟨1⟩ q → Restriction.Passes q (.integer 5)) ∧
      (∃ q, r.Narrows comparingNumbers.env 3 7 ⟨1⟩ q ∧ ¬ Restriction.Passes q (.integer 11)) ∧
      ∃ q, r.Narrows comparingNumbers.env 3 7 ⟨1⟩ q ∧ ¬ Restriction.Passes q (.string ⟨1⟩) := by
  obtain ⟨r, hr, hcheck⟩ := exists_ok_of_check
    (e := ((ofSteps comparedNumber).intern comparingNumbers.env.symbols).1.compile comparingNumbers)
    (p := fun r => r.nodes[7]?.any fun (n : Node) => decide (n.kind = .var ⟨1⟩ .single ∧
      n.negated = false ∧ n.declared = none ∧ n.position.pattern = 3 ∧
      Restriction.Passes n.note.restriction (.integer 5) ∧
      ¬ Restriction.Passes n.note.restriction (.integer 11) ∧
      ¬ Restriction.Passes n.note.restriction (.string ⟨1⟩)))
    (by decide +kernel)
  obtain ⟨n, hn, hcheck⟩ := (Option.any_eq_true _ _).1 hcheck
  obtain ⟨hkind, hnegated, hdeclared, hpattern, hfive, heleven, hstring⟩ := of_decide_eq_true hcheck
  have hexact := passes_restriction_iff (by decide +kernel) (by decide +kernel) (by decide +kernel)
    hr hn hkind hnegated
  simp only [hdeclared, hpattern, Restriction.passes_none, true_and] at hexact
  rw [hexact] at hfive heleven hstring
  simp only [not_forall, exists_prop] at heleven hstring
  exact ⟨r, hr, hfive, heleven, hstring⟩

end Lhs

end Antecedent
