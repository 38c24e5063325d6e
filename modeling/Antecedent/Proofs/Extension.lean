import Antecedent.Proofs.LexicalScope
import Antecedent.Proofs.Relaxation

/-!
# Adding conditions at the end

Steps that are added to a description change nothing about the conditions before them. References look
back only, and a run of negated conditions that opened before is closed before.

* `Lhs.ofSteps_append` and `Lhs.intern_append` say that further steps append to the conditions and find
  the names before them interned.
* `Lhs.collapse_prefix` says that no run reaches beyond conditions that end outside of every group.
* `Lhs.getElem?_nodes_append` says that the nodes of the conditions before keep all but the link from
  the last condition to the one after it.
* `Lhs.exists_prefix_of_compile_append` puts these together for compiled conditions, and
  `Lhs.extension_keeps_compiled` is the result for steps.
-/

namespace Antecedent

variable {ν α : Type}

/-! ## Further steps -/

theorem Step.addAllTo_append (blank : α) (l : Lhs ν α) (ss ss' : List (Step ν α)) :
    addAllTo blank l (ss ++ ss') = addAllTo blank (addAllTo blank l ss) ss' := by
  induction ss generalizing l with
  | nil => rfl
  | cons s ss ih => exact ih (addTo blank l s)

namespace Lhs

theorem ofSteps_append (ss : List (Step ν Unit)) {ss' : List (Step ν Unit)}
    (h : Step.keepsDepthsAll ss' = true) : ofSteps (ss ++ ss') = ofSteps ss ++ ofSteps ss' := by
  rw [ofSteps, Step.addAllTo_append, Step.addAllTo_eq_append () _ h]
  rfl

/-- The names of the first conditions are interned before those of the others. -/
theorem intern_append (l m : Lhs String Unit) (t : SymbolTable) :
    (intern (l ++ m) t).1 = (l.intern t).1 ++ (m.intern (l.intern t).2).1 := by
  rw [intern, List.mapM_append]
  rfl

/-! ## Runs of negated conditions -/

/-- What is deferred in a run does not depend on conditions after its end. -/
theorem runDeferred_append {depth : Nat} (hdepth : depth ≠ 0) {k : Condition Symbol Note}
    {l : Lhs Symbol Note} (hclosed : ∀ z ∈ (k :: l).getLast?, z.endDepth = 0)
    (m : Lhs Symbol Note) : runDeferred depth (k :: l ++ m) = runDeferred depth (k :: l) := by
  induction l generalizing k with
  | nil =>
    have hend : k.endDepth < depth := by
      rw [hclosed k rfl]
      omega
    rw [List.cons_append, runDeferred, runDeferred, if_pos hend, if_pos hend]
  | cons k' l ih =>
    rw [List.getLast?_cons_cons] at hclosed
    rw [List.cons_append, runDeferred, runDeferred, ih hclosed]

theorem collapseFrom_prefix {l : Lhs Symbol Note} (hclosed : ∀ z ∈ l.getLast?, z.endDepth = 0)
    (m : Lhs Symbol Note) (previousEnd : Nat) (opened : List Nat) :
    collapseFrom previousEnd opened l <+: collapseFrom previousEnd opened (l ++ m) := by
  induction l generalizing previousEnd opened with
  | nil => exact List.nil_prefix
  | cons k ks ih =>
    have hrun : (if k.beginDepth ≠ 0 ∧ k.beginDepth ≠ previousEnd
        then runDeferred k.beginDepth (k :: ks ++ m) else k.deferred) =
        if k.beginDepth ≠ 0 ∧ k.beginDepth ≠ previousEnd
        then runDeferred k.beginDepth (k :: ks) else k.deferred := by
      split
      · next hopens => rw [runDeferred_append hopens.1 hclosed]
      · rfl
    have hks : ∀ z ∈ ks.getLast?, z.endDepth = 0 := by
      cases ks with
      | nil => simp
      | cons k' ks => rwa [List.getLast?_cons_cons] at hclosed
    simp only [List.cons_append] at hrun
    simp only [List.cons_append, collapseFrom, hrun]
    exact List.prefix_cons_inj _ |>.2 (ih hks _ _)

/-- **Collapsing conditions that end outside of every group** is not affected by conditions after
them. -/
theorem collapse_prefix {l : Lhs Symbol Note} (hl : l.Nested) (m : Lhs Symbol Note) :
    collapse l <+: collapse (l ++ m) :=
  collapseFrom_prefix hl.closed m 0 []

end Lhs

/-! ## Nodes -/

/-- The link to the following condition is only in the first node of a condition. -/
theorem Condition.getElem?_nodes {pattern joinDepth id : Nat} {child : Option Nat}
    {k : Condition Symbol Note} {i : Nat} {n : Node}
    (h : (k.nodes pattern joinDepth id child)[i]? = some n) (child' : Option Nat) :
    ∃ link, (k.nodes pattern joinDepth id child')[i]? = some { n with child := link } := by
  obtain ⟨element, beginDepth, endDepth, note⟩ := k
  cases element <;> cases i with
  | zero =>
    obtain rfl := Option.some.inj h
    exact ⟨child', rfl⟩
  | succ i => exact ⟨n.child, h⟩

namespace Lhs

theorem getElem?_nodesFrom_append {l : Lhs Symbol Note} {pattern joins id i : Nat} {n : Node}
    (h : (nodesFrom pattern joins id l)[i]? = some n) (m : Lhs Symbol Note) :
    ∃ link, (nodesFrom pattern joins id (l ++ m))[i]? = some { n with child := link } := by
  induction l generalizing pattern joins id i with
  | nil => cases h
  | cons k ks ih =>
    rw [List.cons_append, nodesFrom]
    rw [nodesFrom] at h
    by_cases hi : i < k.size
    · rw [List.getElem?_append_left (by simpa using hi)] at h ⊢
      exact Condition.getElem?_nodes h _
    · rw [List.getElem?_append_right (by simpa using hi), Condition.length_nodes] at h ⊢
      exact ih h

/-- The nodes of the first conditions stay as they are, up to a link to the condition after them. -/
theorem getElem?_nodes_append {l : Lhs Symbol Note} {i : Nat} {n : Node} (h : l.nodes[i]? = some n)
    (m : Lhs Symbol Note) : ∃ link, (nodes (l ++ m))[i]? = some { n with child := link } :=
  getElem?_nodesFrom_append h m

/-! ## Compiled conditions -/

/-- Conditions that end outside of every group are compiled alike with and without conditions after
them, also where less is asked of them. -/
theorem exists_prefix_of_compile_append {c c' : Context} {l m : Lhs Symbol α}
    (hc : c.Relaxes (l.expressions.map Term.height) c') (hl : l.Nested) {r : Lhs Symbol Note}
    (h : compile c (l ++ m) = .ok r) : ∃ r₀, l.compile c' = .ok r₀ ∧ r₀ <+: r := by
  obtain ⟨u, hu, rfl⟩ := exists_compileFrom_of_compile h
  obtain ⟨us, vs, hus, rfl⟩ := compileFrom_of_relaxes hc hu
  have hnested : us.Nested := hl.of_depths (map_depths_of_bare (bare_of_compileFrom hus).symm)
  exact ⟨collapse us, bind_eq_ok.2 ⟨us, hus, rfl⟩, collapse_prefix hnested vs⟩

/-- **Further steps change nothing about what was compiled before.** If the conditions compile with
further steps, then they compile without; the compiled conditions are the first ones of the longer
left-hand side, and each of their nodes has the same number and differs at most in its link to the
condition after it. So what is rejected is rejected with further steps. The environment may know
other symbols, as it does when more names are interned. -/
theorem extension_keeps_compiled {steps more : List (Step String Unit)}
    (hsteps : Step.keepsDepthsAll steps = true) (hmore : Step.keepsDepthsAll more = true)
    (t : SymbolTable) {c c' : Context} (hfunctions : c'.env.functions = c.env.functions)
    (hglobals : c'.env.globals = c.env.globals) (hoptions : c'.options = c.options) :
    (∀ r', ((ofSteps (steps ++ more)).intern t).1.compile c' = .ok r' →
      ∃ r, ((ofSteps steps).intern t).1.compile c = .ok r ∧ r <+: r' ∧
        ∀ (i : Nat) (n : Node), r.nodes[i]? = some n →
          ∃ link, r'.nodes[i]? = some { n with child := link }) ∧
      ∀ d, ((ofSteps steps).intern t).1.compile c = .error d →
        ∃ d', ((ofSteps (steps ++ more)).intern t).1.compile c' = .error d' := by
  have hnested : ((ofSteps steps).intern t).1.Nested :=
    (nested_ofSteps hsteps).of_depths (map_depths_intern _ t).symm
  have hc (hs : List Nat) : c'.Relaxes hs c :=
    ⟨hfunctions.symm, hglobals.symm, by simp [hoptions], by simp [hoptions]⟩
  rw [ofSteps_append steps hmore, intern_append]
  refine ⟨fun r' h => ?_, fun d hd => ?_⟩
  · obtain ⟨r, hr, rest, rfl⟩ := exists_prefix_of_compile_append (hc _) hnested h
    exact ⟨r, hr, List.prefix_append r rest, fun i n hn => getElem?_nodes_append hn rest⟩
  · cases h : compile c' (((ofSteps steps).intern t).1 ++ _) with
    | error d' => exact ⟨d', rfl⟩
    | ok r' =>
      obtain ⟨r, hr, -⟩ := exists_prefix_of_compile_append (hc _) hnested h
      rw [hr] at hd
      cases hd

theorem plainGroup_extended :
    (∃ r r', compiledSteps plainGroup = .ok r ∧ compiledSteps (plainGroup ++ plainGroup) = .ok r' ∧
        r <+: r' ∧ ∀ (i : Nat) (n : Node), r.nodes[i]? = some n →
          ∃ link, r'.nodes[i]? = some { n with child := link }) ∧
      ∃ d, compiledSteps (mentionBehindGroup ++ plainGroup) = .error d := by
  have hgroup : Step.keepsDepthsAll plainGroup = true := by decide +kernel
  have hmention : Step.keepsDepthsAll mentionBehindGroup = true := by decide +kernel
  let c : Context := ⟨.empty, .standard⟩
  constructor
  · obtain ⟨r', hr', -⟩ := exists_ok_of_check (e := compiledSteps (plainGroup ++ plainGroup))
      (p := fun _ => true) (by decide +kernel)
    obtain ⟨r, hr, hkept⟩ :=
      (extension_keeps_compiled (c := c) hgroup hgroup .empty rfl rfl rfl).1 r' hr'
    exact ⟨r, r', hr, hr', hkept⟩
  · obtain ⟨d, hd, -⟩ := exists_error_of_check (e := compiledSteps mentionBehindGroup)
      (p := fun _ => true) (by decide +kernel)
    exact (extension_keeps_compiled (c := c) hmention hgroup .empty rfl rfl rfl).2 d hd

end Lhs

end Antecedent
