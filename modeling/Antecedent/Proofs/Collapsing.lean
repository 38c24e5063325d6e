import Antecedent.Proofs.Contributions
import Mathlib.Data.List.Perm.Basic

/-!
# Where deferred tests go

Collapsing the negated runs moves what a condition defers to the condition that opened its run. Depths
may be in any order, so runs can overlap, and a run can open inside another one of its own depth; still
everything that is deferred has one place to go to.

* `Lhs.homes` gives for each condition the index of the one that takes what it defers: the first
  condition of its run, or itself if it is in no run.
* `Lhs.gathered` lists the conditions with one home, in order. `Lhs.deferred_collapse` says that a
  collapsed condition defers exactly what these did.
* `Lhs.perm_gathered` says that every condition is gathered once, and `Lhs.collapse_collapse` that
  collapsing again changes nothing.
* `Lhs.collapse_conserves_deferred` is the result.
-/

namespace Antecedent

variable {ν α β : Type}

/-! ## Conjuncts of join outputs -/

namespace JoinOutput

/-- The tests whose conjunction the test of a join is. -/
def conjuncts (o : JoinOutput) : List Test := Test.allConjuncts o.test

/-- The hash values of the partial matches. -/
def leftHash (o : JoinOutput) : List Test := o.hash.map HashPair.left

/-- The hash values of the entities that enter. -/
def rightHash (o : JoinOutput) : List Test := o.hash.map HashPair.right

theorem length_leftHash (o : JoinOutput) : o.leftHash.length = o.rightHash.length := by
  rw [leftHash, rightHash, List.length_map, List.length_map]

@[simp] theorem conjuncts_append (a b : JoinOutput) :
    (a ++ b).conjuncts = a.conjuncts ++ b.conjuncts :=
  Test.allConjuncts_conjoin a.test b.test

theorem conjuncts_all (os : List JoinOutput) : (all os).conjuncts = os.flatMap conjuncts := by
  induction os with
  | nil => rfl
  | cons o os ih => rw [all, conjuncts_append, ih, List.flatMap_cons]

theorem all_append (os ps : List JoinOutput) : all (os ++ ps) = all os ++ all ps := by
  induction os with
  | nil => rw [List.nil_append, all, empty_append]
  | cons o os ih => rw [List.cons_append, all, ih, all, append_assoc]

theorem hash_all (os : List JoinOutput) : (all os).hash = os.flatMap hash := by
  induction os with
  | nil => rfl
  | cons o os ih => rw [all, hash_append, ih, List.flatMap_cons]

end JoinOutput

namespace Lhs

/-! ## Homes -/

/-- The open runs behind a condition with index `i`: `run` gives for the depth of a run that is open
before it the index of the condition that opened it. A run that opens inside one of its own depth
belongs to that one. -/
def runsAfter (i previousEnd : Nat) (run : Nat → Option Nat) (k : Condition ν α) (d : Nat) :
    Option Nat :=
  if k.endDepth < d then none
  else (run d).or (if d = k.beginDepth ∧ d ≠ 0 ∧ d ≠ previousEnd then some i else none)

theorem runsAfter_eq_some_iff {i previousEnd : Nat} {run : Nat → Option Nat} {k : Condition ν α}
    {d h : Nat} : runsAfter i previousEnd run k d = some h ↔ d ≤ k.endDepth ∧
      (run d = some h ∨ run d = none ∧ d = k.beginDepth ∧ d ≠ 0 ∧ d ≠ previousEnd ∧ i = h) := by
  unfold runsAfter
  split
  · next hlt => simp [Nat.not_le.2 hlt]
  · next hle =>
    cases hd : run d with
    | none => simp [Nat.le_of_not_lt hle, and_assoc]
    | some j => simp [Nat.le_of_not_lt hle]

/-- The homes of some conditions, the first of which has index `i`. -/
def homesFrom (i previousEnd : Nat) (run : Nat → Option Nat) : Lhs ν α → List Nat
  | [] => []
  | k :: ks =>
    (run k.beginDepth).getD i :: homesFrom (i + 1) k.endDepth (runsAfter i previousEnd run k) ks

/-- The index of the condition to which each condition's deferred tests go. -/
def homes (l : Lhs ν α) : List Nat := homesFrom 0 0 (fun _ => none) l

/-- The conditions whose home has the index `j`, in order. -/
def gathered (hs : List Nat) (l : Lhs ν α) (j : Nat) : Lhs ν α :=
  ((hs.zip l).filter fun x => x.1 = j).map Prod.snd

@[simp] theorem length_homesFrom (i previousEnd : Nat) (run : Nat → Option Nat) (l : Lhs ν α) :
    (homesFrom i previousEnd run l).length = l.length := by
  induction l generalizing i previousEnd run with
  | nil => rfl
  | cons k ks ih => simp [homesFrom, ih]

theorem gathered_cons (h : Nat) (hs : List Nat) (k : Condition ν α) (ks : Lhs ν α) (j : Nat) :
    gathered (h :: hs) (k :: ks) j = (if h = j then [k] else []) ++ gathered hs ks j := by
  by_cases hj : h = j <;> simp [gathered, hj]

theorem gathered_eq_nil {hs : List Nat} {l : Lhs ν α} {j : Nat} (h : j ∉ hs) :
    gathered hs l j = [] := by
  rw [gathered, List.map_eq_nil_iff, List.filter_eq_nil_iff]
  rintro ⟨h', k⟩ hmem
  simp only [decide_eq_true_eq]
  rintro rfl
  exact h (List.of_mem_zip hmem).1

/-- What the open runs look like before the condition with index `i`: the depths of `opened` are open,
every run was opened before, and different depths were opened by different conditions. -/
structure Tracks (i : Nat) (opened : List Nat) (run : Nat → Option Nat) : Prop where
  isSome : ∀ d, (run d).isSome = true ↔ d ∈ opened
  lt : ∀ d h, run d = some h → h < i
  inj : ∀ d d' h, run d = some h → run d' = some h → d = d'

theorem tracks_nil (i : Nat) : Tracks i [] fun _ => none where
  isSome := by simp
  lt := by simp
  inj := by simp

/-- A step of the scan keeps track of the open runs. -/
theorem Tracks.next {i : Nat} {opened : List Nat} {run : Nat → Option Nat} (h : Tracks i opened run)
    (previousEnd : Nat) (k : Condition ν α) :
    Tracks (i + 1)
      ((if k.beginDepth ≠ 0 ∧ k.beginDepth ≠ previousEnd then k.beginDepth :: opened
        else opened).filter (· ≤ k.endDepth))
      (runsAfter i previousEnd run k) := by
  refine ⟨fun d => ?_, fun d j hj => ?_, fun d d' j hd hd' => ?_⟩
  · have := h.isSome d
    rw [Option.isSome_iff_exists]
    simp only [runsAfter_eq_some_iff]
    cases hd : run d <;> grind
  · obtain ⟨-, hd | ⟨-, -, -, -, rfl⟩⟩ := runsAfter_eq_some_iff.1 hj
    · have := h.lt d j hd
      omega
    · omega
  · obtain ⟨-, hd | ⟨-, hdepth, -, -, rfl⟩⟩ := runsAfter_eq_some_iff.1 hd
    · obtain ⟨-, hd' | ⟨-, -, -, -, rfl⟩⟩ := runsAfter_eq_some_iff.1 hd'
      · exact h.inj d d' j hd hd'
      · exact absurd (h.lt d _ hd) (Nat.lt_irrefl _)
    · obtain ⟨-, hd' | ⟨-, hdepth', -, -, -⟩⟩ := runsAfter_eq_some_iff.1 hd'
      · exact absurd (h.lt d' _ hd') (Nat.lt_irrefl _)
      · exact hdepth.trans hdepth'.symm

/-- A home is one of the conditions themselves or the start of a run that is open before them. -/
theorem le_or_open_of_mem_homesFrom {i previousEnd : Nat} {run : Nat → Option Nat} {l : Lhs ν α}
    {h : Nat} (hh : h ∈ homesFrom i previousEnd run l) : i ≤ h ∨ ∃ d, run d = some h := by
  induction l generalizing i previousEnd run with
  | nil => cases hh
  | cons k ks ih =>
    rcases List.mem_cons.1 hh with rfl | hh
    · cases hrun : run k.beginDepth with
      | none => exact .inl (Nat.le_refl i)
      | some j => exact .inr ⟨k.beginDepth, hrun⟩
    · rcases ih hh with hle | ⟨d, hd⟩
      · exact .inl (by omega)
      · obtain ⟨-, hd | ⟨-, -, -, -, rfl⟩⟩ := runsAfter_eq_some_iff.1 hd
        · exact .inr ⟨d, hd⟩
        · exact .inl (Nat.le_refl _)

/-- The home of a condition begins at the same depth and does not come after it, unless it is the start
of a run that is open before. -/
theorem getElem?_homesFrom (i previousEnd : Nat) (run : Nat → Option Nat) {l : Lhs ν α} {m : Nat}
    {x : Condition ν α} (hx : l[m]? = some x) :
    ∃ h, (homesFrom i previousEnd run l)[m]? = some h ∧
      (run x.beginDepth = some h ∨
        ∃ n y, h = i + n ∧ n ≤ m ∧ l[n]? = some y ∧ y.beginDepth = x.beginDepth) := by
  induction l generalizing i previousEnd run m with
  | nil => cases hx
  | cons k ks ih =>
    cases m with
    | zero =>
      obtain rfl := Option.some.inj hx
      refine ⟨_, rfl, ?_⟩
      cases hrun : run k.beginDepth with
      | none => exact .inr ⟨0, k, rfl, Nat.le_refl 0, rfl, rfl⟩
      | some j => exact .inl rfl
    | succ m =>
      obtain ⟨h, hget, hhome⟩ := ih (i + 1) k.endDepth (runsAfter i previousEnd run k) hx
      refine ⟨h, hget, ?_⟩
      rcases hhome with hrun | ⟨n, y, rfl, hn, hy, hdepth⟩
      · obtain ⟨-, hrun | ⟨-, hdepth, -, -, rfl⟩⟩ := runsAfter_eq_some_iff.1 hrun
        · exact .inl hrun
        · exact .inr ⟨0, k, rfl, Nat.zero_le _, rfl, hdepth.symm⟩
      · exact .inr ⟨n + 1, y, by omega, by omega, hy, hdepth⟩

/-! ## What is gathered -/

/-- The home of a condition is the start of the run that is open at its depth. -/
theorem Tracks.home_eq_iff {i : Nat} {opened : List Nat} {run : Nat → Option Nat}
    (hrun : Tracks i opened run) {d h : Nat} (hd : run d = some h) (depth : Nat) :
    (run depth).getD i = h ↔ depth = d := by
  constructor
  · intro heq
    cases hdepth : run depth with
    | none =>
      have hlt := hrun.lt d h hd
      rw [hdepth, Option.getD_none] at heq
      omega
    | some j =>
      rw [hdepth, Option.getD_some] at heq
      exact hrun.inj depth d h (heq ▸ hdepth) hd
  · rintro rfl
    rw [hd, Option.getD_some]

/-- A condition is its own home if no run is open at its depth. -/
theorem Tracks.home_eq_self_iff {i : Nat} {opened : List Nat} {run : Nat → Option Nat}
    (hrun : Tracks i opened run) (depth : Nat) : (run depth).getD i = i ↔ depth ∉ opened := by
  rw [← hrun.isSome]
  cases hdepth : run depth with
  | none => simp
  | some h => simpa using Nat.ne_of_lt (hrun.lt depth h hdepth)

/-- The runs that a condition opens are at its own depth, where none was open before. -/
theorem Tracks.runsAfter_eq_self_iff {i : Nat} {opened : List Nat} {run : Nat → Option Nat}
    (hrun : Tracks i opened run) (previousEnd : Nat) (k : Condition ν α) (d : Nat) :
    runsAfter i previousEnd run k d = some i ↔ d ≤ k.endDepth ∧ d = k.beginDepth ∧
      k.beginDepth ∉ opened ∧ d ≠ 0 ∧ d ≠ previousEnd := by
  have hsome := hrun.isSome d
  have hlt := hrun.lt d i
  rw [runsAfter_eq_some_iff]
  cases hk : run d <;> grind

/-- Nothing goes back to a condition that did not open a run that is still open. -/
theorem gathered_eq_nil_of_closed {i previousEnd : Nat} {run : Nat → Option Nat} {h : Nat}
    (hlt : h < i) (hclosed : ∀ d, run d ≠ some h) (l : Lhs ν α) :
    gathered (homesFrom i previousEnd run l) l h = [] := by
  refine gathered_eq_nil fun hmem => ?_
  rcases le_or_open_of_mem_homesFrom hmem with hle | ⟨d, hd⟩
  · omega
  · exact hclosed d hd

/-- The condition that opened a run takes what the members of the run from here on defer. -/
theorem runDeferred_eq_gathered {i : Nat} {opened : List Nat} {run : Nat → Option Nat}
    (hrun : Tracks i opened run) {d h : Nat} (hd : run d = some h) (previousEnd : Nat)
    (l : Lhs Symbol Note) :
    runDeferred d l =
      .all ((gathered (homesFrom i previousEnd run l) l h).map Condition.deferred) := by
  induction l generalizing i previousEnd opened run with
  | nil => rfl
  | cons k ks ih =>
    have hlt := hrun.lt d h hd
    have hhead : (if (run k.beginDepth).getD i = h then [k] else []) =
        if k.beginDepth = d then [k] else [] := by
      simp only [hrun.home_eq_iff hd]
    have htail : (if k.endDepth < d then {} else runDeferred d ks) =
        JoinOutput.all ((gathered (homesFrom (i + 1) k.endDepth (runsAfter i previousEnd run k) ks)
          ks h).map Condition.deferred) := by
      split
      · next hend =>
        rw [gathered_eq_nil_of_closed (Nat.lt_succ_of_lt hlt)]
        · rfl
        · intro d' hd'
          obtain ⟨hle, hd' | ⟨-, -, -, -, rfl⟩⟩ := runsAfter_eq_some_iff.1 hd'
          · obtain rfl := hrun.inj d' d h hd' hd
            omega
          · omega
      · next hend =>
        exact ih (hrun.next previousEnd k) (runsAfter_eq_some_iff.2 ⟨Nat.le_of_not_lt hend, .inl hd⟩)
          k.endDepth
    rw [runDeferred, htail, homesFrom, gathered_cons, hhead, List.map_append, JoinOutput.all_append]
    split <;> simp [JoinOutput.all]

/-- Each of the collapsed conditions defers what is gathered at it. -/
theorem deferred_collapseFrom {i previousEnd : Nat} {opened : List Nat} {run : Nat → Option Nat}
    (hrun : Tracks i opened run) {l : Lhs Symbol Note} {j : Nat} {y : Condition Symbol Note}
    (hy : (collapseFrom previousEnd opened l)[j]? = some y) :
    y.deferred =
      .all ((gathered (homesFrom i previousEnd run l) l (i + j)).map Condition.deferred) := by
  induction l generalizing i previousEnd opened run j with
  | nil => cases hy
  | cons k ks ih =>
    have hnext := hrun.next previousEnd k
    rw [homesFrom, gathered_cons, List.map_append, JoinOutput.all_append]
    cases j with
    | succ j =>
      have hne : (run k.beginDepth).getD i ≠ i + (j + 1) := by
        cases hk : run k.beginDepth with
        | none => simp
        | some h =>
          have := hrun.lt _ h hk
          rw [Option.getD_some]
          omega
      rw [if_neg hne, ih hnext hy, Nat.add_assoc, Nat.add_comm 1 j]
      exact (JoinOutput.empty_append _).symm
    | zero =>
      obtain rfl := Option.some.inj hy
      -- only a run that opens here hands something back to this condition
      have hopen (d : Nat) := hrun.runsAfter_eq_self_iff previousEnd k d
      have hclosed : (∀ d, runsAfter i previousEnd run k d ≠ some i) →
          gathered (homesFrom (i + 1) k.endDepth (runsAfter i previousEnd run k) ks) ks i = [] :=
        fun h => gathered_eq_nil_of_closed (Nat.lt_succ_self i) h ks
      simp only [Nat.add_zero, hrun.home_eq_self_iff, Condition.deferred_withDeferred,
        List.contains_eq_mem, decide_eq_true_eq]
      by_cases hmem : k.beginDepth ∈ opened
      · rw [hclosed fun d hd => ((hopen d).1 hd).2.2.1 hmem]
        simp [hmem, JoinOutput.all]
      · by_cases hopens : k.beginDepth ≠ 0 ∧ k.beginDepth ≠ previousEnd
        · rw [if_neg hmem, if_pos hopens, if_pos hmem, runDeferred, if_pos rfl]
          split
          · next hend =>
            rw [hclosed fun d hd => by have := (hopen d).1 hd; omega]
            simp [JoinOutput.all]
          · next hend =>
            rw [runDeferred_eq_gathered hnext
              ((hopen k.beginDepth).2 ⟨Nat.le_of_not_lt hend, rfl, hmem, hopens⟩) k.endDepth ks]
            simp [JoinOutput.all]
        · rw [hclosed fun d hd => by
            obtain ⟨-, rfl, -, h⟩ := (hopen d).1 hd
            exact hopens h]
          simp [hmem, hopens, JoinOutput.all]

/-- **A collapsed condition defers what is gathered at it.** -/
theorem deferred_collapse {l : Lhs Symbol Note} {j : Nat} {y : Condition Symbol Note}
    (hy : (collapse l)[j]? = some y) :
    y.deferred = .all ((gathered l.homes l j).map Condition.deferred) := by
  have h := deferred_collapseFrom (tracks_nil 0) hy
  rwa [Nat.zero_add] at h

/-- What a condition defers goes to one that begins at the same depth and does not come after it. -/
theorem getElem?_homes {l : Lhs ν α} {i : Nat} {x : Condition ν α} (hx : l[i]? = some x) :
    ∃ h y, l.homes[i]? = some h ∧ h ≤ i ∧ l[h]? = some y ∧ y.beginDepth = x.beginDepth := by
  obtain ⟨h, hget, hrun | ⟨n, y, rfl, hn, hy, hdepth⟩⟩ :=
    getElem?_homesFrom 0 0 (fun _ => none) hx
  · cases hrun
  · exact ⟨0 + n, y, hget, by omega, by rwa [Nat.zero_add], hdepth⟩

theorem lt_of_mem_homes {l : Lhs ν α} {h : Nat} (hh : h ∈ l.homes) : h < l.length := by
  obtain ⟨i, hi, rfl⟩ := List.mem_iff_getElem.1 hh
  have hil : i < l.length := by rwa [homes, length_homesFrom] at hi
  obtain ⟨h, y, hget, hle, -⟩ := getElem?_homes (List.getElem?_eq_getElem hil)
  rw [(List.getElem?_eq_some_iff.1 hget).2]
  omega

/-! ## Nothing is lost -/

theorem flatMap_range_singleton {n h : Nat} (hlt : h < n) (b : β) :
    ((List.range n).flatMap fun j => if h = j then [b] else []) = [b] := by
  induction n with
  | zero => cases hlt
  | succ n ih =>
    rw [List.range_succ, List.flatMap_append, List.flatMap_singleton]
    by_cases hn : h = n
    · have hnil : ∀ j ∈ List.range n, (if h = j then [b] else []) = [] := by
        intro j hj
        exact if_neg (by have := List.mem_range.1 hj; omega)
      rw [List.flatMap_eq_nil_iff.2 hnil, if_pos hn, List.nil_append]
    · rw [ih (by omega), if_neg hn, List.append_nil]

/-- If all homes are among the first `n` indices, then these gather every condition once. -/
theorem perm_gathered {n : Nat} {hs : List Nat} {l : Lhs ν α} (hlength : hs.length = l.length)
    (hlt : ∀ h ∈ hs, h < n) : ((List.range n).flatMap (gathered hs l)).Perm l := by
  induction hs generalizing l with
  | nil =>
    obtain rfl := List.length_eq_zero_iff.1 hlength.symm
    have hnil : (List.range n).flatMap (gathered ([] : List Nat) ([] : Lhs ν α)) = [] :=
      List.flatMap_eq_nil_iff.2 fun _ _ => rfl
    rw [hnil]
  | cons h hs ih =>
    cases l with
    | nil => cases hlength
    | cons k ks =>
      obtain ⟨hh, hlt⟩ := List.forall_mem_cons.1 hlt
      have hcons : gathered (h :: hs) (k :: ks) =
          fun j => (if h = j then [k] else []) ++ gathered hs ks j :=
        funext fun j => gathered_cons h hs k ks j
      have hsplit := List.flatMap_append_perm (List.range n) (fun j => if h = j then [k] else [])
        (gathered hs ks)
      rw [flatMap_range_singleton hh] at hsplit
      rw [hcons]
      exact hsplit.symm.trans ((ih (Nat.succ.inj hlength) hlt).cons k)

/-- What can be read off join outputs piece by piece is neither lost nor made up. -/
theorem perm_flatMap_collapse {f : JoinOutput → List β} (l : Lhs Symbol Note)
    (hf : ∀ os : List JoinOutput, f (.all os) = os.flatMap f) :
    ((collapse l).flatMap fun k => f k.deferred).Perm (l.flatMap fun k => f k.deferred) := by
  have hcollapse : (collapse l).flatMap (fun k => f k.deferred) =
      ((List.range l.length).flatMap (gathered l.homes l)).flatMap fun k => f k.deferred := by
    rw [List.flatMap_assoc, List.flatMap_def, List.flatMap_def]
    congr 1
    refine List.ext_getElem? fun j => ?_
    rw [List.getElem?_map, List.getElem?_map]
    cases hy : (collapse l)[j]? with
    | none =>
      have hj : l.length ≤ j := by simpa [collapse] using hy
      simp [hj]
    | some y =>
      have hj : j < l.length := by
        have := (List.getElem?_eq_some_iff.1 hy).1
        simpa [collapse] using this
      rw [List.getElem?_range hj, Option.map_some, Option.map_some, deferred_collapse hy, hf,
        List.flatMap_map]
  rw [hcollapse]
  exact (perm_gathered (by simp [homes]) fun h => lt_of_mem_homes).flatMap_right _

/-! ## Collapsing again -/

/-- The members of an open run have nothing left. -/
theorem runDeferred_collapseFrom {d previousEnd : Nat} {opened : List Nat} (hd : d ∈ opened)
    (l : Lhs Symbol Note) : runDeferred d (collapseFrom previousEnd opened l) = {} := by
  induction l generalizing previousEnd opened with
  | nil => rfl
  | cons k ks ih =>
    have hrest (hend : ¬ k.endDepth < d) : runDeferred d (collapseFrom k.endDepth
        ((if k.beginDepth ≠ 0 ∧ k.beginDepth ≠ previousEnd then k.beginDepth :: opened
          else opened).filter (· ≤ k.endDepth)) ks) = {} := by
      refine ih (List.mem_filter.2 ⟨?_, decide_eq_true (Nat.le_of_not_lt hend)⟩)
      split
      · exact List.mem_cons_of_mem _ hd
      · exact hd
    rw [collapseFrom, runDeferred, Condition.beginDepth_withDeferred,
      Condition.endDepth_withDeferred, Condition.deferred_withDeferred]
    rw [ite_eq_left_iff.2 hrest, JoinOutput.append_empty, ite_eq_right_iff]
    rintro rfl
    exact if_pos (List.contains_iff_mem.2 hd)

theorem collapseFrom_collapseFrom (previousEnd : Nat) (opened : List Nat) (l : Lhs Symbol Note) :
    collapseFrom previousEnd opened (collapseFrom previousEnd opened l) =
      collapseFrom previousEnd opened l := by
  induction l generalizing previousEnd opened with
  | nil => rfl
  | cons k ks ih =>
    -- what this condition takes the second time is what it has taken the first time
    have htaken (o : JoinOutput) (ho : k.beginDepth ∈ opened → o = {}) :
        (if opened.contains k.beginDepth then {}
          else if k.beginDepth ≠ 0 ∧ k.beginDepth ≠ previousEnd then
            runDeferred k.beginDepth (k.withDeferred o :: collapseFrom k.endDepth
              ((if k.beginDepth ≠ 0 ∧ k.beginDepth ≠ previousEnd then k.beginDepth :: opened
                else opened).filter (· ≤ k.endDepth)) ks)
          else o) = o := by
      split
      · next hmem => exact (ho (List.contains_iff_mem.1 hmem)).symm
      · split
        · rw [runDeferred, Condition.beginDepth_withDeferred, if_pos rfl,
            Condition.endDepth_withDeferred, Condition.deferred_withDeferred]
          refine (congrArg (o ++ ·) (ite_eq_left_iff.2 fun hend => ?_)).trans (JoinOutput.append_empty o)
          exact runDeferred_collapseFrom (List.mem_filter.2
            ⟨List.mem_cons_self, decide_eq_true (Nat.le_of_not_lt hend)⟩) ks
        · rfl
    refine congrArg₂ List.cons (congrArg k.withDeferred (htaken _ fun hmem => ?_)) (ih _ _)
    exact if_pos (List.contains_iff_mem.2 hmem)

/-- **Collapsing a second time changes nothing.** -/
theorem collapse_collapse (l : Lhs Symbol Note) : collapse (collapse l) = collapse l :=
  collapseFrom_collapseFrom 0 [] l

/-! ## The result -/

/-- **Collapsing conserves what is deferred**, whatever the depths. It changes what conditions defer and
nothing else; the conjuncts of all deferred tests and the pairs of hash values are those before, each as
often. What a condition defers goes to its home, which begins at the same depth and does not come after
it, and what comes together there keeps its order. Doing it twice is doing it once. -/
theorem collapse_conserves_deferred (l : Lhs Symbol Note) :
    (collapse l).map (fun k => k.withDeferred {}) = l.map (fun k => k.withDeferred {}) ∧
    ((collapse l).flatMap fun k => k.deferred.conjuncts).Perm
      (l.flatMap fun k => k.deferred.conjuncts) ∧
    ((collapse l).flatMap fun k => k.deferred.hash).Perm (l.flatMap fun k => k.deferred.hash) ∧
    (∀ k ∈ collapse l, k.deferred.leftHash.length = k.deferred.rightHash.length) ∧
    (∀ (i : Nat) (x : Condition Symbol Note), l[i]? = some x →
      ∃ h y, l.homes[i]? = some h ∧ h ≤ i ∧ l[h]? = some y ∧ y.beginDepth = x.beginDepth) ∧
    (∀ (j : Nat) (y : Condition Symbol Note), (collapse l)[j]? = some y →
      y.deferred.conjuncts = (gathered l.homes l j).flatMap (fun k => k.deferred.conjuncts) ∧
      y.deferred.hash = (gathered l.homes l j).flatMap fun k => k.deferred.hash) ∧
    collapse (collapse l) = collapse l := by
  refine ⟨?_, perm_flatMap_collapse l JoinOutput.conjuncts_all,
    perm_flatMap_collapse l JoinOutput.hash_all, fun k _ => k.deferred.length_leftHash,
    fun i x hx => getElem?_homes hx, ?_, collapse_collapse l⟩
  · refine (map_eq_map_of_forall₂ (forall₂_collapse l) ?_).symm
    rintro k _ ⟨d, rfl⟩
    rfl
  · intro j y hy
    rw [deferred_collapse hy, JoinOutput.conjuncts_all, JoinOutput.hash_all, List.flatMap_map,
      List.flatMap_map]
    exact ⟨rfl, rfl⟩

/-- A condition that defers a test and a pair of hash values, all of them the constant `n`. -/
def deferring (beginDepth endDepth : Nat) (n : Int) : Condition Symbol Note :=
  let value : Test := .const (.integer n)
  ⟨.test (.lit (.integer n)), beginDepth, endDepth,
    { out := { deferred := ⟨some value, [⟨value, value⟩]⟩ } }⟩

/-- A run at depth 1 with a condition that would open another one at its depth, and a member behind a
condition at depth 2. -/
def overlappingRuns : Lhs Symbol Note :=
  [deferring 1 2 10, deferring 1 2 20, deferring 2 1 30, deferring 1 0 40, deferring 1 1 50]

theorem overlappingRuns_gathered :
    overlappingRuns.homes = [0, 0, 2, 0, 4] ∧
      ∃ y, (collapse overlappingRuns)[0]? = some y ∧
        y.deferred.conjuncts = [.const (.integer 10), .const (.integer 20), .const (.integer 40)] := by
  refine ⟨by decide, _, rfl, ?_⟩
  exact ((collapse_conserves_deferred overlappingRuns).2.2.2.2.2.1 0 _ rfl).1.trans rfl

end Lhs

end Antecedent
