import Antecedent.Proofs.PropagationReach
import Antecedent.Proofs.TableCollapse
import Antecedent.Proofs.TableDemands
import Mathlib.Data.Set.Lattice
import Mathlib.Order.CompletePartialOrder

/-!
# A compiler that works in a node table

A left-hand side can be compiled in its node table, where a node is known by its number alone. The notes of
the nodes are reset. Then the conditions are visited along their links, the fields of a pattern along
theirs, and the parts of a slot along theirs. What a node has to know of the bindings made before was noted
there when they were propagated, so no scope is kept. At the end negated runs are collapsed.

* `NodeTable.compile` compiles in a table. It stops with a `Halt`: a fault of the left-hand side or a missing
  entry of the table.
* `Refines` relates a computation in a table to one that needs no table. It is kept by `do` blocks
  (`Refines.bind`).
* `NodeTable.Receives` says at which nodes bindings were received, and that nothing else has changed.
* `NodeTable.Spreads` says which occurrences are met and which nodes are reached from some nodes on.
  `NodeTable.spreads_of_passes` is the step from one propagation, and `NodeTable.Spreads.append` puts several
  together.
* `NodeTable.Propagates` says the same of what is found at a node. `NodeTable.Propagates.foldlM` is about all
  bindings that are found there.
-/

namespace Antecedent

open Halt (check look)
open Set (Ico)

/-! ## The compiler -/

namespace Node

/-- Whether the bindings made in a condition are seen by the conditions after it. -/
def escapes (n : Node) : Bool :=
  n.isCondition && !n.negated && !n.existential && n.position.beginDepth ≤ n.position.endDepth

/-- The condition after one, if it sees what is bound in it. A test binds nothing, so there arities do not
count. -/
def beyond (n : Node) : List (Nat × Bool) :=
  if n.escapes then pendingAt n.child (n.kind = .test) else []

def withRestriction (r : Option Restriction) (n : Node) : Node :=
  { n with note := { n.note with restriction := r } }

def withOut (out : Outputs) (n : Node) : Node := { n with note := { n.note with out } }

/-- The node of a condition with one more share in its joins. -/
def contribute (join deferred : JoinOutput) (n : Node) : Node :=
  let out := n.note.out
  n.withOut { out with join := out.join ++ join, deferred := out.deferred ++ deferred }

end Node

namespace NodeTable

variable (c : Context)

/-- Spreads a binding from a node on. -/
def spread (b : Binding) (t : NodeTable) (start : Nat × Bool) : Except Halt NodeTable := do
  return (← (Propagation.start t start.1 start.2).run c b t.size).table

/-- From where on what is found at a node spreads: behind its slot, behind itself, and beyond its
condition. -/
def starts (t : NodeTable) (head : Nat) (slot : Option Nat) (id : Nat) :
    Except TableFault (List (Nat × Bool)) := do
  let s ← slot.mapM t.get
  let n ← t.get id
  let h ← t.get head
  return pendingAt (s.bind Node.next) false ++ pendingAt n.next false ++ h.beyond

/-- Spreads a binding that is found at a node of the condition `head`. -/
def propagate (head : Nat) (slot : Option Nat) (id : Nat) (t : NodeTable) (b : Binding) :
    Except Halt NodeTable := do
  (← look (t.starts head slot id)).foldlM (spread c b) t

/-- Puts the tests of a field where they belong: the test of the candidate at the field, the others at its
condition. -/
def record (t : NodeTable) (head id : Nat) (out : Outputs) : NodeTable :=
  (t.modify id (Node.withOut { candidate := out.candidate, lookup := out.lookup })).modify head
    (Node.contribute out.join out.deferred)

/-- Spreads what a field demands of variables, checks the field and makes its tests. -/
def processField (head : Nat) (slot : Option Nat) (t : NodeTable) (id : Nat) : Except Halt NodeTable := do
  let p ← look (t.placeAt id)
  let demands ← look (t.fieldDemands c.env id)
  let t ← (demands.map (Demand.binding p.beginDepth)).foldlM (propagate c head slot id) t
  let n ← look (t.get id)
  let as ← look (t.alternativesAt pure id)
  let _ ← check (Conjunct.bindAll c p.spot (n.note.restriction.getD .any) as)
  check (Conjunct.checkSatisfiable c p.spot (n.asVariable.map Prod.fst) n.note.restriction as)
  return t.record head id (← look (t.fieldOutputs id))

/-- Compiles the field at a node. Its own variable is bound inside it first, and ahead of it last. -/
def visitField (head : Nat) (slot : Option Nat) (t : NodeTable) (id : Nat) : Except Halt NodeTable := do
  let n ← look (t.get id)
  match n.asVariable with
  | none => t.processField c head slot id
  | some (x, arity) =>
    let p ← look (t.placeAt id)
    let own : Binding := ⟨x, arity, some ⟨id, p⟩, n.note.restriction, p.beginDepth⟩
    let t ← (pendingAt n.child false).foldlM (spread c own) t
    let t ← t.processField c head slot id
    t.propagate c head slot id own

/-- Compiles the field of a slot at a node; the parts of a multifield slot take its place. -/
def visitSlot (head : Nat) (t : NodeTable) (id : Nat) : Except Halt NodeTable := do
  let n ← look (t.get id)
  match n.kind with
  | .multislot => (t.parts id).foldlM (visitField c head (some id)) t
  | _ => t.visitField c head none id

/-- Reports a handle whose name is bound before; the kind of the node that binds it says how. -/
def checkHandle (t : NodeTable) (id : Nat) : Except Halt Unit := do
  let n ← look (t.get id)
  match n.asHandle, n.note.origin with
  | some h, some o =>
    let conflict := if (← look (t.get o.id)).isPattern then .alreadyMatchHandle else .boundInPattern
    check (.error (c.blame (.illegalHandle conflict) n.position.spot h))
  | _, _ => return ()

/-- Binds the handle of the pattern at a node. -/
def bindHandle (t : NodeTable) (id : Nat) : Except Halt NodeTable := do
  let n ← look (t.get id)
  match n.asHandle with
  | none => return t
  | some h =>
    let p ← look (t.placeAt id)
    let own : Binding := ⟨h, .single, some ⟨id, p⟩, some .address, p.beginDepth⟩
    (t.modify id (Node.withRestriction (some .address))).propagate c id none id own

/-- Compiles the pattern at a node. -/
def visitPattern (t : NodeTable) (id : Nat) : Except Halt NodeTable := do
  t.checkHandle c id
  let t ← t.bindHandle c id
  (t.fields id).foldlM (visitSlot c id) t

/-- Compiles the test at a node. -/
def visitTest (t : NodeTable) (id : Nat) : Except Halt NodeTable := do
  let n ← look (t.get id)
  match n.subexpr with
  | none => return t
  | some root =>
    let u ← look (t.termAt pure root)
    let _ ← check (u.bind c n.position.spot)
    let demands ← look (t.expressionDemands c.env root)
    let t ← (demands.map (Demand.binding n.position.beginDepth)).foldlM (propagate c id none id) t
    return t.modify id (Node.withOut (← look (t.testOutputs id)))

/-- Compiles the condition at a node. -/
def visitCondition (t : NodeTable) (id : Nat) : Except Halt NodeTable := do
  match (← look (t.get id)).kind with
  | .pattern _ => t.visitPattern c id
  | .test => t.visitTest c id
  | _ => return t

/-- The table without what a compilation leaves there. -/
def reset (t : NodeTable) : NodeTable :=
  { t with nodes := t.nodes.map fun n => { n with note := { restriction := n.declared } } }

/-- Compiles in a table. -/
def compile (t : NodeTable) : Except Halt NodeTable := do
  let t := t.reset
  look (← t.conditions.foldlM (visitCondition c) t).collapse

end NodeTable

/-- Compiles a left-hand side in its node table. -/
def Lhs.compileByTable (c : Context) (l : Lhs Symbol Note) : Except Halt NodeTable :=
  (NodeTable.ofLhs l).compile c

/-! ## Computations in a table -/

/-- The computation `x` in a table does what `y` does: it stops with the same fault, or ends with a related
result. No entry of the table is missing. -/
def Refines {γ δ : Type} (R : γ → δ → Prop) (y : Except Diagnostic γ) (x : Except Halt δ) : Prop :=
  match y with
  | .ok a => ∃ b, x = .ok b ∧ R a b
  | .error d => x = .error (.fault d)

namespace Refines

variable {γ γ' δ δ' : Type} {R : γ → δ → Prop} {R' : γ' → δ' → Prop}

theorem pure {a : γ} {b : δ} (h : R a b) : Refines R (Pure.pure a) (Pure.pure b) := ⟨b, rfl, h⟩

theorem bind {y : Except Diagnostic γ} {x : Except Halt δ} {g : γ → Except Diagnostic γ'}
    {f : δ → Except Halt δ'} (h : Refines R y x)
    (h' : ∀ a b, y = .ok a → R a b → Refines R' (g a) (f b)) : Refines R' (y >>= g) (x >>= f) := by
  cases y with
  | error d =>
    rw [show x = .error (.fault d) from h]
    rfl
  | ok a =>
    obtain ⟨b, rfl, hab⟩ := h
    exact h' a b rfl hab

theorem mono {S : γ → δ → Prop} {y : Except Diagnostic γ} {x : Except Halt δ} (h : Refines R y x)
    (hS : ∀ a b, y = .ok a → R a b → S a b) : Refines S y x := by
  cases y with
  | error d => exact h
  | ok a =>
    obtain ⟨b, hb, hab⟩ := h
    exact ⟨b, hb, hS a b rfl hab⟩

/-- A check of the left-hand side is the same everywhere. -/
theorem check_bind {y : Except Diagnostic γ} {g : γ → Except Diagnostic γ'} {f : γ → Except Halt δ'}
    (h : ∀ a, y = .ok a → Refines R' (g a) (f a)) : Refines R' (y >>= g) (check y >>= f) := by
  cases y with
  | error d => rfl
  | ok a => exact h a rfl

theorem ok_bind {y : Except Diagnostic γ'} {x : Except Halt δ} {b : δ} {f : δ → Except Halt δ'}
    (hx : x = .ok b) (h : Refines R' y (f b)) : Refines R' y (x >>= f) := by
  rw [hx]
  exact h

/-- A look into the table must find something. -/
theorem look_bind {y : Except Diagnostic γ'} {z : Except TableFault δ} {b : δ}
    {f : δ → Except Halt δ'} (hz : z = .ok b) (h : Refines R' y (f b)) :
    Refines R' y (look z >>= f) :=
  ok_bind (congrArg look hz) h

end Refines

/-! ## Bindings that are received -/

namespace NodeTable

/-- What nodes found in a scope, they find with the bindings that they receive. -/
theorem Holds.receiveAll {t t' : NodeTable} {id : Nat} {ns : List Node} {σ : Scope} {bs : List Binding}
    (h : t.Holds id (ns.map (Node.resolved σ))) (hns : ∀ n ∈ ns, n.Regular)
    (hreceive : ∀ j ∈ Ico id (id + ns.length), t'.node? j = (t.node? j).map (Node.receiveAll bs)) :
    t'.Holds id (ns.map (Node.resolved (σ ++ bs))) := by
  intro i n hn
  rw [List.getElem?_map] at hn
  obtain ⟨m, hm, rfl⟩ := Option.map_eq_some_iff.1 hn
  have hi := (List.getElem?_eq_some_iff.1 hm).1
  have hnode : t.node? (id + i) = some (m.resolved σ) := h i _ (by rw [List.getElem?_map, hm]; rfl)
  rw [hreceive (id + i) ⟨by omega, by omega⟩, hnode, Option.map_some,
    Node.receiveAll_resolved (hns m (List.mem_of_getElem? hm))]

/-- The nodes in `A` have received the bindings, and all others are as they were. -/
structure Receives (bs : List Binding) (A : Set Nat) (t t' : NodeTable) : Prop where
  first_eq : t'.first = t.first
  inside {j : Nat} (hj : j ∈ A) : t'.node? j = (t.node? j).map (Node.receiveAll bs)
  outside {j : Nat} (hj : j ∉ A) : t'.node? j = t.node? j

namespace Receives

variable {bs bs' : List Binding} {A A' : Set Nat} {t t₁ t' : NodeTable}

theorem nil (A : Set Nat) (t : NodeTable) : Receives [] A t t := by
  refine ⟨rfl, fun {j} _ => ?_, fun _ => rfl⟩
  cases t.node? j <;> rfl

theorem append (h : Receives bs A t t₁) (h' : Receives bs' A t₁ t') : Receives (bs ++ bs') A t t' where
  first_eq := h'.first_eq.trans h.first_eq
  inside hj := by
    rw [h'.inside hj, h.inside hj, Node.map_receiveAll]
  outside hj := (h'.outside hj).trans (h.outside hj)

/-- The same bindings can be received at one place after the other. -/
theorem union (h : Receives bs A t t₁) (h' : Receives bs A' t₁ t') (hdisjoint : Disjoint A A') :
    Receives bs (A ∪ A') t t' where
  first_eq := h'.first_eq.trans h.first_eq
  inside hj := by
    rcases hj with hj | hj
    · rw [h'.outside (Set.disjoint_left.1 hdisjoint hj), h.inside hj]
    · rw [h'.inside hj, h.outside (Set.disjoint_right.1 hdisjoint hj)]
  outside hj := by
    rw [Set.mem_union, not_or] at hj
    exact (h'.outside hj.2).trans (h.outside hj.1)

theorem alike (h : Receives bs A t t') : t'.Alike t where
  first_eq := h.first_eq
  node?_eq j := by
    by_cases hj : j ∈ A
    · rw [h.inside hj, Option.map_map]
      exact congrArg (Option.map · _) (funext (Node.bare_receiveAll bs))
    · rw [h.outside hj]

theorem holds_outside (h : Receives bs A t t') {id : Nat} {ns : List Node}
    (hA : Disjoint (Ico id (id + ns.length)) A) (ht : t.Holds id ns) : t'.Holds id ns :=
  ht.congr fun _ hj hj' => h.outside (Set.disjoint_left.1 hA ⟨hj, hj'⟩)

end Receives

/-! ## Bindings that are spread -/

/-- From the nodes in `starts` on, a binding with the given floor meets the occurrences `os` and reaches the
nodes in `A`, whatever the notes in the table. -/
def Spreads (t₀ : NodeTable) (c : Context) (floor : Nat) (starts : List (Nat × Bool))
    (os : List Occurrence) (A : Set Nat) : Prop :=
  ∀ t b, t.Alike t₀ → b.floor = floor →
    Refines (fun _ t' => Receives [b] A t t') (c.permit os b) (starts.foldlM (spread c b) t)

section Spreads

variable {t₀ : NodeTable} {c : Context} {floor : Nat} {starts starts' : List (Nat × Bool)}
  {os os' : List Occurrence} {A A' : Set Nat}

theorem spreads_nil : t₀.Spreads c floor [] [] ∅ := by
  intro t b ht hb
  exact ⟨t, rfl, rfl, fun hj => hj.elim, fun _ => rfl⟩

theorem Spreads.append (h : t₀.Spreads c floor starts os A) (h' : t₀.Spreads c floor starts' os' A')
    (hdisjoint : Disjoint A A') :
    t₀.Spreads c floor (starts ++ starts') (os ++ os') (A ∪ A') := by
  intro t b ht hb
  rw [c.permit_append, List.foldlM_append]
  refine (h t b ht hb).bind fun _ t₁ _ h₁ => ?_
  exact (h' t₁ b (h₁.alike.trans ht) hb).mono fun _ t' _ h₂ => h₁.union h₂ hdisjoint

/-- **One propagation** reaches the nodes that it passes. -/
theorem spreads_of_meets (htree : t₀.IsTree) {id : Nat} {free : Bool}
    (h : t₀.Meets floor [(id, free)] os A) : t₀.Spreads c floor [(id, free)] os A := by
  intro t b ht hb
  subst hb
  have hmeets := h.of_alike ht
  have hid : id < t.size := by
    cases hmeets with
    | cons node tail => exact lt_size_of_node? node
  obtain ⟨s, -, hsound, hpassed, hrun⟩ :=
    (Propagation.sound_start hid b free).run_eq (ht.isTree htree) hmeets c
  have hreceives : Receives [b] A t s.table := by
    refine ⟨hsound.first_table, fun {j} hj => ?_, fun {j} hj => ?_⟩
    · have hmem := (hpassed j).2 (.inr hj)
      rw [hsound.node?_table]
      simp only [if_pos hmem]
      rfl
    · have hmem : j ∉ s.passed := fun hmem => ((hpassed j).1 hmem).elim nofun hj
      rw [hsound.node?_table]
      simp only [if_neg hmem, Option.map_id']
  rw [List.foldlM_cons, spread, hrun t.size (Nat.le_refl _)]
  cases hpermit : c.permit os b with
  | error d => rfl
  | ok u => exact ⟨s.table, rfl, hreceives⟩

theorem spreads_pendingAt (htree : t₀.IsTree) {link : Option Nat} {free : Bool}
    (h : t₀.Meets floor (pendingAt link free) os A) :
    t₀.Spreads c floor (pendingAt link free) os A := by
  cases link with
  | none =>
    cases h
    exact spreads_nil
  | some id => exact spreads_of_meets htree h

theorem spreads_of_passes (htree : t₀.IsTree) {link : Option Nat} {free : Bool}
    (h : t₀.Passes floor (pendingAt link free) os A) :
    t₀.Spreads c floor (pendingAt link free) os A :=
  spreads_pendingAt htree h.meets

/-- Where arities do not count, only match handles are met. -/
theorem exists_spreads_free (htree : t₀.IsTree) {link : Option Nat}
    (h : t₀.Passes floor (pendingAt link false) os A) :
    ∃ os', (∀ o ∈ os', o.role = .handle) ∧ t₀.Spreads c floor (pendingAt link true) os' A := by
  obtain ⟨os', hmeets, hhandles⟩ := h.meets.exists_free
  refine ⟨os', hhandles, spreads_pendingAt htree ?_⟩
  cases link <;> exact hmeets

end Spreads

/-- What is found at a node by a binding with the given floor meets the occurrences `os` and reaches the
nodes in `A`, whatever the notes in the table. -/
def Propagates (t₀ : NodeTable) (c : Context) (head : Nat) (slot : Option Nat) (id floor : Nat)
    (os : List Occurrence) (A : Set Nat) : Prop :=
  ∀ t b, t.Alike t₀ → b.floor = floor →
    Refines (fun _ t' => Receives [b] A t t') (c.permit os b) (t.propagate c head slot id b)

theorem Alike.get_bind {t t' : NodeTable} (h : t.Alike t') (id : Nat) {γ : Type}
    {f : Node → Except TableFault γ} (hf : ∀ n, f n.bare = f n) : t.get id >>= f = t'.get id >>= f := by
  have hid := h.node?_eq id
  rw [get, get]
  cases hn : t.node? id with
  | none =>
    rw [hn] at hid
    rw [Option.map_eq_none_iff.1 hid.symm]
  | some n =>
    rw [hn] at hid
    obtain ⟨m, hm, hbare⟩ := Option.map_eq_some_iff.1 hid.symm
    rw [hm]
    show f n = f m
    rw [← hf n, ← hf m, hbare]

/-- Where bindings spread does not depend on notes. -/
theorem Alike.starts_eq {t t' : NodeTable} (h : t.Alike t') (head : Nat) (slot : Option Nat) (id : Nat) :
    t.starts head slot id = t'.starts head slot id := by
  have hrest (s : Option Node) :
      (t.get id >>= fun n => t.get head >>= fun h =>
        return pendingAt (s.bind Node.next) false ++ pendingAt n.next false ++ h.beyond) =
      (t'.get id >>= fun n => t'.get head >>= fun h =>
        return pendingAt (s.bind Node.next) false ++ pendingAt n.next false ++ h.beyond) :=
    (h.get_bind id fun _ => rfl).trans (bind_congr fun _ => h.get_bind head fun _ => rfl)
  unfold starts
  cases slot with
  | none => exact hrest none
  | some s =>
    rw [Option.mapM_some, Option.mapM_some, bind_map_left, bind_map_left]
    exact (h.get_bind s fun _ => rfl).trans (bind_congr fun n => hrest (some n))

section Propagates

variable {t₀ : NodeTable} {c : Context} {head id floor : Nat} {slot : Option Nat}
  {os : List Occurrence} {A : Set Nat}

theorem propagates_of_spreads {starts : List (Nat × Bool)} (hstarts : t₀.starts head slot id = .ok starts)
    (h : t₀.Spreads c floor starts os A) : t₀.Propagates c head slot id floor os A := by
  intro t b ht hb
  exact .look_bind ((ht.starts_eq head slot id).trans hstarts) (h t b ht hb)

/-- **All bindings that are found at a node** are received one after the other. -/
theorem Propagates.foldlM (h : t₀.Propagates c head slot id floor os A) {t : NodeTable}
    (ht : t.Alike t₀) {bs : List Binding} (hbs : ∀ b ∈ bs, b.floor = floor) :
    Refines (fun _ t' => Receives bs A t t') (bs.forM (c.permit os))
      (bs.foldlM (propagate c head slot id) t) := by
  induction bs generalizing t with
  | nil => exact .pure (.nil A t)
  | cons b bs ih =>
    obtain ⟨hb, hbs⟩ := List.forall_mem_cons.1 hbs
    rw [List.foldlM_cons]
    show Refines _ (c.permit os b >>= fun _ => bs.forM (c.permit os)) _
    refine (h t b ht hb).bind fun _ t₁ _ h₁ => ?_
    exact (ih (h₁.alike.trans ht) hbs).mono fun _ t' _ h' => h₁.append h'

end Propagates

end NodeTable

end Antecedent
