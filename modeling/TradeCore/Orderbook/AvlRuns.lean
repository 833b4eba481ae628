import TradeCore.Orderbook.AvlProofs
/-!
# Whole runs of the tree: `insert` and `remove` from the empty tree on

A client owns the pool and calls `avl::insert` and `avl::remove`; between two calls it may write to the
pool, but not to the price or the links of a slot that is in the tree. `TreeState.members` is the ghost
record of what the client inserted and did not remove.

| here | there |
| --- | --- |
| `TreeState`         | a pool and the root index a client keeps (`BookSide::root_idx_`) |
| `TreeEvent`         | `insert` (`avl_tree.hpp:168`), `remove` (`avl_tree.hpp:199`), or the client's own writes |
| `TreeOk s t`        | the links under the root are the tree `t`, and `t` is what it should be |
-/

namespace TradeCore

open Avl Avl.BinTree ObjectPool

variable {cap : PoolCapacity}

structure TreeState (cap : PoolCapacity) where
  pool : PriceLevelPool cap
  root : Index
  stats : AVLStatistics
  /-- Inserted and not removed. -/
  members : Finset Index

inductive TreeEvent (cap : PoolCapacity) where
  | insert (i : Index)
  | remove (i : Index)
  | write (pool : PriceLevelPool cap)

/-- What the client has to see to before each event. -/
def TreeEvent.Admissible (s : TreeState cap) : TreeEvent cap → Prop
  | .insert i => Valid cap i ∧ i ∉ s.members ∧ ∀ j ∈ s.members, (s.pool.slots j).price ≠ (s.pool.slots i).price
  | .remove i => i ∈ s.members
  | .write pool => ∀ j ∈ s.members, (pool.slots j).price = (s.pool.slots j).price ∧ pool.node j = s.pool.node j

instance (s : TreeState cap) : (e : TreeEvent cap) → Decidable (e.Admissible s)
  | .insert i =>
    letI : Decidable (∀ j ∈ s.members, (s.pool.slots j).price ≠ (s.pool.slots i).price) := Finset.decidableDforallFinset
    inferInstanceAs (Decidable (_ < _ ∧ _ ∧ _))
  | .remove _ => inferInstanceAs (Decidable (_ ∈ _))
  | .write _ => Finset.decidableDforallFinset

def TreeEvent.apply (s : TreeState cap) : TreeEvent cap → Exec (TreeState cap)
  | .insert i => do
    let (pool, root, stats) ← avl.insert s.pool s.root i s.stats
    return ⟨pool, root, stats, Insert.insert i s.members⟩
  | .remove i => do
    let (pool, root, stats) ← avl.remove s.pool s.root i s.stats
    return ⟨pool, root, stats, s.members.erase i⟩
  | .write pool => return { s with pool := pool }

/-- The states of a client that starts with an empty tree over any pool and keeps to `Admissible`. -/
inductive TreeReachable : TreeState cap → Prop where
  | empty (pool : PriceLevelPool cap) (stats : AVLStatistics) : TreeReachable ⟨pool, kInvalidPoolIndex, stats, ∅⟩
  | step {s s' : TreeState cap} {e : TreeEvent cap} : TreeReachable s → e.Admissible s → e.apply s = pure s' →
      TreeReachable s'

/-- The links under the root are the tree `t`, stored heights and parents included, and `t` is an AVL tree
over exactly the members, in strictly increasing price order. -/
structure TreeOk (s : TreeState cap) (t : BinTree Index) : Prop where
  linked : TreeAt s.pool t s.root kInvalidPoolIndex
  increasing : Sorted s.pool.priceOf t
  nodes : ∀ i, i ∈ t.toList ↔ i ∈ s.members
  balanced : t.Balanced

theorem TreeOk.price_ne {s : TreeState cap} {t : BinTree Index} (h : TreeOk s t) {i : Index}
    (hi : ∀ j ∈ s.members, (s.pool.slots j).price ≠ (s.pool.slots i).price) :
    ∀ j ∈ t.toList, s.pool.priceOf j ≠ s.pool.priceOf i := by
  intro j hj e
  exact hi j ((h.nodes j).1 hj) (UInt32.toNat_inj.1 e)

/-- What an event may change: nothing but tree links, and those only in slots that are in the tree before or
after it. -/
structure EventFrame (s s' : TreeState cap) : Prop where
  freeHead : s'.pool.freeHead = s.pool.freeHead
  activeCount : s'.pool.activeCount = s.pool.activeCount
  payload : ∀ j, s'.pool.slots j = { s.pool.slots j with node := s'.pool.node j }
  links : ∀ j, j ∉ s.members → j ∉ s'.members → s'.pool.node j = s.pool.node j

theorem EventFrame.of_nodeFrame {s s' : TreeState cap} {is : List Index} (h : NodeFrame is s.pool s'.pool)
    (hi : ∀ j ∈ is, j ∈ s.members ∨ j ∈ s'.members) : EventFrame s s' where
  freeHead := h.freeHead
  activeCount := h.activeCount
  payload := h.payload
  links j hj hj' := h.node_eq fun hm => (hi j hm).elim hj hj'

/-! ## One event -/

section Events

variable {s : TreeState cap} {t : BinTree Index} {i : Index}

/-- An admissible `insert` returns, in either build, and keeps the tree in order. -/
theorem TreeOk.insert (h : TreeOk s t) (ha : (TreeEvent.insert i).Admissible s) :
    ∃ s', (TreeEvent.insert i).apply s = pure s' ∧ s'.members = Insert.insert i s.members ∧
      TreeOk s' (BinTree.insert s.pool.priceOf i t) ∧ EventFrame s s' := by
  obtain ⟨hv, hi, hp⟩ := ha
  have hit : i ∉ t.toList := fun hm => hi ((h.nodes i).1 hm)
  obtain ⟨pool', root, stats', e, ht, hF⟩ := insert_spec h.linked h.increasing.nodup hv hit s.stats
  rw [ite_self] at ht
  refine ⟨⟨pool', root, stats', Insert.insert i s.members⟩, ?_, rfl, ⟨ht, ?_, ?_, h.balanced.insert i⟩, ?_⟩
  · simp only [TreeEvent.apply, e, pure_bind]
  · exact (h.increasing.insert (h.price_ne hp)).congr fun j _ => hF.priceOf j
  · intro j
    rw [mem_insert, h.nodes, Finset.mem_insert]
  · refine EventFrame.of_nodeFrame hF fun j hj => ?_
    rcases List.mem_cons.1 hj with rfl | hj
    · exact Or.inr (Finset.mem_insert_self _ _)
    · exact Or.inl ((h.nodes j).1 hj)

/-- An admissible `remove` returns, keeps the tree in order and leaves the removed slot without children. -/
theorem TreeOk.remove (h : TreeOk s t) (ha : (TreeEvent.remove i).Admissible s) :
    ∃ s', (TreeEvent.remove i).apply s = pure s' ∧ s'.members = s.members.erase i ∧
      TreeOk s' (BinTree.erase s.pool.priceOf t (s.pool.priceOf i)) ∧ EventFrame s s' ∧
      Unlinked s'.pool i := by
  have hit : i ∈ t.toList := (h.nodes i).2 ha
  obtain ⟨pool', root, stats', e, ht, hF, hu⟩ := remove_spec h.linked h.increasing hit s.stats
  refine ⟨⟨pool', root, stats', s.members.erase i⟩, ?_, rfl, ⟨ht, ?_, ?_, h.balanced.erase _⟩, ?_, hu⟩
  · simp only [TreeEvent.apply, e, pure_bind]
  · exact (h.increasing.erase _).congr fun j _ => hF.priceOf j
  · intro j
    rw [mem_erase h.increasing, h.nodes, Finset.mem_erase]
    constructor
    · rintro ⟨hj, hne⟩
      exact ⟨fun e => hne (by rw [e]), hj⟩
    · rintro ⟨hne, hj⟩
      exact ⟨hj, fun e => hne (h.increasing.key_inj ((h.nodes j).2 hj) hit e)⟩
  · exact EventFrame.of_nodeFrame hF fun j hj => Or.inl ((h.nodes j).1 hj)

/-- The client's writes do not touch the tree. -/
theorem TreeOk.write {pool : PriceLevelPool cap} (h : TreeOk s t) (ha : (TreeEvent.write pool).Admissible s) :
    TreeOk { s with pool := pool } t where
  linked := h.linked.congr fun j hj => (ha j ((h.nodes j).1 hj)).2
  increasing := h.increasing.congr fun j hj => congrArg UInt32.toNat (ha j ((h.nodes j).1 hj)).1
  nodes := h.nodes
  balanced := h.balanced

end Events

/-! ## The run -/

/-- **The invariant holds in every reachable state.** -/
theorem TreeReachable.ok {s : TreeState cap} (h : TreeReachable s) : ∃ t, TreeOk s t := by
  induction h with
  | empty pool stats => exact ⟨nil, rfl, List.Pairwise.nil, fun i => by simp, trivial⟩
  | @step s s' e _ ha hs ih =>
    obtain ⟨t, ht⟩ := ih
    cases e with
    | insert i =>
      obtain ⟨s'', e, -, hok, -⟩ := ht.insert ha
      rw [e] at hs
      obtain rfl := Exec.pure_inj hs
      exact ⟨_, hok⟩
    | remove i =>
      obtain ⟨s'', e, -, hok, -⟩ := ht.remove ha
      rw [e] at hs
      obtain rfl := Exec.pure_inj hs
      exact ⟨_, hok⟩
    | write pool =>
      obtain rfl := Exec.pure_inj hs
      exact ⟨t, ht.write ha⟩

/-- An admissible event returns, in either build. -/
theorem TreeReachable.apply_returns {s : TreeState cap} {e : TreeEvent cap} (h : TreeReachable s) (ha : e.Admissible s) :
    ∃ s', e.apply s = pure s' := by
  obtain ⟨t, ht⟩ := h.ok
  cases e with
  | insert i =>
    obtain ⟨s', e, -⟩ := ht.insert ha
    exact ⟨s', e⟩
  | remove i =>
    obtain ⟨s', e, -⟩ := ht.remove ha
    exact ⟨s', e⟩
  | write pool => exact ⟨_, rfl⟩

/-- The event of a client that looks first. -/
def TreeEvent.next (s : TreeState cap) (e : TreeEvent cap) : Option (TreeState cap) := Exec.checked (e.Admissible s) (e.apply s)

/-- A run that is computed leads to a reachable state. -/
theorem TreeReachable.foldlM {s s' : TreeState cap} {events : List (TreeEvent cap)} (h : TreeReachable s)
    (hrun : events.foldlM TreeEvent.next s = some s') : TreeReachable s' := by
  induction events generalizing s with
  | nil =>
    cases hrun
    exact h
  | cons e events ih =>
    obtain ⟨s1, hone, hrest⟩ := Option.bind_eq_some_iff.1 hrun
    obtain ⟨ha, happly⟩ := Exec.checked_eq_some.1 hone
    obtain ⟨s2, e2⟩ := h.apply_returns ha
    rw [e2, Exec.pure_apply] at happly
    cases happly
    exact ih (.step h ha e2) hrest

/-- **`find`** over a tree in order: the member with the price, `kInvalidPoolIndex` when there is none. -/
theorem TreeOk.find {s : TreeState cap} {t : BinTree Index} (h : TreeOk s t) (price : UInt32) :
    ∃ r, avl.find s.pool s.root price = pure r ∧
      (∀ i, Valid cap i → (r = i ↔ i ∈ s.members ∧ (s.pool.slots i).price = price)) ∧
      (r = kInvalidPoolIndex ↔ ∀ i ∈ s.members, (s.pool.slots i).price ≠ price) := by
  refine ⟨_, find_spec h.linked h.increasing.nodup price, ?_⟩
  have hkey : ∀ i, (i ∈ t.toList ∧ s.pool.priceOf i = price.toNat) ↔
      (i ∈ s.members ∧ (s.pool.slots i).price = price) := fun i => by
    rw [h.nodes]
    exact and_congr_right fun _ => UInt32.toNat_inj
  cases hf : BinTree.find? s.pool.priceOf price.toNat t with
  | none =>
    have hnone : ∀ i, ¬ (i ∈ s.members ∧ (s.pool.slots i).price = price) := by
      intro i hi
      have := (find?_eq_some h.increasing).2 ((hkey i).2 hi)
      rw [hf] at this
      cases this
    refine ⟨fun i hv => ⟨fun e => absurd e.symm hv.ne_invalid, fun hi => absurd hi (hnone i)⟩, fun _ i hi e => ?_, fun _ => rfl⟩
    exact hnone i ⟨hi, e⟩
  | some j =>
    have hj := (hkey j).1 ((find?_eq_some h.increasing).1 hf)
    have hjv : Valid cap j := h.linked.valid j ((h.nodes j).2 hj.1)
    refine ⟨fun i _ => ⟨fun e => e ▸ hj, fun hi => ?_⟩, fun e => absurd e hjv.ne_invalid, fun hn => absurd hj.2 (hn j hj.1)⟩
    have := (find?_eq_some h.increasing).2 ((hkey i).2 hi)
    rw [hf] at this
    exact Option.some.inj this

/-- What holds after an event that led from `s` to `s'`, whose tree is `t`. -/
structure TreeStepOk (s : TreeState cap) (e : TreeEvent cap) (s' : TreeState cap) (t : BinTree Index) : Prop where
  tree : TreeOk s' t
  balance : ∀ i ∈ s'.members, ∃ b, avl.balanceFactor s'.pool i = pure b ∧ (b = -1 ∨ b = 0 ∨ b = 1)
  search : ∀ price, ∃ r, avl.find s'.pool s'.root price = pure r ∧
    (∀ i, Valid cap i → (r = i ↔ i ∈ s'.members ∧ (s'.pool.slots i).price = price)) ∧
    (r = kInvalidPoolIndex ↔ ∀ i ∈ s'.members, (s'.pool.slots i).price ≠ price)
  frame : (∀ pool, e ≠ .write pool) → EventFrame s s'
  cleared : ∀ i, e = .remove i → Unlinked s'.pool i

/-- **Every run of `insert` and `remove`.** From any reachable state an admissible event returns, and after it
the links are an AVL tree over exactly the members, `find` decides membership, and nothing but tree links of
members moved. -/
theorem avl_run_correct {s : TreeState cap} {e : TreeEvent cap} (h : TreeReachable s) (ha : e.Admissible s) :
    ∃ s' t, e.apply s = pure s' ∧ TreeStepOk s e s' t := by
  obtain ⟨t, ht⟩ := h.ok
  have balance : ∀ {s' : TreeState cap} {t' : BinTree Index}, TreeOk s' t' →
      ∀ i ∈ s'.members, ∃ b, avl.balanceFactor s'.pool i = pure b ∧ (b = -1 ∨ b = 0 ∨ b = 1) := by
    intro s' t' h' i hi
    exact h'.linked.balanceFactor_bound h'.balanced i ((h'.nodes i).2 hi)
  cases e with
  | insert i =>
    obtain ⟨s', hs, -, hok, hF⟩ := ht.insert ha
    exact ⟨s', _, hs, hok, balance hok, hok.find, fun _ => hF, nofun⟩
  | remove i =>
    obtain ⟨s', hs, -, hok, hF, hu⟩ := ht.remove ha
    refine ⟨s', _, hs, hok, balance hok, hok.find, fun _ => hF, fun j e => ?_⟩
    obtain rfl := TreeEvent.remove.inj e
    exact hu
  | write pool =>
    have hok := ht.write ha
    exact ⟨_, t, rfl, hok, balance hok, hok.find, fun hn => absurd rfl (hn pool), nofun⟩

/-- An empty tree over six slots with prices 0 to 5. -/
def emptyTree : TreeState ⟨6, by decide, by decide⟩ :=
  ⟨⟨fun i => { PriceLevel.zero with price := i }, 0, 0⟩, kInvalidPoolIndex, AVLStatistics.zero, ∅⟩

/-- The third insertion turns the tree, which puts 1 at the root with a child on either side; then 1 is removed. -/
theorem avl_run_correct_turned : ∃ s s' t, [.insert 0, .insert 1, .insert 2, .insert 3].foldlM TreeEvent.next emptyTree = some s ∧
    s.stats.rrRotations = 1 ∧ s.root = 1 ∧ s.pool.node 1 = ⟨0, 2, kInvalidPoolIndex, 3⟩ ∧
      (TreeEvent.remove 1).apply s = pure s' ∧ TreeStepOk s (.remove 1) s' t := by
  have hrun : ([.insert 0, .insert 1, .insert 2, .insert 3].foldlM TreeEvent.next emptyTree).map (fun s =>
      (s.members, s.stats.rrRotations, s.root, s.pool.node 1)) = some ({0, 1, 2, 3}, 1, 1, ⟨0, 2, kInvalidPoolIndex, 3⟩) := by
    decide +kernel
  obtain ⟨s, hs, hseen⟩ := Option.map_eq_some_iff.1 hrun
  simp only [Prod.mk.injEq] at hseen
  obtain ⟨hmembers, hturned⟩ := hseen
  have hreach : TreeReachable s := .foldlM (.empty _ _) hs
  have hin : (TreeEvent.remove 1).Admissible s := by
    change 1 ∈ s.members
    rw [hmembers]
    decide
  obtain ⟨s', t, e, hok⟩ := avl_run_correct hreach hin
  exact ⟨s, s', t, hs, hturned.1, hturned.2.1, hturned.2.2, e, hok⟩

end TradeCore
