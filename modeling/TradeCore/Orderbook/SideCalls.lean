import TradeCore.Orderbook.LevelLifecycle
import TradeCore.Orderbook.TreeStatistics
/-!
# Runs of `insert_level` and `remove_level`

The two calls alone, on a fresh side over any pool: a removed level keeps its slot, and may come back. Between the
calls anything may happen to the pool that leaves the prices and the links of the levels present alone: levels are
created and destroyed, orders come and go.

The statistics are right about such a run exactly when its calls passed no node of the tree (`level_counts_iff`).
-/

namespace TradeCore

open ObjectPool BookSide

variable {cap : PoolCapacity}

/-- A side, the levels present, and the nodes that the insertions and the removals passed so far. -/
structure SideUse (cap : PoolCapacity) extends SideState cap where
  present : Finset Index
  passedInserting : ℕ
  passedRemoving : ℕ

/-- A fresh side with fresh statistics. -/
def SideUse.new (side : UInt8) (pool : PriceLevelPool cap) : SideUse cap :=
  ⟨⟨BookSide.new side, pool, AVLStatistics.zero⟩, ∅, 0, 0⟩

inductive SideCall where
  | insert (idx : Index)
  | remove (idx : Index)
deriving DecidableEq, Repr

namespace SideCall

def run (u : SideUse cap) : SideCall → Exec (SideUse cap)
  | insert idx => do
    let (side, pool, stats) ← u.side.insertLevel idx u.pool u.stats
    let passed := avl.nodesAbove u.pool (u.pool.slots idx).price (cap.size + 1) u.side.avlRoot
    return ⟨⟨side, pool, stats⟩, Insert.insert idx u.present, u.passedInserting + passed, u.passedRemoving⟩
  | remove idx => do
    let (side, pool, stats) ← u.side.removeLevel idx u.pool u.stats
    let passed := avl.nodesPassed u.pool (u.pool.slots idx).price (cap.size + 1) u.side.avlRoot
    return ⟨⟨side, pool, stats⟩, u.present.erase idx, u.passedInserting, u.passedRemoving + passed⟩

/-- A slot that is not present and whose price is inside the window and new; or a level present. -/
def Admissible (u : SideUse cap) : SideCall → Prop
  | insert idx => Valid cap idx ∧ idx ∉ u.present ∧ (u.pool.slots idx).price.toNat < 10000 ∧
      ∀ j ∈ u.present, (u.pool.slots j).price ≠ (u.pool.slots idx).price
  | remove idx => idx ∈ u.present

instance (u : SideUse cap) : (c : SideCall) → Decidable (c.Admissible u)
  | insert idx =>
    letI : Decidable (∀ j ∈ u.present, (u.pool.slots j).price ≠ (u.pool.slots idx).price) := Finset.decidableDforallFinset
    inferInstanceAs (Decidable (_ < _ ∧ _ ∧ _ ∧ _))
  | remove _ => inferInstanceAs (Decidable (_ ∈ _))

/-- The call of a client that looks first. -/
def next (u : SideUse cap) (label : Option SideCall) : Option (SideUse cap) :=
  label.bind fun c => Exec.checked (c.Admissible u) (c.run u)

end SideCall

/-- One of the two calls, in either build, or something else between them. -/
inductive SideUse.Step : SideUse cap → Option SideCall → SideUse cap → Prop where
  | call {u u' : SideUse cap} {c : SideCall} {b : Build} : c.Admissible u → c.run u b = .ok u' → Step u (some c) u'
  | other {u : SideUse cap} {pool : PriceLevelPool cap} {stats : AVLStatistics} :
    (∀ i ∈ u.present, pool.node i = u.pool.node i ∧ (pool.slots i).price = (u.pool.slots i).price) →
    SameCounts u.stats stats → Step u none { u with pool := pool, stats := stats }

def sideCalls (cap : PoolCapacity) (side : UInt8) : TransitionSystem (SideUse cap) (Option SideCall) where
  init u := ∃ pool, u = SideUse.new side pool
  step := SideUse.Step

/-- How many levels were inserted, and how many removed. -/
def inserts (calls : List (Option SideCall)) : ℕ := calls.countP fun
  | some (.insert _) => true
  | _ => false

def removals (calls : List (Option SideCall)) : ℕ := calls.countP fun
  | some (.remove _) => true
  | _ => false

variable {u u' : SideUse cap} {side : UInt8} {is : List Index} {c : SideCall} {calls : List (Option SideCall)}

/-! ## The levels -/

/-- The levels of the side are `is`, by increasing price. -/
structure SideUse.Ok (u : SideUse cap) (side : UInt8) (is : List Index) : Prop where
  tree : u.side.SideTree u.pool is
  present : ∀ i, i ∈ u.present ↔ i ∈ is
  side : u.side.side = side

theorem SideUse.ok_new (side : UInt8) (pool : PriceLevelPool cap) : (SideUse.new side pool).Ok side [] where
  tree := sideTree_new side pool
  present := by simp [SideUse.new]
  side := rfl

theorem SideCall.run_insert {idx : Index} {s' : BookSide} {pool' : PriceLevelPool cap} {stats' : AVLStatistics}
    (e : u.side.insertLevel idx u.pool u.stats = pure (s', pool', stats')) : ∃ u', (SideCall.insert idx).run u = pure u' ∧
      u'.side = s' ∧ u'.pool = pool' ∧ u'.present = Insert.insert idx u.present := by
  simp only [SideCall.run, e, pure_bind]
  exact ⟨_, rfl, rfl, rfl, rfl⟩

theorem SideCall.run_remove {idx : Index} {s' : BookSide} {pool' : PriceLevelPool cap} {stats' : AVLStatistics}
    (e : u.side.removeLevel idx u.pool u.stats = pure (s', pool', stats')) : ∃ u', (SideCall.remove idx).run u = pure u' ∧
      u'.side = s' ∧ u'.pool = pool' ∧ u'.present = u.present.erase idx := by
  simp only [SideCall.run, e, pure_bind]
  exact ⟨_, rfl, rfl, rfl, rfl⟩

/-- **Each call returns**, in either build, and leaves a side in order. -/
theorem SideUse.Ok.call (h : u.Ok side is) (ha : c.Admissible u) : ∃ u' is', c.run u = pure u' ∧ u'.Ok side is' := by
  cases c with
  | insert idx =>
    obtain ⟨hv, hnew, hw, hp⟩ := ha
    have hp' : ∀ j ∈ is, u.pool.priceOf j ≠ u.pool.priceOf idx :=
      fun j hj e => hp j ((h.present j).2 hj) (UInt32.toNat_inj.1 e)
    obtain ⟨s', pool', stats', L, R, e, hLR, -, -, htree, -, hside⟩ :=
      h.tree.insertLevel_spec hv (fun hi => hnew ((h.present idx).2 hi)) hp' hw u.stats
    obtain ⟨u', erun, rfl, rfl, hpresent⟩ := SideCall.run_insert e
    refine ⟨u', L ++ idx :: R, erun, htree, fun i => ?_, hside.trans h.side⟩
    rw [hpresent, Finset.mem_insert, h.present, hLR, LinkedList.mem_middle]
  | remove idx =>
    have hmem := (h.present idx).1 ha
    obtain ⟨L, R, rfl⟩ := List.append_of_mem hmem
    have hnd := h.tree.nodup
    obtain ⟨s', pool', stats', e, htree, -, -, hside⟩ := h.tree.removeLevel_spec u.stats
    obtain ⟨u', erun, rfl, rfl, hpresent⟩ := SideCall.run_remove e
    refine ⟨u', L ++ R, erun, htree, fun i => ?_, hside.trans h.side⟩
    have hidx : idx ∉ L ++ R := (List.nodup_cons.1 (List.nodup_middle.1 hnd)).1
    rw [hpresent, Finset.mem_erase, h.present, LinkedList.mem_middle]
    constructor
    · rintro ⟨hne, hi⟩
      exact hi.resolve_left hne
    · intro hi
      exact ⟨fun e => hidx (e ▸ hi), Or.inr hi⟩

theorem SideUse.Ok.step {label : Option SideCall} (h : u.Ok side is) (hstep : u.Step label u') : ∃ is', u'.Ok side is' := by
  cases hstep with
  | call ha hrun =>
    obtain ⟨u1, is', e, hok⟩ := h.call ha
    rw [e, Exec.pure_apply] at hrun
    cases hrun
    exact ⟨is', hok⟩
  | other hframe hcounts =>
    refine ⟨is, h.tree.frame fun j hj => ?_, h.present, h.side⟩
    obtain ⟨hnode, hprice⟩ := hframe j ((h.present j).2 hj)
    exact ⟨hnode, congrArg UInt32.toNat hprice⟩

/-- **Every run** leaves the side in order. -/
theorem SideUse.ok_of_trace (h : (sideCalls cap side).Trace calls u) : ∃ is, u.Ok side is := by
  refine h.invariant (fun _ u => ∃ is, u.Ok side is) ?_ ?_
  · rintro u ⟨pool, rfl⟩
    exact ⟨[], SideUse.ok_new side pool⟩
  · rintro calls u label u' ⟨is, hok⟩ hstep
    exact hok.step hstep

/-! ## The statistics -/

/-- **What the statistics count**: a unit for each call, and one for each node passed. -/
structure SideUse.Tallied (u : SideUse cap) (calls : List (Option SideCall)) : Prop where
  insertions : u.stats.insertions = UInt64.ofNat (inserts calls + u.passedInserting)
  deletions : u.stats.deletions = UInt64.ofNat (removals calls + u.passedRemoving)

theorem inserts_concat (calls : List (Option SideCall)) (label : Option SideCall) :
    inserts (calls ++ [label]) = inserts calls + inserts [label] := List.countP_append

theorem removals_concat (calls : List (Option SideCall)) (label : Option SideCall) :
    removals (calls ++ [label]) = removals calls + removals [label] := List.countP_append

/-- The parts of a call that returned. -/
theorem SideCall.run_insert_ok {idx : Index} {b : Build} (h : (SideCall.insert idx).run u b = .ok u') :
    u.side.insertLevel idx u.pool u.stats b = .ok (u'.side, u'.pool, u'.stats) ∧ u'.passedRemoving = u.passedRemoving ∧
      u'.passedInserting = u.passedInserting + avl.nodesAbove u.pool (u.pool.slots idx).price (cap.size + 1) u.side.avlRoot := by
  obtain ⟨res, hrun, h⟩ := Exec.bind_eq_ok.1 h
  cases h
  exact ⟨hrun, rfl, rfl⟩

theorem SideCall.run_remove_ok {idx : Index} {b : Build} (h : (SideCall.remove idx).run u b = .ok u') :
    u.side.removeLevel idx u.pool u.stats b = .ok (u'.side, u'.pool, u'.stats) ∧ u'.passedInserting = u.passedInserting ∧
      u'.passedRemoving = u.passedRemoving + avl.nodesPassed u.pool (u.pool.slots idx).price (cap.size + 1) u.side.avlRoot := by
  obtain ⟨res, hrun, h⟩ := Exec.bind_eq_ok.1 h
  cases h
  exact ⟨hrun, rfl, rfl⟩

theorem SideUse.Tallied.step {label : Option SideCall} (h : u.Tallied calls) (hok : u.Ok side is) (hstep : u.Step label u') :
    u'.Tallied (calls ++ [label]) := by
  obtain ⟨hins, hdel⟩ := h
  cases hstep with
  | @call _ c b ha hrun =>
    cases c with
    | insert idx =>
      obtain ⟨hcall, hremoving, hinserting⟩ := SideCall.run_insert_ok hrun
      obtain ⟨hcount, hsame⟩ := insertLevel_counts hcall
      constructor
      · rw [hcount, hins, hinserting, inserts_concat, ← UInt64.ofNat_add]
        congr 1
        change _ = inserts calls + 1 + _
        omega
      · rw [hsame, hdel, hremoving, removals_concat]
        rfl
    | remove idx =>
      obtain ⟨hcall, hinserting, hremoving⟩ := SideCall.run_remove_ok hrun
      obtain ⟨hcount, hsame⟩ := removeLevel_counts hok.tree ((hok.present idx).1 ha) hcall
      constructor
      · rw [hsame, hins, hinserting, inserts_concat]
        rfl
      · rw [hcount, hdel, hremoving, removals_concat, ← UInt64.ofNat_add]
        congr 1
        change _ = removals calls + 1 + _
        omega
  | other hframe hcounts =>
    constructor
    · rw [inserts_concat]
      exact hcounts.1.trans hins
    · rw [removals_concat]
      exact hcounts.2.trans hdel

/-- **Every run is tallied.** -/
theorem SideUse.tallied (h : (sideCalls cap side).Trace calls u) : u.Tallied calls := by
  have hboth : (∃ is, u.Ok side is) ∧ u.Tallied calls := by
    refine h.invariant (fun calls u => (∃ is, u.Ok side is) ∧ u.Tallied calls) ?_ ?_
    · rintro u ⟨pool, rfl⟩
      exact ⟨⟨[], SideUse.ok_new side pool⟩, rfl, rfl⟩
    · rintro calls u label u' ⟨⟨is, hok⟩, htally⟩ hstep
      exact ⟨hok.step hstep, htally.step hok hstep⟩
  exact hboth.2

theorem ofNat_add_eq_left (n m : ℕ) : UInt64.ofNat (n + m) = UInt64.ofNat n ↔ m % 2 ^ 64 = 0 := by
  rw [UInt64.ofNat_add, add_eq_left, ← UInt64.toNat_inj]
  rfl

/-- **The statistics count level operations exactly when** none of them passed a node of the tree (or 2^64 of them did). -/
theorem level_counts_iff (h : (sideCalls cap side).Trace calls u) :
    (u.stats.insertions = UInt64.ofNat (inserts calls) ∧ u.stats.deletions = UInt64.ofNat (removals calls)) ↔
      u.passedInserting % 2 ^ 64 = 0 ∧ u.passedRemoving % 2 ^ 64 = 0 := by
  obtain ⟨hins, hdel⟩ := SideUse.tallied h
  rw [hins, hdel, ofNat_add_eq_left, ofNat_add_eq_left]

theorem SideCall.next_step {label : Option SideCall} (h : SideCall.next u label = some u') : (sideCalls cap side).step u label u' := by
  obtain ⟨c, rfl, h⟩ := Option.bind_eq_some_iff.1 h
  obtain ⟨ha, hrun⟩ := Exec.checked_eq_some.1 h
  exact .call ha hrun

/-- Three levels created for a bid side, at 100, 300 and 200. -/
def threeCreated : PriceLevelPool threeLevels :=
  ((do
    let (_, pool) ← (BookSide.new 0).createLevel 100 freshBids.pool
    let (_, pool) ← (BookSide.new 0).createLevel 300 pool
    let (_, pool) ← (BookSide.new 0).createLevel 200 pool
    return pool : Exec (PriceLevelPool threeLevels)) .debug).toOption.getD freshBids.pool

/-- None of them inserted. -/
def noneInserted : SideUse threeLevels := SideUse.new 0 threeCreated

/-- One level after another. -/
def oneAtATime : List (Option SideCall) := [some (.insert 0), some (.remove 0), some (.insert 1), some (.remove 1), some (.insert 0)]

/-- All of them, and without the best again. -/
def allAtOnce : List (Option SideCall) := [some (.insert 0), some (.insert 1), some (.insert 2), some (.remove 1)]

theorem noneInserted_trace {u : SideUse threeLevels} (h : calls.foldlM SideCall.next noneInserted = some u) : (sideCalls threeLevels 0).Trace calls u :=
  TransitionSystem.Trace.foldlM (fun _ _ _ => SideCall.next_step) (.init ⟨_, rfl⟩) h

theorem level_counts_iff_bids :
    (∃ u, (sideCalls threeLevels 0).Trace oneAtATime u ∧ u.stats.insertions = 3 ∧ u.stats.deletions = 2) ∧
      ∃ u, (sideCalls threeLevels 0).Trace allAtOnce u ∧ ¬(u.stats.insertions = 3 ∧ u.stats.deletions = 1) := by
  have hone : (oneAtATime.foldlM SideCall.next noneInserted).map (fun u => (u.passedInserting, u.passedRemoving)) = some (0, 0) := by
    decide +kernel
  have hall : (allAtOnce.foldlM SideCall.next noneInserted).map (fun u => (u.passedInserting, u.passedRemoving)) = some (3, 1) := by
    decide +kernel
  obtain ⟨u, hu, hpassed⟩ := Option.map_eq_some_iff.1 hone
  obtain ⟨v, hv, hpassed'⟩ := Option.map_eq_some_iff.1 hall
  obtain ⟨hins, hdel⟩ := Prod.mk.inj hpassed
  obtain ⟨hins', -⟩ := Prod.mk.inj hpassed'
  refine ⟨⟨u, noneInserted_trace hu, (level_counts_iff (noneInserted_trace hu)).2 (by rw [hins, hdel]; decide)⟩,
    v, noneInserted_trace hv, fun hcounts => ?_⟩
  have hnone := ((level_counts_iff (noneInserted_trace hv)).1 hcounts).1
  rw [hins'] at hnone
  exact absurd hnone (by decide)

/-- **Two insertions count three.** -/
theorem level_counts_two : ¬∀ (cap : PoolCapacity) (side : UInt8) (calls : List (Option SideCall)) (u : SideUse cap),
    (sideCalls cap side).Trace calls u →
    u.stats.insertions = UInt64.ofNat (inserts calls) ∧ u.stats.deletions = UInt64.ofNat (removals calls) := by
  intro hcounts
  have hrun : ([some (.insert 0), some (.insert 1)].foldlM SideCall.next noneInserted).map (fun u => u.stats.insertions) = some 3 := by
    decide +kernel
  obtain ⟨u, hu, hins⟩ := Option.map_eq_some_iff.1 hrun
  have hclaimed := (hcounts threeLevels 0 _ u (noneInserted_trace hu)).1
  rw [hins] at hclaimed
  revert hclaimed
  decide

end TradeCore
