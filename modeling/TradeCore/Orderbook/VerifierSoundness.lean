import TradeCore.Orderbook.VerifierProofs
/-!
# What an accepted book is

The verifier is given arrays, roots and indices from anywhere. What it accepts is for each side an AVL tree linked through
the array, its cached best level at the right end of the listing, and under each level that counts orders a list that ends,
adds up and goes forward in time (`SideAccepted`). It compares neither the prices along a tree nor the count, the tail or
the orders' own price and side with the list: `brokenLevels` is accepted and wrong in all four.
-/

namespace TradeCore

open Avl Avl.BinTree LinkedList

namespace OrderBookVerifier

/-- Every order in exactly one level; map and lists in bijection. -/
def OrdersUnique (bidLevels askLevels : List PriceLevel) (orderPool : List Order) (orderMap : FlatHashMap) : Prop :=
  ∃ queues : List (List Index),
    List.Forall₂ (fun level is => QueueIn orderPool level.headOrderIdx is)
      ((bidLevels ++ askLevels).filter fun level => level.orderCount ≠ 0) queues ∧
    queues.flatten.Nodup ∧ (queues.flatten.map fun i => (orderAt orderPool i).orderId).Nodup ∧
    ∀ id i, (id, i) ∈ orderMap.entries ↔ i ∈ queues.flatten ∧ (orderAt orderPool i).orderId = id

/-- `check_order_uniqueness` as documented (`order_book_verifier.hpp:60`). -/
def Documented (uniqueness : UniquenessCheck) : Prop :=
  ∀ bidLevels askLevels orderPool orderMap,
    uniqueness bidLevels askLevels orderPool orderMap = none ↔ OrdersUnique bidLevels askLevels orderPool orderMap

open Classical in
noncomputable def documentedCheck : UniquenessCheck := fun bidLevels askLevels orderPool orderMap =>
  if OrdersUnique bidLevels askLevels orderPool orderMap then none else some "Duplicate OrderId found within levels"

theorem documented_check : Documented documentedCheck := by
  intro bidLevels askLevels orderPool orderMap
  unfold documentedCheck
  split <;> simp [*]

/-- One side of an accepted book, its tree being `t`. -/
structure SideAccepted (levels : List PriceLevel) (orderPool : List Order) (root best : Index) (isAsk : Bool)
    (t : BinTree Index) : Prop where
  tree : TreeIn levels t root kInvalidPoolIndex
  balanced : t.Balanced
  nodup : t.toList.Nodup
  best : best = bestIn isAsk t.toList
  ordered : Ordered isAsk levels
  queues : ∀ i ∈ t.toList, (levelAt levels i).orderCount ≠ 0 → ∃ is, QueueIn orderPool (levelAt levels i).headOrderIdx is ∧
    qtyOf orderPool is = (levelAt levels i).totalQty ∧ (1 < (levelAt levels i).orderCount → TimeSorted orderPool is)

variable {uniqueness : UniquenessCheck} {bidLevels askLevels levels : List PriceLevel} {orderPool : List Order}
  {orderMap : FlatHashMap} {bidRootIdx askRootIdx bestBidIdx bestAskIdx root best : Index}

theorem SideAccepted.of_checks {isAsk : Bool} {t : BinTree Index} (ht : AvlIn levels root t) (hbest : best = bestIn isAsk t.toList)
    (hord : Ordered isAsk levels) (hqty : Quantities orderPool levels) (hfifo : Fifo orderPool levels) :
    SideAccepted levels orderPool root best isAsk t where
  tree := ht.1
  balanced := ht.2.1
  nodup := ht.2.2
  best := hbest
  ordered := hord
  queues i hi h0 := by
    have hcell : Cell levels i := Links.Linked.cells ht.1 i hi
    have hmem : levelAt levels i ∈ levels := List.mem_of_getElem? (levels_getElem? hcell)
    obtain ⟨is, hq, hsum⟩ := hqty _ hmem h0
    refine ⟨is, hq, hsum, fun h1 => ?_⟩
    -- the two walks follow one list
    obtain ⟨js, hq', hsorted⟩ := hfifo _ hmem h1
    rwa [hq.unique hq']

/-- The best level of a side that is not empty. -/
theorem SideAccepted.best_cell {isAsk : Bool} {t : BinTree Index} (h : SideAccepted levels orderPool root best isAsk t)
    (hne : t ≠ nil) : Cell levels best := by
  rw [h.best]
  exact Links.Linked.cells h.tree _ (bestIn_mem isAsk (mt toList_eq_nil.1 hne))

/-! ## A broken book -/

/-- Two bid levels: the upper one is the root and has the lower one on its right. The root counts two orders, has one, of
another price and side, and names a third as its tail. -/
def brokenLevels : List PriceLevel :=
  [⟨200, 5, 2, 0, 7, ⟨kInvalidPoolIndex, 1, kInvalidPoolIndex, 2⟩, 0⟩,
    ⟨100, 7, 1, 1, 1, ⟨kInvalidPoolIndex, kInvalidPoolIndex, 0, 1⟩, 0⟩]

def brokenOrders : List Order := [⟨1, 10, 50, 5, kInvalidPoolIndex, 1⟩, ⟨2, 11, 100, 7, kInvalidPoolIndex, 0⟩]

/-- Ids 1 and 2 at slots 0 and 1. -/
def brokenMap : FlatHashMap := { ((FlatHashMap.new 4).setSlot 1 1 0).setSlot 2 2 1 with size := 2 }

def brokenTree : BinTree Index := node nil 0 (node nil 1 nil)

theorem broken_avl : AvlIn brokenLevels 0 brokenTree := by
  refine ⟨⟨rfl, ?_, rfl, rfl, rfl, rfl, ?_, rfl, rfl, rfl, rfl⟩, ?_, ?_⟩
  · exact ⟨by decide, by decide⟩
  · exact ⟨by decide, by decide⟩
  · exact ⟨trivial, ⟨trivial, trivial, by decide, by decide⟩, by decide, by decide⟩
  · decide

theorem broken_queue {i : Index} (h : i = 0 ∨ i = 1) : QueueIn brokenOrders i [i] := by
  rcases h with rfl | rfl
  · exact queueIn_cons.2 ⟨rfl, by decide, by decide, queueIn_nil.2 rfl⟩
  · exact queueIn_cons.2 ⟨rfl, by decide, by decide, queueIn_nil.2 rfl⟩

theorem broken_unique : OrdersUnique brokenLevels [] brokenOrders brokenMap := by
  refine ⟨[[0], [1]], ?_, by decide, by decide, fun id i => ?_⟩
  · exact .cons (broken_queue (Or.inl rfl)) (.cons (broken_queue (Or.inr rfl)) .nil)
  · have he : brokenMap.entries = [(1, 0), (2, 1)] := rfl
    rw [he]
    simp only [List.mem_cons, Prod.mk.injEq, List.not_mem_nil, or_false, List.flatten_cons, List.flatten_nil,
      List.append_nil, List.cons_append, List.nil_append]
    constructor
    · rintro (⟨rfl, rfl⟩ | ⟨rfl, rfl⟩)
      · exact ⟨Or.inl rfl, rfl⟩
      · exact ⟨Or.inr rfl, rfl⟩
    · rintro ⟨rfl | rfl, rfl⟩
      · exact Or.inl ⟨rfl, rfl⟩
      · exact Or.inr ⟨rfl, rfl⟩

theorem broken_accepts : Accepts documentedCheck brokenLevels [] brokenOrders brokenMap 0 kInvalidPoolIndex 1 kInvalidPoolIndex where
  ordered := ⟨by unfold Ordered; decide, List.IsChain.nil⟩
  notCrossed _ h := absurd rfl h
  unique := (documented_check _ _ _ _).2 broken_unique
  quantities := by
    refine ⟨fun level h _ => ?_, nofun⟩
    rcases List.mem_pair.1 h with rfl | rfl
    · exact ⟨[0], broken_queue (Or.inl rfl), by decide⟩
    · exact ⟨[1], broken_queue (Or.inr rfl), by decide⟩
  map id i h := by
    have he : brokenMap.entries = [(1, 0), (2, 1)] := rfl
    rw [he, List.mem_pair, Prod.mk.injEq, Prod.mk.injEq] at h
    rcases h with ⟨rfl, rfl⟩ | ⟨rfl, rfl⟩
    · exact ⟨_, rfl, rfl⟩
    · exact ⟨_, rfl, rfl⟩
  fifo := by
    refine ⟨fun level h _ => ?_, nofun⟩
    rcases List.mem_pair.1 h with rfl | rfl
    · exact ⟨[0], broken_queue (Or.inl rfl), List.pairwise_singleton _ _⟩
    · exact ⟨[1], broken_queue (Or.inr rfl), List.pairwise_singleton _ _⟩
  bids := ⟨brokenTree, broken_avl, rfl⟩
  asks := ⟨nil, ⟨rfl, trivial, List.nodup_nil⟩, rfl⟩

/-! ## What `ok` says, and what it does not -/

/-- **What `ok` says.** -/
theorem verify_ok_sound (hdoc : Documented uniqueness) {result : VerificationResult}
    (h : verify uniqueness bidLevels askLevels orderPool orderMap bidRootIdx askRootIdx bestBidIdx bestAskIdx .debug = .ok result)
    (hok : result.ok = true) :
    OrdersUnique bidLevels askLevels orderPool orderMap ∧
    ∃ tb ta, SideAccepted bidLevels orderPool bidRootIdx bestBidIdx false tb ∧
      SideAccepted askLevels orderPool askRootIdx bestAskIdx true ta ∧
      (tb ≠ nil → ta ≠ nil → (levelAt bidLevels bestBidIdx).price < (levelAt askLevels bestAskIdx).price) := by
  obtain ⟨-, hacc⟩ := verify_ok_iff.1 ⟨h, hok⟩
  obtain ⟨tb, htb, hbestb⟩ := hacc.bids
  obtain ⟨ta, hta, hbesta⟩ := hacc.asks
  have hb := SideAccepted.of_checks htb hbestb hacc.ordered.1 hacc.quantities.1 hacc.fifo.1
  have ha := SideAccepted.of_checks hta hbesta hacc.ordered.2 hacc.quantities.2 hacc.fifo.2
  refine ⟨(hdoc _ _ _ _).1 hacc.unique, tb, ta, hb, ha, fun hneb hnea => ?_⟩
  have hcb := hb.best_cell hneb
  have hca := ha.best_cell hnea
  exact hacc.notCrossed hcb.1 hca.1 _ _ (levels_getElem? hcb) (levels_getElem? hca)

theorem verify_ok_sound_broken : OrdersUnique brokenLevels [] brokenOrders brokenMap ∧
    ∃ tb ta, SideAccepted brokenLevels brokenOrders 0 1 false tb ∧
      SideAccepted [] brokenOrders kInvalidPoolIndex kInvalidPoolIndex true ta ∧
      (tb ≠ nil → ta ≠ nil → (levelAt brokenLevels 1).price < (levelAt [] kInvalidPoolIndex).price) :=
  verify_ok_sound documented_check (verify_ok_iff.2 ⟨rfl, broken_accepts⟩).1 rfl

/-- **What `ok` does not say.** -/
theorem verify_accepts_broken : ∃ uniqueness, Documented uniqueness ∧
    verify uniqueness brokenLevels [] brokenOrders brokenMap 0 kInvalidPoolIndex 1 kInvalidPoolIndex .debug = .ok {} ∧
    TreeIn brokenLevels brokenTree 0 kInvalidPoolIndex ∧
    ¬ (brokenTree.toList.map fun i => (levelAt brokenLevels i).price).Pairwise (· < ·) ∧
    QueueIn brokenOrders (levelAt brokenLevels 0).headOrderIdx [0] ∧
    (levelAt brokenLevels 0).orderCount.toNat ≠ [0].length ∧ (levelAt brokenLevels 0).tailOrderIdx ≠ 0 ∧
    (orderAt brokenOrders 0).price ≠ (levelAt brokenLevels 0).price ∧
    (orderAt brokenOrders 0).side ≠ (levelAt brokenLevels 0).side :=
  ⟨documentedCheck, documented_check, (verify_ok_iff.2 ⟨rfl, broken_accepts⟩).1, broken_avl.1, by decide,
    broken_queue (Or.inl rfl), by decide, by decide, by decide, by decide⟩

end OrderBookVerifier

end TradeCore
