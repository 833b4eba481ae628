import TradeCore.Orderbook.LevelSteps
/-!
# Runs of level insertions and removals on one side

A client adds levels by price (`create_level`, then `insert_level`) and takes them away by price
(`find_by_price`, then `remove_and_destroy_level`). Nothing but `0 < price` is asked of a price, which is
all that `add_order` and `BookUpdateValidator` check. The dense array is narrower than that: it holds the
prices below 10000, and its write paths do not have the fallback of its read path.
-/

namespace TradeCore

open ObjectPool BookSide

variable {cap : PoolCapacity}

structure SideState (cap : PoolCapacity) where
  side : BookSide
  pool : PriceLevelPool cap
  stats : AVLStatistics

/-- A fresh side over a fresh pool; `slots` is what the pool's memory held. -/
def SideState.new (side : UInt8) (slots : Index → PriceLevel) : SideState cap :=
  ⟨BookSide.new side, ObjectPool.new slots, AVLStatistics.zero⟩

inductive LevelEvent where
  | insert (price : UInt32)
  | remove (price : UInt32)
deriving DecidableEq

namespace LevelEvent

def apply (st : SideState cap) : LevelEvent → Exec (SideState cap)
  | insert price => do
    let (idx, pool) ← st.side.createLevel price st.pool
    let (side, pool, stats) ← st.side.insertLevel idx pool st.stats
    return ⟨side, pool, stats⟩
  | remove price => do
    let idx ← st.side.findByPrice st.pool price
    let (side, pool, stats) ← st.side.removeAndDestroyLevel idx st.pool st.stats
    return ⟨side, pool, stats⟩

/-- The prices on the side after the event. -/
def present (prices : Finset UInt32) : LevelEvent → Finset UInt32
  | insert price => Insert.insert price prices
  | remove price => prices.erase price

/-- The client adds positive prices that are not there while a slot is free, and removes prices that are there. -/
def Admissible (cap : PoolCapacity) (prices : Finset UInt32) : LevelEvent → Prop
  | insert price => 0 < price ∧ price ∉ prices ∧ prices.card < cap.size
  | remove price => price ∈ prices

/-- The price an event adds lies inside the dense window. -/
def InWindow : LevelEvent → Prop
  | insert price => price.toNat < 10000
  | remove _ => True

end LevelEvent

def runLevels (st : SideState cap) : List LevelEvent → Exec (SideState cap)
  | [] => return st
  | e :: es => do
    let st ← e.apply st
    runLevels st es

/-- Every event of the run is admissible when its turn comes. -/
def AdmissibleRun (cap : PoolCapacity) (prices : Finset UInt32) : List LevelEvent → Prop
  | [] => True
  | e :: es => e.Admissible cap prices ∧ AdmissibleRun cap (e.present prices) es

/-- The prices on the side after a run. -/
def presentAfter (prices : Finset UInt32) : List LevelEvent → Finset UInt32
  | [] => prices
  | e :: es => presentAfter (e.present prices) es

/-- `find_by_price` finds exactly the prices on the side. -/
def Served (st : SideState cap) (prices : Finset UInt32) : Prop :=
  ∀ price, ∃ i, st.side.findByPrice st.pool price = pure i ∧
    if price ∈ prices then Valid cap i ∧ (st.pool.slots i).price = price else i = kInvalidPoolIndex

/-- The state of a run: side and pool agree on the slots `is`, whose prices are `prices`. -/
structure SideOk (st : SideState cap) (prices : Finset UInt32) (is : List Index) : Prop where
  tree : st.side.SideTree st.pool is
  pool : st.pool.PoolOk is.toFinset
  prices : prices = (is.map fun i => (st.pool.slots i).price).toFinset
  empty : ∀ i ∈ is, NoOrders st.pool i

namespace SideOk

variable {st : SideState cap} {prices : Finset UInt32} {is : List Index}

theorem new (side : UInt8) (slots : Index → PriceLevel) : SideOk (SideState.new side slots : SideState cap) ∅ [] where
  tree := sideTree_new side _
  pool := new_ok slots
  prices := rfl
  empty := by simp

theorem mem_prices (h : SideOk st prices is) {price : UInt32} :
    price ∈ prices ↔ ∃ i ∈ is, (st.pool.slots i).price = price := by
  rw [h.prices]
  simp

theorem card_prices (h : SideOk st prices is) : is.toFinset.card = prices.card := by
  have hnd : (is.map fun i => (st.pool.slots i).price).Nodup := by
    refine List.Nodup.map_on (fun a ha b hb e => ?_) h.tree.nodup
    exact h.tree.price_inj ha hb (congrArg UInt32.toNat e)
  rw [h.prices, List.toFinset_card_of_nodup hnd, List.toFinset_card_of_nodup h.tree.nodup, List.length_map]

/-- Prices below 10000 and above it are found alike. -/
theorem served (h : SideOk st prices is) : Served st prices := by
  intro price
  by_cases hp : price ∈ prices
  · obtain ⟨i, hi, rfl⟩ := h.mem_prices.1 hp
    refine ⟨i, h.tree.find_mem hi, ?_⟩
    rw [if_pos hp]
    exact ⟨h.tree.valid i hi, rfl⟩
  · refine ⟨kInvalidPoolIndex, h.tree.find_none fun i hi e => hp (h.mem_prices.2 ⟨i, hi, e⟩), ?_⟩
    rw [if_neg hp]

/-- No level is on its way in between two events. -/
theorem levelsOk (h : SideOk st prices is) : LevelsOk st.side st.pool ∅ is where
  tree := h.tree
  slots := by simpa using h.pool
  apart := by simp
  empty := by simpa using h.empty

theorem of_levelsOk (h : LevelsOk st.side st.pool ∅ is)
    (hp : ∀ price, price ∈ prices ↔ ∃ i ∈ is, (st.pool.slots i).price = price) : SideOk st prices is where
  tree := h.tree
  pool := by simpa using h.slots
  prices := by
    ext price
    simp [hp]
  empty := by simpa using h.empty

/-- **An insertion inside the window.** -/
theorem insert (h : SideOk st prices is) {price : UInt32} (ha : (LevelEvent.insert price).Admissible cap prices)
    (hw : price.toNat < 10000) : ∃ st' is', (LevelEvent.insert price).apply st = pure st' ∧
      SideOk st' (Insert.insert price prices) is' := by
  obtain ⟨-, hfresh, hfree⟩ := ha
  rw [← h.card_prices] at hfree
  obtain ⟨i, pool1, e1, h1, -, hu, hpi, hother⟩ := h.levelsOk.create (by simpa using hfree) price
  have hprice1 : ∀ j ∈ is, (pool1.slots j).price = (st.pool.slots j).price := fun j hj => by
    rw [hother j fun e => hu (by simp [← e, hj])]
  have hne : ∀ j ∈ is, (pool1.slots j).price ≠ (pool1.slots i).price := fun j hj e =>
    hfresh (h.mem_prices.2 ⟨j, hj, by rw [← hprice1 j hj, e, hpi]⟩)
  obtain ⟨side', pool2, stats2, is', e2, h2, hmem, -, hprice2⟩ :=
    h1.insert (Finset.mem_insert_self i ∅) (by rw [hpi]; exact hw) hne st.stats
  refine ⟨⟨side', pool2, stats2⟩, is', ?_, of_levelsOk (by simpa using h2) fun p => ?_⟩
  · simp only [LevelEvent.apply, e1, e2, pure_bind]
  · simp only [Finset.mem_insert, h.mem_prices, hmem, hprice2, or_and_right, exists_or, exists_eq_left, hpi]
    refine or_congr eq_comm (exists_congr fun j => and_congr_right fun hj => ?_)
    rw [hprice1 j hj]

/-- **An insertion outside the window** does not return. -/
theorem insert_outside (h : SideOk st prices is) {price : UInt32} (ha : (LevelEvent.insert price).Admissible cap prices)
    (hw : ¬ price.toNat < 10000) (b : Build) (st' : SideState cap) : (LevelEvent.insert price).apply st b ≠ .ok st' := by
  obtain ⟨-, hfresh, hfree⟩ := ha
  obtain ⟨i, pool1, e1, hv, -, -, hslots⟩ :=
    createLevel_ok (s := st.side) h.pool (by rw [h.card_prices]; exact hfree) price
  have hself : (pool1.slots i).price = price := by
    rw [hslots, Function.update_self]
    rfl
  intro hres
  simp only [LevelEvent.apply, e1, pure_bind, insertLevel, get_eq _ hv, bind_assoc, hself] at hres
  obtain ⟨dense, hd, -⟩ := Exec.bind_eq_ok.1 hres
  exact h.tree.direct.insert_outside (by omega) i b dense hd

/-- **A removal.** -/
theorem remove (h : SideOk st prices is) {price : UInt32} (ha : (LevelEvent.remove price).Admissible cap prices) :
    ∃ st' is', (LevelEvent.remove price).apply st = pure st' ∧ SideOk st' (prices.erase price) is' := by
  obtain ⟨i, hi, rfl⟩ := h.mem_prices.1 ha
  obtain ⟨side', pool', stats', is', e, h', hmem, -, hprice⟩ := h.levelsOk.removeAndDestroy hi st.stats
  refine ⟨⟨side', pool', stats'⟩, is', ?_, of_levelsOk h' fun p => ?_⟩
  · simp only [LevelEvent.apply, h.tree.find_mem hi, e, pure_bind]
  · simp only [Finset.mem_erase, h.mem_prices, hmem]
    constructor
    · rintro ⟨hne, j, hj, rfl⟩
      have hji : j ≠ i := fun e => hne (by rw [e])
      exact ⟨j, ⟨hji, hj⟩, hprice j hji⟩
    · rintro ⟨j, ⟨hji, hj⟩, rfl⟩
      rw [hprice j hji]
      exact ⟨fun e => hji (h.tree.price_inj hj hi (congrArg UInt32.toNat e)), j, hj, rfl⟩

/-- One event: it returns exactly when the price it adds is inside the window. -/
theorem apply (h : SideOk st prices is) {e : LevelEvent} (ha : e.Admissible cap prices) (hw : e.InWindow) :
    ∃ st' is', e.apply st = pure st' ∧ SideOk st' (e.present prices) is' := by
  cases e with
  | insert price => exact h.insert ha hw
  | remove price => exact h.remove ha

/-- **A run** returns exactly when every price it adds is inside the window. -/
theorem run (b : Build) : ∀ {es : List LevelEvent} {st : SideState cap} {prices : Finset UInt32} {is : List Index},
    SideOk st prices is → AdmissibleRun cap prices es →
      ((∃ st', runLevels st es b = .ok st' ∧ Served st' (presentAfter prices es)) ↔ ∀ e ∈ es, e.InWindow)
  | [], st, prices, is, h, _ => by
    simp only [List.not_mem_nil, false_imp_iff, implies_true, iff_true]
    exact ⟨st, rfl, h.served⟩
  | e :: es, st, prices, is, h, ⟨ha, hrun⟩ => by
    rw [List.forall_mem_cons]
    by_cases hw : e.InWindow
    · obtain ⟨st1, is1, e1, h1⟩ := h.apply ha hw
      have hrw : runLevels st (e :: es) = runLevels st1 es := by
        simp only [runLevels, e1, pure_bind]
      rw [hrw]
      have ih := run b h1 hrun
      simp only [hw, true_and]
      exact ih
    · refine ⟨fun ⟨st', hst', _⟩ => ?_, fun hall => absurd hall.1 hw⟩
      obtain ⟨st1, h1, -⟩ := Exec.bind_eq_ok.1 hst'
      cases e with
      | insert price => exact absurd h1 (h.insert_outside ha hw b st1)
      | remove price => exact absurd trivial hw

end SideOk

/-- **The dense array serves exactly the runs inside its window.** From a fresh side over a fresh pool, a run of
level insertions and removals with positive prices returns, with every present price found, if and only if every
inserted price is below 10000. In a debug build a higher price fails the range assertion of `FlatPriceArray`, in
a release build it is written outside the array. -/
theorem level_run_iff_in_window (side : UInt8) (slots : Index → PriceLevel) (es : List LevelEvent)
    (hes : AdmissibleRun cap ∅ es) (b : Build) :
    (∃ st, runLevels (SideState.new side slots : SideState cap) es b = .ok st ∧ Served st (presentAfter ∅ es)) ↔
      ∀ e ∈ es, e.InWindow :=
  (SideOk.new side slots).run b hes

/-- Two levels inside the window, one of them removed again. -/
theorem level_run_iff_in_window_two :
    ∃ st, runLevels (SideState.new 0 (fun _ => PriceLevel.zero) : SideState ⟨4, by decide, by decide⟩)
        [.insert 100, .insert 9999, .remove 100] .debug = .ok st ∧
      Served st (presentAfter ∅ [.insert 100, .insert 9999, .remove 100]) :=
  (level_run_iff_in_window 0 _ [.insert 100, .insert 9999, .remove 100]
    ⟨⟨by decide, by decide, by decide⟩, ⟨by decide, by decide, by decide⟩, by simp [LevelEvent.Admissible, LevelEvent.present],
      trivial⟩ .debug).2 (by simp [LevelEvent.InWindow])

/-- A level at price 10000 (1.0000 in fixed point) is admissible and cannot be inserted. -/
theorem level_at_10000_faults :
    AdmissibleRun ⟨4, by decide, by decide⟩ ∅ [.insert 10000] ∧
      (∀ st, runLevels (SideState.new 0 (fun _ => PriceLevel.zero) : SideState ⟨4, by decide, by decide⟩)
        [.insert 10000] .debug ≠ .ok st) ∧
      ∀ st, runLevels (SideState.new 0 (fun _ => PriceLevel.zero) : SideState ⟨4, by decide, by decide⟩)
        [.insert 10000] .release ≠ .ok st := by
  refine ⟨⟨⟨by decide, by decide, by decide⟩, trivial⟩, fun st h => ?_, fun st h => ?_⟩
  · cases h
  · cases h

end TradeCore
