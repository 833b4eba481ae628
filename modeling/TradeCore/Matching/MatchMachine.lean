import TradeCore.Matching.MatchingEngine
/-!
# `match_core` one step at a time

| here | there |
| --- | --- |
| `CoreState`  | the engine, `incoming` and `result.trades` in `match_core` (`matching_engine.hpp:106`), and where control stands |
| `fill`       | the body of the inner loop (`matching_engine.hpp:126-154`) |
| `coreStep`   | one test of a loop condition and what follows it up to the next one |

The trades are a list without bound here, where `result.trades` of the source has room for `kMaxTradesPerMatch`.
`matchCore` is the same loops with that bound, and each of its runs that returns is a run of these steps
(`coreRun_of_matchCore`).
-/

namespace TradeCore

variable {maxOrders maxLevels : PoolCapacity}

/-- Where control stands in `match_core`. -/
inductive CorePoint where
  /-- At the condition of the outer loop. -/
  | outer
  /-- At the condition of the inner loop, with its `curr_idx`. -/
  | inner (currIdx : Index)
  /-- Behind the loops. -/
  | done
deriving DecidableEq, Repr

structure CoreState (maxOrders maxLevels : PoolCapacity) where
  point : CorePoint
  engine : MatchingEngine maxOrders maxLevels
  incoming : OrderAction
  trades : List Trade

namespace MatchingEngine

/-- The call of `match_core` for `action`. -/
def coreStart (engine : MatchingEngine maxOrders maxLevels) (action : OrderAction) : CoreState maxOrders maxLevels :=
  ⟨.outer, engine, action, []⟩

/-- The trade of the inner loop. -/
def fillTrade (engine : MatchingEngine maxOrders maxLevels) (incoming : OrderAction) (resting : Order) : Trade :=
  { tradeId := engine.nextTradeId, aggressorOrderId := incoming.orderId, restingOrderId := resting.orderId
    price := resting.price, quantity := stdMin incoming.qty resting.remainingQty
    timestampNs := engine.getTimestamp.1 }

/-- The update it goes into the book with. -/
def execUpdate (t : Trade) : BookUpdate :=
  { BookUpdate.zero with
    type := UpdateType.executeOrder.toByte, orderId := t.restingOrderId, qty := t.quantity, price := t.price
    matchId := t.tradeId }

/-- The engine after a trade: an id is used up, the clock was read, and the book is another. -/
def traded (engine : MatchingEngine maxOrders maxLevels) (book : OrderBook maxOrders maxLevels) : MatchingEngine maxOrders maxLevels :=
  { engine.getTimestamp.2 with book := book, nextTradeId := engine.nextTradeId + 1 }

def fill (st : CoreState maxOrders maxLevels) (currIdx : Index) : Exec (CoreState maxOrders maxLevels) := do
  let resting ← st.engine.book.orderPool.get currIdx
  let t := fillTrade st.engine st.incoming resting
  verifyMatch t st.incoming resting
  let incoming := { st.incoming with qty := st.incoming.qty - t.quantity }
  -- the link is read before the order may be freed
  let currIdx := resting.nextInLevel
  let book ← st.engine.book.executeOrder (execUpdate t)
  return ⟨.inner currIdx, st.engine.traded book, incoming, st.trades ++ [t]⟩

def coreStep (isMarket : Bool) (st : CoreState maxOrders maxLevels) : Exec (CoreState maxOrders maxLevels) :=
  match st.point with
  | .outer =>
    let opposite := st.engine.book.side (sideOf st.incoming.side).flip
    if st.incoming.qty > 0 ∧ opposite.hasBbo then do
      let best ← opposite.bboLevel st.engine.book.levelPool
      match best with
      | none => Exec.fail .outOfBounds
      | some bestLevel =>
        if !isMarket && outOfReach st.incoming bestLevel.price then return { st with point := .done }
        else return { st with point := .inner bestLevel.headOrderIdx }
    else return { st with point := .done }
  | .inner currIdx =>
    if currIdx ≠ kInvalidPoolIndex ∧ st.incoming.qty > 0 then fill st currIdx else return { st with point := .outer }
  | .done => return st

def coreRun (isMarket : Bool) : Nat → CoreState maxOrders maxLevels → Exec (CoreState maxOrders maxLevels)
  | 0, st => return st
  | n + 1, st => do
    let st ← coreStep isMarket st
    coreRun isMarket n st

end MatchingEngine

/-! ## The loops of `matchCore` -/

/-- What the bounded loops work on, at a point of the steps. -/
def MatchState.atPoint (st : MatchState maxOrders maxLevels) (point : CorePoint) : CoreState maxOrders maxLevels :=
  ⟨point, st.engine, st.incoming, st.trades.data⟩

namespace MatchingEngine

variable {isMarket : Bool} {b : Build} {st st' : MatchState maxOrders maxLevels} {cs cs' : CoreState maxOrders maxLevels}

/-- The outer loop ends with nothing to fill or nothing to fill from. -/
theorem coreStep_outer_stop (hp : cs.point = .outer)
    (hno : ¬ (cs.incoming.qty > 0 ∧ (cs.engine.book.side (sideOf cs.incoming.side).flip).hasBbo)) :
    coreStep isMarket cs = pure { cs with point := .done } := by
  unfold coreStep
  rw [hp]
  exact if_neg hno

/-- Otherwise the limit decides at the best level. -/
theorem coreStep_best {level : PriceLevel} (hp : cs.point = .outer)
    (hgo : cs.incoming.qty > 0 ∧ (cs.engine.book.side (sideOf cs.incoming.side).flip).hasBbo)
    (hbest : (cs.engine.book.side (sideOf cs.incoming.side).flip).bboLevel cs.engine.book.levelPool b = .ok (some level)) :
    coreStep isMarket cs b = .ok
      { cs with point := if !isMarket && outOfReach cs.incoming level.price then .done else .inner level.headOrderIdx } := by
  unfold coreStep
  rw [hp]
  simp only
  rw [if_pos hgo, Exec.bind_eq_ok]
  refine ⟨_, hbest, ?_⟩
  simp only
  split_ifs <;> rfl

theorem coreStep_inner_stop {curr : Index} (hp : cs.point = .inner curr)
    (hno : ¬ (curr ≠ kInvalidPoolIndex ∧ cs.incoming.qty > 0)) : coreStep isMarket cs = pure { cs with point := .outer } := by
  unfold coreStep
  rw [hp]
  exact if_neg hno

theorem coreStep_fill {curr : Index} (hp : cs.point = .inner curr) (hgo : curr ≠ kInvalidPoolIndex ∧ cs.incoming.qty > 0) :
    coreStep isMarket cs = fill cs curr := by
  unfold coreStep
  rw [hp]
  exact if_pos hgo

theorem coreRun_add (isMarket : Bool) (m n : ℕ) (cs : CoreState maxOrders maxLevels) :
    coreRun isMarket (m + n) cs = coreRun isMarket m cs >>= coreRun isMarket n := by
  induction m generalizing cs with
  | zero => rw [Nat.zero_add, coreRun, pure_bind]
  | succ m ih =>
    rw [Nat.add_right_comm, coreRun, coreRun, bind_assoc]
    exact bind_congr ih

/-- A step, then more of them. -/
theorem coreRun_succ_ok {n : ℕ} (h : coreStep isMarket cs b = .ok cs') : coreRun isMarket (n + 1) cs b = coreRun isMarket n cs' b := by
  rw [coreRun, Exec.bind_apply, h]
  rfl

/-- **One turn of the bounded inner loop** is a `fill` with a `push_back` in between. -/
theorem sweepLevel_go {fuel : ℕ} {curr : Index} (hgo : curr ≠ kInvalidPoolIndex ∧ st.incoming.qty > 0) :
    sweepLevel (fuel + 1) st curr = (do
      let resting ← st.engine.book.orderPool.get curr
      verifyMatch (fillTrade st.engine st.incoming resting) st.incoming resting
      let trades ← st.trades.pushBack (fillTrade st.engine st.incoming resting)
      let book ← st.engine.book.executeOrder (execUpdate (fillTrade st.engine st.incoming resting))
      sweepLevel fuel ⟨st.engine.traded book,
        { st.incoming with qty := st.incoming.qty - (fillTrade st.engine st.incoming resting).quantity }, trades⟩
        resting.nextInLevel) := by
  rw [sweepLevel, if_pos hgo]
  rfl

theorem coreRun_of_sweepLevel {fuel : ℕ} {curr : Index} (h : sweepLevel fuel st curr b = .ok st') :
    ∃ n, coreRun isMarket n (st.atPoint (.inner curr)) b = .ok (st'.atPoint .outer) := by
  induction fuel generalizing st curr with
  | zero => cases h
  | succ fuel ih =>
    by_cases hgo : curr ≠ kInvalidPoolIndex ∧ st.incoming.qty > 0
    · rw [sweepLevel_go hgo] at h
      obtain ⟨resting, hget, h⟩ := Exec.bind_eq_ok.1 h
      obtain ⟨_, hcheck, h⟩ := Exec.bind_eq_ok.1 h
      obtain ⟨trades, htrades, h⟩ := Exec.bind_eq_ok.1 h
      obtain ⟨book, hbook, h⟩ := Exec.bind_eq_ok.1 h
      obtain ⟨n, hn⟩ := ih h
      refine ⟨n + 1, ?_⟩
      rw [coreRun_succ_ok, hn]
      rw [coreStep_fill rfl hgo]
      refine Exec.bind_eq_ok.2 ⟨resting, hget, Exec.bind_eq_ok.2 ⟨_, hcheck, Exec.bind_eq_ok.2 ⟨book, hbook, ?_⟩⟩⟩
      unfold MatchState.atPoint
      rw [StaticVector.pushBack_data htrades]
      rfl
    · rw [sweepLevel, if_neg hgo] at h
      cases h
      have hstep : coreStep isMarket (st'.atPoint (.inner curr)) b = .ok (st'.atPoint .outer) := by
        rw [coreStep_inner_stop rfl hgo]
        rfl
      exact ⟨1, by rw [coreRun_succ_ok hstep]; rfl⟩

/-- **A run of `matchCore` that returns** is a run of the steps. -/
theorem coreRun_of_matchCore {fuel : ℕ} (h : matchCore isMarket fuel st b = .ok st') :
    ∃ n, coreRun isMarket n (st.atPoint .outer) b = .ok (st'.atPoint .done) := by
  induction fuel generalizing st with
  | zero => cases h
  | succ fuel ih =>
    unfold matchCore at h
    simp only at h
    have hstop : coreStep isMarket (st.atPoint .outer) b = .ok (st.atPoint .done) →
        ∃ n, coreRun isMarket n (st.atPoint .outer) b = .ok (st.atPoint .done) := fun hstep =>
      ⟨1, by rw [coreRun_succ_ok hstep]; rfl⟩
    split_ifs at h with hgo
    · obtain ⟨best, hbest, h⟩ := Exec.bind_eq_ok.1 h
      cases best with
      | none => cases h
      | some level =>
        simp only at h
        split_ifs at h with hreach
        · cases h
          refine hstop ?_
          rw [coreStep_best rfl hgo hbest]
          unfold MatchState.atPoint
          simp only [if_pos hreach]
        · obtain ⟨st1, hst1, hrest⟩ := Exec.bind_eq_ok.1 h
          have hsweep : ∃ m, coreRun isMarket m (st.atPoint (.inner level.headOrderIdx)) b = .ok (st1.atPoint .outer) :=
            coreRun_of_sweepLevel hst1
          obtain ⟨m, hm⟩ := hsweep
          obtain ⟨n, hn⟩ := ih hrest
          refine ⟨m + n + 1, ?_⟩
          have hstep : coreStep isMarket (st.atPoint .outer) b = .ok (st.atPoint (.inner level.headOrderIdx)) := by
            rw [coreStep_best rfl hgo hbest]
            unfold MatchState.atPoint
            simp only [if_neg hreach]
          rw [coreRun_succ_ok hstep, coreRun_add, Exec.bind_eq_ok]
          exact ⟨_, hm, hn⟩
    · cases h
      refine hstop ?_
      rw [coreStep_outer_stop rfl hgo]
      rfl

end MatchingEngine

end TradeCore
