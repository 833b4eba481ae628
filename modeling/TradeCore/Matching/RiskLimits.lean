import TradeCore.Matching.Conservation
/-!
# Risk limits over runs

The rules look at one incoming order. What they promise of the book and of the trades is carried by `Within`: every
resting order is within the limits. A limit order that comes to rest passed both rules; a fill takes its price and
at most its quantity from an order that rests, whatever the price of the incoming one.
-/

namespace TradeCore

open PriceTime

variable {maxOrders maxLevels : PoolCapacity} {engine : MatchingEngine maxOrders maxLevels} {g : Shape}
  {action : OrderAction} {a : AbstractBook} {maxQty minPrice maxPrice : UInt32} {calls : List MatchCall}

/-- The rules of `RiskPipeline<MaxOrderSizeCheck, FatFingerPriceCheck>`. -/
def sizeAndPrice (maxQty minPrice maxPrice : UInt32) : RiskPipeline :=
  [maxOrderSizeCheck maxQty, fatFingerPriceCheck minPrice maxPrice]

/-- What an order passes. -/
theorem sizeAndPrice_ok (h : (RiskPipeline.evaluate (sizeAndPrice maxQty minPrice maxPrice) action).ok = true) :
    action.qty ≤ maxQty ∧ (action.type ≠ .market → minPrice ≤ action.price ∧ action.price ≤ maxPrice) := by
  rw [RiskPipeline.evaluate_ok] at h
  have hsize := h (maxOrderSizeCheck maxQty) (by simp [sizeAndPrice])
  have hprice := h (fatFingerPriceCheck minPrice maxPrice) (by simp [sizeAndPrice])
  unfold maxOrderSizeCheck at hsize
  unfold fatFingerPriceCheck at hprice
  constructor
  · split_ifs at hsize with hq
    exact UInt32.not_lt.1 hq
  · intro htype
    rw [if_neg htype] at hprice
    split_ifs at hprice with hp
    rw [not_or] at hp
    exact ⟨UInt32.not_lt.1 hp.1, UInt32.not_lt.1 hp.2⟩

/-- Every resting order is within the limits. -/
def Within (maxQty minPrice maxPrice : UInt32) (a : AbstractBook) : Prop :=
  ∀ s p id r, Rests p id r (a s) → r ≤ maxQty.toNat ∧ minPrice ≤ p ∧ p ≤ maxPrice

theorem Within.referenceMatch (h : Within maxQty minPrice maxPrice a) (nextTradeId : UInt64)
    (hok : (RiskPipeline.evaluate (sizeAndPrice maxQty minPrice maxPrice) action).ok = true) :
    Within maxQty minPrice maxPrice (referenceMatch a nextTradeId action).2 := by
  intro s p id r hr
  obtain ⟨hqty, hprice⟩ := sizeAndPrice_ok hok
  rcases referenceMatch_rests hr with ⟨-, rfl, -, rfl, hl⟩ | ⟨r', hr', hle⟩
  · have hsum : ((action.sweep a).1.map Fill.qty).sum + (action.sweep a).2.2 = action.qty.toNat := sweep_sum _ _ _
    have hqty' := UInt32.le_iff_toNat_le.1 hqty
    refine ⟨by omega, hprice ?_⟩
    rw [hl]
    nofun
  · obtain ⟨h1, h2⟩ := h s p id r' hr'
    exact ⟨hle.trans h1, h2⟩

/-- The trades of a match on such a book. -/
theorem Within.trades (h : Within maxQty minPrice maxPrice a) {nextTradeId : UInt64} {t : Trade}
    (ht : t ∈ (TradeCore.referenceMatch a nextTradeId action).1) :
    t.quantity ≤ maxQty ∧ minPrice ≤ t.price ∧ t.price ≤ maxPrice := by
  obtain ⟨f, hf, -, -, hprice, hqty⟩ := mem_tradesOf ht
  obtain ⟨hn, r, hr, hle⟩ := sweep_fill_rests hf
  obtain ⟨h1, h2⟩ := h _ _ _ _ hr
  rw [hprice, hqty]
  refine ⟨?_, h2⟩
  rw [UInt32.le_iff_toNat_le, UInt32.toNat_ofNat_of_lt' (Nat.lt_of_le_of_lt hn action.qty.toNat_lt)]
  exact hle.trans h1

/-- **One run, two promises**: of what rests and of what was traded. -/
theorem CallRun.within (h : CallRun (sizeAndPrice maxQty minPrice maxPrice) engine calls) :
    Within maxQty minPrice maxPrice engine.book.abs ∧
      ∀ c ∈ calls, ∀ t ∈ c.result.trades.data, t.quantity ≤ maxQty ∧ minPrice ≤ t.price ∧ t.price ≤ maxPrice := by
  induction h with
  | new clock orders levels =>
    refine ⟨?_, nofun⟩
    rw [show (MatchingEngine.new _ clock orders levels : MatchingEngine maxOrders maxLevels).book.abs = _ from
      (rep_new _ _).abs_eq]
    intro s p id r hr
    cases s with
    | bid => exact absurd hr not_rests_nil
    | ask => exact absurd hr not_rests_nil
  | @call engine engine' calls action met result hrun hmet hmatch ih =>
    obtain ⟨hwithin, htrades⟩ := ih
    obtain ⟨g, hg, -⟩ := hrun.reachable.inv
    rw [hg.rep.abs_eq] at hwithin
    rcases MatchingEngine.call_cases hg hmet hmatch with ⟨status, rfl, -, rfl, rfl⟩ | ⟨hok, st, g', rfl, hm⟩
    · rw [hg.rep.abs_eq]
      refine ⟨hwithin, fun c hc t ht => ?_⟩
      rcases List.mem_append.1 hc with hc | hc
      · exact htrades c hc t ht
      · obtain rfl := List.mem_singleton.1 hc
        cases ht
    · rw [hrun.rules_eq] at hok
      rw [hm.outcome.inv.rep.abs_eq, hm.outcome.book]
      refine ⟨hwithin.referenceMatch _ hok, fun c hc t ht => ?_⟩
      rcases List.mem_append.1 hc with hc | hc
      · exact htrades c hc t ht
      · obtain rfl := List.mem_singleton.1 hc
        have hcore : t.core ∈ result.trades.data.map Trade.core := List.mem_map.2 ⟨t, ht, rfl⟩
        rw [hm.outcome.trades] at hcore
        have hlimits := hwithin.trades hcore
        exact hlimits

/-- **Risk limits hold over whole runs**: of every order that rests and of every trade, market orders included. -/
theorem risk_limits_hold (h : CallRun (sizeAndPrice maxQty minPrice maxPrice) engine calls) :
    (∀ i ∈ engine.book.allOrders, (engine.book.orderPool.slots i).remainingQty ≤ maxQty ∧
        minPrice ≤ (engine.book.orderPool.slots i).price ∧ (engine.book.orderPool.slots i).price ≤ maxPrice) ∧
      ∀ c ∈ calls, ∀ t ∈ c.result.trades.data, t.quantity ≤ maxQty ∧ minPrice ≤ t.price ∧ t.price ≤ maxPrice := by
  obtain ⟨hwithin, htrades⟩ := h.within
  obtain ⟨g, hg, -⟩ := h.reachable.inv
  refine ⟨fun i hi => ?_, htrades⟩
  rw [hg.rep.allOrders] at hi
  obtain ⟨e, he, rfl⟩ := List.mem_map.1 hi
  obtain ⟨s, L, l, R, A, B, hgs, hl⟩ := focus_of_mem he
  have hls : l ∈ g s := by rw [hgs]; simp
  have hel : e ∈ l.orders := by rw [hl]; simp
  obtain ⟨hat, -⟩ := ((hg.rep.sides s).levels l hls).orders e hel
  have hrests : Rests l.price e.id e.qty.toNat (engine.book.abs s) := by
    rw [hg.rep.abs_eq]
    refine ⟨l.orders.map Entry.abs, ?_, List.mem_map.2 ⟨e, hel, rfl⟩⟩
    rw [Shape.abs, Side.mem_bestFirst]
    exact List.mem_map.2 ⟨l, hls, rfl⟩
  obtain ⟨h1, h2⟩ := hwithin s _ _ _ hrests
  rw [hat.qty, hat.price]
  exact ⟨UInt32.le_iff_toNat_le.2 h1, h2⟩

theorem risk_limits_hold_two : ∃ (engine : MatchingEngine four four) (c1 c2 : MatchCall),
    CallRun (sizeAndPrice 10 50 200) engine [c1, c2] ∧ c2.result.trades.data.map Trade.quantity = [3] ∧
      (∀ i ∈ engine.book.allOrders, (engine.book.orderPool.slots i).remainingQty ≤ 10) ∧
      ∀ t ∈ c2.result.trades.data, t.quantity ≤ 10 ∧ 50 ≤ t.price ∧ t.price ≤ 200 := by
  obtain ⟨engine, c1, c2, hrun, -, -, hqtys⟩ := meeting_calls (show meeting (sizeAndPrice 10 50 200) .debug = .ok [3] from rfl)
  obtain ⟨hrest, htrades⟩ := risk_limits_hold hrun
  exact ⟨engine, c1, c2, hrun, hqtys, fun i hi => (hrest i hi).1, htrades c2 (by simp)⟩

end TradeCore
