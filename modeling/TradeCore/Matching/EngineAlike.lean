import TradeCore.Matching.FillOrKill
import TradeCore.Matching.ClockFree
import TradeCore.Orderbook.BookAlike
/-!
# An engine is its rules and its queues

Two engines with the same risk rules and the same queues may differ in all the rest: what `BookAlike` lists for their books,
and their clocks and trade ids. None of it decides what a call answers, the pre-scan of the tree included
(`hasLiquidity_alike`). A run of calls that returns on one of them returns on the other, with the same answers: the trades are
the same but for their timestamps, and their ids run on from where each engine stood (`alike_engines_answer_alike`).

| here | there |
|---|---|
| `MatchingEngine.matchAll` | calls of `match` one after another (`matching_engine.hpp:44`) |
| `engine.nextTradeId` | `next_trade_id_` (`matching_engine.hpp:163`) |
-/

namespace TradeCore

open ObjectPool PriceTime

variable {maxOrders maxLevels : PoolCapacity} {book book' : OrderBook maxOrders maxLevels}
  {engine engine' after after' : MatchingEngine maxOrders maxLevels} {g g' g1 g1' : Shape} {action : OrderAction}
  {actions : List OrderAction} {result result' : ExecutionResult} {results : List ExecutionResult}

/-! ## Answers -/

/-- A trade without its timestamp, its id counted from `start`. -/
def Trade.counted (start : UInt64) (t : Trade) : Trade := { t with tradeId := t.tradeId - start, timestampNs := 0 }

/-- An answer without timestamps, the ids of its trades counted from `start`. -/
def ExecutionResult.counted (start : UInt64) (result : ExecutionResult) : ExecutionResult :=
  { result with trades := result.trades.map (Trade.counted start) }

theorem counted_tradesOf {id id' start start' : UInt64} (hid : id - start = id' - start') (aggressor : UInt64)
    (fs : List (Fill UInt32 UInt64)) :
    (tradesOf aggressor id fs).map (Trade.counted start) = (tradesOf aggressor id' fs).map (Trade.counted start') := by
  induction fs generalizing id id' with
  | nil => rfl
  | cons f fs ih =>
    have hnext : id + 1 - start = id' + 1 - start' := by
      rw [← sub_add_eq_add_sub, ← sub_add_eq_add_sub, hid]
    rw [tradesOf, tradesOf, List.map_cons, List.map_cons, ih hnext]
    simp only [Trade.counted, hid]

/-! ## The pre-scan -/

namespace LiquidityAnalyzer

theorem avlRoot_iff (h : Inv book g) (s : Side) : (book.side s).avlRoot = kInvalidPoolIndex ↔ g.abs s = [] := by
  obtain ⟨t, ht, hts, -⟩ := h.rep.side_tree s
  rw [← ht.nil_iff]
  constructor
  · rintro rfl
    have hnil : g s = [] := List.map_eq_nil_iff.1 hts.symm
    unfold Shape.abs
    rw [hnil]
    cases s <;> rfl
  · intro habs
    rw [abs_nil habs] at hts
    cases t with
    | nil => rfl
    | node l i r => simp at hts

/-- The scan of an order that asks for nothing. -/
theorem hasLiquidity_zero (h : Inv book g) (side : UInt8) :
    hasLiquidity book side 0 = pure (decide (g.abs (sideOf side).flip ≠ [])) := by
  unfold hasLiquidity
  by_cases hroot : (book.side (sideOf side).flip).avlRoot = kInvalidPoolIndex
  · rw [if_pos hroot, decide_eq_false (not_not.2 ((avlRoot_iff h _).1 hroot))]
  · rw [if_neg hroot, decide_eq_true (mt (avlRoot_iff h _).2 hroot), scanTree, if_pos (Or.inr rfl)]
    rfl

theorem restingTotal_content (book : OrderBook maxOrders maxLevels) (s : Side) :
    book.restingTotal s = ((book.content s).map fun c => c.totalQty.toNat).sum := by
  unfold OrderBook.restingTotal OrderBook.content
  rw [List.map_map]
  rfl

/-- **The pre-scan** sees the queues, not the tree. -/
theorem hasLiquidity_alike (h : Inv book g) (h' : Inv book' g') (habs : g.abs = g'.abs) (side : UInt8) (qty : UInt32) :
    hasLiquidity book side qty = hasLiquidity book' side qty := by
  by_cases hqty : qty = 0
  · rw [hqty, hasLiquidity_zero h, hasLiquidity_zero h', habs]
  · have hpos : 0 < qty := UInt32.pos_iff_ne_zero.2 hqty
    have hcontent : book.content (sideOf side).flip = book'.content (sideOf side).flip := by
      rw [h.content_eq, h'.content_eq, habs]
    rw [hasLiquidity_eq h.rep side hpos, hasLiquidity_eq h'.rep side hpos, restingTotal_content, restingTotal_content, hcontent]

end LiquidityAnalyzer

/-! ## One call -/

namespace MatchingEngine

/-- The rules and the queues of two engines are the same. -/
structure Alike (engine engine' : MatchingEngine maxOrders maxLevels) (g g' : Shape) : Prop where
  inv : Inv engine.book g
  inv' : Inv engine'.book g'
  abs : g.abs = g'.abs
  rules : engine.riskPipeline = engine'.riskPipeline

/-- Two engines after the same answers, their trade ids counted from `start` and `start'`. -/
structure AnsweredAlike (start start' : UInt64) (result result' : ExecutionResult) (after after' : MatchingEngine maxOrders maxLevels)
    (g g' : Shape) : Prop extends Alike after after' g g' where
  result : result.counted start = result'.counted start'
  nextId : after.nextTradeId - start = after'.nextTradeId - start'

/-- **Two calls that went through** gave one answer. -/
theorem Outcome.alike (h : Alike engine engine' g g') {start start' : UInt64}
    (hid : engine.nextTradeId - start = engine'.nextTradeId - start') (hout : Outcome engine g action result after g1)
    (hout' : Outcome engine' g' action result' after' g1') : AnsweredAlike start start' result result' after after' g1 g1' where
  inv := hout.inv
  inv' := hout'.inv
  abs := by
    rw [hout.book, hout'.book, h.abs]
    rfl
  rules := by rw [hout.risk, hout'.risk, h.rules]
  result := by
    have hcounted : ∀ (start : UInt64) (trades : List Trade),
        trades.map (Trade.counted start) = (trades.map Trade.core).map (Trade.counted start) := by
      intro start trades
      rw [List.map_map]
      rfl
    have htrades : result.trades.data.map (Trade.counted start) = result'.trades.data.map (Trade.counted start') := by
      rw [hcounted start, hcounted start', hout.trades, hout'.trades, ← h.abs]
      exact counted_tradesOf hid _ _
    have hstatus : result.status = result'.status := by rw [hout.status, hout'.status, h.abs]
    unfold ExecutionResult.counted StaticVector.map
    simp only [htrades, hstatus]
  nextId := by
    rw [hout.nextId, hout'.nextId, h.abs, ← sub_add_eq_add_sub, ← sub_add_eq_add_sub, hid]

/-- The loops and what follows them. -/
theorem Alike.execute (h : Alike engine engine' g g') (hrun : engine.execute action .debug = .ok (result, after)) :
    ∃ result' after' g1 g1', engine'.execute action .debug = .ok (result', after') ∧ Outcome engine g action result after g1 ∧
      Outcome engine' g' action result' after' g1' := by
  obtain ⟨g1, hout⟩ := execute_debug h.inv hrun
  have hfits : (action.sweep g.abs).1.length ≤ kMaxTradesPerMatch := by
    by_contra hfull
    obtain ⟨st, hst, -⟩ := Exec.bind_eq_ok.1 hrun
    exact core_overflow h.inv hfull .debug st hst
  obtain ⟨st, g2, e, hcore⟩ := core_spec h.inv hfits
  obtain ⟨st', g2', e', hcore'⟩ := core_spec h.inv' (h.abs ▸ hfits)
  have hin : st'.incoming = st.incoming := by
    have hqty : st'.incoming.qty = st.incoming.qty := by
      rw [← UInt32.toNat_inj, hcore.swept.left, hcore'.swept.left, h.abs]
    rw [hcore.swept.incoming, hcore'.swept.incoming, hqty]
  have hrest : g2.abs = g2'.abs := by rw [hcore.rest, hcore'.rest, h.abs]
  obtain ⟨result', after', g1', e1, hout'⟩ := settle_spec hcore' fun hl => by
    -- the order that is left went into the first book
    rw [hin] at hl
    unfold MatchingEngine.execute at hrun
    rw [e, pure_bind, settle, if_pos hl] at hrun
    obtain ⟨_, hadd, -⟩ := Exec.bind_eq_ok.1 hrun
    have hok := hcore.inv.addOk_of_abs hcore'.inv hrest (hcore.inv.rep.addOk_of_debug hadd)
    obtain ⟨hid, hfresh, hqty, hprice, hwindow, hslot, hroom, hlevel⟩ := hcore'.inv.rep.addOk_iff.1 hok
    rw [hin]
    exact ⟨hid, hfresh, hqty, hprice, hwindow, hslot, hroom, hlevel⟩
  refine ⟨result', after', g1, g1', ?_, hout, hout'⟩
  unfold MatchingEngine.execute
  rw [e', pure_bind, e1]
  rfl

/-- Nothing happened but an answer without trades. -/
theorem Alike.answered (h : Alike engine engine' g g') {start start' : UInt64}
    (hid : engine.nextTradeId - start = engine'.nextTradeId - start') (status : ExecutionStatus) :
    AnsweredAlike start start' ⟨status, StaticVector.empty⟩ ⟨status, StaticVector.empty⟩ engine engine' g g' :=
  { h with result := rfl, nextId := hid }

/-- **One call on two engines.** -/
theorem Alike.matchOrder (h : Alike engine engine' g g') {start start' : UInt64}
    (hid : engine.nextTradeId - start = engine'.nextTradeId - start')
    (hrun : engine.matchOrder action .debug = .ok (result, after)) :
    ∃ result' after' g1 g1', engine'.matchOrder action .debug = .ok (result', after') ∧
      AnsweredAlike start start' result result' after after' g1 g1' := by
  have hscan := LiquidityAnalyzer.hasLiquidity_alike h.inv h.inv' h.abs action.side action.qty
  have hexec : engine.execute action .debug = .ok (result, after) → ∃ result' after' g1 g1',
      engine'.execute action .debug = .ok (result', after') ∧ AnsweredAlike start start' result result' after after' g1 g1' := by
    intro hrun
    obtain ⟨result', after', g1, g1', e, hout, hout'⟩ := h.execute hrun
    exact ⟨result', after', g1, g1', e, hout.alike h hid hout'⟩
  unfold MatchingEngine.matchOrder at hrun ⊢
  rw [← h.rules, ← hscan]
  split_ifs at hrun ⊢ with hrisk htype
  · cases hrun
    exact ⟨_, engine', g, g', rfl, h.answered hid _⟩
  · obtain ⟨enough, henough, hrun⟩ := Exec.bind_eq_ok.1 hrun
    cases enough with
    | true =>
      obtain ⟨result', after', g1, g1', e, halike⟩ := hexec hrun
      exact ⟨result', after', g1, g1', Exec.bind_eq_ok.2 ⟨true, henough, e⟩, halike⟩
    | false =>
      cases hrun
      exact ⟨_, engine', g, g', Exec.bind_eq_ok.2 ⟨false, henough, rfl⟩, h.answered hid _⟩
  · exact hexec hrun

/-- **One run on two engines**: what the first takes, the second takes, with the same answers. -/
theorem Alike.matchAll (h : Alike engine engine' g g') {start start' : UInt64}
    (hid : engine.nextTradeId - start = engine'.nextTradeId - start')
    (hrun : engine.matchAll actions .debug = .ok (results, after)) :
    ∃ results' after' g1 g1', engine'.matchAll actions .debug = .ok (results', after') ∧ Alike after after' g1 g1' ∧
      results.map (ExecutionResult.counted start) = results'.map (ExecutionResult.counted start') := by
  induction actions generalizing engine engine' g g' results with
  | nil =>
    cases hrun
    exact ⟨[], engine', g, g', rfl, h, rfl⟩
  | cons action actions ih =>
    obtain ⟨⟨result, engine1⟩, hone, hrun⟩ := Exec.bind_eq_ok.1 hrun
    obtain ⟨⟨rest, engine2⟩, hrest, hrun⟩ := Exec.bind_eq_ok.1 hrun
    cases hrun
    obtain ⟨result', engine1', g1, g1', e1, h1⟩ := h.matchOrder hid hone
    obtain ⟨rest', after', g2, g2', e2, h2, hanswers⟩ := ih h1.toAlike h1.nextId hrest
    refine ⟨result' :: rest', after', g2, g2', Exec.bind_eq_ok.2 ⟨_, e1, Exec.bind_eq_ok.2 ⟨_, e2, rfl⟩⟩, h2, ?_⟩
    rw [List.map_cons, List.map_cons, h1.result, hanswers]

end MatchingEngine

/-- **Engines that look alike answer alike.** Two engines have the same risk rules and the same queues. A run of calls that
the checked build takes on one of them it takes on the other, with the same statuses and the same trades, timestamps aside and
ids counted from where each engine stood; and it leaves two books that no reader can tell apart. -/
theorem alike_engines_answer_alike (h : EngineReachable engine) (h' : EngineReachable engine') (hsame : engine.book.abs = engine'.book.abs)
    (hrules : engine.riskPipeline = engine'.riskPipeline) (actions : List OrderAction)
    (hrun : engine.matchAll actions .debug = .ok (results, after)) :
    ∃ results' after', engine'.matchAll actions .debug = .ok (results', after') ∧
      results.map (ExecutionResult.counted engine.nextTradeId) = results'.map (ExecutionResult.counted engine'.nextTradeId) ∧
      after.book.LooksLike after'.book := by
  obtain ⟨g, hg, -⟩ := h.inv
  obtain ⟨g', hg', -⟩ := h'.inv
  rw [hg.rep.abs_eq, hg'.rep.abs_eq] at hsame
  have halike : MatchingEngine.Alike engine engine' g g' := ⟨hg, hg', hsame, hrules⟩
  obtain ⟨results', after', g1, g1', hrun', h1, hanswers⟩ := halike.matchAll (by rw [sub_self, sub_self]) hrun
  exact ⟨results', after', hrun', hanswers, h1.inv.looksLike h1.inv' h1.abs⟩

/-- Sell 5 at 100 at once. -/
def sellTheFive : OrderAction := ⟨2, 100, 5, 1, .ioc⟩

/-- An engine whose only order was filled: its queues and the number of its rules. Then a trade on a new engine. -/
def tradedBefore : Exec (Queues UInt32 UInt64 × Queues UInt32 UInt64 × ℕ × ℕ) := do
  let (_, used) ← emptyEngine.matchAll [buyFive, sellTheFive]
  let (results, _) ← emptyEngine.matchAll [buyFive, sellThree]
  return (used.book.abs .bid, used.book.abs .ask, used.riskPipeline.length, (results.map fun r => r.trades.data.length).sum)

theorem alike_engines_answer_alike_used : ∃ (r0 results results' : List ExecutionResult) (used after after' : MatchingEngine four four),
    emptyEngine.matchAll [buyFive, sellTheFive] .debug = .ok (r0, used) ∧
      emptyEngine.matchAll [buyFive, sellThree] .debug = .ok (results, after) ∧
      used.matchAll [buyFive, sellThree] .debug = .ok (results', after') ∧
      results.map (ExecutionResult.counted emptyEngine.nextTradeId) = results'.map (ExecutionResult.counted used.nextTradeId) ∧
      (results.map fun r => r.trades.data.length).sum = 1 ∧ after.book.LooksLike after'.book := by
  have hrun : tradedBefore .debug = .ok ([], [], 0, 1) := rfl
  obtain ⟨⟨r0, used⟩, h0, hrun⟩ := Exec.bind_eq_ok.1 hrun
  obtain ⟨⟨results, after⟩, h, hrun⟩ := Exec.bind_eq_ok.1 hrun
  obtain ⟨hbid, hrun⟩ := Prod.mk.inj (Except.ok.inj hrun)
  obtain ⟨hask, hrun⟩ := Prod.mk.inj hrun
  obtain ⟨hrules, htraded⟩ := Prod.mk.inj hrun
  have hempty : emptyEngine.book.abs = Shape.abs fun _ => [] := (rep_new _ _).abs_eq
  have hsame : emptyEngine.book.abs = used.book.abs := by
    rw [hempty]
    funext s
    cases s with
    | bid => exact hbid.symm
    | ask => exact hask.symm
  obtain ⟨results', after', h', hanswers, hlook⟩ := alike_engines_answer_alike (.new _ _ _ _)
    (MatchingEngine.matchAll_reachable (.new _ _ _ _) h0) hsame (List.length_eq_zero_iff.1 hrules).symm [buyFive, sellThree] h
  exact ⟨r0, results, results', used, after, after', h0, h, h', hanswers, htraded, hlook⟩

end TradeCore
