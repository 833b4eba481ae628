import TradeCore.Matching.EngineAlike
import TradeCore.Orderbook.BookRebuild
/-!
# An engine restored from its resting orders

The orders that rest in an engine's book are sent to an engine with an empty book and the same risk rules, as limit orders, those
of one price oldest first. None of them meets another, because the book they come from is not crossed, and each finds room, by
the argument of `BookRebuild`; so every call is accepted without a trade (`Inv.restore`). The engine that comes out answers
every later run as the first one does (`restored_engine_answers_alike`).

| here | there |
|---|---|
| `MatchingEngine.matchAll` | calls of `match` one after another (`matching_engine.hpp:44`) |
-/

namespace TradeCore

open ObjectPool PriceTime MatchingEngine

variable {maxOrders maxLevels : PoolCapacity} {book : OrderBook maxOrders maxLevels}
  {engine start after : MatchingEngine maxOrders maxLevels} {g g' : Shape} {action : OrderAction} {actions : List OrderAction}
  {updates : List BookUpdate}

/-- The answer to a limit order that meets nothing. -/
def acceptedOnly : ExecutionResult := ⟨.accepted, StaticVector.empty⟩

/-- Limit orders that put the orders of an engine's book back, and that its rules pass. -/
structure MatchingEngine.RestoredBy (engine : MatchingEngine maxOrders maxLevels) (actions : List OrderAction) : Prop where
  limit : ∀ action ∈ actions, action.type = .limit
  passes : ∀ action ∈ actions, (RiskPipeline.evaluate engine.riskPipeline action).ok = true
  listed : engine.book.ListedBy (actions.map fun action => restUpdate action 0)

/-! ## Orders that meet nothing -/

/-- The prices of a book that is being built are prices of the whole. -/
theorem Builds.prices (h : Inv book g) (h' : Inv start.book g') (hb : Builds g' g updates) : PricesIn g.abs g'.abs := by
  intro s x hx
  rw [Shape.abs, Side.mem_bestFirst] at hx
  obtain ⟨l, hl, rfl⟩ := List.mem_map.1 hx
  obtain ⟨o, ho⟩ := List.exists_mem_of_ne_nil _ (h'.listed_iff.1 ⟨l, hl, rfl⟩)
  obtain ⟨m, hm, hprice⟩ := h.listed_iff.2 (List.ne_nil_of_mem (hb.mem ho))
  refine ⟨m.abs, ?_, hprice⟩
  rw [Shape.abs, Side.mem_bestFirst]
  exact List.mem_map.2 ⟨m, hm, rfl⟩

/-- **The order that comes next meets nothing**: both prices are prices of the whole, which is not crossed. -/
theorem Builds.untaken (h : Inv book g) (hun : Uncrossed g.abs) (h' : Inv start.book g')
    (hb : Builds g' g (restUpdate action 0 :: updates)) (hlimit : action.type = .limit) :
    ∀ x ∈ g'.abs action.opposite, action.takes x.1 = false := by
  intro x hx
  obtain ⟨y, hy, hxy⟩ := hb.prices h h' action.opposite x hx
  obtain ⟨z, hz, hprice, -⟩ := mem_queueAt.1 hb.next_mem
  change z ∈ g.abs (sideOf action.side) at hz
  change z.1 = action.price at hprice
  unfold OrderAction.takes
  unfold OrderAction.opposite at hy
  rw [hlimit]
  cases hside : sideOf action.side with
  | bid =>
    rw [hside] at hy hz
    have hlt := hun z hz y hy
    rw [hxy, hprice] at hlt
    exact decide_eq_false (UInt32.not_le.2 hlt)
  | ask =>
    rw [hside] at hy hz
    have hlt := hun y hy z hz
    rw [hxy, hprice] at hlt
    exact decide_eq_false (UInt32.not_le.2 hlt)

theorem OrderAction.sweep_untaken {a : AbstractBook} (hno : ∀ x ∈ a action.opposite, action.takes x.1 = false) :
    action.sweep a = ([], a action.opposite, action.qty.toNat) := by
  unfold OrderAction.sweep
  cases hside : a action.opposite with
  | nil => rfl
  | cons x ls =>
    rw [hside] at hno
    exact sweep_stop (Or.inr (hno x List.mem_cons_self))

/-! ## Restoring -/

/-- **One order is put back.** -/
theorem Builds.restored (h : Inv book g) (hun : Uncrossed g.abs) (h' : Inv start.book g')
    (hb : Builds g' g (restUpdate action 0 :: updates)) (hlimit : action.type = .limit)
    (hpass : (RiskPipeline.evaluate start.riskPipeline action).ok = true) :
    ∃ start' g1, start.matchOrder action = pure (acceptedOnly, start') ∧ Inv start'.book g1 ∧ Builds g1 g updates ∧
      start'.riskPipeline = start.riskPipeline := by
  have hfit := hb.fits h h'
  have hsweep := OrderAction.sweep_untaken (hb.untaken h hun h' hlimit)
  have hne : action.type ≠ .fok := by
    rw [hlimit]
    decide
  have hmatch : Matchable start action :=
    ⟨hfit.qty, hpass, fun hfok => absurd hfok hne, by rw [h'.rep.abs_eq, hsweep]; exact Nat.zero_le _, fun _ => h'.rep.addOk_iff.2 hfit⟩
  obtain ⟨⟨status, trades⟩, start', g1, e, hout⟩ := h'.matchOrder_spec hmatch
  have hstatus : status = .accepted := by
    have hs : status = referenceStatus g'.abs action := hout.status
    rw [hs, referenceStatus, hsweep]
    simp [hlimit]
  have htrades : trades = StaticVector.empty := by
    have ht : trades.data.map Trade.core = (referenceMatch g'.abs start.nextTradeId action).1 := hout.trades
    unfold referenceMatch at ht
    rw [hsweep] at ht
    have hnil : trades.data = [] := List.map_eq_nil_iff.1 ht
    cases trades
    cases hnil
    rfl
  have hbook : g1.abs = g'.abs.add (sideOf action.side) action.price action.orderId action.qty.toNat := by
    have hpos : action.qty.toNat ≠ 0 ∧ action.type = .limit := ⟨(pos_iff_toNat _).1 hfit.qty, hlimit⟩
    rw [hout.book]
    unfold referenceMatch
    simp only [hsweep, if_pos hpos, Function.update_eq_self]
  rw [hstatus, htrades] at e
  exact ⟨start', g1, e, hout.inv, hb.added h' hbook, hout.risk⟩

/-- **The orders still missing are put back**, one call after another. -/
theorem Inv.restore (h : Inv book g) (hun : Uncrossed g.abs) (h' : Inv start.book g')
    (hb : Builds g' g (actions.map fun action => restUpdate action 0)) (hlimit : ∀ action ∈ actions, action.type = .limit)
    (hpass : ∀ action ∈ actions, (RiskPipeline.evaluate start.riskPipeline action).ok = true) :
    ∃ start' g1, start.matchAll actions = pure (actions.map fun _ => acceptedOnly, start') ∧ Inv start'.book g1 ∧ g1.abs = g.abs ∧
      start'.riskPipeline = start.riskPipeline := by
  induction actions generalizing start g' with
  | nil => exact ⟨start, g', rfl, h', hb.done h h', rfl⟩
  | cons action actions ih =>
    obtain ⟨start1, g1, e1, h1, hb1, hrules1⟩ :=
      hb.restored h hun h' (hlimit action List.mem_cons_self) (hpass action List.mem_cons_self)
    obtain ⟨start2, g2, e2, h2, habs, hrules2⟩ := ih h1 hb1 (fun action' hmem => hlimit action' (List.mem_cons_of_mem action hmem))
      fun action' hmem => by
        rw [hrules1]
        exact hpass action' (List.mem_cons_of_mem action hmem)
    refine ⟨start2, g2, ?_, h2, habs, hrules2.trans hrules1⟩
    unfold matchAll
    rw [e1, pure_bind]
    simp only [e2, pure_bind, List.map_cons]

/-- **A restored engine answers as the first one.** The orders in the book of an engine are sent, as limit orders, to an engine
with an empty book and the same rules: every one is accepted without a trade, the two books look alike, and every later run
that the first engine takes the restored one takes, with the same answers, timestamps aside and trade ids counted from where
each engine stood. -/
theorem restored_engine_answers_alike (h : EngineReachable engine) (h0 : EngineReachable start) (hempty : ∀ s, start.book.abs s = [])
    (hrules : start.riskPipeline = engine.riskPipeline) (actions : List OrderAction) (hrest : engine.RestoredBy actions) :
    ∃ restored, start.matchAll actions = pure (actions.map fun _ => acceptedOnly, restored) ∧ restored.book.LooksLike engine.book ∧
      ∀ (more : List OrderAction) (results : List ExecutionResult) (after : MatchingEngine maxOrders maxLevels),
        engine.matchAll more .debug = .ok (results, after) →
          ∃ results' after', restored.matchAll more .debug = .ok (results', after') ∧
            results.map (ExecutionResult.counted engine.nextTradeId) =
              results'.map (ExecutionResult.counted restored.nextTradeId) ∧ after.book.LooksLike after'.book := by
  obtain ⟨g, hg, hun⟩ := h.inv
  obtain ⟨g0, hg0, -⟩ := h0.inv
  obtain ⟨restored, g1, e, h1, habs, hrules1⟩ := hg.restore hun hg0 (hg.builds hg0 hempty hrest.listed) hrest.limit
    fun action hmem => by
      rw [hrules]
      exact hrest.passes action hmem
  refine ⟨restored, e, h1.looksLike hg habs, fun more results after hrun => ?_⟩
  have halike : Alike engine restored g g1 := ⟨hg, h1, habs.symm, (hrules1.trans hrules).symm⟩
  obtain ⟨results', after', g2, g2', hrun', h2, hanswers⟩ := halike.matchAll (by rw [sub_self, sub_self]) hrun
  exact ⟨results', after', hrun', hanswers, h2.inv.looksLike h2.inv' h2.abs⟩

/-- What is left of a purchase of 5 when 3 were sold. -/
def buyTwo : OrderAction := ⟨1, 100, 2, 0, .limit⟩

/-- An engine with a purchase that was met in part: its queues, the number of its rules, and the trades of one more sale. -/
def partlySold : Exec (Queues UInt32 UInt64 × Queues UInt32 UInt64 × ℕ × ℕ) := do
  let (_, engine) ← emptyEngine.matchAll [buyFive, sellThree]
  let (results, _) ← engine.matchAll [sellTheFive]
  return (engine.book.abs .bid, engine.book.abs .ask, engine.riskPipeline.length, (results.map fun r => r.trades.data.length).sum)

theorem restored_engine_answers_alike_two : ∃ (r0 results results' : List ExecutionResult)
    (engine restored after after' : MatchingEngine four four), emptyEngine.matchAll [buyFive, sellThree] .debug = .ok (r0, engine) ∧
      emptyEngine.matchAll [buyTwo] = pure ([acceptedOnly], restored) ∧
      engine.matchAll [sellTheFive] .debug = .ok (results, after) ∧ restored.matchAll [sellTheFive] .debug = .ok (results', after') ∧
      results.map (ExecutionResult.counted engine.nextTradeId) = results'.map (ExecutionResult.counted restored.nextTradeId) ∧
      (results.map fun r => r.trades.data.length).sum = 1 := by
  have hrun : partlySold .debug = .ok ([(100, [(1, 2)])], [], 0, 1) := rfl
  obtain ⟨⟨r0, engine⟩, h0, hrun⟩ := Exec.bind_eq_ok.1 hrun
  obtain ⟨⟨results, after⟩, h, hrun⟩ := Exec.bind_eq_ok.1 hrun
  obtain ⟨hbid, hrun⟩ := Prod.mk.inj (Except.ok.inj hrun)
  obtain ⟨hask, hrun⟩ := Prod.mk.inj hrun
  obtain ⟨hlen, htraded⟩ := Prod.mk.inj hrun
  have hrules : engine.riskPipeline = [] := List.length_eq_zero_iff.1 hlen
  have hnew : EngineReachable emptyEngine := .new _ _ _ _
  have hempty : ∀ s, emptyEngine.book.abs s = [] := by
    intro s
    rw [show emptyEngine.book.abs = Shape.abs fun _ => [] from (rep_new _ _).abs_eq]
    cases s <;> rfl
  have hlisted : engine.book.ListedBy [restUpdate buyTwo 0] := by
    intro s p
    rw [arrivals_cons]
    cases s with
    | bid =>
      rw [hbid, queueAt_cons]
      by_cases hp : p = 100
      · rw [hp]
        rfl
      · have hp' : ¬ (100 : UInt32) = p := fun e => hp e.symm
        rw [if_neg hp', if_neg fun hplace => hp' hplace.2]
        rfl
    | ask =>
      rw [hask, if_neg fun hplace => absurd hplace.1 (by decide)]
      rfl
  have hrest : engine.RestoredBy [buyTwo] :=
    ⟨fun action hmem => by rw [List.mem_singleton.1 hmem]; rfl, fun action _ => by rw [hrules]; rfl, hlisted⟩
  obtain ⟨restored, e, -, hlater⟩ := restored_engine_answers_alike (MatchingEngine.matchAll_reachable hnew h0) hnew
    hempty hrules.symm [buyTwo] hrest
  obtain ⟨results', after', h', hanswers, -⟩ := hlater [sellTheFive] results after h
  exact ⟨r0, results, results', engine, restored, after, after', h0, e, h, h', hanswers, htraded⟩

end TradeCore
