import TradeCore.Matching.FillOrKill
import TradeCore.Matching.MatchProgress
import TradeCore.Orderbook.BookTotals
/-!
# The pre-scan against the sweep

`scanTreeExact` is `scan_tree` over numbers that cannot wrap. Both find what the tree holds, up to what is asked
(`scanTreeExact_spec`), so no addition of `scan_tree` wraps. A market order takes from every price, and where the level
totals are exact what a side holds is what its totals add up to (`Inv.restingTotal_eq`): the scan and the sweep cannot
disagree (`scan_agrees_with_sweep`).
-/

namespace TradeCore

open ObjectPool PriceTime Avl Avl.BinTree

variable {maxOrders maxLevels cap : PoolCapacity} {book : OrderBook maxOrders maxLevels} {g : Shape}

namespace LiquidityAnalyzer

/-! ## The scan over unbounded numbers -/

/-- `scan_tree` (`liquidity_analyzer.hpp:34`) with `found`, `take` and `remaining` as natural numbers. -/
def scanTreeExact (side : UInt8) (pool : PriceLevelPool cap) : Nat → Index → Nat → Exec (Nat × Nat)
  | 0, _, _ => Exec.fail .diverges
  | fuel + 1, nodeIdx, remaining =>
    if nodeIdx = kInvalidPoolIndex ∨ remaining = 0 then return (0, remaining)
    else do
      let node ← pool.get nodeIdx
      let first := if side = 0 then node.node.right else node.node.left
      let second := if side = 0 then node.node.left else node.node.right
      let (found, remaining) ← scanTreeExact side pool fuel first remaining
      if remaining = 0 then return (found, remaining)
      else
        let take := min node.totalQty.toNat remaining
        if remaining - take = 0 then return (found + take, remaining - take)
        else
          let (more, remaining) ← scanTreeExact side pool fuel second (remaining - take)
          return (found + take + more, remaining)

theorem scanTreeExact_spec {pool : PriceLevelPool cap} (side : UInt8) : ∀ {t : BinTree Index} {x p : Index} {fuel : ℕ}
    (remaining : ℕ), TreeAt pool t x p → t.height < fuel →
      scanTreeExact side pool fuel x remaining =
        pure (min (t.toList.map fun i => (pool.slots i).totalQty.toNat).sum remaining,
          remaining - (t.toList.map fun i => (pool.slots i).totalQty.toNat).sum)
  | _, _, _, 0, _, _, hf => by omega
  | nil, x, _, fuel + 1, remaining, h, _ => by
    have hx : x = kInvalidPoolIndex := h
    unfold scanTreeExact
    rw [if_pos (Or.inl hx)]
    simp
  | node l i r, x, p, fuel + 1, remaining, h, hf => by
    have hx : Valid cap x := by
      obtain ⟨rfl, hh, -⟩ := TreeAt.node_iff.1 h
      exact hh.valid
    unfold scanTreeExact
    by_cases h0 : remaining = 0
    · rw [if_pos (Or.inr h0), h0, Nat.min_zero, Nat.zero_sub]
    · obtain ⟨near, far, hnear, hfar, hnearf, hfarf, hsum⟩ := scan_children side h
      have efirst := scanTreeExact_spec side remaining hnear (show near.height < fuel by omega)
      have esecond := fun n => scanTreeExact_spec side n hfar (show far.height < fuel by omega)
      rw [hsum, if_neg (by rintro (e | e) <;> [exact hx.ne_invalid e; exact h0 e]), get_eq _ hx, pure_bind]
      simp only [efirst, pure_bind, esecond]
      -- the scan stops when nothing is missing, and what is behind it does not count then
      split_ifs with hfull hfull'
      · refine congrArg pure (Prod.ext ?_ ?_) <;> simp only <;> omega
      · refine congrArg pure (Prod.ext ?_ ?_) <;> simp only <;> omega
      · refine congrArg pure (Prod.ext ?_ ?_) <;> simp only <;> omega

end LiquidityAnalyzer

/-! ## What a side holds -/

/-- **What the level totals of a side add up to** is what remains of its orders, when the totals are exact. -/
theorem Inv.restingTotal_eq (h : Inv book g) (hexact : book.TotalsExact) (s : Side) :
    book.restingTotal s = ((orders (g.abs s)).map Prod.snd).sum := by
  have hlevels : book.restingTotal s = ((g s).map fun l => (l.orders.map fun e => e.qty.toNat).sum).sum := by
    unfold OrderBook.restingTotal
    rw [h.rep.levelSlots, List.map_map]
    refine congrArg List.sum (List.map_congr_left fun l hl => ?_)
    have hslot : l.slot ∈ book.levelSlots s := by
      rw [h.rep.levelSlots]
      exact List.mem_map.2 ⟨l, hl, rfl⟩
    refine (hexact s l.slot hslot).trans ?_
    rw [h.rep.queueSlots hl, List.map_map]
    refine congrArg List.sum (List.map_congr_left fun e he => ?_)
    exact congrArg UInt32.toNat (((h.rep.sides s).levels l hl).orders e he).1.qty
  rw [hlevels, ((orders_abs_perm g s).map Prod.snd).sum_eq, List.map_map]
  generalize g s = ls
  induction ls with
  | nil => rfl
  | cons l ls ih =>
    rw [List.map_cons, List.sum_cons, ih, ordersOf_cons, List.map_append, List.sum_append]
    rfl

namespace MatchingEngine

variable {engine : MatchingEngine maxOrders maxLevels} {action : OrderAction}

/-- **What a market order leaves to fill**: its quantity less all that rests on the other side. -/
theorem market_left (h : Inv engine.book g) (hmarket : action.type = .market) :
    (action.sweep g.abs).2.2 = action.qty.toNat - ((orders (g.abs action.opposite)).map Prod.snd).sum := by
  have hall : ∀ p, action.takes p = true := by
    intro p
    unfold OrderAction.takes
    rw [hmarket]
  have hcrossing : crossing action.takes (g.abs action.opposite) = ((orders (g.abs action.opposite)).map Prod.snd).sum := by
    unfold crossing
    rw [List.filter_eq_self.2 fun l _ => hall l.1]
  rw [← hcrossing]
  exact sweep_left action.takes_mono (h.abs_ok action.opposite).sorted action.qty.toNat

end MatchingEngine

open LiquidityAnalyzer MatchingEngine

/-- **The pre-scan and the sweep agree**: `scan_tree` finds what the levels of the other side hold, up to what is asked,
with no addition that wraps, and `has_liquidity` tells whether a market order is filled. -/
theorem scan_agrees_with_sweep (h : BookReachable book) (hexact : book.TotalsExact) (side : UInt8) {qty : UInt32}
    (hqty : 0 < qty) :
    (∃ found, scanTree (book.side (sideOf side).flip).side book.levelPool (maxLevels.size + 1)
        (book.side (sideOf side).flip).avlRoot qty = pure (found, qty - found) ∧
      found.toNat = min qty.toNat (book.restingTotal (sideOf side).flip) ∧
      scanTreeExact (book.side (sideOf side).flip).side book.levelPool (maxLevels.size + 1)
        (book.side (sideOf side).flip).avlRoot qty.toNat = pure (found.toNat, (qty - found).toNat)) ∧
    ∀ (engine : MatchingEngine maxOrders maxLevels) (action : OrderAction), engine.book = book → action.type = .market →
      action.side = side → action.qty = qty →
      ∃ n st, coreRun (action.type = .market) n (coreStart engine action) = pure st ∧ st.point = .done ∧
        hasLiquidity book side qty = pure (decide (st.incoming.qty = 0)) := by
  obtain ⟨g, hg⟩ := h.inv
  constructor
  · obtain ⟨t, ht, hts, hheight⟩ := hg.rep.side_tree (sideOf side).flip
    have htotal : book.restingTotal (sideOf side).flip = (t.toList.map fun i => (book.levelPool.slots i).totalQty.toNat).sum := by
      unfold OrderBook.restingTotal
      rw [hg.rep.levelSlots, hts]
    obtain ⟨found, e, hfound⟩ := scanTree_spec (book.side (sideOf side).flip).side qty ht (Nat.lt_succ_of_le hheight)
    have hsub := hfound.toNat_sub
    unfold Found at hfound
    refine ⟨found, e, by rw [htotal, hfound, Nat.min_comm], ?_⟩
    rw [scanTreeExact_spec (book.side (sideOf side).flip).side qty.toNat ht (Nat.lt_succ_of_le hheight)]
    refine congrArg pure (Prod.ext hfound.symm ?_)
    rw [hsub]
    simp only
    omega
  · rintro engine action rfl hmarket rfl rfl
    obtain ⟨n, st, g', fills, hrun, hprogress, hp⟩ := (Progress.start hg action).ends
    obtain ⟨-, hsweep⟩ := hprogress.done_sweep hp
    have hleft : st.incoming.qty.toNat = action.qty.toNat - ((orders (g.abs action.opposite)).map Prod.snd).sum := by
      rw [← market_left hg hmarket, hsweep]
    refine ⟨n, st, hrun, hp, ?_⟩
    rw [hasLiquidity_eq hg.rep _ hqty, hg.restingTotal_eq hexact]
    refine congrArg pure (decide_eq_decide.2 ?_)
    rw [← UInt32.toNat_inj, hleft]
    change _ ≤ ((orders (g.abs action.opposite)).map Prod.snd).sum ↔ _ - _ = 0
    omega

/-- Sell 3 at any price. -/
def sellThreeAtMarket : OrderAction := ⟨2, 0, 3, 1, .market⟩

/-- The scan and the sweep over one resting bid. -/
theorem scan_agrees_with_sweep_first : ∃ (book : OrderBook four four) (n : ℕ) (st : CoreState four four),
    (OrderBook.new (fun _ => Order.zero) (fun _ => PriceLevel.zero)).addOrder firstOrder = pure book ∧
      coreRun (sellThreeAtMarket.type = .market) n (coreStart { emptyEngine with book := book } sellThreeAtMarket) = pure st ∧
      st.point = .done ∧ hasLiquidity book 1 3 = pure (decide (st.incoming.qty = 0)) := by
  obtain ⟨book, g, e, hg, habs⟩ := (inv_new (fun _ => Order.zero) (fun _ => PriceLevel.zero)).run firstOrder_admissible
  have hreach : BookReachable book := .step (.new _ _) firstOrder_admissible (congrFun e .release)
  have hfits : g.abs.Fits := by
    rw [habs]
    refine (Fits_add (fun s p => ?_) .bid 100 1 5).2 ?_
    · cases s <;> exact Nat.succ_pos _
    · change 0 + 5 < UInt32.size
      decide
  obtain ⟨n, st, hrun, hdone, hagree⟩ := (scan_agrees_with_sweep hreach (hg.totalsExact_iff.2 hfits) 1
    (show (0 : UInt32) < 3 by decide)).2 { emptyEngine with book := book } sellThreeAtMarket rfl rfl rfl rfl
  exact ⟨book, n, st, e, hrun, hdone, hagree⟩

end TradeCore
