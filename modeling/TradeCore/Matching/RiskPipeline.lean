import TradeCore.Matching.Records
/-!
# `RiskPipeline<Rules...>` (`matching/risk_pipeline.hpp`)

A rule is its `evaluate`; the pipeline holds its rules in the order of the template arguments. A rule of its user's own is any
function of an action here, so it does not see `client_id`, which `OrderAction` leaves out.
-/

namespace TradeCore

structure RiskResult where
  ok : Bool
  reason : String
deriving DecidableEq, Repr

abbrev RiskRule := OrderAction → RiskResult

abbrev RiskPipeline := List RiskRule

/-- `evaluate_impl` (`risk_pipeline.hpp:34`): the fold stops at the first rule that fails, and its result counts. -/
def RiskPipeline.evaluate : RiskPipeline → OrderAction → RiskResult
  | [], _ => ⟨true, ""⟩
  | rule :: rules, order =>
    let result := rule order
    if result.ok then RiskPipeline.evaluate rules order else result

/-- `MaxOrderSizeCheck` (`risk_pipeline.hpp:53`). -/
def maxOrderSizeCheck (maxQty : UInt32) : RiskRule := fun order =>
  if order.qty > maxQty then ⟨false, "Order quantity exceeds maximum allowed size"⟩ else ⟨true, ""⟩

/-- `FatFingerPriceCheck` (`risk_pipeline.hpp:68`): a market order bypasses it. -/
def fatFingerPriceCheck (minPrice maxPrice : UInt32) : RiskRule := fun order =>
  if order.type = .market then ⟨true, ""⟩
  else if order.price < minPrice ∨ order.price > maxPrice then ⟨false, "Fat finger price violation"⟩
  else ⟨true, ""⟩

/-- **The pipeline passes what every rule passes.** -/
theorem RiskPipeline.evaluate_ok (rules : RiskPipeline) (order : OrderAction) :
    (RiskPipeline.evaluate rules order).ok = true ↔ ∀ rule ∈ rules, (rule order).ok = true := by
  induction rules with
  | nil => simp [RiskPipeline.evaluate]
  | cons rule rules ih =>
    unfold RiskPipeline.evaluate
    by_cases h : (rule order).ok = true
    · simp [h, ih]
    · simp [h]

end TradeCore
