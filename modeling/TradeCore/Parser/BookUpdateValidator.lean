import TradeCore.Orderbook.Records
/-!
# `BookUpdateValidator` (`parser/book_update_validator.hpp`)

The validator sees the message alone, not the book.
-/

namespace TradeCore

/-- `validate` (`book_update_validator.hpp:11`). -/
def BookUpdateValidator.validate (u : BookUpdate) : Bool :=
  if u.price = 0 ∧ u.type ≠ UpdateType.cancelOrder.toByte ∧ u.type ≠ UpdateType.deleteOrder.toByte then false
  else if u.qty = 0 ∧ u.type ≠ UpdateType.deleteOrder.toByte then false
  else if u.side > 1 then false
  else if u.type < 1 ∨ u.type > 8 then false
  else true

end TradeCore
