import TradeCore.Common.Endian
import TradeCore.Parser.BookUpdateValidator
/-!
# `ITCHParser` (`parser/itch_parser.hpp`)

| here | there |
| --- | --- |
| `Statistics`      | `Statistics` (`parser_context.hpp:27`) |
| `lookupOrAdd`     | `SymbolTable::lookup_or_add` (`parser_context.hpp:12`), a stub |
| `readField`       | `read_field` (`itch_parser.hpp:30`) |
| `readTimestamp`   | `read_timestamp` (`itch_parser.hpp:40`) |
| `parseAddOrder`   | `parse_add_order` (`itch_parser.hpp:55`) |
| `dispatchTable`   | `build_dispatch_table` (`itch_parser.hpp:108`) |
| `parse`           | `parse` (`itch_parser.hpp:97`) |

Of the `ParserContext` the parsers use the statistics, which go in and out, and the symbol table.
-/

namespace TradeCore

structure Statistics where
  messagesParsed : UInt64
  parseErrors : UInt64
  validationFailures : UInt64
deriving DecidableEq, Repr

/-- The member initialisers. -/
def Statistics.zero : Statistics := ⟨0, 0, 0⟩

namespace ITCHParser

def kOffsetTimestamp : ℕ := 7
def kOffsetOrderRef : ℕ := 11
def kOffsetBuySell : ℕ := 19
def kOffsetShares : ℕ := 20
def kOffsetStock : ℕ := 24
def kOffsetPrice : ℕ := 32
def kAddOrderLength : ℕ := 36

/-- `'A'`, `'B'` and `'F'`. -/
def charA : Byte := 65
def charB : Byte := 66
def charF : Byte := 70

/-- The symbol is not looked at. -/
def lookupOrAdd (_symbol : List Byte) : UInt16 := 1

def readField (T : Type) [Integral T] (host : Host) (payload : List Byte) (offset : ℕ) : Exec T := do
  let value ← loadAt T host payload offset
  return netToHost host value

/-- The load of eight bytes at `offset`, less the last two. -/
def readTimestamp (host : Host) (payload : List Byte) (offset : ℕ) : Exec UInt64 := do
  let ts ← loadAt UInt64 host payload offset
  let ts := netToHost host ts
  return ts >>> 16

/-- `payload[i]`. -/
def byteAt (payload : List Byte) (i : ℕ) : Exec Byte :=
  match payload[i]? with
  | some byte => return byte
  | none => Exec.fail .outOfBounds

/-- `std::string_view(data + offset, count)`. -/
def viewAt (payload : List Byte) (offset count : ℕ) : Exec (List Byte) :=
  if offset + count ≤ payload.length then return (payload.drop offset).take count else Exec.fail .outOfBounds

def parseAddOrder (host : Host) (stats : Statistics) (payload : List Byte) : Exec (Option BookUpdate × Statistics) := do
  if payload.length < kAddOrderLength then
    return (none, { stats with parseErrors := stats.parseErrors + 1 })
  else
    let timestampNs ← readTimestamp host payload kOffsetTimestamp
    let orderId ← readField UInt64 host payload kOffsetOrderRef
    let price ← readField UInt32 host payload kOffsetPrice
    let qty ← readField UInt32 host payload kOffsetShares
    let sideIndicator ← byteAt payload kOffsetBuySell
    let side := if sideIndicator = charB then 0 else 1
    let sym ← viewAt payload kOffsetStock 8
    let update := { BookUpdate.zero with
      type := UpdateType.addOrder.toByte, timestampNs := timestampNs, orderId := orderId, price := price, qty := qty
      side := side, symbol := lookupOrAdd sym }
    if BookUpdateValidator.validate update = false then
      return (none, { stats with validationFailures := stats.validationFailures + 1 })
    else return (some update, { stats with messagesParsed := stats.messagesParsed + 1 })

/-- `parse_ignore` (`itch_parser.hpp:85`). -/
def parseIgnore (stats : Statistics) (_payload : List Byte) : Exec (Option BookUpdate × Statistics) := return (none, stats)

/-- What the dispatch table holds for a message type. -/
def dispatchTable (host : Host) (msgType : Byte) : Statistics → List Byte → Exec (Option BookUpdate × Statistics) :=
  if msgType = charA ∨ msgType = charF then parseAddOrder host else parseIgnore

def parse (host : Host) (stats : Statistics) : List Byte → Exec (Option BookUpdate × Statistics)
  | [] => return (none, { stats with parseErrors := stats.parseErrors + 1 })
  | msgType :: payload => dispatchTable host msgType stats (msgType :: payload)

end ITCHParser

end TradeCore
