import TradeCore.Orderbook.OrderBook
/-!
# `OrderBookVerifier` (`orderbook/order_book_verifier.hpp`)

| here | there |
| --- | --- |
| `checkLevelOrdering`       | `check_level_ordering` (`order_book_verifier.hpp:95`) |
| `checkNoCrossedBook`       | `check_no_crossed_book` (`order_book_verifier.hpp:118`) |
| `checkLevelQuantities`     | `check_level_quantities` (`order_book_verifier.hpp:193`) |
| `checkOrderMapConsistency` | `check_order_map_consistency` (`order_book_verifier.hpp:216`) |
| `checkAvlTopology`         | `check_avl_topology` (`order_book_verifier.hpp:236`) |
| `checkBboCache`            | `check_bbo_cache` (`order_book_verifier.hpp:276`) |
| `checkFifoOrdering`        | `check_fifo_ordering` (`order_book_verifier.hpp:304`) |
| `OrderBook.verifyResult`, `OrderBook.verify` | `OrderBook::verify` (`order_book.hpp:211`) |

A span is a list. `check_order_uniqueness` calls functions that are declared nowhere: it is an argument, the message it
fails with. `check_order_map_consistency` is declared for a `std::unordered_map` and called with a `FlatHashMap`: its
entries are the occupied slots. A loop over the links of an array that visits more cells than the array has never ends.
-/

namespace TradeCore

structure VerificationResult where
  ok : Bool := true
  firstFailure : String := ""
deriving DecidableEq, Repr

/-- The first message is kept. -/
def VerificationResult.fail (result : VerificationResult) (msg : String) : VerificationResult :=
  if result.ok then { ok := false, firstFailure := msg } else result

/-- The entries of the map, slot by slot. -/
def FlatHashMap.entries (m : FlatHashMap) : List (UInt64 × Index) :=
  (List.range m.capacity).filterMap fun i => if m.keys i = kEmptyKey then none else some (m.keys i, m.values i)

/-- The message that `check_order_uniqueness` fails with, if it does. -/
abbrev UniquenessCheck := List PriceLevel → List PriceLevel → List Order → FlatHashMap → Option String

namespace OrderBookVerifier

def checkLevelOrdering (ascending : Bool) : List PriceLevel → VerificationResult → VerificationResult
  | prev :: curr :: levels, result =>
    -- only levels with a price
    if prev.price = 0 ∨ curr.price = 0 then checkLevelOrdering ascending (curr :: levels) result
    else if ascending then
      if prev.price ≥ curr.price then result.fail "Ask levels not strictly ascending"
      else checkLevelOrdering ascending (curr :: levels) result
    else
      if prev.price ≤ curr.price then result.fail "Bid levels not strictly descending"
      else checkLevelOrdering ascending (curr :: levels) result
  | _, result => result

def checkNoCrossedBook (bidLevels askLevels : List PriceLevel) (bestBidIdx bestAskIdx : Index) (result : VerificationResult) :
    VerificationResult :=
  if bestBidIdx = kInvalidPoolIndex ∨ bestAskIdx = kInvalidPoolIndex then result
  else
    match bidLevels[bestBidIdx.toNat]?, askLevels[bestAskIdx.toNat]? with
    | some bid, some ask =>
      if bid.price ≥ ask.price then result.fail "Crossed book: best_bid.price >= best_ask.price" else result
    | _, _ => result

/-- The sum of a list of orders; none when an index is out of bounds. -/
def sumLoop (orderPool : List Order) : ℕ → Index → UInt32 → Exec (Option UInt32)
  | 0, _, _ => Exec.fail .diverges
  | fuel + 1, idx, sum =>
    if idx ≠ kInvalidPoolIndex then
      match orderPool[idx.toNat]? with
      | none => return none
      | some order => sumLoop orderPool fuel order.nextInLevel (sum + order.remainingQty)
    else return some sum

def checkLevelQuantities (orderPool : List Order) : List PriceLevel → VerificationResult → Exec VerificationResult
  | [], result => return result
  | level :: levels, result =>
    if level.orderCount = 0 then checkLevelQuantities orderPool levels result
    else do
      match ← sumLoop orderPool (orderPool.length + 1) level.headOrderIdx 0 with
      | none => return result.fail "Pool index OOB in level qty check"
      | some sum =>
        -- goes on after a wrong sum
        checkLevelQuantities orderPool levels
          (if sum ≠ level.totalQty then result.fail "Level total_qty != sum(order.remaining_qty)" else result)

def checkOrderMapConsistency (orderPool : List Order) : List (UInt64 × Index) → VerificationResult → VerificationResult
  | [], result => result
  | (id, poolIdx) :: entries, result =>
    match orderPool[poolIdx.toNat]? with
    | none => result.fail "HashMap points to invalid pool index"
    | some order =>
      if order.orderId ≠ id then result.fail "HashMap order_id mismatch with pool slot"
      else checkOrderMapConsistency orderPool entries result

/-- The height, or -1; `visited` lists the indices of the set. -/
def checkAvlTopology (levels : List PriceLevel) :
    ℕ → Index → Index → List Index → VerificationResult → Exec (ℤ × List Index × VerificationResult)
  | 0, _, _, _, _ => Exec.fail .diverges
  | fuel + 1, idx, expectedParent, visited, result =>
    if idx = kInvalidPoolIndex then return (0, visited, result)
    else
      match levels[idx.toNat]? with
      | none => return (-1, visited, result.fail "AVL child index out of bounds")
      | some level =>
        if idx ∈ visited then
          return (-1, visited, result.fail "AVL tree contains cycles (node reachable multiple times)")
        else
          let visited := idx :: visited
          let node := level.node
          if node.parent ≠ expectedParent then return (-1, visited, result.fail "AVL parent pointer mismatch")
          else do
            let (leftH, visited, result) ← checkAvlTopology levels fuel node.left idx visited result
            let (rightH, visited, result) ← checkAvlTopology levels fuel node.right idx visited result
            if result.ok = false then return (-1, visited, result)
            else
              let computedHeight := 1 + max leftH rightH
              let result :=
                if node.height ≠ computedHeight then result.fail "AVL stored height does not match computed height" else result
              let balance := rightH - leftH
              let result :=
                if balance < -1 ∨ balance > 1 then result.fail "AVL balance factor out of range [-1, 1]" else result
              return (computedHeight, visited, result)

/-- The walk to the end of the tree; it does not check its indices. -/
def bboLoop (levels : List PriceLevel) (isAsk : Bool) : ℕ → Index → Exec Index
  | 0, _ => Exec.fail .diverges
  | fuel + 1, curr =>
    match levels[curr.toNat]? with
    | none => Exec.fail .outOfBounds
    | some level =>
      let child := if isAsk then level.node.left else level.node.right
      if child ≠ kInvalidPoolIndex then bboLoop levels isAsk fuel child else return curr

def checkBboCache (levels : List PriceLevel) (rootIdx bboIdx : Index) (isAsk : Bool) (result : VerificationResult) :
    Exec VerificationResult := do
  if rootIdx = kInvalidPoolIndex then
    return if bboIdx ≠ kInvalidPoolIndex then result.fail "BBO cache is set but tree is empty" else result
  else if bboIdx = kInvalidPoolIndex then return result.fail "BBO cache is invalid but tree is not empty"
  else
    let curr ← bboLoop levels isAsk (levels.length + 1) rootIdx
    return if curr ≠ bboIdx then result.fail "BBO cache does not match tree min/max" else result

/-- The message that a list of orders fails with, if it does. -/
def fifoLoop (orderPool : List Order) : ℕ → Index → UInt64 → Exec (Option String)
  | 0, _, _ => Exec.fail .diverges
  | fuel + 1, idx, prevTs =>
    if idx ≠ kInvalidPoolIndex then
      match orderPool[idx.toNat]? with
      | none => return some "Pool index OOB in FIFO check"
      | some order =>
        if order.timestampNs < prevTs then return some "FIFO violated: timestamp not monotonic within price level"
        else fifoLoop orderPool fuel order.nextInLevel order.timestampNs
    else return none

def checkFifoOrdering (orderPool : List Order) : List PriceLevel → VerificationResult → Exec VerificationResult
  | [], result => return result
  | level :: levels, result =>
    if level.orderCount ≤ 1 then checkFifoOrdering orderPool levels result
    else do
      match ← fifoLoop orderPool (orderPool.length + 1) level.headOrderIdx 0 with
      | some msg => return result.fail msg
      | none => checkFifoOrdering orderPool levels result

/-- The checks of a debug build, in order; most of them end the verification when they fail. -/
def verifyChecks (uniqueness : UniquenessCheck) (bidLevels askLevels : List PriceLevel) (orderPool : List Order)
    (orderMap : FlatHashMap) (bidRootIdx askRootIdx bestBidIdx bestAskIdx : Index) : Exec VerificationResult := do
  let result : VerificationResult := {}
  let result := checkLevelOrdering false bidLevels result
  if result.ok = false then return result
  let result := checkLevelOrdering true askLevels result
  if result.ok = false then return result
  let result := checkNoCrossedBook bidLevels askLevels bestBidIdx bestAskIdx result
  if result.ok = false then return result
  let result := match uniqueness bidLevels askLevels orderPool orderMap with
    | some msg => result.fail msg
    | none => result
  if result.ok = false then return result
  let result ← checkLevelQuantities orderPool bidLevels result
  let result ← checkLevelQuantities orderPool askLevels result
  if result.ok = false then return result
  let result := checkOrderMapConsistency orderPool orderMap.entries result
  if result.ok = false then return result
  let (_, _, result) ← checkAvlTopology bidLevels (bidLevels.length + 1) bidRootIdx kInvalidPoolIndex [] result
  let (_, _, result) ← checkAvlTopology askLevels (askLevels.length + 1) askRootIdx kInvalidPoolIndex [] result
  if result.ok = false then return result
  let result ← checkFifoOrdering orderPool bidLevels result
  let result ← checkFifoOrdering orderPool askLevels result
  if result.ok = false then return result
  let result ← checkBboCache bidLevels bidRootIdx bestBidIdx false result
  checkBboCache askLevels askRootIdx bestAskIdx true result

/-- `verify` (`order_book_verifier.hpp:35`): compiled out of a release build. -/
def verify (uniqueness : UniquenessCheck) (bidLevels askLevels : List PriceLevel) (orderPool : List Order)
    (orderMap : FlatHashMap) (bidRootIdx askRootIdx bestBidIdx bestAskIdx : Index) : Exec VerificationResult := fun build =>
  match build with
  | .debug => verifyChecks uniqueness bidLevels askLevels orderPool orderMap bidRootIdx askRootIdx bestBidIdx bestAskIdx .debug
  | .release => .ok {}

end OrderBookVerifier

variable {maxOrders maxLevels : PoolCapacity}

/-- `raw_data()` as a span of `Capacity` slots. -/
def ObjectPool.rawData {α : Type} {cap : PoolCapacity} (pool : ObjectPool α cap) : List α :=
  (List.range cap.size).map fun i => pool.slots (UInt32.ofNat i)

namespace OrderBook

/-- What the verifier says of the book: both sides are given the whole level pool. -/
def verifyResult (uniqueness : UniquenessCheck) (book : OrderBook maxOrders maxLevels) : Exec VerificationResult :=
  OrderBookVerifier.verify uniqueness book.levelPool.rawData book.levelPool.rawData book.orderPool.rawData book.orderMap
    book.bids.avlRoot book.asks.avlRoot book.bids.bboIdx book.asks.bboIdx

def verify (uniqueness : UniquenessCheck) (book : OrderBook maxOrders maxLevels) : Exec Unit := do
  let vr ← book.verifyResult uniqueness
  tradecoreAssert vr.ok "vr.ok"

end OrderBook

end TradeCore
