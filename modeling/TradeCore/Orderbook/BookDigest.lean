import TradeCore.Orderbook.OrderBook
/-!
# `BookDigest` (`orderbook/book_digest.hpp`)

| here | there |
| --- | --- |
| `hashCombine`  | `hash_combine` (`book_digest.hpp:28`): the bytes of `val` in the memory of a little-endian host |
| `hashLevel`    | `hash_level` (`book_digest.hpp:85`) |
| `traverseBids`, `traverseAsks` | `traverse_bids` (`book_digest.hpp:59`), `traverse_asks` (`book_digest.hpp:72`), which differ in the child they visit first |
| `hashSide`     | `hash_side` (`book_digest.hpp:39`) |
| `compute`      | `compute` (`book_digest.hpp:15`) |

The traversals pass each word to `combine`. `compute` gives them `hash_combine`; `words` collects what they pass.
-/

namespace TradeCore

open Avl

namespace BookDigest

def kFnvOffsetBasis : UInt64 := 14695981039346656037

def kFnvPrime : UInt64 := 1099511628211

/-- `p[i]` of the bytes of `val`. -/
def byteOf (val : UInt64) (i : Nat) : UInt64 := (val >>> UInt64.ofNat (8 * i)) &&& 0xFF

def hashCombine (hash val : UInt64) : UInt64 :=
  (List.range 8).foldl (fun hash i => (hash ^^^ byteOf val i) * kFnvPrime) hash

section Traversal

variable {α : Type} (combine : α → UInt64 → α) {maxOrders maxLevels : PoolCapacity}

/-- The loop of `hash_level` over the orders of a level. -/
def hashOrders (orderPool : OrderPool maxOrders) : Nat → α → Index → Exec α
  | 0, _, _ => Exec.fail .diverges
  | fuel + 1, hash, curr =>
    if curr ≠ kInvalidPoolIndex then do
      let order ← orderPool.get curr
      let hash := combine hash order.orderId
      let hash := combine hash order.remainingQty.toUInt64
      hashOrders orderPool fuel hash order.nextInLevel
    else return hash

def hashLevel (hash : α) (lvl : PriceLevel) (orderPool : OrderPool maxOrders) : Exec α :=
  let hash := combine hash lvl.price.toUInt64
  let hash := combine hash lvl.side.toUInt64
  let hash := combine hash lvl.totalQty.toUInt64
  hashOrders combine orderPool (maxOrders.size + 1) hash lvl.headOrderIdx

/-- In order, the subtree on side `first` before the node and the one on the other side behind it. -/
def traverse (first : Dir) (levelPool : PriceLevelPool maxLevels) (orderPool : OrderPool maxOrders) : Nat → α → Index → Exec α
  | 0, _, _ => Exec.fail .diverges
  | fuel + 1, hash, nodeIdx =>
    if nodeIdx = kInvalidPoolIndex then return hash
    else do
      let node ← levelPool.get nodeIdx
      let hash ← traverse first levelPool orderPool fuel hash (node.node.child first)
      let hash ← hashLevel combine hash node orderPool
      traverse first levelPool orderPool fuel hash (node.node.child first.flip)

/-- Right to left. -/
def traverseBids (levelPool : PriceLevelPool maxLevels) (orderPool : OrderPool maxOrders) : Nat → α → Index → Exec α :=
  traverse combine .right levelPool orderPool

/-- Left to right. -/
def traverseAsks (levelPool : PriceLevelPool maxLevels) (orderPool : OrderPool maxOrders) : Nat → α → Index → Exec α :=
  traverse combine .left levelPool orderPool

def hashSide (hash : α) (side : BookSide) (levelPool : PriceLevelPool maxLevels) (orderPool : OrderPool maxOrders) : Exec α :=
  let root := side.avlRoot
  if root = kInvalidPoolIndex then return hash
  else if side.side = 0 then traverseBids combine levelPool orderPool (maxLevels.size + 1) hash root
  else traverseAsks combine levelPool orderPool (maxLevels.size + 1) hash root

/-- Both sides: bids from the highest price, then asks from the lowest. -/
def hashBook (hash : α) (book : OrderBook maxOrders maxLevels) : Exec α := do
  let hash ← hashSide combine hash book.bids book.levelPool book.orderPool
  hashSide combine hash book.asks book.levelPool book.orderPool

end Traversal

variable {maxOrders maxLevels : PoolCapacity}

def compute (book : OrderBook maxOrders maxLevels) : Exec UInt64 := hashBook hashCombine kFnvOffsetBasis book

/-- The words that `compute` passes to `hash_combine`, in order. -/
def words (book : OrderBook maxOrders maxLevels) : Exec (List UInt64) := hashBook (fun ws w => ws ++ [w]) [] book

end BookDigest

end TradeCore
