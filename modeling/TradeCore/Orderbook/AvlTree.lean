import TradeCore.Lib.AvlTree
import TradeCore.Orderbook.Records
/-!
# The index-linked AVL tree (`orderbook/avl_tree.hpp`)

Free functions over the level pool, translated statement by statement. `auto& z = pool.at(z_idx)->node`
is a checked `get` (the reference) followed by writes through the reference (`modify`), and a field read
through a reference after such a write is read from the current pool.

Loops and recursions take fuel; running out of it is `Fault.diverges`. The public functions start
with `cap.size + 1`, one more than there are slots.
-/

namespace TradeCore

open Avl

/-- `left` or `right`. -/
def AVLNode.child (n : AVLNode) : Dir → Index
  | .left => n.left
  | .right => n.right

def AVLNode.withChild (d : Dir) (v : Index) (n : AVLNode) : AVLNode :=
  match d with
  | .left => { n with left := v }
  | .right => { n with right := v }

/-- A write to the AVL metadata of a level. -/
def PriceLevel.withNode (f : AVLNode → AVLNode) (l : PriceLevel) : PriceLevel := { l with node := f l.node }

namespace PriceLevelPool

variable {cap : PoolCapacity}

/-- `node.left = v` or `node.right = v`. -/
def setChild (pool : PriceLevelPool cap) (d : Dir) (i v : Index) : PriceLevelPool cap :=
  pool.modify i (·.withNode (·.withChild d v))

def setLeft (pool : PriceLevelPool cap) (i v : Index) : PriceLevelPool cap := pool.setChild .left i v

def setRight (pool : PriceLevelPool cap) (i v : Index) : PriceLevelPool cap := pool.setChild .right i v

def setParent (pool : PriceLevelPool cap) (i v : Index) : PriceLevelPool cap :=
  pool.modify i (·.withNode ({ · with parent := v }))

def setHeight (pool : PriceLevelPool cap) (i : Index) (v : Int) : PriceLevelPool cap :=
  pool.modify i (·.withNode ({ · with height := v }))

/-- The AVL metadata of slot `i`. -/
def node (pool : PriceLevelPool cap) (i : Index) : AVLNode := (pool.slots i).node

end PriceLevelPool

namespace avl

variable {cap : PoolCapacity}

/-- `height` (`avl_tree.hpp:22`). -/
def height (pool : PriceLevelPool cap) (idx : Index) : Exec Int := do
  if idx = kInvalidPoolIndex then return 0
  else
    let l ← pool.get idx
    return l.node.height

/-- `balance_factor` (`avl_tree.hpp:27`). -/
def balanceFactor (pool : PriceLevelPool cap) (idx : Index) : Exec Int := do
  let l ← pool.get idx
  let r ← height pool l.node.right
  let l ← height pool l.node.left
  return r - l

/-- `update_height` (`avl_tree.hpp:33`). -/
def updateHeight (pool : PriceLevelPool cap) (idx : Index) : Exec (PriceLevelPool cap) := do
  let n ← pool.get idx
  let l ← height pool n.node.left
  let r ← height pool n.node.right
  return pool.setHeight idx (1 + max l r)

/-- `pool.at(idx)->node.parent = p`, done when `idx` is a slot. -/
def setParentIf (pool : PriceLevelPool cap) (idx p : Index) : Exec (PriceLevelPool cap) := do
  if idx ≠ kInvalidPoolIndex then
    let _ ← pool.get idx
    return pool.setParent idx p
  else return pool

/-- The body `rotate_right` and `rotate_left` share: the child of `z` on side `d` takes the place of `z`,
its inner subtree moves to `z`. -/
def rotate (d : Dir) (pool : PriceLevelPool cap) (zIdx : Index) : Exec (PriceLevelPool cap × Index) := do
  let z ← pool.get zIdx
  let yIdx := z.node.child d
  let y ← pool.get yIdx
  let inner := y.node.child d.flip
  let pool := pool.setChild d zIdx inner
  let pool ← setParentIf pool inner zIdx
  let pool := pool.setChild d.flip yIdx zIdx
  let pool := pool.setParent yIdx (pool.node zIdx).parent
  let pool := pool.setParent zIdx yIdx
  let pool ← updateHeight pool zIdx
  let pool ← updateHeight pool yIdx
  return (pool, yIdx)

/-- `rotate_right` (`avl_tree.hpp:45`): the left child moves up. -/
def rotateRight (pool : PriceLevelPool cap) (zIdx : Index) : Exec (PriceLevelPool cap × Index) :=
  rotate .left pool zIdx

/-- `rotate_left` (`avl_tree.hpp:70`): the right child moves up. -/
def rotateLeft (pool : PriceLevelPool cap) (zIdx : Index) : Exec (PriceLevelPool cap × Index) :=
  rotate .right pool zIdx

/-- `rebalance` (`avl_tree.hpp:92`). -/
def rebalance (pool : PriceLevelPool cap) (idx : Index) (stats : AVLStatistics) :
    Exec (PriceLevelPool cap × Index × AVLStatistics) := do
  let pool ← updateHeight pool idx
  let bal ← balanceFactor pool idx
  if bal < -1 then
    -- left-heavy
    let leftIdx := (pool.node idx).left
    if (← balanceFactor pool leftIdx) ≤ 0 then
      let (pool, root) ← rotateRight pool idx
      return (pool, root, { stats with llRotations := stats.llRotations + 1 })
    else
      let (pool, newLeft) ← rotateLeft pool leftIdx
      let pool := pool.setLeft idx newLeft
      let pool ← setParentIf pool newLeft idx
      let (pool, root) ← rotateRight pool idx
      return (pool, root, { stats with lrRotations := stats.lrRotations + 1 })
  else if bal > 1 then
    -- right-heavy
    let rightIdx := (pool.node idx).right
    if (← balanceFactor pool rightIdx) ≥ 0 then
      let (pool, root) ← rotateLeft pool idx
      return (pool, root, { stats with rrRotations := stats.rrRotations + 1 })
    else
      let (pool, newRight) ← rotateRight pool rightIdx
      let pool := pool.setRight idx newRight
      let pool ← setParentIf pool newRight idx
      let (pool, root) ← rotateLeft pool idx
      return (pool, root, { stats with rlRotations := stats.rlRotations + 1 })
  else return (pool, idx, stats)

/-- The `while` loop of `find_min` and `find_max`: go to the child on side `d` while there is one. -/
def follow (d : Dir) (pool : PriceLevelPool cap) : Nat → Index → Exec Index
  | 0, _ => Exec.fail .diverges
  | fuel + 1, curr => do
    let l ← pool.get curr
    if l.node.child d ≠ kInvalidPoolIndex then follow d pool fuel (l.node.child d) else return curr

/-- `find_min` (`avl_tree.hpp:134`). -/
def findMin (pool : PriceLevelPool cap) (rootIdx : Index) : Exec Index :=
  if rootIdx = kInvalidPoolIndex then return kInvalidPoolIndex
  else follow .left pool (cap.size + 1) rootIdx

/-- `find_max` (`avl_tree.hpp:144`). -/
def findMax (pool : PriceLevelPool cap) (rootIdx : Index) : Exec Index :=
  if rootIdx = kInvalidPoolIndex then return kInvalidPoolIndex
  else follow .right pool (cap.size + 1) rootIdx

def findLoop (pool : PriceLevelPool cap) (price : UInt32) : Nat → Index → Exec Index
  | 0, _ => Exec.fail .diverges
  | fuel + 1, curr => do
    if curr = kInvalidPoolIndex then return kInvalidPoolIndex
    else
      let l ← pool.get curr
      if price = l.price then return curr
      else findLoop pool price fuel (if price < l.price then l.node.left else l.node.right)

/-- `find` (`avl_tree.hpp:154`). -/
def find (pool : PriceLevelPool cap) (rootIdx : Index) (price : UInt32) : Exec Index :=
  findLoop pool price (cap.size + 1) rootIdx

def insertRec (newIdx : Index) : Nat → PriceLevelPool cap → Index → AVLStatistics →
    Exec (PriceLevelPool cap × Index × AVLStatistics)
  | 0, _, _, _ => Exec.fail .diverges
  | fuel + 1, pool, rootIdx, stats => do
    tradecoreAssert (newIdx ≠ kInvalidPoolIndex) "new_idx != kInvalidPoolIndex"
    let stats := { stats with insertions := stats.insertions + 1 }
    if rootIdx = kInvalidPoolIndex then
      let pool ← pool.update newIdx (·.withNode fun _ =>
        ⟨kInvalidPoolIndex, kInvalidPoolIndex, kInvalidPoolIndex, 1⟩)
      return (pool, newIdx, stats)
    else
      let root ← pool.get rootIdx
      let node ← pool.get newIdx
      if node.price < root.price then
        let (pool, left, stats) ← insertRec newIdx fuel pool root.node.left stats
        let pool := pool.setLeft rootIdx left
        let _ ← pool.get left
        rebalance (pool.setParent left rootIdx) rootIdx stats
      else
        let (pool, right, stats) ← insertRec newIdx fuel pool root.node.right stats
        let pool := pool.setRight rootIdx right
        let _ ← pool.get right
        rebalance (pool.setParent right rootIdx) rootIdx stats

/-- `insert` (`avl_tree.hpp:168`). -/
def insert (pool : PriceLevelPool cap) (rootIdx newIdx : Index) (stats : AVLStatistics) :
    Exec (PriceLevelPool cap × Index × AVLStatistics) :=
  insertRec newIdx (cap.size + 1) pool rootIdx stats

def removeRec : Nat → PriceLevelPool cap → Index → Index → AVLStatistics →
    Exec (PriceLevelPool cap × Index × AVLStatistics)
  | 0, _, _, _, _ => Exec.fail .diverges
  | fuel + 1, pool, rootIdx, targetIdx, stats => do
    if rootIdx = kInvalidPoolIndex then return (pool, kInvalidPoolIndex, stats)
    else
      let stats := { stats with deletions := stats.deletions + 1 }
      let root ← pool.get rootIdx
      let target ← pool.get targetIdx
      if target.price < root.price then
        let (pool, left, stats) ← removeRec fuel pool root.node.left targetIdx stats
        let pool := pool.setLeft rootIdx left
        let pool ← setParentIf pool left rootIdx
        rebalance pool rootIdx stats
      else if target.price > root.price then
        let (pool, right, stats) ← removeRec fuel pool root.node.right targetIdx stats
        let pool := pool.setRight rootIdx right
        let pool ← setParentIf pool right rootIdx
        rebalance pool rootIdx stats
      else
        tradecoreAssert (rootIdx = targetIdx) "root_idx == target_idx"
        if root.node.left = kInvalidPoolIndex then
          -- no left child: the right one, if any, moves up
          let right := root.node.right
          let pool ← setParentIf pool right root.node.parent
          return ((pool.setRight rootIdx kInvalidPoolIndex).setLeft rootIdx kInvalidPoolIndex, right, stats)
        else if root.node.right = kInvalidPoolIndex then
          let left := root.node.left
          let _ ← pool.get left
          let pool := pool.setParent left root.node.parent
          return ((pool.setRight rootIdx kInvalidPoolIndex).setLeft rootIdx kInvalidPoolIndex, left, stats)
        else
          -- two children: splice the in-order successor out and put it in this place
          let succIdx ← findMin pool root.node.right
          let stats := { stats with deletions := stats.deletions - 1 }
          let (pool, newRight, stats) ← removeRec fuel pool root.node.right succIdx stats
          let _ ← pool.get succIdx
          let savedParent := (pool.node rootIdx).parent
          let pool := pool.setLeft succIdx (pool.node rootIdx).left
          let pool := pool.setRight succIdx newRight
          let pool := pool.setParent succIdx savedParent
          let pool ← setParentIf pool (pool.node rootIdx).left succIdx
          let pool ← setParentIf pool newRight succIdx
          rebalance ((pool.setRight rootIdx kInvalidPoolIndex).setLeft rootIdx kInvalidPoolIndex) succIdx stats

/-- `remove` (`avl_tree.hpp:199`). -/
def remove (pool : PriceLevelPool cap) (rootIdx targetIdx : Index) (stats : AVLStatistics) :
    Exec (PriceLevelPool cap × Index × AVLStatistics) :=
  removeRec (cap.size + 1) pool rootIdx targetIdx stats

/-- `update_stats_height` (`avl_tree.hpp:266`). -/
def updateStatsHeight (pool : PriceLevelPool cap) (rootIdx : Index) (stats : AVLStatistics) :
    Exec AVLStatistics := do
  let h ← height pool rootIdx
  let stats := { stats with treeHeight := UInt32.ofNat h.toNat }
  return if stats.treeHeight > stats.maximumHeight then { stats with maximumHeight := stats.treeHeight }
    else stats

end avl

end TradeCore
