import TradeCore.Orderbook.BookDigest
/-!
# Timestamps of the book

`Order.timestamp_ns` is written by `add_order` and read by nothing. `untimed` sets every timestamp to zero, and each
operation of the book commutes with it: what it does to a book without timestamps is what it does to the book, less
the timestamps. Both sides of such an equation end in the same fault where there is one.
-/

namespace TradeCore

/-! ## A map over the records of a pool -/

namespace ObjectPool

variable {α : Type} {cap : PoolCapacity} (h : α → α)

/-- The pool with `h` applied to each of its slots. -/
def map (pool : ObjectPool α cap) : ObjectPool α cap := { pool with slots := fun i => h (pool.slots i) }

theorem get_map (pool : ObjectPool α cap) (i : Index) : (pool.map h).get i = h <$> pool.get i := by
  unfold get
  rw [map_bind]
  refine bind_congr fun _ => ?_
  split_ifs with hi
  · rw [map_pure]
    rfl
  · rfl

theorem modify_map {f f' : α → α} (hf : ∀ a, h (f a) = f' (h a)) (pool : ObjectPool α cap) (i : Index) :
    (pool.modify i f).map h = (pool.map h).modify i f' := by
  have hslots : (fun j => h ((pool.modify i f).slots j)) = ((pool.map h).modify i f').slots := by
    ext j
    rw [modify_slots, modify_slots, apply_ite h, hf]
    rfl
  unfold map
  rw [hslots]
  rfl

theorem update_map {f f' : α → α} (hf : ∀ a, h (f a) = f' (h a)) (pool : ObjectPool α cap) (i : Index) :
    map h <$> pool.update i f = (pool.map h).update i f' := by
  unfold update
  rw [map_bind, get_map, bind_map_left]
  refine bind_congr fun _ => ?_
  rw [map_pure, modify_map h hf]

variable [Overlay α]

theorem allocate_map {init : α} (hinit : h init = init) (hlink : ∀ a, Overlay.nextFree (h a) = Overlay.nextFree a)
    (pool : ObjectPool α cap) : Prod.map id (map h) <$> pool.allocate init = (pool.map h).allocate init := by
  have hslots : (fun j => h (Function.update pool.slots pool.freeHead init j)) =
      Function.update (fun j => h (pool.slots j)) pool.freeHead init := by
    ext j
    rw [Function.update_apply, Function.update_apply, apply_ite h, hinit]
  unfold allocate
  rw [show (pool.map h).freeHead = pool.freeHead from rfl]
  split_ifs with hnone hin
  · rfl
  · rw [map_pure]
    refine congrArg pure (Prod.ext rfl ?_)
    change (⟨_, _, _⟩ : ObjectPool α cap) = ⟨_, _, _⟩
    rw [hslots]
    refine congrArg (fun n => ObjectPool.mk _ n _) (hlink _).symm
  · rfl

theorem deallocate_map (hset : ∀ i a, h (Overlay.setNextFree i a) = Overlay.setNextFree i (h a)) (pool : ObjectPool α cap)
    (i : Index) : map h <$> pool.deallocate i = (pool.map h).deallocate i := by
  have hslots : (fun j => h (Function.update pool.slots i (Overlay.setNextFree pool.freeHead (pool.slots i)) j)) =
      Function.update (fun j => h (pool.slots j)) i (Overlay.setNextFree pool.freeHead (h (pool.slots i))) := by
    ext j
    rw [Function.update_apply, Function.update_apply, apply_ite h, hset]
  unfold deallocate
  rw [map_bind]
  refine bind_congr fun _ => ?_
  split_ifs with hin
  · rw [map_pure]
    refine congrArg pure ?_
    change (⟨_, _, _⟩ : ObjectPool α cap) = ⟨_, _, _⟩
    rw [hslots]
    rfl
  · rfl

end ObjectPool

/-! ## Without timestamps -/

variable {maxOrders maxLevels : PoolCapacity}

def Order.untimed (o : Order) : Order := { o with timestampNs := 0 }

/-- A write of a link. -/
theorem modify_link_untimed (pool : OrderPool maxOrders) (i next : Index) :
    (pool.modify i ({ · with nextInLevel := next })).map Order.untimed =
      (pool.map Order.untimed).modify i ({ · with nextInLevel := next }) :=
  ObjectPool.modify_map Order.untimed (by intro o; rfl) pool i

theorem update_link_untimed (pool : OrderPool maxOrders) (i next : Index) :
    ObjectPool.map Order.untimed <$> pool.update i ({ · with nextInLevel := next }) =
      (pool.map Order.untimed).update i ({ · with nextInLevel := next }) :=
  ObjectPool.update_map Order.untimed (by intro o; rfl) pool i

def BookUpdate.untimed (u : BookUpdate) : BookUpdate := { u with timestampNs := 0 }

namespace OrderBook

variable (book : OrderBook maxOrders maxLevels)

/-- The book with every timestamp at zero: books agree on it where they are equal except for `Order::timestamp_ns`. -/
def untimed : OrderBook maxOrders maxLevels := { book with orderPool := book.orderPool.map Order.untimed }

@[simp] theorem untimed_side (s : Side) : book.untimed.side s = book.side s := by
  cases s <;> rfl

theorem untimed_setSide (s : Side) (v : BookSide) : (book.setSide s v).untimed = book.untimed.setSide s v := by
  cases s <;> rfl

/-! ## The operations of the book -/

theorem findOrCreateLevel_untimed (s : Side) (price : UInt32) :
    Prod.map id untimed <$> book.findOrCreateLevel s price = book.untimed.findOrCreateLevel s price := by
  unfold findOrCreateLevel
  rw [map_bind, untimed_side]
  refine bind_congr fun levelIdx => ?_
  split_ifs with hnone
  · simp only [map_bind]
    refine bind_congr fun created => bind_congr fun _ => bind_congr fun _ => bind_congr fun inserted => ?_
    rw [map_pure]
    refine congrArg pure (Prod.ext rfl ?_)
    exact untimed_setSide _ _ _
  · rw [map_bind]
    rfl

theorem linkOrder_untimed (levelIdx orderIdx : Index) (qty : UInt32) :
    untimed <$> book.linkOrder levelIdx orderIdx qty = book.untimed.linkOrder levelIdx orderIdx qty := by
  unfold linkOrder
  dsimp only
  rw [apply_ite (fun m => untimed <$> m)]
  refine if_congr Iff.rfl ?_ rfl
  rw [map_bind]
  change _ = (book.orderPool.map Order.untimed).update _ _ >>= _
  rw [← update_link_untimed, bind_map_left]
  rfl

theorem addOrder_untimed (update : BookUpdate) : untimed <$> book.addOrder update = book.untimed.addOrder update.untimed := by
  unfold addOrder
  simp only [map_bind]
  refine bind_congr fun _ => bind_congr fun _ => bind_congr fun _ => ?_
  change _ = book.untimed.findOrCreateLevel (sideOf update.side) update.price >>= _
  rw [← findOrCreateLevel_untimed, bind_map_left]
  refine bind_congr fun found => ?_
  obtain ⟨levelIdx, book⟩ := found
  change _ = (book.orderPool.map Order.untimed).allocate Order.zero >>= _
  rw [← ObjectPool.allocate_map Order.untimed rfl fun _ => rfl, bind_map_left]
  refine bind_congr fun allocated => ?_
  obtain ⟨order, orders⟩ := allocated
  refine bind_congr fun _ => ?_
  cases order with
  | none => rfl
  | some orderIdx =>
    simp only [map_bind]
    refine bind_congr fun inserted => bind_congr fun _ => ?_
    rw [linkOrder_untimed]
    refine congrArg (fun b : OrderBook maxOrders maxLevels => b.linkOrder levelIdx orderIdx update.qty) ?_
    unfold untimed
    dsimp only
    rw [ObjectPool.modify_map Order.untimed]
    · rfl
    · intro o
      rfl

theorem unlinkLoop_untimed (orderIdx next : Index) (fuel : ℕ) (pool : OrderPool maxOrders) (tail curr : Index) :
    Prod.map (ObjectPool.map Order.untimed) id <$> unlinkLoop orderIdx next fuel pool tail curr =
      unlinkLoop orderIdx next fuel (pool.map Order.untimed) tail curr := by
  induction fuel generalizing curr with
  | zero => rfl
  | succ fuel ih =>
    unfold unlinkLoop
    rw [apply_ite (fun m => Prod.map (ObjectPool.map Order.untimed) id <$> m)]
    refine if_congr Iff.rfl ?_ rfl
    rw [map_bind, ObjectPool.get_map, bind_map_left]
    refine bind_congr fun o => ?_
    rw [apply_ite (fun m => Prod.map (ObjectPool.map Order.untimed) id <$> m)]
    refine if_congr Iff.rfl ?_ (ih o.nextInLevel)
    rw [map_pure, Prod.map_apply, modify_link_untimed]
    rfl

theorem unlinkOrder_untimed (orderIdx levelIdx : Index) :
    untimed <$> book.unlinkOrder orderIdx levelIdx = book.untimed.unlinkOrder orderIdx levelIdx := by
  unfold unlinkOrder
  dsimp only
  rw [apply_ite (fun m => untimed <$> m)]
  refine if_congr Iff.rfl rfl ?_
  change _ = unlinkLoop orderIdx _ _ (book.orderPool.map Order.untimed) _ _ >>= _
  rw [← unlinkLoop_untimed, bind_map_left, map_bind]
  rfl

theorem deleteOrderInternal_untimed (orderIdx : Index) (s : Side) (levelIdx : Index) :
    untimed <$> book.deleteOrderInternal orderIdx s levelIdx = book.untimed.deleteOrderInternal orderIdx s levelIdx := by
  unfold deleteOrderInternal
  rw [map_bind]
  refine bind_congr fun erased => ?_
  change _ = ({ book with orderMap := erased.2 } : OrderBook maxOrders maxLevels).untimed.unlinkOrder orderIdx levelIdx >>= _
  rw [← unlinkOrder_untimed, bind_map_left, map_bind]
  refine bind_congr fun book => ?_
  change _ = (book.orderPool.map Order.untimed).deallocate orderIdx >>= _
  rw [← ObjectPool.deallocate_map Order.untimed fun _ _ => rfl, bind_map_left, map_bind]
  refine bind_congr fun orders => ?_
  dsimp only
  rw [apply_ite (fun m => untimed <$> m)]
  refine if_congr Iff.rfl ?_ rfl
  rw [map_bind]
  cases s <;> rfl

/-- What follows a look at an order does not see its timestamp. -/
theorem getOrder_untimed {β : Type} (orderIdx : Index) {next next' : Order → Exec β} (h : ∀ order, next order = next' order.untimed) :
    book.orderPool.get orderIdx >>= next = book.untimed.orderPool.get orderIdx >>= next' := by
  change _ = (book.orderPool.map Order.untimed).get orderIdx >>= _
  rw [ObjectPool.get_map, bind_map_left]
  exact bind_congr h

theorem cancelOrder_untimed (update : BookUpdate) : untimed <$> book.cancelOrder update = book.untimed.cancelOrder update := by
  unfold cancelOrder
  simp only [map_bind]
  refine bind_congr fun orderIdx => bind_congr fun _ => getOrder_untimed book orderIdx fun order => bind_congr fun _ => ?_
  rw [untimed_side]
  refine bind_congr fun levelIdx => bind_congr fun _ => bind_congr fun _ => ?_
  have horders : (book.orderPool.modify orderIdx fun o => { o with remainingQty := o.remainingQty - update.qty }).map Order.untimed =
      (book.orderPool.map Order.untimed).modify orderIdx fun o => { o with remainingQty := o.remainingQty - update.qty } :=
    ObjectPool.modify_map Order.untimed (by intro o; rfl) _ _
  rw [apply_ite (fun m => untimed <$> m), deleteOrderInternal_untimed, show book.untimed.orderPool.modify _ _ = _ from horders.symm]
  rfl

theorem deleteOrder_untimed (update : BookUpdate) : untimed <$> book.deleteOrder update = book.untimed.deleteOrder update := by
  unfold deleteOrder
  simp only [map_bind]
  refine bind_congr fun orderIdx => bind_congr fun _ => getOrder_untimed book orderIdx fun order => ?_
  rw [untimed_side]
  refine bind_congr fun levelIdx => bind_congr fun _ => bind_congr fun _ => ?_
  exact deleteOrderInternal_untimed _ _ _ _

theorem deleteThenAdd_untimed (update added : BookUpdate) :
    untimed <$> (book.deleteOrder update >>= fun book => book.addOrder added) =
      book.untimed.deleteOrder update >>= fun book => book.addOrder added.untimed := by
  rw [map_bind, ← deleteOrder_untimed, bind_map_left]
  exact bind_congr fun book => addOrder_untimed book added

theorem modifyOrder_untimed (update : BookUpdate) :
    untimed <$> book.modifyOrder update = book.untimed.modifyOrder update.untimed := by
  unfold modifyOrder
  simp only [map_bind]
  refine bind_congr fun orderIdx => bind_congr fun _ => getOrder_untimed book orderIdx fun order => ?_
  rw [apply_ite (fun m => untimed <$> m), apply_ite (fun m => untimed <$> m), cancelOrder_untimed]
  refine if_congr Iff.rfl rfl (if_congr Iff.rfl ?_ rfl)
  exact deleteThenAdd_untimed book update _

/-- **A replayed update** leaves the same book whatever its timestamp, but for the timestamps. -/
theorem dispatch_untimed (update : BookUpdate) : untimed <$> book.dispatch update = book.untimed.dispatch update.untimed := by
  have htype : update.untimed.type = update.type := rfl
  unfold dispatch dispatchTable
  rw [htype]
  split_ifs
  · exact addOrder_untimed book update
  · exact cancelOrder_untimed book update
  · exact cancelOrder_untimed book update
  · exact deleteOrder_untimed book update
  · exact modifyOrder_untimed book update
  · rfl

end OrderBook

/-! ## The digest -/

namespace BookDigest

variable {α : Type} (combine : α → UInt64 → α) {cap : PoolCapacity}

theorem hashOrders_untimed (pool : OrderPool maxOrders) (fuel : ℕ) (hash : α) (curr : Index) :
    hashOrders combine (pool.map Order.untimed) fuel hash curr = hashOrders combine pool fuel hash curr := by
  induction fuel generalizing hash curr with
  | zero => rfl
  | succ fuel ih =>
    unfold hashOrders
    refine if_congr Iff.rfl ?_ rfl
    rw [ObjectPool.get_map, bind_map_left]
    exact bind_congr fun order => ih _ _

theorem hashLevel_untimed (hash : α) (lvl : PriceLevel) (pool : OrderPool maxOrders) :
    hashLevel combine hash lvl (pool.map Order.untimed) = hashLevel combine hash lvl pool := by
  unfold hashLevel
  rw [hashOrders_untimed]

theorem traverse_untimed (first : Avl.Dir) (levelPool : PriceLevelPool maxLevels) (pool : OrderPool maxOrders) (fuel : ℕ) (hash : α)
    (idx : Index) : traverse combine first levelPool (pool.map Order.untimed) fuel hash idx =
      traverse combine first levelPool pool fuel hash idx := by
  induction fuel generalizing hash idx with
  | zero => rfl
  | succ fuel ih =>
    unfold traverse
    simp only [ih, hashLevel_untimed]

/-- **The traversal of a book** passes no timestamp. -/
theorem hashBook_untimed (hash : α) (book : OrderBook maxOrders maxLevels) :
    hashBook combine hash book.untimed = hashBook combine hash book := by
  unfold hashBook hashSide traverseBids traverseAsks OrderBook.untimed
  simp only [traverse_untimed]

end BookDigest

end TradeCore
