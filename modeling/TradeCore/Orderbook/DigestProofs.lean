import TradeCore.Lib.Delimited
import TradeCore.Orderbook.BookDigest
import TradeCore.Orderbook.BookTotals
/-!
# What a digest depends on

`content` is a book without its slots, trees, map and timestamps. The traversals of a book pass the words of its
content, whatever `combine` does with them (`hashBook_eq`): so the digest is a function of the content
(`digest_history_independent`). The words determine the content (`words_determine_content`): a level states the
total of its orders, and no order is empty, so a level ends by itself.
-/

namespace TradeCore

open ObjectPool LinkedList Avl Avl.BinTree

variable {maxOrders maxLevels cap : PoolCapacity}

/-! ## Content and words -/

/-- A level: its price, its total, and the ids and remaining quantities of its orders, oldest first. -/
structure LevelContent where
  price : UInt32
  totalQty : UInt32
  orders : List (UInt64 × UInt32)
deriving DecidableEq, Repr

namespace OrderBook

variable (book : OrderBook maxOrders maxLevels)

def levelContent (i : Index) : LevelContent where
  price := (book.levelPool.slots i).price
  totalQty := (book.levelPool.slots i).totalQty
  orders := (book.queueSlots i).map fun j => ((book.orderPool.slots j).orderId, (book.orderPool.slots j).remainingQty)

/-- The levels of a side, by increasing price. -/
def content (s : Side) : List LevelContent := (book.levelSlots s).map book.levelContent

end OrderBook

namespace BookDigest

def orderWords (o : UInt64 × UInt32) : List UInt64 := [o.1] ++ [o.2.toUInt64]

/-- The three words in front of the orders of a level. -/
def headerWords (s : Side) (price totalQty : UInt32) : List UInt64 :=
  [price.toUInt64, s.toByte.toUInt64, totalQty.toUInt64]

def levelWords (s : Side) (c : LevelContent) : List UInt64 :=
  headerWords s c.price c.totalQty ++ c.orders.flatMap orderWords

/-- Best price first. -/
def sideWords (s : Side) (cs : List LevelContent) : List UInt64 := (s.bestFirst cs).flatMap (levelWords s)

def bookWords (c : Side → List LevelContent) : List UInt64 := sideWords .bid (c .bid) ++ sideWords .ask (c .ask)

/-! ## The traversals -/

section Traversal

variable {α : Type} (combine : α → UInt64 → α)

theorem hashOrders_eq {pool : OrderPool maxOrders} {is : List Index} {x : Index} {fuel : ℕ} (hash : α)
    (hp : Path (nextLink pool) x is kInvalidPoolIndex) (hv : ∀ i ∈ is, Valid maxOrders i) (hf : is.length < fuel) :
    hashOrders combine pool fuel hash x =
      pure ((is.flatMap fun i => orderWords ((pool.slots i).orderId, (pool.slots i).remainingQty)).foldl combine hash) := by
  induction is generalizing x fuel hash with
  | nil =>
    obtain ⟨fuel, rfl⟩ := Nat.exists_eq_succ_of_ne_zero (by omega : fuel ≠ 0)
    have hx : x = kInvalidPoolIndex := hp
    unfold hashOrders
    rw [if_neg (by simpa using hx)]
    rfl
  | cons i is ih =>
    obtain ⟨fuel, rfl⟩ := Nat.exists_eq_succ_of_ne_zero (by omega : fuel ≠ 0)
    obtain ⟨rfl, hp⟩ := hp
    have hx := hv x List.mem_cons_self
    have hrest := fun hash => ih hash hp (fun j hj => hv j (List.mem_cons_of_mem x hj)) (Nat.lt_of_succ_lt_succ hf)
    unfold hashOrders
    rw [if_pos hx.ne_invalid, get_eq _ hx, pure_bind, List.flatMap_cons, List.foldl_append]
    exact hrest _

theorem traverse_eq (first : Dir) {levelPool : PriceLevelPool maxLevels} {orderPool : OrderPool maxOrders} (ws : Index → List UInt64) :
    ∀ {t : BinTree Index} {x p : Index} {fuel : ℕ} (hash : α), TreeAt levelPool t x p → t.height < fuel →
      (∀ i ∈ first.visit t.toList, ∀ hash, hashLevel combine hash (levelPool.slots i) orderPool = pure ((ws i).foldl combine hash)) →
        traverse combine first levelPool orderPool fuel hash x = pure (((first.visit t.toList).flatMap ws).foldl combine hash)
  | _, _, _, 0, _, _, hf, _ => by omega
  | nil, x, _, fuel + 1, hash, h, _, _ => by
    have hx : x = kInvalidPoolIndex := h
    have hnil : first.visit (nil : BinTree Index).toList = [] := by
      cases first <;> rfl
    unfold traverse
    rw [if_pos hx, hnil]
    rfl
  | node l i r, x, _, fuel + 1, hash, h, hf, hlevel => by
    have hx : Valid maxLevels x := by
      obtain ⟨rfl, hh, -⟩ := TreeAt.node_iff.1 h
      exact hh.valid
    obtain ⟨near, far, hnear, hfar, hnearf, hfarf, hlist⟩ := h.children first
    simp only [hlist, List.mem_append, List.mem_cons] at hlevel
    have hbefore := fun hash => traverse_eq first ws hash hnear (show near.height < fuel by omega)
      fun j hj => hlevel j (Or.inl hj)
    have hbehind := fun hash => traverse_eq first ws hash hfar (show far.height < fuel by omega)
      fun j hj => hlevel j (Or.inr (Or.inr hj))
    unfold traverse
    rw [if_neg hx.ne_invalid, get_eq _ hx, pure_bind, hlist, List.flatMap_append, List.flatMap_cons, List.foldl_append, List.foldl_append]
    change traverse combine first levelPool orderPool fuel hash ((levelPool.node x).child first) >>= _ = _
    rw [hbefore, pure_bind, hlevel x (Or.inr (Or.inl rfl)), pure_bind]
    exact hbehind _

variable {book : OrderBook maxOrders maxLevels} {g : Shape}

theorem hashLevel_eq (h : Rep book g) {s : Side} {l : Level} (hl : l ∈ g s) (hash : α) :
    hashLevel combine hash (book.levelPool.slots l.slot) book.orderPool =
      pure ((levelWords s (book.levelContent l.slot)).foldl combine hash) := by
  have hat := (h.sides s).levels l hl
  obtain ⟨hpath, hvalid, hlen⟩ := h.level_queue hl
  have hwords : (levelWords s (book.levelContent l.slot)).foldl combine hash =
      ((l.orders.map Entry.slot).flatMap fun i =>
        orderWords ((book.orderPool.slots i).orderId, (book.orderPool.slots i).remainingQty)).foldl combine
          ((headerWords s (book.levelPool.slots l.slot).price (book.levelPool.slots l.slot).totalQty).foldl combine hash) := by
    unfold levelWords OrderBook.levelContent
    rw [List.foldl_append, h.queueSlots hl, List.flatMap_map]
  unfold hashLevel
  rw [hashOrders_eq combine _ hpath hvalid (Nat.lt_succ_of_le hlen), hwords, hat.side]
  rfl

theorem hashSide_eq (h : Rep book g) (s : Side) (hash : α) :
    hashSide combine hash (book.side s) book.levelPool book.orderPool =
      pure ((sideWords s (book.content s)).foldl combine hash) := by
  obtain ⟨t, ht, hts, hheight⟩ := h.side_tree s
  have hfuel := Nat.lt_succ_of_le hheight
  have hcontent : book.content s = t.toList.map book.levelContent := by
    unfold OrderBook.content
    rw [h.levelSlots, hts]
  have hlevel : ∀ (d : Dir), ∀ i ∈ d.visit t.toList, ∀ hash, hashLevel combine hash (book.levelPool.slots i) book.orderPool =
      pure ((levelWords s (book.levelContent i)).foldl combine hash) := by
    intro d i hi
    rw [(d.visit_perm _).mem_iff, hts] at hi
    obtain ⟨l, hl, rfl⟩ := List.mem_map.1 hi
    exact hashLevel_eq combine h hl
  unfold hashSide sideWords
  rw [hcontent, (h.sides s).byte]
  by_cases hroot : (book.side s).avlRoot = kInvalidPoolIndex
  · rw [if_pos hroot, ht.nil_iff.2 hroot]
    cases s <;> rfl
  · rw [if_neg hroot]
    cases s with
    | bid =>
      have hwalk := traverse_eq combine .right _ hash ht hfuel (hlevel .right)
      rw [if_pos (show Side.bid.toByte = 0 from rfl), traverseBids, hwalk, Side.bestFirst, ← List.map_reverse, List.flatMap_map]
      rfl
    | ask =>
      have hwalk := traverse_eq combine .left _ hash ht hfuel (hlevel .left)
      rw [if_neg (by decide), traverseAsks, hwalk, Side.bestFirst, List.flatMap_map]
      rfl

/-- **The traversal of a book** passes the words of its content. -/
theorem hashBook_eq (h : Rep book g) (hash : α) :
    hashBook combine hash book = pure ((bookWords book.content).foldl combine hash) := by
  unfold hashBook bookWords
  change (hashSide combine hash (book.side .bid) book.levelPool book.orderPool >>= fun hash =>
    hashSide combine hash (book.side .ask) book.levelPool book.orderPool) = _
  rw [hashSide_eq combine h, pure_bind, hashSide_eq combine h, List.foldl_append]

end Traversal

theorem foldl_concat (ws vs : List UInt64) : vs.foldl (fun ws w => ws ++ [w]) ws = ws ++ vs := by
  induction vs generalizing ws with
  | nil => simp
  | cons v vs ih => rw [List.foldl_cons, ih, List.append_assoc, List.singleton_append]

theorem words_eq {book : OrderBook maxOrders maxLevels} {g : Shape} (h : Rep book g) :
    words book = pure (bookWords book.content) := by
  unfold words
  rw [hashBook_eq _ h, foldl_concat, List.nil_append]

end BookDigest

/-- **The digest is a function of the content**: of books that were reached in any way, in pools of any size. -/
theorem digest_history_independent {maxOrders' maxLevels' : PoolCapacity} {book : OrderBook maxOrders maxLevels}
    {book' : OrderBook maxOrders' maxLevels'} (h : BookReachable book) (h' : BookReachable book')
    (hcontent : book.content = book'.content) :
    ∃ digest, BookDigest.compute book = pure digest ∧ BookDigest.compute book' = pure digest := by
  obtain ⟨g, hg⟩ := h.inv
  obtain ⟨g', hg'⟩ := h'.inv
  refine ⟨_, BookDigest.hashBook_eq BookDigest.hashCombine hg.rep BookDigest.kFnvOffsetBasis, ?_⟩
  rw [hcontent]
  exact BookDigest.hashBook_eq BookDigest.hashCombine hg'.rep BookDigest.kFnvOffsetBasis

/-- An order to sell 7 at 120. -/
def otherOrder : BookUpdate := { BookUpdate.zero with price := 120, qty := 7, orderId := 2, side := 1 }

/-- A first order, alone or after another one came and went: what either book holds, and in which slots. -/
def detour : Exec (List LevelContent × List LevelContent × List Index × List LevelContent × List LevelContent × List Index) := do
  let start : OrderBook four four := OrderBook.new (fun _ => Order.zero) fun _ => PriceLevel.zero
  let direct ← start.addOrder firstOrder
  let book ← start.addOrder otherOrder
  let book ← book.addOrder firstOrder
  let book ← book.deleteOrder otherOrder
  return (direct.content .bid, direct.content .ask, direct.allOrders, book.content .bid, book.content .ask, book.allOrders)

/-- What either of them holds. -/
def firstContent : Side → List LevelContent
  | .bid => [⟨100, 5, [(1, 5)]⟩]
  | .ask => []

theorem detour_books : ∃ direct book : OrderBook four four, BookReachable direct ∧ BookReachable book ∧
    direct.allOrders = [0] ∧ book.allOrders = [1] ∧ direct.content = firstContent ∧ book.content = firstContent := by
  have hrun : detour .debug = .ok ([⟨100, 5, [(1, 5)]⟩], [], [0], [⟨100, 5, [(1, 5)]⟩], [], [1]) := rfl
  obtain ⟨direct, h1, hrun⟩ := Exec.bind_eq_ok.1 hrun
  obtain ⟨book1, h2, hrun⟩ := Exec.bind_eq_ok.1 hrun
  obtain ⟨book2, h3, hrun⟩ := Exec.bind_eq_ok.1 hrun
  obtain ⟨book3, h4, hrun⟩ := Exec.bind_eq_ok.1 hrun
  have hstart : BookReachable (OrderBook.new (fun _ => Order.zero) (fun _ => PriceLevel.zero) : OrderBook four four) := .new _ _
  have hstep : ∀ {book book' : OrderBook four four} {u : BookUpdate}, BookReachable book →
      book.addOrder u .debug = .ok book' → BookReachable book' := by
    intro book book' u hbook hadd
    obtain ⟨g, hg⟩ := hbook.inv
    have hop : (BookOp.add u).Admissible book := hg.rep.addOk_of_debug hadd
    exact .step hbook hop hadd
  have hbook2 := hstep (hstep hstart h2) h3
  obtain ⟨g, hg⟩ := hbook2.inv
  have hop : (BookOp.delete otherOrder).Admissible book2 := hg.rep.delete_live h4
  have hout := Except.ok.inj hrun
  simp only [Prod.mk.injEq] at hout
  obtain ⟨hdbid, hdask, hdslots, hbid, hask, hslots⟩ := hout
  refine ⟨direct, book3, hstep hstart h1, .step hbook2 hop h4, hdslots, hslots, ?_, ?_⟩
  · funext s
    cases s with
    | bid => exact hdbid
    | ask => exact hdask
  · funext s
    cases s with
    | bid => exact hbid
    | ask => exact hask

theorem digest_history_independent_detour : ∃ direct book : OrderBook four four, direct.allOrders = [0] ∧ book.allOrders = [1] ∧
    ∃ digest, BookDigest.compute direct = pure digest ∧ BookDigest.compute book = pure digest := by
  obtain ⟨direct, book, hdirect, hbook, hd, hb, hc, hc'⟩ := detour_books
  exact ⟨direct, book, hd, hb, digest_history_independent hdirect hbook (hc.trans hc'.symm)⟩

/-! ## Unique decoding -/

namespace BookDigest

/-- An order in the stream ends by itself. -/
theorem orderWords_delimited : Code.Delimited (fun o : UInt64 × UInt32 => 0 < o.2.toNat) orderWords := by
  intro o o' _ _ r r' e
  obtain ⟨h1, e⟩ := List.cons.inj e
  obtain ⟨h2, h3⟩ := List.cons.inj e
  exact ⟨Prod.ext h1 (UInt32.toUInt64_inj.1 h2), h3⟩

/-- A level of a side as its header and its orders. -/
def tagged (s : Side) (c : LevelContent) : (Side × UInt32 × UInt32) × List (UInt64 × UInt32) := ((s, c.price, c.totalQty), c.orders)

theorem headerWords_delimited :
    Code.Delimited (fun _ => True) fun h : Side × UInt32 × UInt32 => headerWords h.1 h.2.1 h.2.2 := by
  rintro ⟨s, p, q⟩ ⟨s', p', q'⟩ _ _ r r' e
  obtain ⟨h1, e⟩ := List.cons.inj e
  obtain ⟨h2, e⟩ := List.cons.inj e
  obtain ⟨h3, h4⟩ := List.cons.inj e
  have hs : s = s' := by
    have h2' : s.toByte.toUInt64 = s'.toByte.toUInt64 := h2
    clear h2
    revert h2'
    cases s <;> cases s' <;> decide
  have hp : p = p' := UInt32.toUInt64_inj.1 h1
  have hq : q = q' := UInt32.toUInt64_inj.1 h3
  rw [hs, hp, hq]
  exact ⟨rfl, h4⟩

/-- A level whose total is the sum of its orders, none of them empty. -/
def Closed (x : (Side × UInt32 × UInt32) × List (UInt64 × UInt32)) : Prop :=
  (∀ o ∈ x.2, 0 < o.2.toNat) ∧ (x.2.map fun o => o.2.toNat).sum = x.1.2.2.toNat

def taggedWords (x : (Side × UInt32 × UInt32) × List (UInt64 × UInt32)) : List UInt64 :=
  headerWords x.1.1 x.1.2.1 x.1.2.2 ++ x.2.flatMap orderWords

/-- **A level in the stream ends by itself**: where its orders make up its total. -/
theorem taggedWords_delimited : Code.Delimited (fun x => True ∧ Closed x) taggedWords :=
  headerWords_delimited.pair fun h _ => orderWords_delimited.weighed (fun _ ho => ho) h.2.2.toNat

/-- The levels of a book in the order of the stream. -/
def stream (c : Side → List LevelContent) : List ((Side × UInt32 × UInt32) × List (UInt64 × UInt32)) :=
  (Side.bid.bestFirst (c .bid)).map (tagged .bid) ++ (Side.ask.bestFirst (c .ask)).map (tagged .ask)

theorem bookWords_eq (c : Side → List LevelContent) : bookWords c = (stream c).flatMap taggedWords := by
  unfold bookWords stream sideWords
  rw [List.flatMap_append, List.flatMap_map, List.flatMap_map]
  rfl

/-- The side word tells bids from asks. -/
theorem stream_inj {c c' : Side → List LevelContent} (h : stream c = stream c') : c = c' := by
  have hfilter : ∀ (c : Side → List LevelContent) (s : Side),
      (stream c).filter (fun x => x.1.1 = s) = (s.bestFirst (c s)).map (tagged s) := by
    intro c s
    have hown : ∀ (s : Side) (cs : List LevelContent), (cs.map (tagged s)).filter (fun x => x.1.1 = s) = cs.map (tagged s) := by
      intro s cs
      refine List.filter_eq_self.2 fun x hx => ?_
      obtain ⟨c, -, rfl⟩ := List.mem_map.1 hx
      exact decide_eq_true rfl
    have hother : ∀ (s s' : Side) (cs : List LevelContent), s' ≠ s → (cs.map (tagged s')).filter (fun x => x.1.1 = s) = [] := by
      intro s s' cs hs
      refine List.filter_eq_nil_iff.2 fun x hx => ?_
      obtain ⟨c, -, rfl⟩ := List.mem_map.1 hx
      simp [tagged, hs]
    unfold stream
    rw [List.filter_append]
    cases s with
    | bid => rw [hown, hother _ _ _ (by decide), List.append_nil]
    | ask => rw [hown, hother _ _ _ (by decide), List.nil_append]
  funext s
  have hs := (hfilter c s).symm.trans ((congrArg _ h).trans (hfilter c' s))
  have hinj : Function.Injective (tagged s) := by
    rintro ⟨p, q, os⟩ ⟨p', q', os'⟩ e
    simp only [tagged, Prod.mk.injEq] at e
    obtain ⟨⟨-, rfl, rfl⟩, rfl⟩ := e
    rfl
  have hlist := List.map_injective_iff.2 hinj hs
  cases s with
  | bid => exact List.reverse_injective hlist
  | ask => exact hlist

end BookDigest

theorem OrderBook.totalsExact_iff_content {book : OrderBook maxOrders maxLevels} :
    book.TotalsExact ↔ ∀ s, ∀ c ∈ book.content s, (c.orders.map fun o => o.2.toNat).sum = c.totalQty.toNat := by
  have hlevel : ∀ i, (((book.levelContent i).orders.map fun o => o.2.toNat).sum = (book.levelContent i).totalQty.toNat) ↔
      (book.levelPool.slots i).totalQty.toNat = ((book.queueSlots i).map fun j => (book.orderPool.slots j).remainingQty.toNat).sum := by
    intro i
    unfold OrderBook.levelContent
    rw [List.map_map]
    exact eq_comm
  unfold OrderBook.TotalsExact OrderBook.content
  simp only [List.forall_mem_map, hlevel]

/-- A reachable book whose totals did not wrap writes closed levels only. -/
theorem Inv.closed {book : OrderBook maxOrders maxLevels} {g : Shape} (h : Inv book g) (hex : book.TotalsExact) :
    ∀ x ∈ BookDigest.stream book.content, True ∧ BookDigest.Closed x := by
  have hside : ∀ s, ∀ c ∈ book.content s, BookDigest.Closed (BookDigest.tagged s c) := by
    intro s c hc
    refine ⟨fun o ho => ?_, OrderBook.totalsExact_iff_content.1 hex s c hc⟩
    obtain ⟨i, hi, rfl⟩ := List.mem_map.1 hc
    obtain ⟨j, hj, rfl⟩ := List.mem_map.1 ho
    exact UInt32.lt_iff_toNat_lt.1 ((h.consistent.levels s i hi).orders j hj).2.2
  intro x hx
  refine ⟨trivial, ?_⟩
  unfold BookDigest.stream at hx
  rcases List.mem_append.1 hx with hx | hx
  · obtain ⟨c, hc, rfl⟩ := List.mem_map.1 hx
    exact hside .bid c (Side.bid.mem_bestFirst.1 hc)
  · obtain ⟨c, hc, rfl⟩ := List.mem_map.1 hx
    exact hside .ask c (Side.ask.mem_bestFirst.1 hc)

/-- **The words of a digest determine the book**, as long as no level total wrapped. -/
theorem words_determine_content {maxOrders' maxLevels' : PoolCapacity} {book : OrderBook maxOrders maxLevels}
    {book' : OrderBook maxOrders' maxLevels'} (h : BookReachable book) (h' : BookReachable book') (hex : book.TotalsExact)
    (hex' : book'.TotalsExact) (hwords : BookDigest.words book = BookDigest.words book') : book.content = book'.content := by
  obtain ⟨g, hg⟩ := h.inv
  obtain ⟨g', hg'⟩ := h'.inv
  rw [BookDigest.words_eq hg.rep, BookDigest.words_eq hg'.rep] at hwords
  have hstream := Exec.pure_inj hwords
  rw [BookDigest.bookWords_eq, BookDigest.bookWords_eq] at hstream
  refine BookDigest.stream_inj (BookDigest.taggedWords_delimited.flatMap_inj ?_ (hg.closed hex) (hg'.closed hex') hstream)
  intro x
  exact List.cons_ne_nil _ _

theorem words_determine_content_detour : ∃ direct book : OrderBook four four, direct.allOrders = [0] ∧ book.allOrders = [1] ∧
    direct.TotalsExact ∧ BookDigest.words direct = BookDigest.words book ∧ direct.content = book.content := by
  obtain ⟨direct, book, hdirect, hbook, hd, hb, hc, hc'⟩ := detour_books
  have hexact : ∀ {book : OrderBook four four}, book.content = firstContent → book.TotalsExact := by
    intro book hcontent
    rw [OrderBook.totalsExact_iff_content, hcontent]
    intro s
    cases s <;> decide
  have hwords : BookDigest.words direct = BookDigest.words book := by
    obtain ⟨g, hg⟩ := hdirect.inv
    obtain ⟨g', hg'⟩ := hbook.inv
    rw [BookDigest.words_eq hg.rep, BookDigest.words_eq hg'.rep, hc, hc']
  exact ⟨direct, book, hd, hb, hexact hc, hwords, words_determine_content hdirect hbook (hexact hc) (hexact hc') hwords⟩

end TradeCore
