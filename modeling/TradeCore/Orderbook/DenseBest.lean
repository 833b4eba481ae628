import TradeCore.Orderbook.SideCalls
/-!
# The best tick of the dense array

`best_idx_` is moved by `insert` to a higher tick, and looked for again by `remove` only if its own tick was freed.
`Tracks` says that it is the highest occupied tick all the same, after overwrites, removals of vacant ticks and
re-insertions. On a bid side that tick holds the level that the tree gives as the best, so the two mechanisms agree.
-/

namespace TradeCore

open BookSide

namespace FlatPriceArray

variable {maxTicks : ℕ} {a a' : FlatPriceArray maxTicks} {price : UInt32} {v : Index} {n idx : ℕ} {b : Build}

/-- The ticks that hold a level. -/
def occupied (a : FlatPriceArray maxTicks) : Set ℕ := {n | n < maxTicks ∧ a.levelIndices n ≠ kInvalidPoolIndex}

/-- **The cached tick is the highest occupied one**, or the sentinel if there is none. -/
def Tracks (a : FlatPriceArray maxTicks) : Prop :=
  (a.bestIdx = kInvalidPoolIndex.toNat ∧ a.occupied = ∅) ∨ IsGreatest a.occupied a.bestIdx

/-- Every tick is below the sentinel. -/
theorem ne_sentinel (hmax : maxTicks < 2 ^ 32) (hn : n ∈ a.occupied) : n ≠ kInvalidPoolIndex.toNat := by
  have hlt : n < maxTicks := hn.1
  have hinvalid : kInvalidPoolIndex.toNat = 2 ^ 32 - 1 := rfl
  omega

theorem tracks_new : (new : FlatPriceArray maxTicks).Tracks := by
  left
  refine ⟨rfl, ?_⟩
  ext n
  simp [occupied, new]

/-! ## The operations -/

theorem occupied_update (hidx : idx < maxTicks) (hv : v ≠ kInvalidPoolIndex) :
    ({ a with levelIndices := Function.update a.levelIndices idx v } : FlatPriceArray maxTicks).occupied =
      Insert.insert idx a.occupied := by
  ext n
  by_cases hn : n = idx
  · simp [occupied, hn, hidx, hv]
  · simp [occupied, hn]

theorem occupied_free :
    ({ a with levelIndices := Function.update a.levelIndices idx kInvalidPoolIndex } : FlatPriceArray maxTicks).occupied =
      a.occupied \ {idx} := by
  ext n
  by_cases hn : n = idx
  · simp [occupied, hn]
  · simp [occupied, hn]

theorem setIndex_ok (h : a.setIndex idx v b = .ok a') :
    idx < maxTicks ∧ a' = { a with levelIndices := Function.update a.levelIndices idx v } := by
  unfold setIndex at h
  obtain ⟨-, -, h⟩ := Exec.bind_eq_ok.1 h
  split_ifs at h with hlt
  · cases h
    exact ⟨hlt, rfl⟩
  · cases h

/-- **A higher tick becomes the best**; a lower one, or the best itself, leaves it. -/
theorem Tracks.updateBboInsert (h : a.Tracks) (hmax : maxTicks < 2 ^ 32) (hidx : idx < maxTicks) (hv : v ≠ kInvalidPoolIndex) :
    (({ a with levelIndices := Function.update a.levelIndices idx v } : FlatPriceArray maxTicks).updateBboInsert idx).Tracks := by
  right
  unfold FlatPriceArray.updateBboInsert
  rcases h with ⟨hsentinel, hempty⟩ | hgreatest
  · rw [if_pos (Or.inl hsentinel)]
    change IsGreatest (FlatPriceArray.occupied { a with levelIndices := Function.update a.levelIndices idx v }) idx
    rw [occupied_update hidx hv, hempty]
    simp
  · have hsentinel := ne_sentinel hmax hgreatest.1
    have hinsert := hgreatest.insert idx
    rw [← occupied_update hidx hv] at hinsert
    split_ifs with hbetter
    · have hlt : a.bestIdx < idx := of_decide_eq_true (hbetter.resolve_left hsentinel)
      rw [max_eq_left hlt.le] at hinsert
      exact hinsert
    · have hle : idx ≤ a.bestIdx := not_lt.1 fun hlt => hbetter (Or.inr (decide_eq_true hlt))
      rw [max_eq_right hle] at hinsert
      exact hinsert

/-- **The scan finds the highest occupied tick**, by the ticks below `n` so far. -/
theorem rescan_upto (a : FlatPriceArray maxTicks) (n : ℕ) (hn : n ≤ kInvalidPoolIndex.toNat) :
    let best := (List.range n).foldl (fun best i =>
      if a.levelIndices i ≠ kInvalidPoolIndex then
        if best = kInvalidPoolIndex.toNat ∨ isBetter i best then i else best
      else best) kInvalidPoolIndex.toNat
    (best = kInvalidPoolIndex.toNat ∧ ∀ i < n, a.levelIndices i = kInvalidPoolIndex) ∨
      IsGreatest {i | i < n ∧ a.levelIndices i ≠ kInvalidPoolIndex} best := by
  induction n with
  | zero =>
    left
    exact ⟨rfl, fun i hi => absurd hi (Nat.not_lt_zero i)⟩
  | succ n ih =>
    have ih := ih (by omega)
    dsimp only at ih ⊢
    rw [List.range_succ, List.foldl_append, List.foldl_cons, List.foldl_nil]
    generalize (List.range n).foldl _ kInvalidPoolIndex.toNat = best at ih ⊢
    by_cases hfree : a.levelIndices n = kInvalidPoolIndex
    · rw [if_neg (not_not.2 hfree)]
      rcases ih with ⟨hsentinel, hnone⟩ | ⟨⟨hlt, hocc⟩, htop⟩
      · left
        refine ⟨hsentinel, fun i hi => ?_⟩
        rcases Nat.lt_succ_iff_lt_or_eq.1 hi with hi | rfl
        · exact hnone i hi
        · exact hfree
      · right
        refine ⟨⟨hlt.trans (Nat.lt_succ_self n), hocc⟩, ?_⟩
        rintro i ⟨hi, hocc'⟩
        rcases Nat.lt_succ_iff_lt_or_eq.1 hi with hi | rfl
        · exact htop ⟨hi, hocc'⟩
        · exact absurd hfree hocc'
    · -- an occupied tick is above all before it
      rw [if_pos hfree]
      have hbetter : best = kInvalidPoolIndex.toNat ∨ isBetter n best := by
        rcases ih with ⟨hsentinel, -⟩ | ⟨⟨hlt, -⟩, -⟩
        · exact Or.inl hsentinel
        · exact Or.inr (decide_eq_true hlt)
      rw [if_pos hbetter]
      right
      exact ⟨⟨Nat.lt_succ_self n, hfree⟩, fun i hi => Nat.lt_succ_iff.1 hi.1⟩

theorem tracks_rescan (hmax : maxTicks < 2 ^ 32) : ({ a with bestIdx := a.rescan } : FlatPriceArray maxTicks).Tracks := by
  have hinvalid : kInvalidPoolIndex.toNat = 2 ^ 32 - 1 := rfl
  rcases a.rescan_upto maxTicks (by omega) with ⟨hsentinel, hnone⟩ | hgreatest
  · left
    refine ⟨hsentinel, ?_⟩
    ext n
    simp only [Set.mem_empty_iff_false, iff_false]
    exact fun hn => hn.2 (hnone n hn.1)
  · exact Or.inr hgreatest

/-- **Freeing the best tick** looks for the next one; freeing another, or a vacant one, leaves it. -/
theorem Tracks.updateBboRemove (h : a.Tracks) (hmax : maxTicks < 2 ^ 32) (idx : ℕ) :
    (({ a with levelIndices := Function.update a.levelIndices idx kInvalidPoolIndex } : FlatPriceArray maxTicks).updateBboRemove idx).Tracks := by
  unfold FlatPriceArray.updateBboRemove
  split_ifs with hbest
  · exact tracks_rescan hmax
  · unfold Tracks
    rw [occupied_free]
    rcases h with ⟨hsentinel, hempty⟩ | ⟨hmem, htop⟩
    · left
      rw [hempty]
      exact ⟨hsentinel, Set.empty_sdiff _⟩
    · right
      exact ⟨⟨hmem, fun e => hbest e.symm⟩, fun n hn => htop hn.1⟩

/-- What a call of `insert` or `remove` leaves alone. -/
structure SameWindow (a a' : FlatPriceArray maxTicks) : Prop where
  anchor : a'.anchorPrice = a.anchorPrice
  tick : a'.tickSize = a.tickSize

/-- **`insert`**: the tick of the price is occupied, and the best one is the highest again. -/
theorem insert_spec (h : a.insert price v b = .ok a') (hmax : maxTicks < 2 ^ 32) (hv : v ≠ kInvalidPoolIndex) (ht : a.Tracks) :
    a.priceToIndex price < maxTicks ∧ a'.occupied = Insert.insert (a.priceToIndex price) a.occupied ∧ SameWindow a a' ∧ a'.Tracks := by
  unfold FlatPriceArray.insert at h
  obtain ⟨a1, hset, h⟩ := Exec.bind_eq_ok.1 h
  obtain ⟨hidx, rfl⟩ := setIndex_ok hset
  cases h
  refine ⟨hidx, ?_, ?_, ht.updateBboInsert hmax hidx hv⟩
  · rw [← occupied_update hidx hv]
    unfold FlatPriceArray.updateBboInsert
    split_ifs <;> rfl
  · unfold FlatPriceArray.updateBboInsert
    split_ifs <;> exact ⟨rfl, rfl⟩

/-- **`remove`**: the tick of the price is vacant. -/
theorem remove_spec (h : a.remove price b = .ok a') (hmax : maxTicks < 2 ^ 32) (ht : a.Tracks) :
    a.priceToIndex price < maxTicks ∧ a'.occupied = a.occupied \ {a.priceToIndex price} ∧ SameWindow a a' ∧ a'.Tracks := by
  unfold FlatPriceArray.remove at h
  obtain ⟨a1, hset, h⟩ := Exec.bind_eq_ok.1 h
  obtain ⟨hidx, rfl⟩ := setIndex_ok hset
  cases h
  refine ⟨hidx, ?_, ?_, ht.updateBboRemove hmax _⟩
  · rw [← occupied_free]
    unfold FlatPriceArray.updateBboRemove
    split_ifs <;> rfl
  · unfold FlatPriceArray.updateBboRemove
    split_ifs <;> exact ⟨rfl, rfl⟩

/-- The price of a tick inside the window is a price. -/
theorem tick_price_lt (hmax : maxTicks < 2 ^ 32) (hidx : a.priceToIndex price < maxTicks) :
    a.anchorPrice.toNat + a.priceToIndex price * a.tickSize.toNat < 2 ^ 32 := by
  unfold priceToIndex at hidx ⊢
  by_cases hlt : price < a.anchorPrice
  · rw [if_pos hlt] at hidx
    have hsize : sizeMax = 2 ^ 64 - 1 := rfl
    omega
  · have hle : a.anchorPrice ≤ price := UInt32.not_lt.1 hlt
    have hprice := price.toNat_lt
    rw [if_neg hlt, UInt32.toNat_div, UInt32.toNat_sub_of_le _ _ hle]
    have hdiv := Nat.div_mul_le_self (price.toNat - a.anchorPrice.toNat) a.tickSize.toNat
    have hle' := UInt32.le_iff_toNat_le.1 hle
    omega

end FlatPriceArray

/-! ## Runs on a dense array -/

inductive DenseCall where
  | insert (price : UInt32) (levelPoolIdx : Index)
  | remove (price : UInt32)
deriving DecidableEq, Repr

namespace DenseCall

variable {maxTicks : ℕ}

def run (a : FlatPriceArray maxTicks) : DenseCall → Exec (FlatPriceArray maxTicks)
  | insert price levelPoolIdx => a.insert price levelPoolIdx
  | remove price => a.remove price

/-- A level, and a price inside the window. -/
def Admissible (a : FlatPriceArray maxTicks) : DenseCall → Prop
  | insert price levelPoolIdx => levelPoolIdx ≠ kInvalidPoolIndex ∧ a.priceToIndex price < maxTicks
  | remove price => a.priceToIndex price < maxTicks

instance (a : FlatPriceArray maxTicks) : (call : DenseCall) → Decidable (call.Admissible a)
  | insert _ _ => inferInstanceAs (Decidable (_ ∧ _))
  | remove _ => inferInstanceAs (Decidable (_ < _))

/-- The call of a client that looks first. -/
def next (a : FlatPriceArray maxTicks) (call : DenseCall) : Option (FlatPriceArray maxTicks) :=
  Exec.checked (call.Admissible a) (call.run a)

end DenseCall

/-- The calls on an array whose anchor and tick size were set before use. -/
def denseCalls (maxTicks : ℕ) (anchorPrice tickSize : UInt32) : TransitionSystem (FlatPriceArray maxTicks) DenseCall where
  init a := 0 < tickSize ∧ a = FlatPriceArray.new.setAnchor anchorPrice tickSize
  step a call a' := call.Admissible a ∧ ∃ b, call.run a b = .ok a'

theorem DenseCall.next_step {maxTicks : ℕ} {anchorPrice tickSize : UInt32} {a a' : FlatPriceArray maxTicks} {call : DenseCall}
    (h : call.next a = some a') : (denseCalls maxTicks anchorPrice tickSize).step a call a' := by
  obtain ⟨ha, hrun⟩ := Exec.checked_eq_some.1 h
  exact ⟨ha, .debug, hrun⟩

namespace FlatPriceArray

variable {maxTicks : ℕ} {a a' : FlatPriceArray maxTicks} {anchorPrice tickSize : UInt32} {call : DenseCall} {calls : List DenseCall}

/-- No call inside the window fails its assertion or leaves the array. -/
theorem call_returns (ha : call.Admissible a) : ∃ a', call.run a = pure a' := by
  cases call with
  | insert price v =>
    obtain ⟨-, hidx⟩ := ha
    unfold DenseCall.run FlatPriceArray.insert setIndex
    simp only [hidx, decide_true, tradecoreAssert_true, pure_bind, if_true]
    exact ⟨_, rfl⟩
  | remove price =>
    have hidx : a.priceToIndex price < maxTicks := ha
    unfold DenseCall.run FlatPriceArray.remove setIndex
    simp only [hidx, decide_true, tradecoreAssert_true, pure_bind, if_true]
    exact ⟨_, rfl⟩

/-- The best tick is tracked, and every occupied tick has a price. -/
structure DenseInv (anchorPrice tickSize : UInt32) (a : FlatPriceArray maxTicks) : Prop where
  tracks : a.Tracks
  anchor : a.anchorPrice = anchorPrice
  tick : a.tickSize = tickSize
  fits : ∀ n ∈ a.occupied, anchorPrice.toNat + n * tickSize.toNat < 2 ^ 32

theorem DenseInv.step (h : a.DenseInv anchorPrice tickSize) (hmax : maxTicks < 2 ^ 32) (ha : call.Admissible a) {b : Build}
    (hrun : call.run a b = .ok a') : a'.DenseInv anchorPrice tickSize := by
  cases call with
  | insert price v =>
    obtain ⟨hidx, hocc, hsame, htracks⟩ := insert_spec hrun hmax ha.1 h.tracks
    refine ⟨htracks, hsame.anchor.trans h.anchor, hsame.tick.trans h.tick, fun n hn => ?_⟩
    rw [hocc] at hn
    rcases hn with rfl | hn
    · have := tick_price_lt hmax hidx
      rwa [h.anchor, h.tick] at this
    · exact h.fits n hn
  | remove price =>
    obtain ⟨-, hocc, hsame, htracks⟩ := remove_spec hrun hmax h.tracks
    refine ⟨htracks, hsame.anchor.trans h.anchor, hsame.tick.trans h.tick, fun n hn => ?_⟩
    rw [hocc] at hn
    exact h.fits n hn.1

theorem denseInv_trace (hmax : maxTicks < 2 ^ 32) (h : (denseCalls maxTicks anchorPrice tickSize).Trace calls a) :
    a.DenseInv anchorPrice tickSize := by
  refine h.invariant (fun _ a => a.DenseInv anchorPrice tickSize) ?_ ?_
  · rintro a ⟨-, rfl⟩
    refine ⟨tracks_new, rfl, rfl, fun n hn => ?_⟩
    exact absurd rfl hn.2
  · rintro calls a call a' hinv ⟨ha, b, hrun⟩
    exact hinv.step hmax ha hrun

/-- **`best_index`**: the level at the highest occupied tick. -/
theorem Tracks.bestIndex (h : a.Tracks) (hmax : maxTicks < 2 ^ 32) :
    (a.bestIndex = kInvalidPoolIndex ↔ a.occupied = ∅) ∧ ∀ n, IsGreatest a.occupied n → a.bestIndex = a.levelIndices n := by
  unfold FlatPriceArray.bestIndex
  rcases h with ⟨hsentinel, hempty⟩ | hgreatest
  · rw [if_pos hsentinel]
    refine ⟨iff_of_true rfl hempty, fun n hn => ?_⟩
    rw [hempty] at hn
    exact absurd hn.1 (Set.notMem_empty n)
  · rw [if_neg (ne_sentinel hmax hgreatest.1)]
    refine ⟨iff_of_false hgreatest.1.2 ?_, fun n hn => ?_⟩
    · exact Set.nonempty_iff_ne_empty.1 ⟨_, hgreatest.1⟩
    · rw [hgreatest.unique hn]

/-- **`best_price`**: the price of that tick. -/
theorem DenseInv.bestPrice (h : a.DenseInv anchorPrice tickSize) (hmax : maxTicks < 2 ^ 32) {n : ℕ} (hn : IsGreatest a.occupied n) :
    a.bestPrice.toNat = anchorPrice.toNat + n * tickSize.toNat := by
  have hbest : a.bestIdx = n := by
    rcases h.tracks with ⟨-, hempty⟩ | hgreatest
    · rw [hempty] at hn
      exact absurd hn.1 (Set.notMem_empty n)
    · exact hgreatest.unique hn
  unfold FlatPriceArray.bestPrice
  rw [hbest, if_neg (ne_sentinel hmax hn.1), h.anchor, h.tick]
  exact Nat.mod_eq_of_lt (h.fits n hn.1)

end FlatPriceArray

/-! ## On a bid side -/

variable {cap : PoolCapacity}

namespace BookSide.SideTree

variable {s : BookSide} {pool : PriceLevelPool cap} {is : List Index} {i : Index} {n : ℕ}

/-- The tick of a level holds it. -/
theorem tick_eq (h : s.SideTree pool is) (hi : i ∈ is) : s.denseLevels.levelIndices (pool.priceOf i) = i := by
  rcases h.ticks _ (h.window i hi) with ⟨j, hj, hprice, htick⟩ | ⟨hnone, -⟩
  · rw [htick, h.price_inj hj hi hprice]
  · exact absurd rfl (hnone i hi)

/-- The occupied ticks are the prices of the levels. -/
theorem mem_occupied (h : s.SideTree pool is) : n ∈ s.denseLevels.occupied ↔ ∃ i ∈ is, pool.priceOf i = n := by
  constructor
  · rintro ⟨hn, hocc⟩
    rcases h.ticks n hn with ⟨i, hi, hprice, -⟩ | ⟨-, hfree⟩
    · exact ⟨i, hi, hprice⟩
    · exact absurd hfree hocc
  · rintro ⟨i, hi, rfl⟩
    refine ⟨h.window i hi, ?_⟩
    rw [h.tick_eq hi]
    exact (h.valid i hi).ne_invalid

/-- **The best of the dense array is the best of the tree**, for bids. -/
theorem bestIndex_eq (h : s.SideTree pool is) (hside : s.side = 0) (ht : s.denseLevels.Tracks) :
    s.denseLevels.bestIndex = s.bboIdx := by
  obtain ⟨hnone, hbest⟩ := ht.bestIndex (by norm_num)
  rw [h.bbo]
  unfold bestOf
  rw [if_pos hside]
  rcases List.eq_nil_or_concat is with rfl | ⟨L, k, rfl⟩
  · refine hnone.2 ?_
    ext n
    simp [h.mem_occupied]
  · have hk : k ∈ L.concat k := by simp
    have hgreatest : IsGreatest s.denseLevels.occupied (pool.priceOf k) := by
      refine ⟨h.mem_occupied.2 ⟨k, hk, rfl⟩, fun n hn => ?_⟩
      obtain ⟨i, hi, rfl⟩ := h.mem_occupied.1 hn
      have hsorted := h.sorted
      rw [List.concat_eq_append] at hsorted hi
      rcases List.mem_append.1 hi with hi | hi
      · exact ((List.pairwise_append.1 hsorted).2.2 i hi k (by simp)).le
      · rw [List.mem_singleton.1 hi]
    rw [hbest _ hgreatest, h.tick_eq hk, List.concat_eq_append, List.getLast?_concat, Option.getD_some]

end BookSide.SideTree

variable {u u' : SideUse cap} {side : UInt8}

theorem SideUse.tracks_step {label : Option SideCall} (h : u.side.denseLevels.Tracks) (hstep : u.Step label u') :
    u'.side.denseLevels.Tracks := by
  cases hstep with
  | @call _ c b ha hrun =>
    cases c with
    | insert idx =>
      obtain ⟨hv, -⟩ := ha
      obtain ⟨hcall, -⟩ := SideCall.run_insert_ok hrun
      obtain ⟨hdense, -⟩ := insertLevel_ok hcall
      obtain ⟨-, -, -, htracks⟩ := FlatPriceArray.insert_spec hdense (by norm_num) hv.ne_invalid h
      exact htracks
    | remove idx =>
      obtain ⟨hcall, -⟩ := SideCall.run_remove_ok hrun
      obtain ⟨hdense, -⟩ := removeLevel_ok hcall
      obtain ⟨-, -, -, htracks⟩ := FlatPriceArray.remove_spec hdense (by norm_num) h
      exact htracks
  | other hframe hcounts => exact h

/-- The dense array of a side tracks its best tick in every run. -/
theorem SideUse.tracks {calls : List (Option SideCall)} (h : (sideCalls cap side).Trace calls u) : u.side.denseLevels.Tracks := by
  refine h.invariant (fun _ u => u.side.denseLevels.Tracks) ?_ ?_
  · rintro u ⟨pool, rfl⟩
    exact FlatPriceArray.tracks_new
  · intro calls u label u' htracks hstep
    exact SideUse.tracks_step htracks hstep

/-- **The dense array keeps its best tick**, and on a bid side it agrees with the tree about the best level. -/
theorem dense_best_tracked :
    (∀ (maxTicks : ℕ) (anchorPrice tickSize : UInt32) (calls : List DenseCall) (a : FlatPriceArray maxTicks), maxTicks < 2 ^ 32 →
      (denseCalls maxTicks anchorPrice tickSize).Trace calls a →
      (a.bestIndex = kInvalidPoolIndex ↔ a.occupied = ∅) ∧
        ∀ n, IsGreatest a.occupied n →
          a.bestIndex = a.levelIndices n ∧ a.bestPrice.toNat = anchorPrice.toNat + n * tickSize.toNat) ∧
    ∀ (cap : PoolCapacity) (calls : List (Option SideCall)) (u : SideUse cap),
      (sideCalls cap 0).Trace calls u → u.side.denseLevels.bestIndex = u.side.bboIdx := by
  constructor
  · intro maxTicks anchorPrice tickSize calls a hmax h
    have hinv := FlatPriceArray.denseInv_trace hmax h
    obtain ⟨hnone, hbest⟩ := hinv.tracks.bestIndex hmax
    exact ⟨hnone, fun n hn => ⟨hbest n hn, hinv.bestPrice hmax hn⟩⟩
  · intro cap calls u h
    obtain ⟨is, hok⟩ := SideUse.ok_of_trace h
    exact hok.tree.bestIndex_eq hok.side (SideUse.tracks h)

/-- The ticks that are taken, one after another. -/
def FlatPriceArray.ticks {maxTicks : ℕ} (a : FlatPriceArray maxTicks) : List ℕ :=
  (List.range maxTicks).filter fun n => a.levelIndices n ≠ kInvalidPoolIndex

theorem FlatPriceArray.mem_ticks {maxTicks n : ℕ} {a : FlatPriceArray maxTicks} : n ∈ a.ticks ↔ n ∈ a.occupied := by
  simp [ticks, occupied]

/-- Three levels in an array anchored at 1000 with ticks of 5, the best of which goes. -/
def tickCalls : List DenseCall := [.insert 1012 7, .insert 1100 8, .insert 1050 9, .remove 1100]

theorem dense_best_tracked_ticks :
    (∃ a, (denseCalls 32 1000 5).Trace tickCalls a ∧ IsGreatest a.occupied 10 ∧ a.bestIndex = 9 ∧ a.bestPrice.toNat = 1050) ∧
      ∃ u, (sideCalls threeLevels 0).Trace allAtOnce u ∧ u.present = {0, 2} ∧ u.side.denseLevels.bestIndex = u.side.bboIdx ∧
        u.side.bboIdx = 2 := by
  have hticks : (tickCalls.foldlM DenseCall.next ((FlatPriceArray.new : FlatPriceArray 32).setAnchor 1000 5)).map
      (fun a => (a.ticks, a.levelIndices 10)) = some ([2, 10], 9) := by decide +kernel
  have hbids : (allAtOnce.foldlM SideCall.next noneInserted).map (fun u => (u.present, u.side.bboIdx)) = some ({0, 2}, 2) := by
    decide +kernel
  obtain ⟨a, ha, hseen⟩ := Option.map_eq_some_iff.1 hticks
  obtain ⟨u, hu, hseen'⟩ := Option.map_eq_some_iff.1 hbids
  obtain ⟨htaken, hten⟩ := Prod.mk.inj hseen
  obtain ⟨hpresent, hbest⟩ := Prod.mk.inj hseen'
  have hgreatest : IsGreatest a.occupied 10 := by
    constructor
    · rw [← FlatPriceArray.mem_ticks, htaken]
      decide
    · intro n hn
      rw [← FlatPriceArray.mem_ticks, htaken] at hn
      revert n
      decide
  have htrace : (denseCalls 32 1000 5).Trace tickCalls a :=
    TransitionSystem.Trace.foldlM (fun _ _ _ => DenseCall.next_step) (.init ⟨by decide, rfl⟩) ha
  obtain ⟨hdense, hside⟩ := dense_best_tracked
  obtain ⟨hindex, hprice⟩ := (hdense 32 1000 5 tickCalls a (by norm_num) htrace).2 10 hgreatest
  exact ⟨⟨a, htrace, hgreatest, hindex.trans hten, hprice⟩, u, noneInserted_trace hu, hpresent,
    hside threeLevels allAtOnce u (noneInserted_trace hu), hbest⟩

end TradeCore
