import TradeCore.Lib.Traces
import TradeCore.Orderbook.BookSideRuns
/-!
# Runs of the level calls on one side

The client of a side holds the slots that `create_level` gave it, inserts them when it likes, and removes levels by
their slot, so slots are freed and taken again in any order. A level it inserts has a price inside the dense window
that no level present has, as `add_order` sees to.

After every such call the cached best level is the extremum of the tree (`bbo_is_best`), and the dense array
and the tree answer alike (`findByPrice_eq_find`).
-/

namespace TradeCore

open ObjectPool BookSide

variable {cap : PoolCapacity}

/-- A side, and what its client holds: the slots created and not inserted yet, and the levels present. -/
structure LevelClient (cap : PoolCapacity) extends SideState cap where
  created : Finset Index
  present : Finset Index

def LevelClient.new (side : UInt8) (slots : Index → PriceLevel) : LevelClient cap := ⟨SideState.new side slots, ∅, ∅⟩

inductive LevelCall where
  | create (price : UInt32)
  | insert (idx : Index)
  | removeAndDestroy (idx : Index)
deriving DecidableEq, Repr

namespace LevelCall

/-- `kInvalidPoolIndex` from a full pool is no level. -/
def run (c : LevelClient cap) : LevelCall → Exec (LevelClient cap)
  | create price => do
    let (idx, pool) ← c.side.createLevel price c.pool
    return { c with
      pool := pool
      created := if idx = kInvalidPoolIndex then c.created else Insert.insert idx c.created }
  | insert idx => do
    let (side, pool, stats) ← c.side.insertLevel idx c.pool c.stats
    return ⟨⟨side, pool, stats⟩, c.created.erase idx, Insert.insert idx c.present⟩
  | removeAndDestroy idx => do
    let (side, pool, stats) ← c.side.removeAndDestroyLevel idx c.pool c.stats
    return ⟨⟨side, pool, stats⟩, c.created, c.present.erase idx⟩

/-- What the callers see to: an inserted level is a created one, its price is inside the window and not on the side;
a removed level is on the side. -/
def Admissible (c : LevelClient cap) : LevelCall → Prop
  | create _ => True
  | insert idx => idx ∈ c.created ∧ (c.pool.slots idx).price.toNat < 10000 ∧
      ∀ j ∈ c.present, (c.pool.slots j).price ≠ (c.pool.slots idx).price
  | removeAndDestroy idx => idx ∈ c.present

instance (c : LevelClient cap) : (call : LevelCall) → Decidable (call.Admissible c)
  | create _ => inferInstanceAs (Decidable True)
  | insert idx =>
    letI : Decidable (∀ j ∈ c.present, (c.pool.slots j).price ≠ (c.pool.slots idx).price) := Finset.decidableDforallFinset
    inferInstanceAs (Decidable (_ ∧ _ ∧ _))
  | removeAndDestroy _ => inferInstanceAs (Decidable (_ ∈ _))

/-- The call of a client that looks first. -/
def next (c : LevelClient cap) (call : LevelCall) : Option (LevelClient cap) := Exec.checked (call.Admissible c) (call.run c)

end LevelCall

/-- The runs of a client on a fresh side over a fresh pool, in either build. -/
def levelRuns (cap : PoolCapacity) (side : UInt8) : TransitionSystem (LevelClient cap) LevelCall where
  init c := ∃ slots, c = LevelClient.new side slots
  step c call c' := call.Admissible c ∧ ∃ b, call.run c b = .ok c'

/-- The levels of the side are `is`, by increasing price. -/
structure LevelClient.Ok (c : LevelClient cap) (side : UInt8) (is : List Index) : Prop where
  levels : LevelsOk c.side c.pool c.created is
  present : c.present = is.toFinset
  side : c.side.side = side

namespace LevelClient

variable {c : LevelClient cap} {side : UInt8} {is : List Index} {call : LevelCall} {calls : List LevelCall}

theorem ok_new (side : UInt8) (slots : Index → PriceLevel) : (LevelClient.new side slots : LevelClient cap).Ok side [] :=
  ⟨LevelsOk.new side slots, rfl, rfl⟩

namespace Ok

theorem mem_present (h : c.Ok side is) {i : Index} : i ∈ c.present ↔ i ∈ is := by
  rw [h.present, List.mem_toFinset]

/-- **One call** returns, in either build, and leaves a side in order. -/
theorem step (h : c.Ok side is) (ha : call.Admissible c) : ∃ c' is', call.run c = pure c' ∧ c'.Ok side is' := by
  cases call with
  | create price =>
    rcases lt_or_eq_of_le h.levels.slots.card_le with hfree | hfull
    · obtain ⟨i, pool', e, hlevels, hv, -, -, -⟩ := h.levels.create hfree price
      refine ⟨⟨⟨c.side, pool', c.stats⟩, Insert.insert i c.created, c.present⟩, is, ?_, hlevels, h.present, h.side⟩
      simp only [LevelCall.run, e, pure_bind, if_neg hv.ne_invalid]
    · refine ⟨c, is, ?_, h⟩
      simp only [LevelCall.run, createLevel_full h.levels.slots hfull, pure_bind, if_true]
  | insert idx =>
    obtain ⟨hc, hw, hp⟩ := ha
    obtain ⟨side', pool', stats', is', e, hlevels, hmem, hside, -⟩ :=
      h.levels.insert hc hw (fun j hj => hp j (h.mem_present.2 hj)) c.stats
    refine ⟨⟨⟨side', pool', stats'⟩, c.created.erase idx, Insert.insert idx c.present⟩, is', ?_, hlevels, ?_,
      hside.trans h.side⟩
    · simp only [LevelCall.run, e, pure_bind]
    ext j
    rw [Finset.mem_insert, h.mem_present, List.mem_toFinset, hmem]
  | removeAndDestroy idx =>
    obtain ⟨side', pool', stats', is', e, hlevels, hmem, hside, -⟩ :=
      h.levels.removeAndDestroy (h.mem_present.1 ha) c.stats
    refine ⟨⟨⟨side', pool', stats'⟩, c.created, c.present.erase idx⟩, is', ?_, hlevels, ?_, hside.trans h.side⟩
    · simp only [LevelCall.run, e, pure_bind]
    ext j
    rw [Finset.mem_erase, h.mem_present, List.mem_toFinset, hmem]

end Ok

/-- **Every run** leaves the side in order. -/
theorem ok_of_trace (h : (levelRuns cap side).Trace calls c) : ∃ is, c.Ok side is := by
  refine h.invariant (fun _ c => ∃ is, c.Ok side is) ?_ ?_
  · rintro c ⟨slots, rfl⟩
    exact ⟨[], ok_new side slots⟩
  · rintro calls c call c' ⟨is, hok⟩ ⟨ha, b, hrun⟩
    obtain ⟨c1, is', e, hok'⟩ := hok.step ha
    rw [e, Exec.pure_apply] at hrun
    cases hrun
    exact ⟨is', hok'⟩

/-- No admissible call of a run fails an assertion, faults or loops. -/
theorem call_returns (h : (levelRuns cap side).Trace calls c) (ha : call.Admissible c) : ∃ c', call.run c = pure c' := by
  obtain ⟨is, hok⟩ := ok_of_trace h
  obtain ⟨c', -, e, -⟩ := hok.step ha
  exact ⟨c', e⟩

end LevelClient

theorem LevelCall.next_step {side : UInt8} {c c' : LevelClient cap} {call : LevelCall} (h : call.next c = some c') :
    (levelRuns cap side).step c call c' := by
  obtain ⟨ha, hrun⟩ := Exec.checked_eq_some.1 h
  exact ⟨ha, .debug, hrun⟩

/-- Room for three levels. -/
def threeLevels : PoolCapacity := ⟨3, by decide, by decide⟩

/-- A fresh bid side. -/
def freshBids : LevelClient cap := LevelClient.new 0 fun _ => PriceLevel.zero

/-- Room for five levels. -/
def fiveLevels : PoolCapacity := ⟨5, by decide, by decide⟩

/-- Four bids, the third of which turns the tree; the root, with a child on either side, goes, and its slot is taken again for
another price. -/
def bidCalls : List LevelCall :=
  [.create 100, .create 200, .create 300, .create 50, .insert 0, .insert 1, .insert 2, .insert 3, .removeAndDestroy 1, .create 250,
    .insert 1, .removeAndDestroy 2]

/-- Three levels are left, the best of them in the slot that was taken again. -/
theorem bidCalls_trace : ∃ c, (levelRuns fiveLevels 0).Trace bidCalls c ∧ c.present = {0, 1, 3} ∧
    ([0, 1, 3].map fun i => (c.pool.slots i).price) = [100, 250, 50] ∧ c.side.bboIdx = 1 ∧
      c.stats.rrRotations = 1 ∧ c.stats.llRotations = 1 := by
  have hrun : (bidCalls.foldlM LevelCall.next (freshBids : LevelClient fiveLevels)).map (fun c =>
      (c.present, [0, 1, 3].map fun i => (c.pool.slots i).price, c.side.bboIdx, c.stats.rrRotations, c.stats.llRotations)) =
      some ({0, 1, 3}, [100, 250, 50], 1, 1, 1) := by decide +kernel
  obtain ⟨c, hc, hseen⟩ := Option.map_eq_some_iff.1 hrun
  simp only [Prod.mk.injEq] at hseen
  exact ⟨c, TransitionSystem.Trace.foldlM (fun _ _ _ => LevelCall.next_step) (.init ⟨_, rfl⟩) hc, hseen⟩

/-! ## The cached best level -/

/-- The price of `i` is no better than that of `best`, for bids (`side` 0) or asks. -/
def NoBetter (pool : PriceLevelPool cap) (side : UInt8) (i best : Index) : Prop :=
  if side = 0 then (pool.slots i).price ≤ (pool.slots best).price else (pool.slots best).price ≤ (pool.slots i).price

/-- The cached level of a side that is not empty has an extreme price. -/
theorem BookSide.SideTree.bbo_extreme {s : BookSide} {pool : PriceLevelPool cap} {is : List Index}
    (h : s.SideTree pool is) (hne : is ≠ []) :
    s.bboIdx ∈ is ∧ ∀ i ∈ is, NoBetter pool s.side i s.bboIdx := by
  have hs := h.sorted
  rw [h.bbo]
  unfold bestOf NoBetter
  split_ifs with hside
  · obtain ⟨L, k, rfl⟩ := (List.eq_nil_or_concat is).resolve_left hne
    rw [List.concat_eq_append] at hs ⊢
    rw [List.getLast?_concat, Option.getD_some]
    refine ⟨by simp, fun i hi => ?_⟩
    rcases List.mem_append.1 hi with hi | hi
    · exact UInt32.le_of_lt (UInt32.lt_iff_toNat_lt.2 ((List.pairwise_append.1 hs).2.2 i hi k (by simp)))
    · rw [List.mem_singleton.1 hi]
      exact UInt32.le_refl _
  · obtain ⟨k, R, rfl⟩ := List.exists_cons_of_ne_nil hne
    rw [List.head?_cons, Option.getD_some]
    refine ⟨by simp, fun i hi => ?_⟩
    rcases List.mem_cons.1 hi with rfl | hi
    · exact UInt32.le_refl _
    · exact UInt32.le_of_lt (UInt32.lt_iff_toNat_lt.2 ((List.pairwise_cons.1 hs).1 i hi))

/-- **The best-price cache.** After every run `bbo_idx` is `kInvalidPoolIndex` exactly when the side is empty, and
otherwise the level present with the highest (bids) or lowest (asks) price; it is what `find_max` or `find_min`
gives for the current root, and `level_count` counts the levels present. -/
theorem bbo_is_best {side : UInt8} {calls : List LevelCall} {c : LevelClient cap} (h : (levelRuns cap side).Trace calls c) :
    (c.side.bboIdx = kInvalidPoolIndex ↔ c.present = ∅) ∧
      (c.present.Nonempty → c.side.bboIdx ∈ c.present ∧ ∀ i ∈ c.present, NoBetter c.pool side i c.side.bboIdx) ∧
      (if side = 0 then avl.findMax c.pool c.side.avlRoot else avl.findMin c.pool c.side.avlRoot) = pure c.side.bboIdx ∧
      c.side.levelCount = c.present.card := by
  obtain ⟨is, hok⟩ := LevelClient.ok_of_trace h
  have htree := hok.levels.tree
  have hbest : is ≠ [] → c.side.bboIdx ∈ is ∧ ∀ i ∈ is, NoBetter c.pool side i c.side.bboIdx := by
    intro hne
    have := htree.bbo_extreme hne
    rwa [hok.side] at this
  obtain ⟨t, ht, rfl, -⟩ := htree.tree
  have hempty : c.present = ∅ ↔ t.toList = [] := by rw [hok.present, List.toFinset_eq_empty_iff]
  refine ⟨?_, fun hne => ?_, ?_, ?_⟩
  · rw [hempty]
    constructor
    · intro e
      by_contra hne
      exact (htree.valid _ (hbest hne).1).ne_invalid e
    · intro e
      rw [htree.bbo, e]
      unfold bestOf
      split <;> rfl
  · obtain ⟨hmem, hle⟩ := hbest fun e => hne.ne_empty (hempty.2 e)
    exact ⟨hok.mem_present.2 hmem, fun i hi => hle i (hok.mem_present.1 hi)⟩
  · rw [htree.bbo, hok.side]
    exact SideTree.best_of_tree ht htree.nodup side
  · rw [htree.count, hok.present, List.toFinset_card_of_nodup htree.nodup]

theorem bbo_is_best_bids : ∃ c, (levelRuns fiveLevels 0).Trace bidCalls c ∧ c.present = {0, 1, 3} ∧ c.side.bboIdx = 1 ∧
    (∀ i ∈ c.present, (c.pool.slots i).price ≤ (c.pool.slots 1).price) ∧ c.side.levelCount = 3 := by
  obtain ⟨c, h, hpresent, -, hbest, -⟩ := bidCalls_trace
  obtain ⟨-, hmem, -, hcount⟩ := bbo_is_best h
  rw [hpresent, hbest] at hmem
  rw [hpresent] at hcount
  refine ⟨c, h, hpresent, hbest, ?_, hcount⟩
  rw [hpresent]
  exact (hmem ⟨0, by decide⟩).2

/-! ## The dense array against the tree -/

/-- **The dense fast path agrees with the tree**: for every price, inside the window or not, `find_by_price` gives what
`find` gives for the current root, the level present with that price, or `kInvalidPoolIndex` when there is none. -/
theorem findByPrice_eq_find {side : UInt8} {calls : List LevelCall} {c : LevelClient cap}
    (h : (levelRuns cap side).Trace calls c) (price : UInt32) :
    c.side.findByPrice c.pool price = avl.find c.pool c.side.avlRoot price ∧
      ((∃ i ∈ c.present, (c.pool.slots i).price = price ∧ c.side.findByPrice c.pool price = pure i) ∨
        (∀ i ∈ c.present, (c.pool.slots i).price ≠ price) ∧ c.side.findByPrice c.pool price = pure kInvalidPoolIndex) := by
  obtain ⟨is, hok⟩ := LevelClient.ok_of_trace h
  have htree := hok.levels.tree
  by_cases hp : ∃ i ∈ is, (c.pool.slots i).price = price
  · obtain ⟨i, hi, rfl⟩ := hp
    refine ⟨?_, Or.inl ⟨i, hok.mem_present.2 hi, rfl, htree.find_mem hi⟩⟩
    rw [htree.find_mem hi, htree.avl_find_mem hi]
  · have hnone : ∀ i ∈ is, (c.pool.slots i).price ≠ price := fun i hi e => hp ⟨i, hi, e⟩
    refine ⟨?_, Or.inr ⟨fun i hi => hnone i (hok.mem_present.1 hi), htree.find_none hnone⟩⟩
    rw [htree.find_none hnone, htree.avl_find_none hnone]

/-- A price that is present, and one that was. -/
theorem findByPrice_eq_find_bids : ∃ c, (levelRuns fiveLevels 0).Trace bidCalls c ∧
    (∀ price, c.side.findByPrice c.pool price = avl.find c.pool c.side.avlRoot price) ∧ c.side.findByPrice c.pool 250 = pure 1 ∧
      c.side.findByPrice c.pool 200 = pure kInvalidPoolIndex := by
  obtain ⟨c, h, hpresent, hprices, -⟩ := bidCalls_trace
  simp only [List.map_cons, List.map_nil, List.cons.injEq, and_true] at hprices
  obtain ⟨h0, h1, h3⟩ := hprices
  have hslot : ∀ i ∈ c.present, i = 0 ∨ i = 1 ∨ i = 3 := by simp [hpresent]
  refine ⟨c, h, fun price => (findByPrice_eq_find h price).1, ?_, ?_⟩
  · rcases (findByPrice_eq_find h 250).2 with ⟨i, hi, hp, e⟩ | ⟨hnone, -⟩
    · rcases hslot i hi with rfl | rfl | rfl
      · exact absurd (h0.symm.trans hp) (by decide)
      · exact e
      · exact absurd (h3.symm.trans hp) (by decide)
    · exact absurd h1 (hnone 1 (by rw [hpresent]; decide))
  · rcases (findByPrice_eq_find h 200).2 with ⟨i, hi, hp, -⟩ | ⟨-, e⟩
    · rcases hslot i hi with rfl | rfl | rfl
      · exact absurd (h0.symm.trans hp) (by decide)
      · exact absurd (h1.symm.trans hp) (by decide)
      · exact absurd (h3.symm.trans hp) (by decide)
    · exact e

end TradeCore
