import TradeCore.Lib.LinkedList
import TradeCore.Memory.ObjectPool
/-!
# The free list of `ObjectPool`

`PoolOk pool used`: the slots `used` are allocated, and the free list runs through all the others, each
once. `allocate` takes a slot off the list, `deallocate` puts one back, and whatever is written to
allocated slots leaves the list alone, since its links lie in free slots.
-/

namespace TradeCore

open LinkedList

namespace ObjectPool

variable {α : Type} [Overlay α] {cap : PoolCapacity}

/-- The free-list link of a slot. -/
def link (pool : ObjectPool α cap) (i : Index) : Index := Overlay.nextFree (pool.slots i)

structure PoolOk (pool : ObjectPool α cap) (used : Finset Index) : Prop where
  list : ∃ free : List Index, Path pool.link pool.freeHead free kInvalidPoolIndex ∧ free.Nodup ∧
    ∀ i, i ∈ free ↔ Valid cap i ∧ i ∉ used
  valid : ∀ i ∈ used, Valid cap i
  count : pool.activeCount = used.card

variable {pool pool' : ObjectPool α cap} {used : Finset Index} {i : Index}

/-- Writes to allocated slots. -/
theorem PoolOk.congr (h : pool.PoolOk used) (hh : pool'.freeHead = pool.freeHead) (hc : pool'.activeCount = pool.activeCount)
    (hs : ∀ j, j ∉ used → pool'.slots j = pool.slots j) : pool'.PoolOk used := by
  obtain ⟨free, hp, hnd, hmem⟩ := h.list
  refine ⟨⟨free, ?_, hnd, hmem⟩, h.valid, hc.trans h.count⟩
  rw [hh]
  refine hp.congr fun j hj => ?_
  unfold link
  rw [hs j ((hmem j).1 hj).2]

theorem PoolOk.modify (h : pool.PoolOk used) (hi : i ∈ used) (f : α → α) : (pool.modify i f).PoolOk used :=
  h.congr rfl rfl fun j hj => modify_slots_of_ne pool (fun e : j = i => hj (by rwa [e])) f

theorem toNat_ofNat_slot {n : ℕ} (h : n < cap.size) : (UInt32.ofNat n).toNat = n :=
  UInt32.toNat_ofNat_of_lt' (lt_trans h cap.lt)

/-- All slots, as a set. -/
def allSlots (cap : PoolCapacity) : Finset Index := (Finset.range cap.size).image UInt32.ofNat

theorem mem_allSlots : i ∈ allSlots cap ↔ Valid cap i := by
  simp only [allSlots, Finset.mem_image, Finset.mem_range]
  constructor
  · rintro ⟨n, hn, rfl⟩
    unfold Valid
    rw [toNat_ofNat_slot hn]
    exact hn
  · intro hv
    exact ⟨i.toNat, hv, UInt32.ofNat_toNat⟩

theorem card_allSlots (cap : PoolCapacity) : (allSlots cap).card = cap.size := by
  unfold allSlots
  rw [Finset.card_image_of_injOn, Finset.card_range]
  intro a ha b hb e
  simp only [Finset.coe_range, Set.mem_Iio] at ha hb
  have := congrArg UInt32.toNat e
  rwa [toNat_ofNat_slot ha, toNat_ofNat_slot hb] at this

theorem PoolOk.card_le (h : pool.PoolOk used) : used.card ≤ cap.size := by
  rw [← card_allSlots cap]
  exact Finset.card_le_card fun i hi => mem_allSlots.2 (h.valid i hi)

/-- A slot is free when fewer than `Capacity` slots are in use. -/
theorem exists_free_slot (hlt : used.card < cap.size) : ∃ i, Valid cap i ∧ i ∉ used := by
  rw [← card_allSlots cap] at hlt
  obtain ⟨i, hi, hu⟩ := Finset.exists_mem_notMem_of_card_lt_card hlt
  exact ⟨i, mem_allSlots.1 hi, hu⟩

/-- **`allocate`** while a slot is free. -/
theorem PoolOk.allocate_ok (h : pool.PoolOk used) (hlt : used.card < cap.size) (init : α) :
    ∃ i pool', pool.allocate init = pure (some i, pool') ∧ Valid cap i ∧ i ∉ used ∧ pool'.PoolOk (insert i used) ∧
      pool'.slots = Function.update pool.slots i init := by
  obtain ⟨free, hp, hnd, hmem⟩ := h.list
  obtain ⟨j, hj⟩ := exists_free_slot hlt
  match free, hp, hnd, hmem with
  | [], _, _, hmem => cases (hmem j).2 hj
  | i :: free, ⟨hi, hp⟩, hnd, hmem =>
    obtain ⟨hv, hu⟩ := (hmem i).1 List.mem_cons_self
    obtain ⟨hif, hnd⟩ := List.nodup_cons.1 hnd
    have hv' : i.toNat < cap.size := hv
    have hne : i ≠ kInvalidPoolIndex := hv.ne_invalid
    refine ⟨i, ⟨Function.update pool.slots i init, Overlay.nextFree (pool.slots i), pool.activeCount + 1⟩, ?_, hv, hu,
      ⟨⟨free, ?_, hnd, ?_⟩, ?_, ?_⟩, rfl⟩
    · unfold allocate
      simp [hi, hne, hv']
    · refine hp.congr fun k hk => ?_
      have hki : k ≠ i := fun e => hif (e ▸ hk)
      simp [link, hki]
    · intro k
      rw [Finset.mem_insert, not_or]
      constructor
      · intro hk
        obtain ⟨h1, h2⟩ := (hmem k).1 (List.mem_cons_of_mem i hk)
        exact ⟨h1, fun e => hif (e ▸ hk), h2⟩
      · rintro ⟨h1, h2, h3⟩
        exact (List.mem_cons.1 ((hmem k).2 ⟨h1, h3⟩)).resolve_left h2
    · intro k hk
      rcases Finset.mem_insert.1 hk with rfl | hk
      · exact hv
      · exact h.valid k hk
    · rw [Finset.card_insert_of_notMem hu, h.count]

/-- **`allocate`** with every slot in use. -/
theorem PoolOk.allocate_full (h : pool.PoolOk used) (hfull : used.card = cap.size) (init : α) :
    pool.allocate init = pure (none, pool) := by
  obtain ⟨free, hp, -, hmem⟩ := h.list
  have hall : used = allSlots cap := by
    refine Finset.eq_of_subset_of_card_le (fun i hi => mem_allSlots.2 (h.valid i hi)) ?_
    rw [card_allSlots, hfull]
  match free, hp, hmem with
  | [], hp, _ =>
    unfold allocate
    rw [if_pos (show pool.freeHead = kInvalidPoolIndex from hp)]
  | i :: free, _, hmem =>
    obtain ⟨hv, hu⟩ := (hmem i).1 List.mem_cons_self
    rw [hall] at hu
    exact absurd (mem_allSlots.2 hv) hu

/-- **`deallocate`** of a slot in use. -/
theorem PoolOk.deallocate_ok (h : pool.PoolOk used) (hi : i ∈ used) :
    ∃ pool', pool.deallocate i = pure pool' ∧ pool'.PoolOk (used.erase i) ∧ ∀ j, j ≠ i → pool'.slots j = pool.slots j := by
  obtain ⟨free, hp, hnd, hmem⟩ := h.list
  have hv : Valid cap i := h.valid i hi
  have hv' : i.toNat < cap.size := hv
  have hif : i ∉ free := fun e => ((hmem i).1 e).2 hi
  refine ⟨_, by simp only [deallocate, hv', decide_true, tradecoreAssert_true, pure_bind, if_true]; rfl,
    ⟨⟨i :: free, ⟨rfl, ?_⟩, List.nodup_cons.2 ⟨hif, hnd⟩, ?_⟩, ?_, ?_⟩, ?_⟩
  · have hl : link (⟨Function.update pool.slots i (Overlay.setNextFree pool.freeHead (pool.slots i)), i,
        pool.activeCount - 1⟩ : ObjectPool α cap) i = pool.freeHead := by
      simp [link]
    rw [hl]
    refine hp.congr fun k hk => ?_
    have hki : k ≠ i := fun e => hif (e ▸ hk)
    simp [link, hki]
  · intro k
    rw [List.mem_cons, hmem, Finset.mem_erase, not_and_or, not_ne_iff]
    constructor
    · rintro (rfl | ⟨h1, h2⟩)
      · exact ⟨hv, Or.inl rfl⟩
      · exact ⟨h1, Or.inr h2⟩
    · rintro ⟨h1, h2⟩
      exact h2.imp_right fun h2 => ⟨h1, h2⟩
  · intro k hk
    exact h.valid k (Finset.mem_of_mem_erase hk)
  · rw [Finset.card_erase_of_mem hi, ← h.count]
  · intro j hj
    exact Function.update_of_ne hj _ _

/-- **`reset`**: every slot is free, whatever the pool held. -/
theorem reset_ok (pool : ObjectPool α cap) : pool.reset.PoolOk ∅ := by
  have hpos := cap.pos
  have hlink : ∀ n, n < cap.size → pool.reset.link (UInt32.ofNat n) =
      if n + 1 < cap.size then UInt32.ofNat (n + 1) else kInvalidPoolIndex := by
    intro n hn
    have e : (UInt32.ofNat n).toNat = n := toNat_ofNat_slot hn
    unfold link reset
    simp only [e]
    by_cases h1 : n < cap.size - 1
    · rw [if_pos h1, if_pos (by omega), Overlay.nextFree_set, UInt32.ofNat_add]
      rfl
    · rw [if_neg h1, if_pos (by omega), if_neg (by omega), Overlay.nextFree_set]
  -- the slots from `n` on, linked one after the other
  have hpath : ∀ k n, n + k = cap.size → 0 < k →
      Path pool.reset.link (UInt32.ofNat n) ((List.range' n k).map UInt32.ofNat) kInvalidPoolIndex := by
    intro k
    induction k with
    | zero => intro n _ h0; omega
    | succ k ih =>
      intro n hn _
      rw [List.range'_succ, List.map_cons]
      refine ⟨rfl, ?_⟩
      rw [hlink n (by omega)]
      rcases Nat.eq_zero_or_pos k with rfl | hk
      · rw [if_neg (by omega)]
        rfl
      · rw [if_pos (by omega)]
        exact ih (n + 1) (by omega) hk
  refine ⟨⟨(List.range' 0 cap.size).map UInt32.ofNat, ?_, ?_, ?_⟩, by simp, rfl⟩
  · exact hpath cap.size 0 (by omega) hpos
  · refine List.Nodup.map_on (fun a ha b hb e => ?_) List.nodup_range'
    have := congrArg UInt32.toNat e
    rw [List.mem_range'_1, Nat.zero_add] at ha hb
    rwa [toNat_ofNat_slot ha.2, toNat_ofNat_slot hb.2] at this
  · intro i
    rw [← mem_allSlots]
    simp [allSlots, List.mem_range'_1]

theorem new_ok (slots : Index → α) : (ObjectPool.new slots : ObjectPool α cap).PoolOk ∅ := reset_ok _

end ObjectPool

end TradeCore
