import TradeCore.Orderbook.FlatHashMap
/-!
# `FlatHashMap` refines a finite map

`Refines map n m`: the table of `map`, read over `ZMod n` with `n` its capacity, is sound
(`Lib/Probing.lean`) and binds exactly what the finite map `m` binds. Every operation returns, in either
build, and its answer and its new table are those of the operation on `m`.
-/

namespace TradeCore

open Probing

/-- The mathematical id map. -/
abbrev IdMap := Finmap fun _ : UInt64 => Index

namespace FlatHashMap

/-- The slots of the two vectors as one table. -/
def table (n : ℕ) (map : FlatHashMap) : Table n UInt64 Index := fun i =>
  if map.keys i.val = kEmptyKey then none else some (map.keys i.val, map.values i.val)

/-- Where the search for a key starts. -/
def homeSlot (n : ℕ) (key : UInt64) : ZMod n := (hash key : ℕ)

structure Refines (map : FlatHashMap) (n : ℕ) (m : IdMap) : Prop where
  pow : ∃ b, n = 2 ^ b
  capacity : map.capacity = n
  mask : map.mask = n - 1
  sound : Sound (homeSlot n) (map.table n)
  binds : ∀ k v, m.lookup k = some v ↔ Binds (map.table n) k v
  size : map.size = m.keys.card
  load : 4 * map.size < 3 * n
  proper : ∀ k v, m.lookup k = some v → v ≠ kEmpty

/-! ## Indices -/

section Indices

variable {n : ℕ} [NeZero n]

theorem and_mask (hn : ∃ b, n = 2 ^ b) (i : ℕ) : i &&& (n - 1) = ((i : ℕ) : ZMod n).val := by
  obtain ⟨b, rfl⟩ := hn
  rw [ZMod.val_natCast, Nat.and_two_pow_sub_one_eq_mod]

theorem next_index (hn : ∃ b, n = 2 ^ b) (i : ZMod n) : (i.val + 1) &&& (n - 1) = (i + 1).val := by
  rw [and_mask hn]
  congr 1
  push_cast
  rw [ZMod.natCast_val, ZMod.cast_id]

theorem dist_succ {p i : ZMod n} (h : dist p i + 1 < n) : dist p (i + 1) = dist p i + 1 := by
  have e : i + 1 = p + ((dist p i + 1 : ℕ) : ZMod n) := by
    push_cast
    rw [← add_assoc, add_dist]
  rw [e, dist_add p h]

end Indices

/-! ## The search loops -/

section Search

variable {map : FlatHashMap} {n : ℕ} {key : UInt64} {s : ZMod n}

theorem table_eq_none {i : ZMod n} : map.table n i = none ↔ map.keys i.val = kEmptyKey := by
  unfold table
  split <;> simp_all

theorem table_eq_some {i : ZMod n} {k : UInt64} {v : Index} :
    map.table n i = some (k, v) ↔ k ≠ kEmptyKey ∧ map.keys i.val = k ∧ map.values i.val = v := by
  unfold table
  split
  · rename_i h
    rw [h]
    constructor
    · nofun
    · rintro ⟨hk, rfl, -⟩
      exact absurd rfl hk
  · rename_i h
    rw [Option.some.injEq, Prod.mk.injEq]
    constructor
    · rintro ⟨rfl, rfl⟩
      exact ⟨h, rfl, rfl⟩
    · exact fun e => e.2

/-- **`probeLoop`** ends where the search ends. -/
theorem probeLoop_eq [NeZero n] (hn : ∃ b, n = 2 ^ b) (hm : map.mask = n - 1) (hs : Found (homeSlot n) (map.table n) key s) :
    ∀ (fuel : ℕ) (i : ZMod n), dist (homeSlot n key) i ≤ dist (homeSlot n key) s →
      dist (homeSlot n key) s < dist (homeSlot n key) i + fuel → map.probeLoop key fuel i.val = pure s.val := by
  intro fuel
  induction fuel with
  | zero => intro i h1 h2; omega
  | succ fuel ih =>
    intro i h1 h2
    unfold probeLoop
    rcases Nat.eq_or_lt_of_le h1 with heq | hlt
    · obtain rfl : i = s := dist_inj heq
      have hstop : ¬ (map.keys i.val ≠ kEmptyKey ∧ map.keys i.val ≠ key) := by
        rintro ⟨hne, hnk⟩
        rcases hs.stop with hnone | ⟨v, hv⟩
        · exact hne (table_eq_none.1 hnone)
        · exact hnk (table_eq_some.1 hv).2.1
      rw [if_neg hstop]
    · obtain ⟨k', v, hv, hne⟩ := hs.before i hlt
      obtain ⟨hk0, hk, -⟩ := table_eq_some.1 hv
      have hlt' := dist_lt (homeSlot n key) s
      have hd := dist_succ (p := homeSlot n key) (i := i) (by omega)
      rw [if_pos (by rw [hk]; exact ⟨hk0, hne⟩), hm, next_index hn]
      exact ih (i + 1) (by omega) (by omega)

/-- The search from the home of the key. -/
theorem probe_eq [NeZero n] (hn : ∃ b, n = 2 ^ b) (hm : map.mask = n - 1) (hc : map.capacity = n)
    (hs : Found (homeSlot n) (map.table n) key s) :
    map.probeLoop key map.capacity (hash key &&& map.mask) = pure s.val := by
  rw [hm, hc, and_mask hn]
  refine probeLoop_eq hn hm hs n _ ?_ ?_
  · have : dist (homeSlot n key) (homeSlot n key) = 0 := dist_self _
    rw [show ((hash key : ℕ) : ZMod n) = homeSlot n key from rfl, this]
    omega
  · have := dist_lt (homeSlot n key) s
    omega

/-- `find` and `erase` walk like `insert` does. -/
theorem findLoop_eq (hkey : key ≠ kEmptyKey) : ∀ (fuel idx : ℕ), map.findLoop key fuel idx =
    (do
      let s ← map.probeLoop key fuel idx
      return if map.keys s = kEmptyKey then kEmpty else map.values s)
  | 0, _ => rfl
  | fuel + 1, idx => by
    unfold findLoop probeLoop
    by_cases h0 : map.keys idx = kEmptyKey
    · simp [h0]
    · by_cases hk : map.keys idx = key
      · simp [hk, hkey]
      · simp only [h0, hk, ne_eq, not_false_eq_true, if_true, if_false, and_self]
        exact findLoop_eq hkey fuel _

theorem eraseLoop_eq (hkey : key ≠ kEmptyKey) : ∀ (fuel idx : ℕ), map.eraseLoop key fuel idx =
    (do
      let s ← map.probeLoop key fuel idx
      if map.keys s = kEmptyKey then return (false, map, [])
      else
        let (m, oks) ← (map.freeSlot s).rehashFrom s
        return (true, m, oks))
  | 0, _ => rfl
  | fuel + 1, idx => by
    unfold eraseLoop probeLoop
    by_cases h0 : map.keys idx = kEmptyKey
    · simp [h0]
    · by_cases hk : map.keys idx = key
      · simp [hk, hkey]
      · simp only [h0, hk, ne_eq, not_false_eq_true, if_true, if_false, and_self]
        exact eraseLoop_eq hkey fuel _

/-! ## Writing a slot -/

theorem table_setSlot [NeZero n] (i : ZMod n) (v : Index) (hkey : key ≠ kEmptyKey) :
    (map.setSlot i.val key v).table n = Function.update (map.table n) i (some (key, v)) := by
  funext j
  by_cases hj : j = i
  · subst hj
    simp [table, setSlot, hkey]
  · have hv : j.val ≠ i.val := fun e => hj (ZMod.val_injective n e)
    simp [table, setSlot, hj, hv]

theorem table_freeSlot [NeZero n] (i : ZMod n) : (map.freeSlot i.val).table n = Function.update (map.table n) i none := by
  funext j
  by_cases hj : j = i
  · subst hj
    simp [table, freeSlot, setSlot]
  · have hv : j.val ≠ i.val := fun e => hj (ZMod.val_injective n e)
    simp [table, freeSlot, setSlot, hj, hv]

end Search

/-! ## `insert` and `find` -/

section Operations

variable {map : FlatHashMap} {n : ℕ} {m : IdMap} {key : UInt64}

theorem Refines.neZero (h : map.Refines n m) : NeZero n := ⟨by
  have := h.load
  omega⟩

theorem Refines.exists_free [NeZero n] (h : map.Refines n m) : ∃ e, map.table n e = none := by
  refine Probing.exists_free h.sound.inj m.keys (fun k v hb => ?_) ?_
  · rw [Finmap.mem_keys]
    exact Finmap.mem_of_lookup_eq_some ((h.binds k v).2 hb)
  · have := h.size
    have := h.load
    omega

theorem Refines.found [NeZero n] (h : map.Refines n m) (key : UInt64) :
    ∃ s, Found (homeSlot n) (map.table n) key s ∧
      map.probeLoop key map.capacity (hash key &&& map.mask) = pure s.val ∧
      (map.keys s.val = kEmptyKey ↔ key ∉ m) := by
  obtain ⟨s, hs⟩ := Probing.exists_found (homeSlot n) h.exists_free key
  refine ⟨s, hs, probe_eq h.pow h.mask h.capacity hs, ?_⟩
  rw [← table_eq_none, ← Finmap.lookup_eq_none]
  constructor
  · intro hnone
    cases hl : m.lookup key with
    | none => rfl
    | some v => exact absurd ((h.binds key v).1 hl) (hs.not_binds h.sound.settled hnone v)
  · intro hl
    refine hs.stop.resolve_right ?_
    rintro ⟨v, hv⟩
    have := (h.binds key v).2 ⟨s, hv⟩
    rw [hl] at this
    cases this

theorem keys_insert (m : IdMap) (k : UInt64) (v : Index) : (m.insert k v).keys = Insert.insert k m.keys := by
  ext x
  rw [Finmap.mem_keys, Finmap.mem_insert, Finset.mem_insert, Finmap.mem_keys]

/-- What `insert` writes below the load limit, once the search is known to end at `s`. -/
theorem insert_eq [NeZero n] {s : ZMod n} {v : Index} (hn : ∃ b, n = 2 ^ b) (hc : map.capacity = n) (hm : map.mask = n - 1)
    (hs : Found (homeSlot n) (map.table n) key s) (hkey : key ≠ kEmptyKey) (hload : 4 * (map.size + 1) < 3 * n) :
    map.insert key v = pure (true, { map.setSlot s.val key v with
      size := if map.keys s.val = kEmptyKey then map.size + 1 else map.size }) := by
  have hlo : ¬ (4 * (map.size + 1) ≥ 3 * map.capacity) := by
    rw [hc]
    omega
  unfold insert
  simp only [hkey, ne_eq, not_false_eq_true, decide_true, tradecoreAssert_true, pure_bind, hlo, if_false,
    probe_eq hn hm hc hs]

/-- **`insert`** below the load limit. -/
theorem Refines.insert_ok {v : Index} (h : map.Refines n m) (hkey : key ≠ kEmptyKey) (hv : v ≠ kEmpty)
    (hload : 4 * (map.size + 1) < 3 * n) :
    ∃ map', map.insert key v = pure (true, map') ∧ map'.Refines n (m.insert key v) := by
  have := h.neZero
  obtain ⟨s, hs, hp, hiff⟩ := h.found key
  obtain ⟨map', hmap'⟩ : ∃ map' : FlatHashMap, map' = { map.setSlot s.val key v with
      size := if map.keys s.val = kEmptyKey then map.size + 1 else map.size } := ⟨_, rfl⟩
  have htab : map'.table n = Function.update (map.table n) s (some (key, v)) := by
    rw [hmap', ← table_setSlot s v hkey]
    rfl
  refine ⟨map', ?_, ⟨h.pow, by rw [hmap']; exact h.capacity, by rw [hmap']; exact h.mask, ?_, ?_, ?_, ?_, ?_⟩⟩
  · rw [hmap']
    exact insert_eq h.pow h.capacity h.mask hs hkey hload
  · rw [htab]
    exact h.sound.put hs v
  · intro k w
    rw [htab, binds_update h.sound.inj (hs.slot h.sound.settled), ← h.binds]
    by_cases hk : k = key
    · rw [hk, if_pos rfl, Finmap.lookup_insert, Option.some.injEq]
      exact eq_comm
    · rw [if_neg hk, Finmap.lookup_insert_of_ne _ hk]
  · rw [keys_insert, hmap']
    by_cases hk : key ∈ m
    · have hne : ¬ map.keys s.val = kEmptyKey := fun e => hiff.1 e hk
      simp only [hne, if_false]
      rw [Finset.insert_eq_of_mem (Finmap.mem_keys.2 hk), h.size]
    · simp only [hiff.2 hk, if_true]
      rw [Finset.card_insert_of_notMem (fun e => hk (Finmap.mem_keys.1 e)), h.size]
  · have h1 := h.load
    rw [hmap']
    simp only
    split <;> omega
  · intro k w hw
    by_cases hk : k = key
    · rw [hk, Finmap.lookup_insert, Option.some.injEq] at hw
      rw [← hw]
      exact hv
    · rw [Finmap.lookup_insert_of_ne _ hk] at hw
      exact h.proper k w hw

/-- **`insert`** at the load limit is refused. -/
theorem Refines.insert_full (h : map.Refines n m) (hkey : key ≠ kEmptyKey) (v : Index)
    (hload : 3 * n ≤ 4 * (map.size + 1)) : map.insert key v = pure (false, map) := by
  unfold insert
  have hlo : 4 * (map.size + 1) ≥ 3 * map.capacity := by
    rw [h.capacity]
    omega
  simp only [hkey, ne_eq, not_false_eq_true, decide_true, tradecoreAssert_true, pure_bind, hlo, if_true]

/-- **`find`**. -/
theorem Refines.find_eq (h : map.Refines n m) (hkey : key ≠ kEmptyKey) :
    map.find key = pure ((m.lookup key).getD kEmpty) := by
  have := h.neZero
  obtain ⟨s, hs, hp, hiff⟩ := h.found key
  unfold find
  simp only [hkey, ne_eq, not_false_eq_true, decide_true, tradecoreAssert_true, pure_bind, findLoop_eq hkey, hp]
  refine congrArg pure ?_
  by_cases hm : key ∈ m
  · obtain ⟨v, hv⟩ := Finmap.mem_iff.1 hm
    obtain ⟨j, hj⟩ := (h.binds key v).1 hv
    obtain rfl := hs.eq_of_some h.sound hj
    rw [if_neg (fun e => hiff.1 e hm), hv, (table_eq_some.1 hj).2.2]
    rfl
  · rw [if_pos (hiff.2 hm), Finmap.lookup_eq_none.2 hm]
    rfl

/-- **`contains`**. -/
theorem Refines.contains_eq (h : map.Refines n m) (hkey : key ≠ kEmptyKey) :
    map.contains key = pure (decide (key ∈ m)) := by
  unfold contains
  rw [h.find_eq hkey, pure_bind]
  refine congrArg pure (decide_eq_decide.2 ?_)
  cases hl : m.lookup key with
  | none => simpa using Finmap.lookup_eq_none.1 hl
  | some v => simpa [Finmap.mem_of_lookup_eq_some hl] using h.proper key v hl

end Operations

/-! ## `erase` -/

section Erase

variable {map : FlatHashMap} {n : ℕ} {m : IdMap} {key : UInt64}

/-- The table inside the loop of `rehash_from`: everything `Refines` says, but for the order of the entries
still to be moved. -/
structure Repairing (map : FlatHashMap) (n : ℕ) (m : IdMap) (p : ZMod n) (g c : ℕ) : Prop where
  pow : ∃ b, n = 2 ^ b
  capacity : map.capacity = n
  mask : map.mask = n - 1
  rehash : Rehashing (homeSlot n) (map.table n) p g c
  binds : ∀ k v, m.lookup k = some v ↔ Binds (map.table n) k v
  size : map.size = m.keys.card
  load : 4 * map.size < 3 * n
  proper : ∀ k v, m.lookup k = some v → v ≠ kEmpty

/-- One round of the loop: the re-insertion succeeds. -/
theorem Repairing.round [NeZero n] {p q : ZMod n} {g c : ℕ} (h : map.Repairing n m p g c) (hq : dist p q = c) (hcg : c < g) :
    map.keys q.val ≠ kEmptyKey ∧
      ∃ map', (map.freeSlot q.val).insert (map.keys q.val) (map.values q.val) = pure (true, map') ∧
        map'.Repairing n m p g (c + 1) := by
  have hk0 : map.keys q.val ≠ kEmptyKey := fun e => h.rehash.cluster q (by omega) (by omega) (table_eq_none.2 e)
  refine ⟨hk0, ?_⟩
  obtain ⟨k, hk⟩ : ∃ k, k = map.keys q.val := ⟨_, rfl⟩
  obtain ⟨v, hv⟩ : ∃ v, v = map.values q.val := ⟨_, rfl⟩
  rw [← hk] at hk0
  have hT : map.table n q = some (k, v) := table_eq_some.2 ⟨hk0, hk.symm, hv.symm⟩
  rw [← hk, ← hv]
  have htab : (map.freeSlot q.val).table n = Function.update (map.table n) q none := table_freeSlot q
  have hgap : dist p (p + (g : ℕ)) = g := dist_add p h.rehash.lt
  have hfree : ∃ e, (map.freeSlot q.val).table n e = none := ⟨q, by rw [htab, Function.update_self]⟩
  obtain ⟨s, hs⟩ := Probing.exists_found (homeSlot n) hfree k
  have hs' := hs
  rw [htab] at hs'
  obtain ⟨hnone, hstep⟩ := h.rehash.step hq hcg hT hs'
  have hpos : 0 < map.size := by
    rw [h.size, Finset.card_pos]
    exact ⟨k, Finmap.mem_keys.2 (Finmap.mem_of_lookup_eq_some ((h.binds k v).2 ⟨q, hT⟩))⟩
  have hload : 4 * ((map.freeSlot q.val).size + 1) < 3 * n := by
    have := h.load
    have hsz : (map.freeSlot q.val).size = map.size - 1 := rfl
    omega
  have hempty : (map.freeSlot q.val).keys s.val = kEmptyKey := by
    rw [← table_eq_none, htab]
    exact hnone
  refine ⟨_, insert_eq h.pow h.capacity h.mask hs hk0 hload, ?_⟩
  obtain ⟨map', hmap'⟩ : ∃ map' : FlatHashMap, map' = { (map.freeSlot q.val).setSlot s.val k v with
      size := if (map.freeSlot q.val).keys s.val = kEmptyKey then (map.freeSlot q.val).size + 1
        else (map.freeSlot q.val).size } := ⟨_, rfl⟩
  have htab' : map'.table n = Function.update (Function.update (map.table n) q none) s (some (k, v)) := by
    rw [← htab, hmap', ← table_setSlot s v hk0]
    rfl
  have hsize : map'.size = map.size := by
    have hsz : (map.freeSlot q.val).size = map.size - 1 := rfl
    rw [hmap']
    simp only [hempty, if_true]
    omega
  rw [← hmap']
  refine ⟨h.pow, by rw [hmap']; exact h.capacity, by rw [hmap']; exact h.mask, ?_, ?_, ?_, ?_, h.proper⟩
  · rw [htab']
    exact hstep
  · intro k' v'
    rw [htab', binds_move h.rehash.inj hT hnone]
    exact h.binds k' v'
  · rw [hsize, h.size]
  · rw [hsize]
    exact h.load

/-- **`rehash_from`**, from any round on: it ends, no re-insertion is refused, and the table refines the same
map. -/
theorem Repairing.rehashLoop_ok [NeZero n] {p : ZMod n} {g : ℕ} : ∀ (fuel : ℕ) {map : FlatHashMap} {c : ℕ} {q : ZMod n},
    map.Repairing n m p g c → dist p q = c → g < c + fuel →
      ∃ map' oks, rehashLoop fuel map q.val = pure (map', oks) ∧ map'.Refines n m ∧ ∀ b ∈ oks, b = true := by
  intro fuel
  induction fuel with
  | zero =>
    intro map c q h _ hf
    have := h.rehash.le
    omega
  | succ fuel ih =>
    intro map c q h hq hf
    have hle := h.rehash.le
    have hlt := h.rehash.lt
    unfold rehashLoop
    rcases Nat.eq_or_lt_of_le hle with rfl | hcg
    · have h0 : map.keys q.val = kEmptyKey := table_eq_none.1 (h.rehash.gap q hq)
      refine ⟨map, [], by simp [h0], ?_, by simp⟩
      exact ⟨h.pow, h.capacity, h.mask, h.rehash.sound, h.binds, h.size, h.load, h.proper⟩
    · obtain ⟨hk, map1, e1, h1⟩ := h.round hq hcg
      have hq1 : dist p (q + 1) = c + 1 := by rw [dist_succ (by omega), hq]
      obtain ⟨map2, oks, e2, h2, hoks⟩ := ih h1 hq1 (by omega)
      refine ⟨map2, true :: oks, ?_, h2, by simpa using hoks⟩
      rw [if_pos hk, e1, pure_bind]
      simp only [h1.mask, next_index h.pow, e2, pure_bind]

/-- **`erase`** of a bound key. -/
theorem Refines.erase_ok (h : map.Refines n m) (hkey : key ≠ kEmptyKey) (hm : key ∈ m) :
    ∃ map' oks, map.eraseTraced key = pure (true, map', oks) ∧ map'.Refines n (m.erase key) ∧ ∀ b ∈ oks, b = true := by
  have := h.neZero
  obtain ⟨s, hs, hp, hiff⟩ := h.found key
  obtain ⟨v, hv⟩ := Finmap.mem_iff.1 hm
  obtain ⟨j, hj⟩ := (h.binds key v).1 hv
  obtain rfl := hs.eq_of_some h.sound hj
  have hne : map.keys s.val ≠ kEmptyKey := fun e => hiff.1 e hm
  obtain ⟨g, hg⟩ := h.sound.rehashing hj h.exists_free
  have hpos := hg.pos
  have hle := hg.le
  have hlt := hg.lt
  have hrep : (map.freeSlot s.val).Repairing n (m.erase key) s g 1 := by
    refine ⟨h.pow, h.capacity, h.mask, ?_, ?_, ?_, ?_, ?_⟩
    · rw [table_freeSlot]
      exact hg
    · intro k w
      rw [table_freeSlot, binds_clear h.sound.inj hj, ← h.binds]
      by_cases hk : k = key
      · rw [hk, Finmap.lookup_erase]
        simp
      · rw [Finmap.lookup_erase_ne hk]
        simp [hk]
    · rw [Finmap.keys_erase, Finset.card_erase_of_mem (Finmap.mem_keys.2 hm), ← h.size]
      rfl
    · have h1 := h.load
      have h2 : (map.freeSlot s.val).size = map.size - 1 := rfl
      omega
    · intro k w hw
      by_cases hk : k = key
      · rw [hk, Finmap.lookup_erase] at hw
        cases hw
      · rw [Finmap.lookup_erase_ne hk] at hw
        exact h.proper k w hw
  have hq : dist s (s + 1) = 1 := by
    have h0 : dist s s = 0 := dist_self s
    rw [dist_succ (by omega), h0]
  obtain ⟨map', oks, e, hR, hoks⟩ := Repairing.rehashLoop_ok n hrep hq (by omega)
  refine ⟨map', oks, ?_, hR, hoks⟩
  have e' : (map.freeSlot s.val).rehashFrom s.val = pure (map', oks) := by
    unfold rehashFrom
    rw [hrep.capacity, hrep.mask, next_index h.pow]
    exact e
  unfold eraseTraced
  simp only [hkey, ne_eq, not_false_eq_true, decide_true, tradecoreAssert_true, pure_bind, eraseLoop_eq hkey, hp, hne,
    if_false, e']

/-- **`erase`** of a key that is not bound. -/
theorem Refines.erase_none (h : map.Refines n m) (hkey : key ≠ kEmptyKey) (hm : key ∉ m) :
    map.eraseTraced key = pure (false, map, []) := by
  have := h.neZero
  obtain ⟨s, hs, hp, hiff⟩ := h.found key
  unfold eraseTraced
  simp only [hkey, ne_eq, not_false_eq_true, decide_true, tradecoreAssert_true, pure_bind, eraseLoop_eq hkey, hp,
    hiff.2 hm, if_true]

/-- **The empty map.** -/
theorem refines_empty {n : ℕ} (hn : ∃ b, n = 2 ^ b) (hc : map.capacity = n) (hm : map.mask = n - 1)
    (hk : ∀ i, map.keys i = kEmptyKey) (hs : map.size = 0) : map.Refines n ∅ := by
  have hnone : ∀ i : ZMod n, map.table n i = none := fun i => table_eq_none.2 (hk _)
  have hpos : 0 < n := by
    obtain ⟨b, rfl⟩ := hn
    exact Nat.two_pow_pos b
  refine ⟨hn, hc, hm, ⟨fun j k v hj => ?_, fun i j k v w hi => ?_⟩, fun k v => ?_, ?_, by omega, fun k v hv => ?_⟩
  · rw [hnone] at hj
    cases hj
  · rw [hnone] at hi
    cases hi
  · simp [Binds, hnone]
  · rw [hs]
    rfl
  · simp at hv

theorem refines_new (capacity : ℕ) : (FlatHashMap.new capacity).Refines (nextPowerOfTwo capacity) ∅ :=
  refines_empty (nextPowerOfTwo_eq_pow capacity) rfl rfl (fun _ => rfl) rfl

theorem Refines.clear (h : map.Refines n m) : map.clear.Refines n ∅ :=
  refines_empty h.pow h.capacity h.mask (fun _ => rfl) rfl

end Erase

/-! ## Whole runs -/

/-- A call on the map. -/
inductive MapCall where
  | insert (key : UInt64) (value : Index)
  | erase (key : UInt64)
  | find (key : UInt64)
  | contains (key : UInt64)
  | clear

/-- What a call answers. -/
inductive MapReply where
  | flag (b : Bool)
  | value (v : Index)
  | done
deriving DecidableEq

/-- Keys are not 0, values are not `kEmpty`. -/
def MapCall.Admissible : MapCall → Prop
  | insert key value => key ≠ kEmptyKey ∧ value ≠ kEmpty
  | erase key | find key | contains key => key ≠ kEmptyKey
  | clear => True

instance : (c : MapCall) → Decidable c.Admissible
  | .insert key value => inferInstanceAs (Decidable (key ≠ kEmptyKey ∧ value ≠ kEmpty))
  | .erase key => inferInstanceAs (Decidable (key ≠ kEmptyKey))
  | .find key => inferInstanceAs (Decidable (key ≠ kEmptyKey))
  | .contains key => inferInstanceAs (Decidable (key ≠ kEmptyKey))
  | .clear => .isTrue trivial

/-- A call on the code's map. -/
def MapCall.run (map : FlatHashMap) : MapCall → Exec (MapReply × FlatHashMap)
  | insert key value => do
    let (ok, map) ← map.insert key value
    return (.flag ok, map)
  | erase key => do
    let (ok, map) ← map.erase key
    return (.flag ok, map)
  | find key => do
    let v ← map.find key
    return (.value v, map)
  | contains key => do
    let b ← map.contains key
    return (.flag b, map)
  | clear => return (.done, map.clear)

/-- The same call on a finite map; `n` is the capacity that limits insertion. -/
def MapCall.ref (n : ℕ) (m : IdMap) : MapCall → MapReply × IdMap
  | insert key value =>
    if 4 * (m.keys.card + 1) ≥ 3 * n then (.flag false, m) else (.flag true, m.insert key value)
  | erase key => (.flag (decide (key ∈ m)), m.erase key)
  | find key => (.value ((m.lookup key).getD kEmpty), m)
  | contains key => (.flag (decide (key ∈ m)), m)
  | clear => (.done, ∅)

/-- A sequence of calls and their answers. -/
def runCalls (map : FlatHashMap) : List MapCall → Exec (List MapReply × FlatHashMap)
  | [] => return ([], map)
  | c :: cs => do
    let (r, map) ← c.run map
    let (rs, map) ← runCalls map cs
    return (r :: rs, map)

def refCalls (n : ℕ) (m : IdMap) : List MapCall → List MapReply × IdMap
  | [] => ([], m)
  | c :: cs => ((c.ref n m).1 :: (refCalls n (c.ref n m).2 cs).1, (refCalls n (c.ref n m).2 cs).2)

/-- One call. -/
theorem Refines.run {map : FlatHashMap} {n : ℕ} {m : IdMap} (h : map.Refines n m) {c : MapCall} (hc : c.Admissible) :
    ∃ map', c.run map = pure ((c.ref n m).1, map') ∧ map'.Refines n (c.ref n m).2 := by
  cases c with
  | insert key value =>
    by_cases hload : 4 * (map.size + 1) < 3 * n
    · obtain ⟨map', e, h'⟩ := h.insert_ok hc.1 hc.2 hload
      have href : (MapCall.insert key value).ref n m = (.flag true, m.insert key value) :=
        if_neg (by rw [← h.size]; omega)
      rw [href]
      exact ⟨map', by simp [MapCall.run, e], h'⟩
    · have e := h.insert_full hc.1 value (by omega)
      have href : (MapCall.insert key value).ref n m = (.flag false, m) :=
        if_pos (by rw [← h.size]; omega)
      rw [href]
      exact ⟨map, by simp [MapCall.run, e], h⟩
  | erase key =>
    by_cases hm : key ∈ m
    · obtain ⟨map', oks, e, h', -⟩ := h.erase_ok hc hm
      exact ⟨map', by simp [MapCall.run, MapCall.ref, FlatHashMap.erase, e, hm], h'⟩
    · have e := h.erase_none hc hm
      have hme : m.erase key = m := by
        refine Finmap.ext_lookup fun k => ?_
        by_cases hk : k = key
        · rw [hk, Finmap.lookup_erase, Finmap.lookup_eq_none.2 hm]
        · rw [Finmap.lookup_erase_ne hk]
      refine ⟨map, by simp [MapCall.run, MapCall.ref, FlatHashMap.erase, e, hm], ?_⟩
      simp only [MapCall.ref, hme]
      exact h
  | find key => exact ⟨map, by simp [MapCall.run, MapCall.ref, h.find_eq hc], h⟩
  | contains key => exact ⟨map, by simp [MapCall.run, MapCall.ref, h.contains_eq hc], h⟩
  | clear => exact ⟨map.clear, rfl, h.clear⟩

/-- **Every run of calls** answers as the finite map does. -/
theorem Refines.runCalls : ∀ {cs : List MapCall} {map : FlatHashMap} {n : ℕ} {m : IdMap}, map.Refines n m →
    (∀ c ∈ cs, c.Admissible) →
      ∃ map', FlatHashMap.runCalls map cs = pure ((refCalls n m cs).1, map') ∧ map'.Refines n (refCalls n m cs).2
  | [], map, _, _, h, _ => ⟨map, rfl, h⟩
  | c :: cs, map, n, m, h, hcs => by
    obtain ⟨map1, e1, h1⟩ := h.run (hcs c List.mem_cons_self)
    obtain ⟨map2, e2, h2⟩ := h1.runCalls fun c' hc' => hcs c' (List.mem_cons_of_mem c hc')
    refine ⟨map2, ?_, h2⟩
    simp only [FlatHashMap.runCalls, refCalls, e1, e2, pure_bind]

/-- **`FlatHashMap` is a finite map.** For every requested capacity, a run of admissible calls on the new map
ends, answers as the finite map does, keeps the size strictly below three quarters of the capacity, and no
re-insertion of a following `erase` is refused. -/
theorem flatHashMap_refines_finmap (capacity : ℕ) (calls : List MapCall) (hcalls : ∀ c ∈ calls, c.Admissible) :
    ∃ map, runCalls (FlatHashMap.new capacity) calls =
        pure ((refCalls (nextPowerOfTwo capacity) ∅ calls).1, map) ∧
      map.capacity = nextPowerOfTwo capacity ∧
      (∀ key, key ≠ kEmptyKey →
        map.find key = pure (((refCalls (nextPowerOfTwo capacity) ∅ calls).2.lookup key).getD kEmpty)) ∧
      map.size = (refCalls (nextPowerOfTwo capacity) ∅ calls).2.keys.card ∧
      4 * map.size < 3 * map.capacity ∧
      ∀ key, key ≠ kEmptyKey → ∃ found map' oks, map.eraseTraced key = pure (found, map', oks) ∧ ∀ b ∈ oks, b = true := by
  obtain ⟨map, e, h⟩ := (refines_new capacity).runCalls hcalls
  refine ⟨map, e, h.capacity, fun key hkey => h.find_eq hkey, h.size, by rw [h.capacity]; exact h.load, fun key hkey => ?_⟩
  by_cases hm : key ∈ (refCalls (nextPowerOfTwo capacity) ∅ calls).2
  · obtain ⟨map', oks, e', -, hoks⟩ := h.erase_ok hkey hm
    exact ⟨true, map', oks, e', hoks⟩
  · exact ⟨false, map, [], h.erase_none hkey hm, by simp⟩

/-- Three insertions into a map of four slots (the third is refused), a deletion and two searches. -/
theorem flatHashMap_refines_finmap_four :
    ∃ map, runCalls (FlatHashMap.new 4) [.insert 1 10, .insert 5 50, .insert 9 90, .erase 1, .find 5, .find 1] =
        pure ((refCalls (nextPowerOfTwo 4) ∅ [.insert 1 10, .insert 5 50, .insert 9 90, .erase 1, .find 5, .find 1]).1, map) ∧
      map.capacity = nextPowerOfTwo 4 := by
  obtain ⟨map, e, hc, -⟩ := flatHashMap_refines_finmap 4
    [.insert 1 10, .insert 5 50, .insert 9 90, .erase 1, .find 5, .find 1] (by decide)
  exact ⟨map, e, hc⟩

end FlatHashMap

end TradeCore
