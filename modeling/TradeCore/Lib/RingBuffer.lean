import Mathlib
/-!
# Ring buffers with counters that wrap

Item number `n` of a queue is in slot `n % c` of a ring of `c` slots. `Holds` says so of the items from a first one
on; it survives a write to a slot that holds none of them, and items come and go at its two ends. The counters
themselves wrap at 2^64: their differences are right while the numbers are less than 2^64 apart, and a mask finds
the slot.
-/

namespace RingBuffer

variable {α : Type*} {c first a b k : ℕ} {buf : ℕ → α} {items : List α}

/-! ## Slots -/

/-- Numbers less than `c` apart are in different slots. -/
theorem eq_of_slot_eq (h : a % c = b % c) (hle : a ≤ b) (hlt : b < a + c) : a = b := by
  have hzero : (b - a) % c = 0 := Nat.sub_mod_eq_zero_of_mod_eq h.symm
  rw [Nat.mod_eq_of_lt (by omega)] at hzero
  omega

/-- The items from number `first` on are in their slots. -/
def Holds (buf : ℕ → α) (c : ℕ) (items : List α) (first : ℕ) : Prop :=
  ∀ n, first ≤ n → n < items.length → items[n]? = some (buf (n % c))

/-- A write to a slot that none of the items is in. -/
theorem Holds.update (h : Holds buf c items first) {x : α} (hfree : ∀ n, first ≤ n → n < items.length → n % c ≠ a % c) :
    Holds (Function.update buf (a % c) x) c items first := by
  intro n hn hlen
  rw [Function.update_of_ne (hfree n hn hlen)]
  exact h n hn hlen

/-- **The slot of the next item is free** as long as the ring is not full. -/
theorem slot_free (hroom : items.length < first + c) : ∀ n, first ≤ n → n < items.length → n % c ≠ items.length % c := by
  intro n hn hlen he
  have := eq_of_slot_eq he (by omega) (by omega)
  omega

/-- An item comes: it was written to its slot. -/
theorem Holds.append (h : Holds buf c items first) {x : α} (hx : buf (items.length % c) = x) : Holds buf c (items ++ [x]) first := by
  intro n hn hlen
  rw [List.length_append, List.length_singleton] at hlen
  by_cases hlast : n = items.length
  · rw [hlast, List.getElem?_concat_length, hx]
  · rw [List.getElem?_append_left (by omega)]
    exact h n hn (by omega)

/-- An item goes: its slot may hold anything. -/
theorem Holds.consume (h : Holds buf c items first) {y : α} (hfull : items.length ≤ first + c) :
    Holds (Function.update buf (first % c) y) c items (first + 1) := by
  have hrest : Holds buf c items (first + 1) := fun n hn hlen => h n (by omega) hlen
  apply hrest.update
  intro n hn hlen he
  have := eq_of_slot_eq he.symm (by omega) (by omega)
  omega

/-- The items from the first one on, read from their slots. -/
theorem Holds.drop_eq (h : Holds buf c items first) :
    items.drop first = (List.range (items.length - first)).map fun i => buf ((first + i) % c) := by
  apply List.ext_getElem?
  intro i
  rw [List.getElem?_drop, List.getElem?_map]
  by_cases hi : i < items.length - first
  · rw [h (first + i) (Nat.le_add_right _ _) (by omega), List.getElem?_range hi]
    rfl
  · rw [List.getElem?_eq_none (by omega), List.getElem?_eq_none (by rw [List.length_range]; omega)]
    rfl

/-! ## Counters -/

/-- **The difference of two counters** is the difference of their numbers. -/
theorem toNat_sub_ofNat (hle : b ≤ a) (hlt : a < b + 2 ^ 64) : (UInt64.ofNat a - UInt64.ofNat b).toNat = a - b := by
  rw [← UInt64.ofNat_sub hle]
  exact Nat.mod_eq_of_lt (by omega)

/-- The difference the other way round wraps. -/
theorem toNat_ofNat_sub (hle : a ≤ b) : (UInt64.ofNat a - UInt64.ofNat b).toNat = (2 ^ 64 - (b - a) % 2 ^ 64) % 2 ^ 64 := by
  rw [UInt64.toNat_sub, UInt64.toNat_ofNat', UInt64.toNat_ofNat']
  omega

/-- Counters less than 2^64 apart are equal only if their numbers are. -/
theorem eq_of_ofNat_eq (h : UInt64.ofNat a = UInt64.ofNat b) (hle : a ≤ b) (hlt : b < a + 2 ^ 64) : a = b :=
  eq_of_slot_eq (congrArg UInt64.toNat h) hle hlt

theorem ofNat_succ (n : ℕ) : UInt64.ofNat n + 1 = UInt64.ofNat (n + 1) :=
  (UInt64.ofNat_add n 1).symm

/-- A mask of `k` ones finds the slot in a ring of `2^k`. -/
theorem toNat_and_mask (hk : k < 64) (n : ℕ) : (UInt64.ofNat n &&& (UInt64.ofNat (2 ^ k) - 1)).toNat = n % 2 ^ k := by
  have hpos := Nat.two_pow_pos k
  have hlt : 2 ^ k < 2 ^ 64 := Nat.pow_lt_pow_right (by decide) hk
  have hmask : (UInt64.ofNat (2 ^ k) - 1).toNat = 2 ^ k - 1 :=
    toNat_sub_ofNat (b := 1) hpos (by omega)
  rw [UInt64.toNat_and, hmask, Nat.and_two_pow_sub_one_eq_mod]
  exact Nat.mod_mod_of_dvd n (Nat.pow_dvd_pow 2 hk.le)

end RingBuffer
