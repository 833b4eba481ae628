import Mathlib
/-!
# Numbers as bytes

`littleEndian` and `bigEndian` read a byte string as a number, `littleBytes` and `bigBytes` write a number into a
given width. Writing and reading undo each other, and big-endian strings put in a row are digits put in a row.
-/

namespace ByteOrder

/-- The bytes are the digits to base 256, the lowest first. -/
def littleEndian (bs : List UInt8) : ℕ := Nat.ofDigits 256 (bs.map UInt8.toNat)

def bigEndian (bs : List UInt8) : ℕ := littleEndian bs.reverse

/-- The low `width` bytes of `v`, the lowest first. -/
def littleBytes (width v : ℕ) : List UInt8 := (List.range width).map fun i => UInt8.ofNat (v / 256 ^ i)

def bigBytes (width v : ℕ) : List UInt8 := (littleBytes width v).reverse

@[simp] theorem length_littleBytes (width v : ℕ) : (littleBytes width v).length = width := by
  simp [littleBytes]

@[simp] theorem length_bigBytes (width v : ℕ) : (bigBytes width v).length = width := by
  simp [bigBytes]

/-! ## Byte by byte -/

theorem littleEndian_cons (b : UInt8) (bs : List UInt8) : littleEndian (b :: bs) = b.toNat + 256 * littleEndian bs :=
  Nat.ofDigits_cons

theorem littleBytes_succ (width v : ℕ) : littleBytes (width + 1) v = UInt8.ofNat v :: littleBytes width (v / 256) := by
  unfold littleBytes
  rw [List.range_succ_eq_map, List.map_cons, List.map_map, pow_zero, Nat.div_one]
  refine congrArg _ (List.map_congr_left fun i _ => ?_)
  change UInt8.ofNat (v / 256 ^ (i + 1)) = _
  rw [pow_succ', Nat.div_div_eq_div_mul]

theorem littleEndian_lt (bs : List UInt8) : littleEndian bs < 256 ^ bs.length := by
  have hdigits : ∀ d ∈ bs.map UInt8.toNat, d < 256 := by
    intro d hd
    obtain ⟨b, -, rfl⟩ := List.mem_map.1 hd
    exact b.toNat_lt
  have hlt := Nat.ofDigits_lt_base_pow_length (by decide) hdigits
  rwa [List.length_map] at hlt

theorem littleEndian_append (bs cs : List UInt8) :
    littleEndian (bs ++ cs) = littleEndian bs + 256 ^ bs.length * littleEndian cs := by
  unfold littleEndian
  rw [List.map_append, Nat.ofDigits_append, List.length_map]

/-! ## Writing and reading -/

theorem littleEndian_littleBytes (width v : ℕ) : littleEndian (littleBytes width v) = v % 256 ^ width := by
  induction width generalizing v with
  | zero => simp [littleBytes, littleEndian, Nat.mod_one]
  | succ width ih =>
    rw [littleBytes_succ, littleEndian_cons, ih, pow_succ', Nat.mod_mul]
    rfl

theorem littleBytes_littleEndian (bs : List UInt8) : littleBytes bs.length (littleEndian bs) = bs := by
  induction bs with
  | nil => rfl
  | cons b bs ih =>
    have hb := b.toNat_lt
    have hhigh : (b.toNat + 256 * littleEndian bs) / 256 = littleEndian bs := by omega
    have hlow : UInt8.ofNat (b.toNat + 256 * littleEndian bs) = b := by
      refine UInt8.toNat_inj.1 ?_
      change (b.toNat + 256 * littleEndian bs) % 256 = b.toNat
      omega
    rw [List.length_cons, littleBytes_succ, littleEndian_cons, hhigh, hlow, ih]

theorem bigEndian_bigBytes (width v : ℕ) : bigEndian (bigBytes width v) = v % 256 ^ width := by
  unfold bigEndian bigBytes
  rw [List.reverse_reverse, littleEndian_littleBytes]

/-- **A number that fits is read back.** -/
theorem bigEndian_bigBytes_of_lt {width v : ℕ} (h : v < 256 ^ width) : bigEndian (bigBytes width v) = v := by
  rw [bigEndian_bigBytes, Nat.mod_eq_of_lt h]

/-- **Bytes are what their number is written as.** -/
theorem bigBytes_bigEndian (bs : List UInt8) : bigBytes bs.length (bigEndian bs) = bs := by
  have h := littleBytes_littleEndian bs.reverse
  rw [List.length_reverse] at h
  unfold bigBytes bigEndian
  rw [h, List.reverse_reverse]

theorem bigEndian_lt (bs : List UInt8) : bigEndian bs < 256 ^ bs.length := by
  have h := littleEndian_lt bs.reverse
  rwa [List.length_reverse] at h

/-! ## Strings in a row -/

theorem bigEndian_append (bs cs : List UInt8) : bigEndian (bs ++ cs) = bigEndian bs * 256 ^ cs.length + bigEndian cs := by
  unfold bigEndian
  rw [List.reverse_append, littleEndian_append, List.length_reverse, Nat.add_comm, Nat.mul_comm]

/-- The high bytes of a number, then the low ones. -/
theorem bigBytes_add (high low v : ℕ) : bigBytes (high + low) v = bigBytes high (v / 256 ^ low) ++ bigBytes low v := by
  unfold bigBytes littleBytes
  rw [Nat.add_comm high low, List.range_add, List.map_append, List.reverse_append, List.map_map]
  refine congrArg (fun bs => List.reverse bs ++ _) (List.map_congr_left fun i _ => ?_)
  change UInt8.ofNat (v / 256 ^ (low + i)) = UInt8.ofNat (v / 256 ^ low / 256 ^ i)
  rw [Nat.div_div_eq_div_mul, pow_add]

end ByteOrder
