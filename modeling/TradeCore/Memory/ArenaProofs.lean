import TradeCore.Memory.ArenaAllocator
/-!
# The blocks of an arena

The cursor stands inside the buffer and behind every block. It moves forwards as long as the end of the next block
does not wrap; past 2^64 the sum of the bounds check is small again, the request is accepted, and the cursor moves
back into what was given out.
-/

namespace TradeCore

variable {u : ArenaUse} {size : UInt64} {alignment : Alignment} {c : ArenaCall} {calls : List ArenaCall}

/-! ## Alignment -/

theorem Alignment.toNat_size (alignment : Alignment) : alignment.size.toNat = 2 ^ alignment.log :=
  Nat.mod_eq_of_lt (Nat.pow_lt_pow_right (by decide) alignment.log_lt)

/-- The adjustment goes to the next multiple. -/
theorem getAlignmentAdjustment_toNat (ptr : UInt64) (alignment : Alignment) :
    (ArenaAllocator.getAlignmentAdjustment ptr alignment.size).toNat =
      if ptr.toNat % 2 ^ alignment.log = 0 then 0 else 2 ^ alignment.log - ptr.toNat % 2 ^ alignment.log := by
  have hpos := Nat.two_pow_pos alignment.log
  have hlt := Nat.mod_lt ptr.toNat hpos
  have hrem : (ptr % alignment.size).toNat = ptr.toNat % 2 ^ alignment.log := by
    rw [UInt64.toNat_mod, alignment.toNat_size]
  have hzero : ptr % alignment.size = 0 ↔ ptr.toNat % 2 ^ alignment.log = 0 := by
    rw [← UInt64.toNat_inj, hrem]
    rfl
  unfold ArenaAllocator.getAlignmentAdjustment
  dsimp only
  rw [apply_ite UInt64.toNat]
  simp only [hzero]
  split_ifs with h0
  · rfl
  · rw [UInt64.toNat_sub_of_le, alignment.toNat_size, hrem]
    rw [UInt64.le_iff_toNat_le, alignment.toNat_size, hrem]
    exact hlt.le

/-- An adjusted address is a multiple of the alignment. -/
theorem adjusted_dvd (ptr : UInt64) (alignment : Alignment) :
    2 ^ alignment.log ∣ ptr.toNat + (ArenaAllocator.getAlignmentAdjustment ptr alignment.size).toNat := by
  rw [getAlignmentAdjustment_toNat]
  have hlt := Nat.mod_lt ptr.toNat (Nat.two_pow_pos alignment.log)
  split_ifs with h0
  · exact Nat.dvd_of_mod_eq_zero h0
  · refine ⟨ptr.toNat / 2 ^ alignment.log + 1, ?_⟩
    have := Nat.div_add_mod ptr.toNat (2 ^ alignment.log)
    rw [Nat.mul_add, Nat.mul_one]
    omega

/-! ## The invariant -/

/-- **The cursor** is inside the buffer and behind every block. -/
structure ArenaInv (u : ArenaUse) : Prop where
  limit : u.arena.base.toNat + u.arena.capacity.toNat < 2 ^ 64
  base_le : u.arena.base.toNat ≤ u.arena.current.toNat
  le_limit : u.arena.current.toNat ≤ u.arena.base.toNat + u.arena.capacity.toNat
  behind : ∀ b ∈ u.blocks, b.ptr.toNat + b.size.toNat ≤ u.arena.current.toNat

theorem ArenaInv.used (h : ArenaInv u) : u.arena.usedBytes ≤ u.arena.capacity := by
  have hbase := h.base_le
  have hlimit := h.le_limit
  rw [UInt64.le_iff_toNat_le, ArenaAllocator.usedBytes, UInt64.toNat_sub_of_le _ _ (UInt64.le_iff_toNat_le.2 hbase)]
  omega

theorem ArenaInv.reset (h : ArenaInv u) : ArenaInv (u.call .reset) where
  limit := h.limit
  base_le := Nat.le_refl _
  le_limit := Nat.le_add_right _ _
  behind := by
    intro b hb
    cases hb

/-! ## One request -/

/-- Where a block would start and end, before anything wraps. -/
def ArenaUse.start (u : ArenaUse) (alignment : Alignment) : ℕ :=
  u.arena.current.toNat + (ArenaAllocator.getAlignmentAdjustment u.arena.current alignment.size).toNat

def ArenaUse.finish (u : ArenaUse) (size : UInt64) (alignment : Alignment) : ℕ := u.start alignment + size.toNat

/-- **`allocate`, in numbers.** -/
theorem ArenaInv.allocate_eq (h : ArenaInv u) (size : UInt64) (alignment : Alignment) :
    u.arena.allocate size alignment.size =
      if u.finish size alignment % 2 ^ 64 > u.arena.base.toNat + u.arena.capacity.toNat then (0, u.arena)
      else (UInt64.ofNat (u.start alignment), { u.arena with current := UInt64.ofNat (u.finish size alignment) }) := by
  have hstart : u.arena.current + ArenaAllocator.getAlignmentAdjustment u.arena.current alignment.size =
      UInt64.ofNat (u.start alignment) := by
    rw [ArenaUse.start, UInt64.ofNat_add, UInt64.ofNat_toNat, UInt64.ofNat_toNat]
  have hfinish : UInt64.ofNat (u.start alignment) + size = UInt64.ofNat (u.finish size alignment) := by
    rw [ArenaUse.finish, UInt64.ofNat_add, UInt64.ofNat_toNat]
  have hlimit : (u.arena.base + u.arena.capacity).toNat = u.arena.base.toNat + u.arena.capacity.toNat := by
    rw [UInt64.toNat_add]
    exact Nat.mod_eq_of_lt h.limit
  unfold ArenaAllocator.allocate
  dsimp only
  rw [hstart, hfinish]
  simp only [gt_iff_lt, UInt64.lt_iff_toNat_lt, hlimit, UInt64.toNat_ofNat']
  rfl

theorem ArenaUse.sound_iff : u.Sound (.allocate size alignment) ↔
    u.SoundResult size alignment (u.arena.allocate size alignment.size).1 (u.arena.allocate size alignment.size).2 := Iff.rfl

theorem ArenaUse.fits_iff : u.Fits (.allocate size alignment) ↔
    u.finish size alignment % 2 ^ 64 > u.arena.base.toNat + u.arena.capacity.toNat ∨
      (u.finish size alignment < 2 ^ 64 ∧ u.start alignment ≠ 0) ∨
      (u.start alignment % 2 ^ 64 = 0 ∧ size = u.arena.current) := Iff.rfl

theorem ArenaUse.current_le_start (u : ArenaUse) (alignment : Alignment) : u.arena.current.toNat ≤ u.start alignment :=
  Nat.le_add_right _ _

theorem ArenaUse.start_le_finish (u : ArenaUse) (size : UInt64) (alignment : Alignment) : u.start alignment ≤ u.finish size alignment :=
  Nat.le_add_right _ _

theorem ArenaUse.toNat_finish (hlt : u.finish size alignment < 2 ^ 64) :
    (UInt64.ofNat (u.finish size alignment)).toNat = u.finish size alignment := Nat.mod_eq_of_lt hlt

/-- The address of a block whose end does not wrap does not wrap. -/
theorem ArenaUse.toNat_start (hlt : u.finish size alignment < 2 ^ 64) :
    (UInt64.ofNat (u.start alignment)).toNat = u.start alignment :=
  Nat.mod_eq_of_lt ((u.start_le_finish size alignment).trans_lt hlt)

/-- The next multiple of a power of two is at most 2^64. -/
theorem ArenaUse.start_le (u : ArenaUse) (alignment : Alignment) : u.start alignment ≤ 2 ^ 64 := by
  have hcur := u.arena.current.toNat_lt
  obtain ⟨m, hm⟩ := Nat.pow_dvd_pow 2 alignment.log_lt.le
  unfold ArenaUse.start
  rw [getAlignmentAdjustment_toNat]
  split_ifs with h0
  · omega
  · have hdiv : u.arena.current.toNat / 2 ^ alignment.log < m := Nat.div_lt_of_lt_mul (by omega)
    have hnext := Nat.mul_le_mul_left (2 ^ alignment.log) (show u.arena.current.toNat / 2 ^ alignment.log + 1 ≤ m from hdiv)
    have := Nat.div_add_mod u.arena.current.toNat (2 ^ alignment.log)
    have hlt := Nat.mod_lt u.arena.current.toNat (Nat.two_pow_pos alignment.log)
    rw [Nat.mul_add, Nat.mul_one] at hnext
    omega

theorem ArenaUse.null_iff : UInt64.ofNat (u.start alignment) = ArenaAllocator.nullptr ↔ u.start alignment % 2 ^ 64 = 0 :=
  UInt64.toNat_inj.symm

/-- An address that is null moves the cursor to the end of a block at 0. -/
theorem ArenaUse.finish_of_null (h : u.start alignment % 2 ^ 64 = 0) : UInt64.ofNat (u.finish size alignment) = size := by
  rw [ArenaUse.finish, UInt64.ofNat_add, UInt64.ofNat_toNat, ArenaUse.null_iff.2 h]
  exact UInt64.zero_add size

/-- A refusal promises nothing but that the arena stays. -/
theorem ArenaInv.soundResult_null (h : ArenaInv u) {ptr : UInt64} (hnull : ptr = ArenaAllocator.nullptr) :
    u.SoundResult size alignment ptr u.arena where
  aligned := fun hne => absurd hnull hne
  inside := fun hne => absurd hnull hne
  apart := fun hne => absurd hnull hne
  unchanged := fun _ => rfl
  used := h.used

/-- **The bounds check is right** about a block whose end does not wrap. -/
theorem ArenaInv.soundResult (h : ArenaInv u) (hfits : u.Fits (.allocate size alignment)) :
    u.Sound (.allocate size alignment) := by
  have hlimit := h.limit
  have hcur := u.current_le_start alignment
  have hend := u.start_le_finish size alignment
  have hbase := h.base_le
  rw [ArenaUse.sound_iff, h.allocate_eq]
  rw [ArenaUse.fits_iff] at hfits
  split_ifs with hrefused
  · exact h.soundResult_null rfl
  · obtain ⟨hlt, hne0⟩ | ⟨hnull, hsize⟩ := hfits.resolve_left hrefused
    · rw [Nat.mod_eq_of_lt hlt] at hrefused
      have hstart := ArenaUse.toNat_start hlt
      have hfinish := ArenaUse.toNat_finish hlt
      exact
        { aligned := by
            intro _
            rw [← UInt64.toNat_inj, UInt64.toNat_mod, hstart, alignment.toNat_size]
            exact Nat.mod_eq_zero_of_dvd (adjusted_dvd _ _)
          inside := by
            intro _
            rw [UInt64.le_iff_toNat_le, hstart]
            exact ⟨hbase.trans hcur, Nat.not_lt.1 hrefused⟩
          apart := by
            intro _ b hb
            right
            rw [hstart]
            exact (h.behind b hb).trans hcur
          unchanged := by
            intro hnull
            exact absurd (hstart.symm.trans (congrArg UInt64.toNat hnull)) hne0
          used := by
            rw [ArenaAllocator.usedBytes, UInt64.le_iff_toNat_le, UInt64.toNat_sub_of_le, hfinish]
            · dsimp only
              omega
            · rw [UInt64.le_iff_toNat_le, hfinish]
              dsimp only
              omega }
    · have hzero := ArenaUse.null_iff.2 hnull
      have hsame : { u.arena with current := UInt64.ofNat (u.finish size alignment) } = u.arena := by
        rw [ArenaUse.finish_of_null hnull, hsize]
      rw [hsame]
      exact h.soundResult_null hzero

/-- A request that is accepted past 2^64 breaks the promise. -/
theorem ArenaInv.fits (h : ArenaInv u) (hsound : u.Sound (.allocate size alignment)) : u.Fits (.allocate size alignment) := by
  have hlimit := h.limit
  have hend := u.start_le_finish size alignment
  have hsize := size.toNat_lt
  have htop := u.start_le alignment
  rw [ArenaUse.sound_iff, h.allocate_eq] at hsound
  rw [ArenaUse.fits_iff]
  by_contra hnot
  obtain ⟨hrefused, hnot⟩ := not_or.1 hnot
  obtain ⟨hwraps, hnull⟩ := not_or.1 hnot
  rw [if_neg hrefused] at hsound
  by_cases hzero : u.start alignment % 2 ^ 64 = 0
  · have hsame := congrArg ArenaAllocator.current (hsound.unchanged (ArenaUse.null_iff.2 hzero))
    rw [ArenaUse.finish_of_null hzero] at hsame
    exact hnull ⟨hzero, hsame⟩
  · obtain ⟨-, hinside⟩ := hsound.inside (mt ArenaUse.null_iff.1 hzero)
    have hstart : (UInt64.ofNat (u.start alignment)).toNat = u.start alignment % 2 ^ 64 := rfl
    rw [hstart] at hinside
    unfold ArenaUse.finish at *
    omega

theorem ArenaInv.allocate (h : ArenaInv u) (hfits : u.Fits (.allocate size alignment)) :
    ArenaInv (u.call (.allocate size alignment)) := by
  have hcur := u.current_le_start alignment
  have hend := u.start_le_finish size alignment
  have hbase := h.base_le
  have hlimit := h.limit
  rw [ArenaUse.fits_iff] at hfits
  unfold ArenaUse.call
  dsimp only
  rw [h.allocate_eq]
  split_ifs with hrefused hnull hnull
  · exact h
  · exact absurd rfl hnull
  · -- a null result: the cursor stays
    have hzero := ArenaUse.null_iff.1 hnull
    obtain ⟨hlt, hne0⟩ | ⟨-, hsize⟩ := hfits.resolve_left hrefused
    · omega
    · rw [ArenaUse.finish_of_null hzero, hsize]
      exact h
  · obtain ⟨hlt, -⟩ | ⟨hzero, -⟩ := hfits.resolve_left hrefused
    · rw [Nat.mod_eq_of_lt hlt] at hrefused
      have hstart := ArenaUse.toNat_start hlt
      have hfinish := ArenaUse.toNat_finish hlt
      exact
        { limit := hlimit
          base_le := by
            rw [hfinish]
            exact hbase.trans (hcur.trans hend)
          le_limit := by
            rw [hfinish]
            exact Nat.not_lt.1 hrefused
          behind := by
            intro b hb
            rw [hfinish]
            rcases List.mem_cons.1 hb with rfl | hb
            · rw [hstart]
              exact Nat.le_refl _
            · exact (h.behind b hb).trans (hcur.trans hend) }
    · exact absurd (ArenaUse.null_iff.2 hzero) hnull

/-! ## Every sequence of calls -/

theorem arenaInv_new {capacity buffer : UInt64} (h : buffer.toNat + capacity.toNat < 2 ^ 64) : ArenaInv (.new capacity buffer) where
  limit := h
  base_le := Nat.le_refl _
  le_limit := Nat.le_add_right _ _
  behind := by
    intro b hb
    cases hb

/-- **One call.** -/
theorem ArenaInv.sound_iff (h : ArenaInv u) (c : ArenaCall) : u.Sound c ↔ u.Fits c := by
  cases c with
  | allocate size alignment => exact ⟨h.fits, h.soundResult⟩
  | reset => exact iff_of_true h.reset.used trivial

theorem ArenaInv.call (h : ArenaInv u) (hfits : u.Fits c) : ArenaInv (u.call c) := by
  cases c with
  | allocate size alignment => exact h.allocate hfits
  | reset => exact h.reset

theorem ArenaInv.along_iff (h : ArenaInv u) (calls : List ArenaCall) : u.Along ArenaUse.Sound calls ↔ u.Along ArenaUse.Fits calls := by
  induction calls generalizing u with
  | nil => exact Iff.rfl
  | cons c calls ih =>
    unfold ArenaUse.Along
    rw [h.sound_iff c]
    exact and_congr_right fun hfits => ih (h.call hfits)

/-- **An arena keeps its promise exactly as long as** every request fits without wrapping. -/
theorem arena_sound_iff {capacity buffer : UInt64} (h : buffer.toNat + capacity.toNat < 2 ^ 64) (calls : List ArenaCall) :
    (ArenaUse.new capacity buffer).Along ArenaUse.Sound calls ↔ (ArenaUse.new capacity buffer).Along ArenaUse.Fits calls :=
  (arenaInv_new h).along_iff calls

def eightBytes : Alignment := ⟨3, by decide⟩

/-- A block, a refused request, and after a reset the whole buffer. -/
theorem arena_sound_iff_sixteen : (ArenaUse.new 16 4096).Along ArenaUse.Sound
    [.allocate 8 eightBytes, .allocate 16 eightBytes, .reset, .allocate 16 eightBytes] := by
  refine (arena_sound_iff (by decide) _).2 ⟨?_, ?_, trivial, ?_, trivial⟩
  · exact Or.inr (Or.inl (by decide +kernel))
  · exact Or.inl (by decide +kernel)
  · exact Or.inr (Or.inl (by decide +kernel))

/-- **A request of 2^64 - 8 bytes is accepted** by an arena of 16, and the cursor is back at the start. -/
theorem arena_wraps : ¬∀ (capacity buffer : UInt64), buffer.toNat + capacity.toNat < 2 ^ 64 →
    ∀ calls, (ArenaUse.new capacity buffer).Along ArenaUse.Sound calls := by
  intro hsound
  obtain ⟨-, hlarge, -⟩ := hsound 16 4096 (by decide) [.allocate 8 eightBytes, .allocate (UInt64.ofNat (2 ^ 64 - 8)) eightBytes]
  obtain ⟨-, hinside⟩ := hlarge.inside (by decide +kernel)
  revert hinside
  decide +kernel

end TradeCore
