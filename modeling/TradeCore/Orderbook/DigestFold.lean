import TradeCore.Lib.Absorb
import TradeCore.Orderbook.DigestProofs
/-!
# One byte of a book always shows in its digest

`hash_combine` mixes its word byte by byte: an exclusive or, and a product with a prime that has an inverse modulo
2^64. Each byte permutes the 64-bit states, and two bytes take no state to the same one, so a fold of words that
differ in one byte never comes together again.
-/

namespace TradeCore

open Absorb

namespace BookDigest

/-- The loop body of `hash_combine`. -/
def mix (hash byte : UInt64) : UInt64 := (hash ^^^ byte) * kFnvPrime

/-- The bytes of a word, as `hash_combine` reads them. -/
def bytes (val : UInt64) : List UInt64 := (List.range 8).map (byteOf val)

theorem hashCombine_eq (hash val : UInt64) : hashCombine hash val = (bytes val).foldl mix hash := by
  unfold hashCombine bytes
  rw [List.foldl_map]
  rfl

/-- Words after words are bytes after bytes. -/
theorem foldl_hashCombine (ws : List UInt64) (hash : UInt64) : ws.foldl hashCombine hash = (ws.flatMap bytes).foldl mix hash := by
  induction ws generalizing hash with
  | nil => rw [List.flatMap_nil, List.foldl_nil, List.foldl_nil]
  | cons w ws ih => rw [List.foldl_cons, ih, List.flatMap_cons, List.foldl_append, hashCombine_eq]

/-! ## One byte -/

/-- The inverse of the prime modulo 2^64. -/
def kFnvInverse : UInt64 := 14886173955864302971

theorem mul_prime_injective : Function.Injective (· * kFnvPrime) := by
  intro a b h
  have hinv : kFnvPrime * kFnvInverse = 1 := by decide
  calc a = a * kFnvPrime * kFnvInverse := by rw [UInt64.mul_assoc, hinv, UInt64.mul_one]
    _ = b * kFnvPrime * kFnvInverse := by rw [show a * kFnvPrime = b * kFnvPrime from h]
    _ = b := by rw [UInt64.mul_assoc, hinv, UInt64.mul_one]

theorem mix_state_injective (byte : UInt64) : Function.Injective (mix · byte) := by
  intro a b h
  have hxor : a ^^^ byte = b ^^^ byte := mul_prime_injective h
  exact UInt64.xor_left_inj byte |>.1 hxor

theorem mix_byte_injective (hash : UInt64) : Function.Injective (mix hash) := by
  intro a b h
  have hxor : hash ^^^ a = hash ^^^ b := mul_prime_injective h
  exact UInt64.xor_right_inj hash |>.1 hxor

/-! ## Words -/

/-- Sequences of words of one length that differ in exactly one byte. -/
structure OneByteApart (vs ws : List UInt64) : Prop where
  length : vs.length = ws.length
  byte : ∃! n : ℕ, (vs.flatMap bytes)[n]? ≠ (ws.flatMap bytes)[n]?

theorem length_bytes (ws : List UInt64) : (ws.flatMap bytes).length = 8 * ws.length := by
  induction ws with
  | nil => rfl
  | cons w ws ih =>
    rw [List.flatMap_cons, List.length_append, ih, bytes, List.length_map, List.length_range, List.length_cons]
    omega

theorem OneByteApart.oneApart {vs ws : List UInt64} (h : OneByteApart vs ws) : OneApart (vs.flatMap bytes) (ws.flatMap bytes) where
  length := by rw [length_bytes, length_bytes, h.length]
  index := h.byte

theorem OneByteApart.foldl_ne {vs ws : List UInt64} (h : OneByteApart vs ws) (hash : UInt64) :
    vs.foldl hashCombine hash ≠ ws.foldl hashCombine hash := by
  rw [foldl_hashCombine, foldl_hashCombine]
  exact h.oneApart.foldl_ne mix_state_injective mix_byte_injective hash

/-- **Every word permutes the states.** -/
theorem hashCombine_bijective (val : UInt64) : Function.Bijective (hashCombine · val) := by
  have hinj : Function.Injective (hashCombine · val) := by
    intro a b h
    simp only [hashCombine_eq] at h
    exact foldl_injective mix_state_injective _ h
  exact hinj.bijective_of_finite

/-- **Every single-byte change is seen**: by `hash_combine` from any state, and by the fold of any number of words. -/
theorem digest_single_byte :
    (∀ vs ws : List UInt64, OneByteApart vs ws → vs.foldl hashCombine kFnvOffsetBasis ≠ ws.foldl hashCombine kFnvOffsetBasis) ∧
      (∀ val, Function.Bijective (hashCombine · val)) ∧
      ∀ hash v w, OneByteApart [v] [w] → hashCombine hash v ≠ hashCombine hash w := by
  refine ⟨?_, hashCombine_bijective, ?_⟩
  · intro vs ws h
    exact h.foldl_ne kFnvOffsetBasis
  · intro hash v w h
    have hne := h.foldl_ne hash
    rwa [List.foldl_cons, List.foldl_nil, List.foldl_cons, List.foldl_nil] at hne

/-- The words 1, 2 and 1, 3. -/
theorem digest_single_byte_two : [1, 2].foldl hashCombine kFnvOffsetBasis ≠ [1, 3].foldl hashCombine kFnvOffsetBasis := by
  have h2 : [1, 2].flatMap bytes = bytes 1 ++ 2 :: List.replicate 7 0 := by decide +kernel
  have h3 : [1, 3].flatMap bytes = bytes 1 ++ 3 :: List.replicate 7 0 := by decide +kernel
  have happart := oneApart_of_split (show (2 : UInt64) ≠ 3 by decide) (bytes 1) (List.replicate 7 0)
  rw [← h2, ← h3] at happart
  have hbytes : OneByteApart [1, 2] [1, 3] := ⟨by simp, happart.index⟩
  obtain ⟨hfold, -, -⟩ := digest_single_byte
  exact hfold _ _ hbytes

end BookDigest

variable {maxOrders maxLevels maxOrders' maxLevels' : PoolCapacity}

/-- Books whose words are one byte apart have different digests. -/
theorem compute_ne {book : OrderBook maxOrders maxLevels} {book' : OrderBook maxOrders' maxLevels'} (h : BookReachable book)
    (h' : BookReachable book')
    (hwords : BookDigest.OneByteApart (BookDigest.bookWords book.content) (BookDigest.bookWords book'.content)) :
    ∃ digest digest', BookDigest.compute book = pure digest ∧ BookDigest.compute book' = pure digest' ∧ digest ≠ digest' := by
  obtain ⟨g, hg⟩ := h.inv
  obtain ⟨g', hg'⟩ := h'.inv
  exact ⟨_, _, BookDigest.hashBook_eq BookDigest.hashCombine hg.rep BookDigest.kFnvOffsetBasis,
    BookDigest.hashBook_eq BookDigest.hashCombine hg'.rep BookDigest.kFnvOffsetBasis, hwords.foldl_ne _⟩

end TradeCore
