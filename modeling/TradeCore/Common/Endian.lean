import TradeCore.Common.Exec
import TradeCore.Lib.ByteOrder
/-!
# Byte order (`common/endian.hpp`)

| here | there |
| --- | --- |
| `Host`       | `kIsBigEndian` (`endian.hpp:43`): the order of the bytes of an integer in memory |
| `Integral`   | an unsigned integral `T` of the templates |
| `bswap`      | `detail::bswap` (`endian.hpp:9-38`), by the intrinsics: the bytes of the integer in reverse |
| `netToHost`  | `net_to_host` (`endian.hpp:52`); `host_to_net` forwards to it |
| `loadAt`     | `std::memcpy(&value, data + offset, sizeof(T))` |

Converting what was loaded gives the big-endian number in the bytes, on either host (`loadAt_netToHost`).
-/

namespace TradeCore

open ByteOrder

inductive Host where
  | little
  | big
deriving DecidableEq, Repr

/-- `std::byte`. -/
abbrev Byte := UInt8

class Integral (T : Type) where
  /-- `sizeof(T)`. -/
  size : ℕ
  ofNat : ℕ → T
  toNat : T → ℕ
  toNat_ofNat : ∀ n, toNat (ofNat n) = n % 256 ^ size
  ofNat_toNat : ∀ x, ofNat (toNat x) = x

instance : Integral UInt16 where
  size := 2
  ofNat := UInt16.ofNat
  toNat := UInt16.toNat
  toNat_ofNat _ := rfl
  ofNat_toNat _ := UInt16.ofNat_toNat

instance : Integral UInt32 where
  size := 4
  ofNat := UInt32.ofNat
  toNat := UInt32.toNat
  toNat_ofNat _ := rfl
  ofNat_toNat _ := UInt32.ofNat_toNat

instance : Integral UInt64 where
  size := 8
  ofNat := UInt64.ofNat
  toNat := UInt64.toNat
  toNat_ofNat _ := rfl
  ofNat_toNat _ := UInt64.ofNat_toNat

/-- The number that bytes in memory are. -/
def Host.value : Host → List Byte → ℕ
  | little, bs => littleEndian bs
  | big, bs => bigEndian bs

variable {T : Type} [Integral T]

def bswap (x : T) : T := Integral.ofNat (littleEndian (bigBytes (Integral.size T) (Integral.toNat x)))

def netToHost (host : Host) (value : T) : T :=
  if host = .big then value
  else if Integral.size T = 2 ∨ Integral.size T = 4 ∨ Integral.size T = 8 then bswap value
  else value

def loadAt (T : Type) [Integral T] (host : Host) (bytes : List Byte) (offset : ℕ) : Exec T :=
  if offset + Integral.size T ≤ bytes.length then
    return Integral.ofNat (host.value ((bytes.drop offset).take (Integral.size T)))
  else Exec.fail .outOfBounds

/-- **A converted load** is the big-endian number in the bytes. -/
theorem netToHost_value (hT : Integral.size T = 2 ∨ Integral.size T = 4 ∨ Integral.size T = 8) (host : Host) {bs : List Byte}
    (hbs : bs.length = Integral.size T) : netToHost host (Integral.ofNat (host.value bs) : T) = Integral.ofNat (bigEndian bs) := by
  cases host with
  | big => rfl
  | little =>
    have hlt : littleEndian bs < 256 ^ Integral.size T := hbs ▸ littleEndian_lt bs
    unfold netToHost bswap
    rw [if_neg (by decide), if_pos hT]
    change Integral.ofNat (littleEndian (bigBytes _ (Integral.toNat (Integral.ofNat (littleEndian bs) : T)))) = _
    rw [Integral.toNat_ofNat, Nat.mod_eq_of_lt hlt, ← hbs]
    unfold bigBytes
    rw [littleBytes_littleEndian]
    rfl

/-- A converted load inside a byte string. -/
theorem loadAt_inside (hT : Integral.size T = 2 ∨ Integral.size T = 4 ∨ Integral.size T = 8) (host : Host) {bytes : List Byte}
    {offset : ℕ} (h : offset + Integral.size T ≤ bytes.length) :
    ∃ v : T, loadAt T host bytes offset = pure v ∧
      netToHost host v = Integral.ofNat (bigEndian ((bytes.drop offset).take (Integral.size T))) := by
  have hlength : ((bytes.drop offset).take (Integral.size T)).length = Integral.size T := by
    rw [List.length_take, List.length_drop]
    omega
  exact ⟨_, if_pos h, netToHost_value hT host hlength⟩

/-- A converted load where a byte string is known to hold `bs`. -/
theorem loadAt_netToHost (hT : Integral.size T = 2 ∨ Integral.size T = 4 ∨ Integral.size T = 8) (host : Host)
    {front bs rest : List Byte} {offset : ℕ} (hfront : front.length = offset) (hbs : bs.length = Integral.size T) :
    netToHost host <$> loadAt T host (front ++ (bs ++ rest)) offset = pure (Integral.ofNat (bigEndian bs)) := by
  have hin : offset + Integral.size T ≤ (front ++ (bs ++ rest)).length := by
    rw [List.length_append, List.length_append]
    omega
  obtain ⟨v, hload, hv⟩ := loadAt_inside hT host hin
  rw [← hfront, List.drop_left, ← hbs, List.take_left] at hv
  rw [hload, map_pure, hv]

/-! ## The bytes of an integer -/

/-- The bytes of an integer in network order. -/
def netBytes (x : T) : List Byte := bigBytes (Integral.size T) (Integral.toNat x)

@[simp] theorem length_netBytes (x : T) : (netBytes x).length = Integral.size T := length_bigBytes _ _

theorem ofNat_netBytes (x : T) : Integral.ofNat (bigEndian (netBytes x)) = x := by
  have hmod : Integral.toNat x % 256 ^ Integral.size T = Integral.toNat x := by
    rw [← Integral.toNat_ofNat (T := T), Integral.ofNat_toNat]
  unfold netBytes
  rw [bigEndian_bigBytes, hmod, Integral.ofNat_toNat]

/-- **An integer in network order is read back.** -/
theorem loadAt_netBytes (hT : Integral.size T = 2 ∨ Integral.size T = 4 ∨ Integral.size T = 8) (host : Host) (x : T)
    {front rest : List Byte} {offset : ℕ} (hfront : front.length = offset) :
    netToHost host <$> loadAt T host (front ++ (netBytes x ++ rest)) offset = pure x := by
  rw [loadAt_netToHost hT host hfront (length_netBytes x), ofNat_netBytes]

end TradeCore
