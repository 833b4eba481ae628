import TradeCore.Common.Exec
import TradeCore.Lib.Probing
/-!
# `FlatHashMap` (`orderbook/flat_hash_map.hpp`): the id map

| here | there |
| --- | --- |
| `FlatHashMap.new`        | the constructor (`flat_hash_map.hpp:21`) |
| `FlatHashMap.insert`     | `insert` (`flat_hash_map.hpp:30`), the load factor as an exact fraction |
| `FlatHashMap.find`       | `find` (`flat_hash_map.hpp:50`) |
| `FlatHashMap.erase`      | `erase` (`flat_hash_map.hpp:61`) |
| `FlatHashMap.rehashFrom` | `rehash_from` (`flat_hash_map.hpp:105`) |

The two vectors are functions of the index; every index the code uses is masked first, so it is below
the capacity. `size_` is a `Nat`. Each loop gets as much fuel as the table has slots: a loop that visits
more of them visits one twice and never ends.
-/

namespace TradeCore

structure FlatHashMap where
  capacity : Nat
  mask : Nat
  keys : Nat → UInt64
  values : Nat → Index
  size : Nat

namespace FlatHashMap

/-- The mark of an unused slot, and the answer of an unsuccessful `find`. -/
def kEmpty : Index := kInvalidPoolIndex

/-- `OrderId` 0 is never valid. -/
def kEmptyKey : UInt64 := 0

/-- `std::bit_width`. -/
def bitWidth (n : Nat) : Nat := if n = 0 then 0 else n.log2 + 1

/-- `next_power_of_two` (`flat_hash_map.hpp:95`). For `n > 2^63` the shift of the source is undefined. -/
def nextPowerOfTwo (n : Nat) : Nat := if n = 0 then 1 else 1 <<< bitWidth (n - 1)

/-- `hash` (`flat_hash_map.hpp:100`). -/
def hash (key : UInt64) : Nat := (key * 11400714819323198485).toNat

def new (capacity : Nat) : FlatHashMap where
  capacity := nextPowerOfTwo capacity
  mask := nextPowerOfTwo capacity - 1
  keys _ := kEmptyKey
  values _ := kEmpty
  size := 0

/-- `keys_[idx] = key; values_[idx] = value`. -/
def setSlot (m : FlatHashMap) (idx : Nat) (key : UInt64) (value : Index) : FlatHashMap :=
  { m with keys := Function.update m.keys idx key, values := Function.update m.values idx value }

/-- Free a slot and count it (`flat_hash_map.hpp:67-69` and `:110-112`). -/
def freeSlot (m : FlatHashMap) (idx : Nat) : FlatHashMap :=
  { m.setSlot idx kEmptyKey kEmpty with size := m.size - 1 }

/-- The loop of `insert`: step on while the slot is taken by another key. -/
def probeLoop (m : FlatHashMap) (key : UInt64) : Nat → Nat → Exec Nat
  | 0, _ => Exec.fail .diverges
  | fuel + 1, idx =>
    if m.keys idx ≠ kEmptyKey ∧ m.keys idx ≠ key then m.probeLoop key fuel ((idx + 1) &&& m.mask) else return idx

/-- `insert` (`flat_hash_map.hpp:30`). The source compares `float(size + 1) / float(capacity)` with `0.75f`; up to 2^24 slots that
is this test, from 2^25 on the rounding also refuses some sizes just below the limit. -/
def insert (m : FlatHashMap) (key : UInt64) (value : Index) : Exec (Bool × FlatHashMap) := do
  tradecoreAssert (key ≠ kEmptyKey) "key != kEmptyKey"
  if 4 * (m.size + 1) ≥ 3 * m.capacity then return (false, m)
  else
    let idx ← m.probeLoop key m.capacity (hash key &&& m.mask)
    let size := if m.keys idx = kEmptyKey then m.size + 1 else m.size
    return (true, { m.setSlot idx key value with size := size })

def findLoop (m : FlatHashMap) (key : UInt64) : Nat → Nat → Exec Index
  | 0, _ => Exec.fail .diverges
  | fuel + 1, idx =>
    if m.keys idx ≠ kEmptyKey then
      if m.keys idx = key then return m.values idx else m.findLoop key fuel ((idx + 1) &&& m.mask)
    else return kEmpty

def find (m : FlatHashMap) (key : UInt64) : Exec Index := do
  tradecoreAssert (key ≠ kEmptyKey) "key != kEmptyKey"
  m.findLoop key m.capacity (hash key &&& m.mask)

/-- `contains` (`flat_hash_map.hpp:79`). -/
def contains (m : FlatHashMap) (key : UInt64) : Exec Bool := do
  let v ← m.find key
  return v ≠ kEmpty

/-- The loop of `rehash_from`. The list collects the results of the calls of `insert`, which the source
drops. -/
def rehashLoop : Nat → FlatHashMap → Nat → Exec (FlatHashMap × List Bool)
  | 0, _, _ => Exec.fail .diverges
  | fuel + 1, m, idx =>
    if m.keys idx ≠ kEmptyKey then do
      let (ok, m') ← (m.freeSlot idx).insert (m.keys idx) (m.values idx)
      let (m', oks) ← rehashLoop fuel m' ((idx + 1) &&& m'.mask)
      return (m', ok :: oks)
    else return (m, [])

def rehashFrom (m : FlatHashMap) (erasedIdx : Nat) : Exec (FlatHashMap × List Bool) :=
  rehashLoop m.capacity m ((erasedIdx + 1) &&& m.mask)

/-- The loop of `erase`, with the results `rehash_from` drops. -/
def eraseLoop (m : FlatHashMap) (key : UInt64) : Nat → Nat → Exec (Bool × FlatHashMap × List Bool)
  | 0, _ => Exec.fail .diverges
  | fuel + 1, idx =>
    if m.keys idx ≠ kEmptyKey then
      if m.keys idx = key then do
        let (m, oks) ← (m.freeSlot idx).rehashFrom idx
        return (true, m, oks)
      else m.eraseLoop key fuel ((idx + 1) &&& m.mask)
    else return (false, m, [])

/-- `erase` together with the results of the re-insertions. -/
def eraseTraced (m : FlatHashMap) (key : UInt64) : Exec (Bool × FlatHashMap × List Bool) := do
  tradecoreAssert (key ≠ kEmptyKey) "key != kEmptyKey"
  m.eraseLoop key m.capacity (hash key &&& m.mask)

def erase (m : FlatHashMap) (key : UInt64) : Exec (Bool × FlatHashMap) := do
  let (found, m, _) ← m.eraseTraced key
  return (found, m)

/-- `clear` (`flat_hash_map.hpp:87`). -/
def clear (m : FlatHashMap) : FlatHashMap :=
  { m with keys := fun _ => kEmptyKey, values := fun _ => kEmpty, size := 0 }

/-! ## The capacity -/

theorem le_nextPowerOfTwo (n : Nat) : n ≤ nextPowerOfTwo n := by
  unfold nextPowerOfTwo bitWidth
  split
  · omega
  · rw [Nat.one_shiftLeft]
    split
    · omega
    · have := Nat.lt_log2_self (n := n - 1)
      omega

theorem nextPowerOfTwo_eq_pow (n : Nat) : ∃ b, nextPowerOfTwo n = 2 ^ b := by
  unfold nextPowerOfTwo
  split
  · exact ⟨0, rfl⟩
  · exact ⟨_, Nat.one_shiftLeft _⟩

end FlatHashMap

end TradeCore
