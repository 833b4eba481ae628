import Mathlib
/-!
# `ArenaAllocator` (`memory/arena_allocator.hpp`)

| here | there |
| --- | --- |
| `new`                     | the constructor (`arena_allocator.hpp:12`) |
| `allocate`                | `allocate` (`arena_allocator.hpp:23`) |
| `reset`, `usedBytes`      | `reset`, `used_bytes` (`arena_allocator.hpp:39`, `:43`) |
| `getAlignmentAdjustment`  | `get_alignment_adjustment` (`arena_allocator.hpp:48`) |

Addresses are 64-bit words and all arithmetic on them wraps.
-/

namespace TradeCore

structure ArenaAllocator where
  base : UInt64
  current : UInt64
  capacity : UInt64
deriving DecidableEq, Repr

namespace ArenaAllocator

def new (capacity buffer : UInt64) : ArenaAllocator := ⟨buffer, buffer, capacity⟩

def nullptr : UInt64 := 0

def getAlignmentAdjustment (ptr alignment : UInt64) : UInt64 :=
  let remainder := ptr % alignment
  if remainder = 0 then 0 else alignment - remainder

def allocate (arena : ArenaAllocator) (size alignment : UInt64) : UInt64 × ArenaAllocator :=
  let adjustment := getAlignmentAdjustment arena.current alignment
  if arena.current + adjustment + size > arena.base + arena.capacity then (nullptr, arena)
  else
    let alignedPtr := arena.current + adjustment
    (alignedPtr, { arena with current := alignedPtr + size })

def reset (arena : ArenaAllocator) : ArenaAllocator := { arena with current := arena.base }

def usedBytes (arena : ArenaAllocator) : UInt64 := arena.current - arena.base

end ArenaAllocator

/-! ## Calls -/

/-- An alignment: a power of two. -/
structure Alignment where
  log : ℕ
  log_lt : log < 64

def Alignment.size (alignment : Alignment) : UInt64 := UInt64.ofNat (2 ^ alignment.log)

inductive ArenaCall where
  | allocate (size : UInt64) (alignment : Alignment)
  | reset

/-- What a call of `allocate` returned for a size. -/
structure ArenaBlock where
  ptr : UInt64
  size : UInt64

/-- No byte is in both. -/
def ArenaBlock.Apart (b b' : ArenaBlock) : Prop :=
  b.ptr.toNat + b.size.toNat ≤ b'.ptr.toNat ∨ b'.ptr.toNat + b'.size.toNat ≤ b.ptr.toNat

/-- An arena, and the blocks that it returned since the last `reset`. -/
structure ArenaUse where
  arena : ArenaAllocator
  blocks : List ArenaBlock

namespace ArenaUse

def new (capacity buffer : UInt64) : ArenaUse := ⟨.new capacity buffer, []⟩

def call (u : ArenaUse) : ArenaCall → ArenaUse
  | .allocate size alignment =>
    let r := u.arena.allocate size alignment.size
    ⟨r.2, if r.1 = ArenaAllocator.nullptr then u.blocks else ⟨r.1, size⟩ :: u.blocks⟩
  | .reset => ⟨u.arena.reset, []⟩

/-- **What a caller may rely on**: a block that is aligned, inside the buffer and apart from the others, or no change. -/
structure SoundResult (u : ArenaUse) (size : UInt64) (alignment : Alignment) (ptr : UInt64) (arena : ArenaAllocator) : Prop where
  aligned : ptr ≠ ArenaAllocator.nullptr → ptr % alignment.size = 0
  inside : ptr ≠ ArenaAllocator.nullptr →
    u.arena.base ≤ ptr ∧ ptr.toNat + size.toNat ≤ u.arena.base.toNat + u.arena.capacity.toNat
  apart : ptr ≠ ArenaAllocator.nullptr → ∀ b ∈ u.blocks, ArenaBlock.Apart ⟨ptr, size⟩ b
  unchanged : ptr = ArenaAllocator.nullptr → arena = u.arena
  used : arena.usedBytes ≤ arena.capacity

/-- A call that keeps the promise. -/
def Sound (u : ArenaUse) : ArenaCall → Prop
  | .allocate size alignment =>
    u.SoundResult size alignment (u.arena.allocate size alignment.size).1 (u.arena.allocate size alignment.size).2
  | .reset => u.arena.reset.usedBytes ≤ u.arena.capacity

/-- **A request that the bounds check gets right**: the end of the block does not wrap, or the wrapped end is refused
all the same. (A block at address 0 reads as a null result, and is right only where the cursor stays.) -/
def Fits (u : ArenaUse) : ArenaCall → Prop
  | .allocate size alignment =>
    let start := u.arena.current.toNat + (ArenaAllocator.getAlignmentAdjustment u.arena.current alignment.size).toNat
    let finish := start + size.toNat
    finish % 2 ^ 64 > u.arena.base.toNat + u.arena.capacity.toNat ∨ (finish < 2 ^ 64 ∧ start ≠ 0) ∨
      (start % 2 ^ 64 = 0 ∧ size = u.arena.current)
  | .reset => True

/-- Every call of a sequence has a property when it is made. -/
def Along (P : ArenaUse → ArenaCall → Prop) : ArenaUse → List ArenaCall → Prop
  | _, [] => True
  | u, c :: calls => P u c ∧ Along P (u.call c) calls

end ArenaUse

end TradeCore
