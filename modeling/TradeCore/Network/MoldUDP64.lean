import TradeCore.Common.Endian
/-!
# `MoldUDP64Decoder` (`network/moldudp64.hpp`)

| here | there |
| --- | --- |
| `kHeaderSize`  | `sizeof(MoldUDP64Header)`: `session` at 0, `sequence_number` at 10, `message_count` at 18, without padding |
| `decode`       | `decode` (`moldudp64.hpp:27`) |
| `decodeBlocks` | its loop over the message blocks |
| `expectedSequence` | `expected_sequence` (`moldudp64.hpp:65`) |

A `std::span` into the packet is an offset and a size: nothing about a `Span` says that it lies inside. The callback
may do anything with what it gets, so a run of `decode` keeps the calls it made, in order, whether it then returned
`true` or `false`. A packet is shorter than 2^64 bytes by far, so offsets do not wrap.
-/

namespace TradeCore

/-- `std::span<const std::byte>(packet.data() + offset, size)`. -/
structure Span where
  offset : ℕ
  size : ℕ
deriving DecidableEq, Repr

namespace Span

/-- The bytes of the packet that a span shows. -/
def bytes (packet : List Byte) (s : Span) : List Byte := (packet.drop s.offset).take s.size

/-- No byte of the span is outside the packet. -/
def Inside (packet : List Byte) (s : Span) : Prop := s.offset + s.size ≤ packet.length

end Span

structure MoldUDP64Decoder where
  expectedSeq : UInt64
deriving DecidableEq, Repr

/-- A run of `decode`: what it returned, the calls `on_message(seq, payload)` it made, and the decoder after it. -/
structure Decoding where
  ok : Bool
  calls : List (UInt64 × Span)
  decoder : MoldUDP64Decoder
deriving DecidableEq, Repr

namespace MoldUDP64Decoder

def kHeaderSize : ℕ := 20

/-- `expected_seq_{1}`. -/
def new : MoldUDP64Decoder := ⟨1⟩

def expectedSequence (decoder : MoldUDP64Decoder) : UInt64 := decoder.expectedSeq

/-- The loop: `true` and the calls made, or `false` at the first block that does not fit. -/
def decodeBlocks (host : Host) (packet : List Byte) (seqNum : UInt64) (msgCount : UInt16) :
    ℕ → UInt16 → ℕ → List (UInt64 × Span) → Exec (Bool × List (UInt64 × Span))
  | 0, _, _, _ => Exec.fail .diverges
  | fuel + 1, i, offset, calls =>
    if i < msgCount then do
      if offset + 2 > packet.length then return (false, calls)
      else
        let msgLen ← loadAt UInt16 host packet offset
        let msgLen := netToHost host msgLen
        let offset := offset + 2
        if offset + msgLen.toNat > packet.length then return (false, calls)
        else
          let payload : Span := ⟨offset, msgLen.toNat⟩
          decodeBlocks host packet seqNum msgCount fuel (i + 1) (offset + msgLen.toNat) (calls ++ [(seqNum + i.toUInt64, payload)])
    else return (true, calls)

def decode (host : Host) (decoder : MoldUDP64Decoder) (packet : List Byte) : Exec Decoding := do
  if packet.length < kHeaderSize then return ⟨false, [], decoder⟩
  else
    let sequenceNumber ← loadAt UInt64 host packet 10
    let messageCount ← loadAt UInt16 host packet 18
    let seqNum := netToHost host sequenceNumber
    let msgCount := netToHost host messageCount
    let (ok, calls) ← decodeBlocks host packet seqNum msgCount (msgCount.toNat + 1) 0 kHeaderSize []
    if ok then return ⟨true, calls, ⟨seqNum + msgCount.toUInt64⟩⟩
    else return ⟨false, calls, decoder⟩

end MoldUDP64Decoder

end TradeCore
