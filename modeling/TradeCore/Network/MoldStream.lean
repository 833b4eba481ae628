import TradeCore.Network.MoldFraming
/-!
# A stream of packets

One decoder gets packet after packet (`decodeAll`). However a stream of messages is cut into packets, each message is
handed out once, in order, under the number it has in the stream, and `expected_sequence` shows where messages are
missing (`stream_delivered`).
-/

namespace TradeCore

namespace MoldUDP64Decoder

/-- Packet after packet: the numbers and payloads that were handed out, and the decoder at the end. -/
def decodeAll (host : Host) (decoder : MoldUDP64Decoder) : List (List Byte) → Exec (List (UInt64 × List Byte) × MoldUDP64Decoder)
  | [] => return ([], decoder)
  | packet :: packets => do
    let r ← decoder.decode host packet
    let (calls, decoder) ← r.decoder.decodeAll host packets
    return (r.calls.map (fun c => (c.1, c.2.bytes packet)) ++ calls, decoder)

end MoldUDP64Decoder

/-- A packet as it arrives: bytes behind the last block are no one's. -/
structure Datagram where
  packet : MoldPacket
  trailing : List Byte

namespace Datagram

def bytes (d : Datagram) : List Byte := d.packet.encode ++ d.trailing

/-- The messages of these packets. -/
def messages (ds : List Datagram) : List (List Byte) := ds.flatMap fun d => d.packet.messages

/-- Each packet begins with the number behind the one before, the first with this one. -/
def Consecutive : UInt64 → List Datagram → Prop
  | _, [] => True
  | seq, d :: ds => d.packet.sequence = seq ∧ Consecutive (seq + UInt64.ofNat d.packet.messages.length) ds

end Datagram

/-- Messages under consecutive numbers. -/
def numbered (seq : UInt64) (messages : List (List Byte)) : List (UInt64 × List Byte) :=
  messages.mapIdx fun i m => (seq + UInt64.ofNat i, m)

theorem numbered_append (seq : UInt64) (ms ms' : List (List Byte)) :
    numbered seq (ms ++ ms') = numbered seq ms ++ numbered (seq + UInt64.ofNat ms.length) ms' := by
  unfold numbered
  rw [List.mapIdx_append]
  congr 1
  refine congrArg (fun f => List.mapIdx f ms') (funext fun i => funext fun m => ?_)
  rw [Nat.add_comm, UInt64.ofNat_add, add_assoc]

namespace MoldUDP64Decoder

variable (host : Host)

/-- One packet of the stream. -/
theorem decode_datagram (decoder : MoldUDP64Decoder) (d : Datagram) : ∃ r, decoder.decode host d.bytes = pure r ∧
    r.calls.map (fun c => (c.1, c.2.bytes d.bytes)) = numbered d.packet.sequence d.packet.messages ∧
    r.decoder = ⟨d.packet.sequence + UInt64.ofNat d.packet.messages.length⟩ := by
  obtain ⟨hok, hmap⟩ := blocks_frames (d.packet.drop_twenty d.trailing) d.packet.lengths_lt
  have hrun := decode_eq host decoder (d.packet.length_encode d.trailing)
  rw [d.packet.wordAt_encode, d.packet.sequenceOf_encode] at hrun
  refine ⟨_, hrun, ?_, by rw [if_pos hok]⟩
  rw [map_calls]
  exact congrArg (numbered d.packet.sequence) hmap

/-- A stream that arrives whole. What the decoder expected before has no say in what it hands out. -/
theorem decodeAll_stream {seq : UInt64} {ds : List Datagram} (h : Datagram.Consecutive seq ds) (decoder : MoldUDP64Decoder) :
    ∃ decoder' : MoldUDP64Decoder, decodeAll host decoder (ds.map Datagram.bytes) = pure (numbered seq (Datagram.messages ds), decoder') ∧
      (decoder.expectedSeq = seq ∨ ds ≠ [] → decoder'.expectedSeq = seq + UInt64.ofNat (Datagram.messages ds).length) := by
  induction ds generalizing seq decoder with
  | nil =>
    refine ⟨decoder, rfl, fun hstart => ?_⟩
    rw [hstart.resolve_right fun hne => hne rfl]
    simp [Datagram.messages]
  | cons d ds ih =>
    obtain ⟨rfl, hrest⟩ := h
    obtain ⟨r, hrun, hcalls, hdecoder⟩ := decode_datagram host decoder d
    obtain ⟨decoder', hmore, hexpected⟩ := ih hrest r.decoder
    have hmessages : Datagram.messages (d :: ds) = d.packet.messages ++ Datagram.messages ds := List.flatMap_cons
    refine ⟨decoder', ?_, fun _ => ?_⟩
    · rw [List.map_cons, decodeAll, hrun, pure_bind]
      dsimp only
      rw [hmore, pure_bind]
      dsimp only
      rw [hcalls, hmessages, numbered_append]
    · rw [hexpected (Or.inl (by rw [hdecoder])), hmessages, List.length_append, UInt64.ofNat_add, add_assoc]

end MoldUDP64Decoder

theorem Datagram.consecutive_append {seq : UInt64} {ds ds' : List Datagram} :
    Consecutive seq (ds ++ ds') ↔ Consecutive seq ds ∧ Consecutive (seq + UInt64.ofNat (messages ds).length) ds' := by
  induction ds generalizing seq with
  | nil => simp [Consecutive, messages]
  | cons d ds ih =>
    have hmessages : messages (d :: ds) = d.packet.messages ++ messages ds := List.flatMap_cons
    rw [List.cons_append, Consecutive, Consecutive, ih, hmessages, List.length_append, UInt64.ofNat_add, add_assoc, and_assoc]

/-- Fewer than 2^64 messages are none if the counter does not see them. -/
theorem add_ofNat_eq_self {seq : UInt64} {n : ℕ} (hn : n < 2 ^ 64) : seq + UInt64.ofNat n = seq ↔ n = 0 := by
  constructor
  · intro h
    have hzero : UInt64.ofNat n = 0 := by simpa using h
    have htoNat := congrArg UInt64.toNat hzero
    rwa [UInt64.toNat_ofNat_of_lt' hn] at htoNat
  · rintro rfl
    simp

/-- **A stream is delivered, and a gap is seen.** However a stream of messages is cut into packets, and whatever comes
behind the last block of a packet, each message that arrives is handed out once, in order, under its own number. When
packets are lost between two others, `expected_sequence` differs from the number of the next packet exactly if messages
were lost with them. -/
theorem stream_delivered (host : Host) (seq : UInt64) (before lost after : List Datagram)
    (h : Datagram.Consecutive seq (before ++ lost ++ after)) (hlost : (Datagram.messages lost).length < 2 ^ 64)
    (decoder : MoldUDP64Decoder) (hstart : decoder.expectedSeq = seq) :
    ∃ reached decoder' : MoldUDP64Decoder,
      decoder.decodeAll host (before.map Datagram.bytes) = pure (numbered seq (Datagram.messages before), reached) ∧
      reached.decodeAll host (after.map Datagram.bytes) =
        pure (numbered (seq + UInt64.ofNat (Datagram.messages (before ++ lost)).length) (Datagram.messages after), decoder') ∧
      ∀ next ∈ after.head?, reached.expectedSequence = next.packet.sequence ↔ Datagram.messages lost = [] := by
  obtain ⟨hfront, hafter⟩ := Datagram.consecutive_append.1 h
  obtain ⟨hbefore, -⟩ := Datagram.consecutive_append.1 hfront
  obtain ⟨reached, hrun, hexpected⟩ := decoder.decodeAll_stream host hbefore
  obtain ⟨decoder', hrun', -⟩ := reached.decodeAll_stream host hafter
  refine ⟨reached, decoder', hrun, hrun', ?_⟩
  intro next hnext
  obtain ⟨rest, rfl⟩ : ∃ rest, after = next :: rest := by
    cases after with
    | nil => cases hnext
    | cons d rest =>
      cases hnext
      exact ⟨rest, rfl⟩
  have hmessages : Datagram.messages (before ++ lost) = Datagram.messages before ++ Datagram.messages lost := List.flatMap_append
  have hsequence := hafter.1
  rw [hmessages, List.length_append, UInt64.ofNat_add, ← add_assoc, ← hexpected (Or.inl hstart)] at hsequence
  rw [show reached.expectedSequence = reached.expectedSeq from rfl, hsequence, eq_comm, add_ofNat_eq_self hlost, List.length_eq_zero_iff]

def tenZeros : List Byte := List.replicate 10 48

theorem length_tenZeros : tenZeros.length = 10 := rfl

/-- A packet with one message of one byte. -/
def oneByte (seq : UInt64) (byte : Byte) : Datagram where
  packet := ⟨tenZeros, seq, [[byte]], length_tenZeros, by simp, by simp⟩
  trailing := []

/-- Of three packets the second is lost. -/
theorem stream_delivered_gap : ∃ reached decoder' : MoldUDP64Decoder,
    MoldUDP64Decoder.new.decodeAll .little [(oneByte 1 7).bytes] = pure ([(1, [7])], reached) ∧
      reached.decodeAll .little [(oneByte 3 9).bytes] = pure ([(3, [9])], decoder') ∧ reached.expectedSequence ≠ 3 := by
  obtain ⟨reached, decoder', hrun, hrun', hgap⟩ := stream_delivered .little 1 [oneByte 1 7] [oneByte 2 8] [oneByte 3 9]
    ⟨rfl, rfl, rfl, trivial⟩ (by decide) .new rfl
  exact ⟨reached, decoder', hrun, hrun', fun h => absurd ((hgap _ rfl).1 h) (by decide)⟩

end TradeCore
