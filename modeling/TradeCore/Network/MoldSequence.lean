import TradeCore.Network.MoldFraming
/-!
# `expected_sequence` after a bad packet

`decode` hands out messages before it has looked at the blocks behind them, and moves `expected_sequence` at the end of a
packet that was complete. On a packet that is cut short (`CutAfter`) the messages in front of the cut are delivered
(`blocks_cut`) and the decoder is left as it was, which is right only for one that already expected what comes next
(`expected_sequence_iff`).
-/

namespace TradeCore

variable {packet : List Byte}

/-- The packet is cut short behind `messages`: its header is complete, fewer blocks than it says are, and the next one is
not. -/
structure CutAfter (packet : List Byte) (messages : List (List Byte)) : Prop where
  header : 20 ≤ packet.length
  fewer : messages.length < wordAt packet 18
  lengths_lt : ∀ m ∈ messages, m.length < 65536
  rest : ∃ rest, packet.drop 20 = messages.flatMap block ++ rest ∧ ¬ StartsBlock rest

/-- **The walk stops at the cut**, with the blocks in front of it. -/
theorem blocks_cut {messages : List (List Byte)} {n offset : ℕ} {rest : List Byte}
    (h : packet.drop offset = messages.flatMap block ++ rest) (hrest : ¬ StartsBlock rest)
    (hm : ∀ m ∈ messages, m.length < 65536) (hn : messages.length < n) :
    (blocks packet n offset).1 = false ∧ (blocks packet n offset).2.map (Span.bytes packet) = messages := by
  induction messages generalizing n offset with
  | nil =>
    obtain ⟨n, rfl⟩ := Nat.exists_eq_succ_of_ne_zero (Nat.ne_of_gt hn)
    rw [List.flatMap_nil, List.nil_append] at h
    unfold blocks
    split_ifs with hshort hpayload
    · exact ⟨rfl, rfl⟩
    · exact ⟨rfl, rfl⟩
    · -- the rest would begin with a block
      obtain ⟨hblock, hlt⟩ := drop_eq_block hshort hpayload
      exact absurd ⟨_, _, h.symm.trans hblock, hlt⟩ hrest
  | cons m messages ih =>
    obtain ⟨n, rfl⟩ := Nat.exists_eq_succ_of_ne_zero (Nat.ne_of_gt (Nat.zero_lt_of_lt hn))
    rw [List.flatMap_cons, List.append_assoc] at h
    obtain ⟨hword, hin, hdrop, hbytes⟩ := wordAt_block h (hm m List.mem_cons_self)
    obtain ⟨hok, hmap⟩ := ih hdrop (fun m' hm' => hm m' (List.mem_cons_of_mem m hm')) (Nat.lt_of_succ_lt_succ hn)
    unfold blocks
    rw [hword, if_neg (by omega), if_neg (by omega)]
    exact ⟨hok, by rw [List.map_cons, hbytes, hmap]⟩

namespace MoldUDP64Decoder

/-- What the sequence is tracked for: after a delivery it is one past the last message delivered, and a call that
delivers nothing and returns `false` leaves it alone. -/
structure Tracks (decoder : MoldUDP64Decoder) (r : Decoding) : Prop where
  delivered : ∀ call, r.calls.getLast? = some call → r.decoder.expectedSequence = call.1 + 1
  nothing : r.calls = [] → r.ok = false → r.decoder.expectedSequence = decoder.expectedSequence

/-- The last of the calls made for a number of spans. -/
theorem getLast?_calls (seq : UInt64) {spans : List Span} {call : UInt64 × Span}
    (h : (spans.mapIdx fun k s => (seq + UInt64.ofNat k, s)).getLast? = some call) :
    call.1 + 1 = seq + UInt64.ofNat spans.length := by
  obtain ⟨n, hn⟩ : ∃ n, spans.length = n + 1 := by
    refine Nat.exists_eq_succ_of_ne_zero fun h0 => ?_
    rw [List.length_eq_zero_iff.1 h0] at h
    cases h
  rw [List.getLast?_eq_getElem?, List.getElem?_mapIdx, List.length_mapIdx, hn] at h
  obtain ⟨s, -, rfl⟩ := Option.map_eq_some_iff.1 h
  rw [hn, Nat.add_sub_cancel, UInt64.ofNat_add, ← add_assoc]
  rfl

variable (decoder : MoldUDP64Decoder)

/-- **A complete packet** is tracked. -/
theorem tracks_of_ok (h : (blocks packet (wordAt packet 18) 20).1 = true) :
    Tracks decoder ⟨true, (blocks packet (wordAt packet 18) 20).2.mapIdx fun k s => (sequenceOf packet + UInt64.ofNat k, s),
      ⟨sequenceOf packet + UInt64.ofNat (wordAt packet 18)⟩⟩ where
  delivered call hcall := by
    obtain ⟨messages, rest, hdrop, hlen, hm⟩ := blocks_ok h
    have hspans := congrArg List.length (blocks_frames hdrop hm).2
    rw [hlen, List.length_map] at hspans
    rw [getLast?_calls (sequenceOf packet) hcall, hspans]
    rfl
  nothing _ hok := by cases hok

/-- **A packet that is cut short** leaves the decoder alone. -/
theorem tracks_of_cut {messages : List (List Byte)} (h : CutAfter packet messages) :
    Tracks decoder ⟨false, (blocks packet (wordAt packet 18) 20).2.mapIdx fun k s => (sequenceOf packet + UInt64.ofNat k, s),
      decoder⟩ ↔ (messages ≠ [] → decoder.expectedSequence = sequenceOf packet + UInt64.ofNat messages.length) := by
  obtain ⟨rest, hdrop, hrest⟩ := h.rest
  have hspans := congrArg List.length (blocks_cut hdrop hrest h.lengths_lt h.fewer).2
  rw [List.length_map] at hspans
  constructor
  · intro htracks hne
    obtain ⟨call, hcall⟩ : ∃ call, ((blocks packet (wordAt packet 18) 20).2.mapIdx
        fun k s => (sequenceOf packet + UInt64.ofNat k, s)).getLast? = some call := by
      refine Option.ne_none_iff_exists'.1 fun hnone => hne ?_
      rw [List.getLast?_eq_none_iff, ← List.length_eq_zero_iff, List.length_mapIdx, hspans] at hnone
      exact List.length_eq_zero_iff.1 hnone
    have := htracks.delivered call hcall
    rwa [getLast?_calls (sequenceOf packet) hcall, hspans] at this
  · refine fun hexpects => ⟨fun call hcall => ?_, fun _ _ => rfl⟩
    rw [getLast?_calls (sequenceOf packet) hcall, hspans]
    refine hexpects fun hnil => ?_
    rw [hnil] at hspans
    rw [List.length_eq_zero_iff.1 hspans] at hcall
    cases hcall

end MoldUDP64Decoder

open MoldUDP64Decoder

/-- **`expected_sequence` is right** after a packet exactly when, wherever it is cut short behind some messages, the decoder
already expected the message behind them. -/
theorem expected_sequence_iff (host : Host) (decoder : MoldUDP64Decoder) (packet : List Byte) :
    (∃ r, decoder.decode host packet = pure r ∧ Tracks decoder r) ↔
      ∀ messages, CutAfter packet messages → messages ≠ [] →
        decoder.expectedSequence = sequenceOf packet + UInt64.ofNat messages.length := by
  by_cases hheader : 20 ≤ packet.length
  · have hrun := decode_eq host decoder hheader
    cases hok : (blocks packet (wordAt packet 18) 20).1 with
    | true =>
      rw [hok, if_pos rfl] at hrun
      refine iff_of_true ⟨_, hrun, tracks_of_ok decoder hok⟩ fun messages hcut => ?_
      obtain ⟨rest, hdrop, hrest⟩ := hcut.rest
      rw [(blocks_cut hdrop hrest hcut.lengths_lt hcut.fewer).1] at hok
      cases hok
    | false =>
      rw [hok, if_neg Bool.false_ne_true] at hrun
      constructor
      · rintro ⟨r, hr, htracks⟩ messages hcut
        cases Exec.pure_inj (hr.symm.trans hrun)
        exact (tracks_of_cut decoder hcut).1 htracks
      · intro hexpects
        obtain ⟨messages, rest, hdrop, hm, hlen⟩ := blocks_walk packet (wordAt packet 18) 20
        rw [hok, if_neg Bool.false_ne_true] at hlen
        have hcut : CutAfter packet messages := ⟨hheader, hlen.1, hm, rest, hdrop, hlen.2⟩
        exact ⟨_, hrun, (tracks_of_cut decoder hcut).2 (hexpects messages hcut)⟩
  · refine iff_of_true ⟨_, if_pos (Nat.lt_of_not_le hheader), ⟨nofun, fun _ _ => rfl⟩⟩ fun messages hcut => ?_
    exact absurd hcut.header hheader

/-- A packet from sequence 100 on that announces two messages and breaks off behind the first. -/
def cutPacket : List Byte :=
  [84, 69, 83, 84, 48, 48, 48, 48, 48, 48, 0, 0, 0, 0, 0, 0, 0, 100, 0, 2, 0, 1, 7]

/-- **A delivered message is expected again.** -/
theorem cut_packet_untracked : ¬ ∃ r, MoldUDP64Decoder.new.decode .little cutPacket = pure r ∧ Tracks MoldUDP64Decoder.new r := by
  rintro ⟨r, hrun, htracks⟩
  have hrun' : MoldUDP64Decoder.new.decode .little cutPacket .debug = .ok ⟨false, [(100, ⟨22, 1⟩)], ⟨1⟩⟩ := rfl
  have hr : Decoding.mk false [(100, ⟨22, 1⟩)] ⟨1⟩ = r := Except.ok.inj (hrun'.symm.trans (congrFun hrun .debug))
  subst hr
  exact absurd (htracks.delivered _ rfl) (by decide)

end TradeCore
