import TradeCore.Network.MoldUDP64
/-!
# MoldUDP64 framing

`blocks` walks over the message blocks of a byte string as `decode` does, without sequence numbers and with an
unbounded counter; the loop of `decode` computes it (`decodeBlocks_eq`). The walk ends well exactly on a run of
complete blocks (`blocks_frames`, `blocks_ok`), and it never looks outside the packet (`blocks_inside`).
-/

namespace TradeCore

open ByteOrder

/-- A message behind its length. -/
def block (m : List Byte) : List Byte := netBytes (UInt16.ofNat m.length) ++ m

/-- A packet: its header has a session of ten bytes, and its counts fit their two bytes. -/
structure MoldPacket where
  session : List Byte
  sequence : UInt64
  messages : List (List Byte)
  session_length : session.length = 10
  count_lt : messages.length < 65536
  lengths_lt : ∀ m ∈ messages, m.length < 65536

def MoldPacket.encode (p : MoldPacket) : List Byte :=
  p.session ++ netBytes p.sequence ++ netBytes (UInt16.ofNat p.messages.length) ++ p.messages.flatMap block

/-- The big-endian number in two bytes of the packet. -/
def wordAt (packet : List Byte) (offset : ℕ) : ℕ := bigEndian ((packet.drop offset).take 2)

/-- A full header, and behind it as many complete blocks as it says. -/
def WellFramed (packet : List Byte) : Prop :=
  20 ≤ packet.length ∧ ∃ (messages : List (List Byte)) (trailing : List Byte),
    packet.drop 20 = messages.flatMap block ++ trailing ∧ messages.length = wordAt packet 18 ∧ ∀ m ∈ messages, m.length < 65536

/-! ## The walk -/

/-- The payloads of `n` blocks from `offset` on, as far as they are complete, and whether all are. -/
def blocks (packet : List Byte) : ℕ → ℕ → Bool × List Span
  | 0, _ => (true, [])
  | n + 1, offset =>
    if packet.length < offset + 2 then (false, [])
    else if packet.length < offset + 2 + wordAt packet offset then (false, [])
    else
      let rest := blocks packet n (offset + 2 + wordAt packet offset)
      (rest.1, ⟨offset + 2, wordAt packet offset⟩ :: rest.2)

variable {packet : List Byte}

theorem wordAt_lt (packet : List Byte) (offset : ℕ) : wordAt packet offset < 65536 := by
  have hlt := bigEndian_lt ((packet.drop offset).take 2)
  have hlen : ((packet.drop offset).take 2).length ≤ 2 := List.length_take_le 2 _
  have hpow : 256 ^ ((packet.drop offset).take 2).length ≤ 256 ^ 2 := Nat.pow_le_pow_right (by decide) hlen
  unfold wordAt
  omega

/-- The block at a place where there is one. -/
theorem wordAt_block {offset : ℕ} {m rest : List Byte} (h : packet.drop offset = block m ++ rest) (hm : m.length < 65536) :
    wordAt packet offset = m.length ∧ offset + 2 + m.length ≤ packet.length ∧ packet.drop (offset + 2 + m.length) = rest ∧
      Span.bytes packet ⟨offset + 2, m.length⟩ = m := by
  have hshort : (netBytes (UInt16.ofNat m.length)).length = 2 := length_netBytes _
  have hlength := congrArg List.length h
  rw [List.length_drop, block, List.length_append, List.length_append, hshort] at hlength
  have hdrop : packet.drop (offset + 2) = m ++ rest := by
    rw [← List.drop_drop, h, block, List.append_assoc, ← hshort, List.drop_left]
  refine ⟨?_, by omega, ?_, ?_⟩
  · unfold wordAt
    rw [h, block, List.append_assoc, ← hshort, List.take_left]
    change bigEndian (bigBytes 2 (m.length % 2 ^ 16)) = m.length
    rw [Nat.mod_eq_of_lt (by omega), bigEndian_bigBytes_of_lt (by omega)]
  · rw [← List.drop_drop, hdrop, List.drop_left]
  · unfold Span.bytes
    rw [hdrop, List.take_left]

/-- **A run of complete blocks is walked to its end.** -/
theorem blocks_frames {messages : List (List Byte)} {offset : ℕ} {rest : List Byte}
    (h : packet.drop offset = messages.flatMap block ++ rest) (hm : ∀ m ∈ messages, m.length < 65536) :
    (blocks packet messages.length offset).1 = true ∧ (blocks packet messages.length offset).2.map (Span.bytes packet) = messages := by
  induction messages generalizing offset with
  | nil => exact ⟨rfl, rfl⟩
  | cons m messages ih =>
    rw [List.flatMap_cons, List.append_assoc] at h
    obtain ⟨hword, hin, hdrop, hbytes⟩ := wordAt_block h (hm m List.mem_cons_self)
    obtain ⟨hok, hmap⟩ := ih hdrop fun m' hm' => hm m' (List.mem_cons_of_mem m hm')
    rw [List.length_cons]
    unfold blocks
    rw [hword, if_neg (by omega), if_neg (by omega)]
    exact ⟨hok, by rw [List.map_cons, hbytes, hmap]⟩

/-- Some bytes begin with a complete block. -/
def StartsBlock (bytes : List Byte) : Prop := ∃ m rest : List Byte, bytes = block m ++ rest ∧ m.length < 65536

/-- The block that the walk finds at a place. -/
theorem drop_eq_block {offset : ℕ} (hshort : ¬ packet.length < offset + 2)
    (hpayload : ¬ packet.length < offset + 2 + wordAt packet offset) :
    packet.drop offset = block (Span.bytes packet ⟨offset + 2, wordAt packet offset⟩) ++
        packet.drop (offset + 2 + wordAt packet offset) ∧
      (Span.bytes packet ⟨offset + 2, wordAt packet offset⟩).length < 65536 := by
  have hm0 : (Span.bytes packet ⟨offset + 2, wordAt packet offset⟩).length = wordAt packet offset := by
    unfold Span.bytes
    rw [List.length_take, List.length_drop]
    dsimp only
    omega
  have hword : netBytes (UInt16.ofNat (wordAt packet offset)) = (packet.drop offset).take 2 := by
    have htake : ((packet.drop offset).take 2).length = 2 := by
      rw [List.length_take, List.length_drop]
      omega
    have hbytes := bigBytes_bigEndian ((packet.drop offset).take 2)
    rw [htake] at hbytes
    have hlt := wordAt_lt packet offset
    change bigBytes 2 (wordAt packet offset % 2 ^ 16) = _
    rw [Nat.mod_eq_of_lt (by omega)]
    exact hbytes
  have hpay : Span.bytes packet ⟨offset + 2, wordAt packet offset⟩ ++ packet.drop (offset + 2 + wordAt packet offset) =
      packet.drop (offset + 2) := by
    unfold Span.bytes
    rw [← List.drop_drop (i := wordAt packet offset)]
    exact List.take_append_drop _ _
  constructor
  · rw [block, hm0, hword, List.append_assoc, hpay, ← List.drop_drop, List.take_append_drop]
  · rw [hm0]
    exact wordAt_lt packet offset

/-- **What the walk has seen**: complete blocks, all it was told of or up to one that is not. -/
theorem blocks_walk (packet : List Byte) (n offset : ℕ) :
    ∃ (messages : List (List Byte)) (rest : List Byte), packet.drop offset = messages.flatMap block ++ rest ∧
      (∀ m ∈ messages, m.length < 65536) ∧
      if (blocks packet n offset).1 then messages.length = n else messages.length < n ∧ ¬ StartsBlock rest := by
  induction n generalizing offset with
  | zero => exact ⟨[], packet.drop offset, rfl, by simp, rfl⟩
  | succ n ih =>
    have hstop : packet.length < offset + 2 ∨ packet.length < offset + 2 + wordAt packet offset →
        ¬ StartsBlock (packet.drop offset) := by
      rintro hshort ⟨m, rest, hdrop, hm⟩
      obtain ⟨hword, hin, -⟩ := wordAt_block hdrop hm
      omega
    by_cases hcut : packet.length < offset + 2 ∨ packet.length < offset + 2 + wordAt packet offset
    · have hwalk : blocks packet (n + 1) offset = (false, []) := by
        unfold blocks
        split_ifs with hshort hpayload
        · rfl
        · rfl
        · exact absurd hcut (not_or.2 ⟨hshort, hpayload⟩)
      rw [hwalk]
      exact ⟨[], packet.drop offset, rfl, by simp, Nat.succ_pos n, hstop hcut⟩
    · obtain ⟨hshort, hpayload⟩ := not_or.1 hcut
      obtain ⟨messages, rest, hdrop, hm, hlen⟩ := ih (offset + 2 + wordAt packet offset)
      obtain ⟨hblock, hlt⟩ := drop_eq_block hshort hpayload
      rw [blocks, if_neg hshort, if_neg hpayload]
      refine ⟨Span.bytes packet ⟨offset + 2, wordAt packet offset⟩ :: messages, rest, ?_, ?_, ?_⟩
      · rw [List.flatMap_cons, List.append_assoc, ← hdrop]
        exact hblock
      · intro m hmem
        rcases List.mem_cons.1 hmem with rfl | hmem
        · exact hlt
        · exact hm m hmem
      · dsimp only
        split_ifs at hlen ⊢ with hok
        · rw [List.length_cons, hlen]
        · exact ⟨Nat.succ_lt_succ hlen.1, hlen.2⟩

/-- **A walk to the end has seen complete blocks.** -/
theorem blocks_ok {n offset : ℕ} (h : (blocks packet n offset).1 = true) :
    ∃ (messages : List (List Byte)) (rest : List Byte), packet.drop offset = messages.flatMap block ++ rest ∧
      messages.length = n ∧ ∀ m ∈ messages, m.length < 65536 := by
  obtain ⟨messages, rest, hdrop, hm, hlen⟩ := blocks_walk packet n offset
  rw [if_pos h] at hlen
  exact ⟨messages, rest, hdrop, hlen, hm⟩

/-- The walk stays inside the packet. -/
theorem blocks_inside (n offset : ℕ) : ∀ s ∈ (blocks packet n offset).2, s.Inside packet := by
  induction n generalizing offset with
  | zero => simp [blocks]
  | succ n ih =>
    unfold blocks
    split_ifs with hshort hpayload
    · simp
    · simp
    · intro s hs
      rcases List.mem_cons.1 hs with rfl | hs
      · exact Nat.not_lt.1 hpayload
      · exact ih _ s hs

/-! ## The loop -/

namespace MoldUDP64Decoder

variable (host : Host)

/-- What is loaded at a place inside the packet. -/
theorem loadAt_word {offset : ℕ} (h : offset + 2 ≤ packet.length) :
    ∃ v, loadAt UInt16 host packet offset = pure v ∧ (netToHost host v).toNat = wordAt packet offset := by
  obtain ⟨v, hload, hv⟩ := loadAt_inside (T := UInt16) (Or.inl rfl) host h
  refine ⟨v, hload, ?_⟩
  rw [hv]
  exact Nat.mod_eq_of_lt (wordAt_lt packet offset)

/-- **The loop is the walk**, with sequence numbers. -/
theorem decodeBlocks_eq (seqNum : UInt64) (msgCount : UInt16) {n fuel offset : ℕ} {i : UInt16} (calls : List (UInt64 × Span))
    (hn : i.toNat + n = msgCount.toNat) (hf : n < fuel) :
    decodeBlocks host packet seqNum msgCount fuel i offset calls = pure ((blocks packet n offset).1,
      calls ++ (blocks packet n offset).2.mapIdx fun k s => (seqNum + UInt64.ofNat (i.toNat + k), s)) := by
  induction n generalizing fuel offset i calls with
  | zero =>
    obtain ⟨fuel, rfl⟩ := Nat.exists_eq_succ_of_ne_zero (by omega : fuel ≠ 0)
    have hi : ¬ i < msgCount := by
      rw [UInt16.lt_iff_toNat_lt]
      omega
    unfold decodeBlocks
    rw [if_neg hi]
    simp [blocks]
  | succ n ih =>
    obtain ⟨fuel, rfl⟩ := Nat.exists_eq_succ_of_ne_zero (by omega : fuel ≠ 0)
    have hcount := msgCount.toNat_lt
    have hi : i < msgCount := by
      rw [UInt16.lt_iff_toNat_lt]
      omega
    have hnext : (i + 1).toNat = i.toNat + 1 := by
      rw [UInt16.toNat_add]
      exact Nat.mod_eq_of_lt (by change i.toNat + 1 < 65536; omega)
    unfold decodeBlocks blocks
    rw [if_pos hi]
    split_ifs with hshort hpayload
    · simp
    · obtain ⟨v, hload, hv⟩ := loadAt_word host (Nat.not_lt.1 hshort)
      rw [hload, pure_bind]
      dsimp only
      rw [hv, if_pos hpayload]
      simp
    · obtain ⟨v, hload, hv⟩ := loadAt_word host (Nat.not_lt.1 hshort)
      have hseq : i.toUInt64 = UInt64.ofNat (i.toNat + 0) := by
        rw [Nat.add_zero, UInt64.ofNat_uInt16ToNat]
      rw [hload, pure_bind]
      dsimp only
      rw [hv, if_neg hpayload, ih _ (by omega) (by omega), List.mapIdx_cons, List.append_assoc, hseq, hnext]
      simp only [List.singleton_append, Nat.add_assoc, Nat.add_comm 1]

/-- The sequence number of the header. -/
def sequenceOf (packet : List Byte) : UInt64 := UInt64.ofNat (bigEndian ((packet.drop 10).take 8))

/-- **A run of `decode`** on a packet with a full header. -/
theorem decode_eq (decoder : MoldUDP64Decoder) (h : kHeaderSize ≤ packet.length) :
    decode host decoder packet = pure
      ⟨(blocks packet (wordAt packet 18) 20).1,
        (blocks packet (wordAt packet 18) 20).2.mapIdx fun k s => (sequenceOf packet + UInt64.ofNat k, s),
        if (blocks packet (wordAt packet 18) 20).1 then ⟨sequenceOf packet + UInt64.ofNat (wordAt packet 18)⟩ else decoder⟩ := by
  have hlen : 20 ≤ packet.length := h
  obtain ⟨seq, hload, hseq⟩ : ∃ v, loadAt UInt64 host packet 10 = pure v ∧ netToHost host v = sequenceOf packet :=
    loadAt_inside (by decide) host (by change 10 + 8 ≤ _; omega)
  obtain ⟨count, hload', hcount⟩ : ∃ v, loadAt UInt16 host packet 18 = pure v ∧ (netToHost host v).toNat = wordAt packet 18 :=
    loadAt_word host hlen
  have hcount' : (netToHost host count).toUInt64 = UInt64.ofNat (wordAt packet 18) := by
    rw [← hcount, UInt64.ofNat_uInt16ToNat]
  have hblocks : decodeBlocks host packet (sequenceOf packet) (netToHost host count) (wordAt packet 18 + 1) 0 kHeaderSize [] =
      pure ((blocks packet (wordAt packet 18) 20).1, [] ++ (blocks packet (wordAt packet 18) 20).2.mapIdx
        fun k s => (sequenceOf packet + UInt64.ofNat ((0 : UInt16).toNat + k), s)) :=
    decodeBlocks_eq host (sequenceOf packet) (netToHost host count) [] ((Nat.zero_add _).trans hcount.symm) (Nat.lt_succ_self _)
  unfold decode
  rw [if_neg (Nat.not_lt.2 h), hload, pure_bind, hload', pure_bind]
  dsimp only
  rw [hseq, hcount, hcount', hblocks, pure_bind]
  cases (blocks packet (wordAt packet 18) 20).1 <;> simp

end MoldUDP64Decoder

/-! ## The encoded packet -/

namespace MoldPacket

variable (p : MoldPacket) (trailing : List Byte)

theorem drop_ten : (p.encode ++ trailing).drop 10 =
    netBytes p.sequence ++ (netBytes (UInt16.ofNat p.messages.length) ++ (p.messages.flatMap block ++ trailing)) := by
  unfold encode
  simp only [List.append_assoc]
  rw [← p.session_length, List.drop_left]

theorem drop_eighteen : (p.encode ++ trailing).drop 18 =
    netBytes (UInt16.ofNat p.messages.length) ++ (p.messages.flatMap block ++ trailing) := by
  have hseq : (netBytes p.sequence).length = 8 := length_netBytes _
  rw [show 18 = 10 + 8 from rfl, ← List.drop_drop, p.drop_ten, ← hseq, List.drop_left]

theorem drop_twenty : (p.encode ++ trailing).drop 20 = p.messages.flatMap block ++ trailing := by
  have hcount : (netBytes (UInt16.ofNat p.messages.length)).length = 2 := length_netBytes _
  rw [show 20 = 18 + 2 from rfl, ← List.drop_drop, p.drop_eighteen, ← hcount, List.drop_left]

theorem sequenceOf_encode : MoldUDP64Decoder.sequenceOf (p.encode ++ trailing) = p.sequence := by
  have hseq : (netBytes p.sequence).length = 8 := length_netBytes _
  unfold MoldUDP64Decoder.sequenceOf
  rw [p.drop_ten, ← hseq, List.take_left]
  exact ofNat_netBytes p.sequence

theorem wordAt_encode : wordAt (p.encode ++ trailing) 18 = p.messages.length := by
  have hcount : (netBytes (UInt16.ofNat p.messages.length)).length = 2 := length_netBytes _
  have hlt := p.count_lt
  unfold wordAt
  rw [p.drop_eighteen, ← hcount, List.take_left]
  change bigEndian (bigBytes 2 (p.messages.length % 2 ^ 16)) = _
  rw [Nat.mod_eq_of_lt (by omega), bigEndian_bigBytes_of_lt (by omega)]

theorem length_encode : 20 ≤ (p.encode ++ trailing).length := by
  have hseq : (netBytes p.sequence).length = 8 := length_netBytes _
  have hcount : (netBytes (UInt16.ofNat p.messages.length)).length = 2 := length_netBytes _
  have hsession := p.session_length
  unfold encode
  simp only [List.length_append]
  omega

end MoldPacket

/-! ## Framing -/

/-- Calls with the bytes that their spans show. -/
theorem map_calls (packet : List Byte) (seq : UInt64) (spans : List Span) :
    (spans.mapIdx fun k s => (seq + UInt64.ofNat k, s)).map (fun c => (c.1, c.2.bytes packet)) =
      (spans.map (Span.bytes packet)).mapIdx fun k m => (seq + UInt64.ofNat k, m) := by
  apply List.ext_getElem?
  intro k
  simp only [List.getElem?_map, List.getElem?_mapIdx, Option.map_map]
  rfl

/-- **Framing in both directions**: an encoded packet is delivered message by message, and of any byte string `decode`
returns, passes slices of the packet only, and accepts what is well framed. -/
theorem mold_framing (host : Host) (decoder : MoldUDP64Decoder) :
    (∀ (p : MoldPacket) (trailing : List Byte), ∃ r, decoder.decode host (p.encode ++ trailing) = pure r ∧ r.ok = true ∧
        r.calls.map (fun c => (c.1, c.2.bytes (p.encode ++ trailing))) =
          p.messages.mapIdx (fun i m => (p.sequence + UInt64.ofNat i, m)) ∧
        r.decoder.expectedSeq = p.sequence + UInt64.ofNat p.messages.length) ∧
      ∀ packet : List Byte, ∃ r, decoder.decode host packet = pure r ∧ (∀ c ∈ r.calls, c.2.Inside packet) ∧
        (r.ok = true ↔ WellFramed packet) := by
  constructor
  · intro p trailing
    obtain ⟨hok, hmap⟩ := blocks_frames (p.drop_twenty trailing) p.lengths_lt
    have hrun := MoldUDP64Decoder.decode_eq host decoder (p.length_encode trailing)
    rw [p.wordAt_encode, p.sequenceOf_encode] at hrun
    refine ⟨_, hrun, hok, ?_, by rw [if_pos hok]⟩
    rw [map_calls, hmap]
  · intro packet
    by_cases hheader : packet.length < 20
    · refine ⟨_, if_pos hheader, by simp, ?_⟩
      exact iff_of_false Bool.false_ne_true fun h => absurd h.1 (Nat.not_le.2 hheader)
    · have hlen : 20 ≤ packet.length := Nat.not_lt.1 hheader
      refine ⟨_, MoldUDP64Decoder.decode_eq host decoder hlen, ?_, ?_⟩
      · intro c hc
        obtain ⟨i, hi, rfl⟩ := List.mem_mapIdx.1 hc
        exact blocks_inside _ _ _ (List.getElem_mem hi)
      · constructor
        · intro hok
          exact ⟨hlen, blocks_ok hok⟩
        · rintro ⟨-, messages, rest, hdrop, hcount, hm⟩
          change (blocks packet (wordAt packet 18) 20).1 = true
          rw [← hcount]
          exact (blocks_frames hdrop hm).1

end TradeCore
