import TradeCore.Parser.ItchProofs
/-!
# What `ITCHParser` accepts

An Add Order message has 36 bytes, with attribution 40. Both kinds go to the one parser, which asks for 36 bytes, and the
side is mapped to 0 or 1 before the validator sees it: what the parser takes of a byte string is `Taken` (`parse_accepts`),
and of that only what is `AddOrderGrammar` is a message (`parse_accepts_grammar_iff`).
-/

namespace TradeCore

open ByteOrder

namespace ITCHParser

/-- `'S'`. -/
def charS : Byte := 83

/-- The big-endian number in `size` bytes of a message. -/
def numberAt (payload : List Byte) (offset size : ℕ) : ℕ := bigEndian ((payload.drop offset).take size)

/-- An Add Order message of either kind: complete, a side that is `B` or `S`, shares and a price. -/
structure AddOrderGrammar (payload : List Byte) : Prop where
  kind : payload[0]? = some charA ∧ 36 ≤ payload.length ∨ payload[0]? = some charF ∧ 40 ≤ payload.length
  side : payload[19]? = some charB ∨ payload[19]? = some charS
  shares : numberAt payload 20 4 ≠ 0
  price : numberAt payload 32 4 ≠ 0

/-- What the parser asks of a message. -/
structure Taken (payload : List Byte) : Prop where
  kind : payload[0]? = some charA ∨ payload[0]? = some charF
  length : 36 ≤ payload.length
  shares : numberAt payload 20 4 ≠ 0
  price : numberAt payload 32 4 ≠ 0

variable {payload : List Byte}

theorem AddOrderGrammar.taken (h : AddOrderGrammar payload) : Taken payload where
  kind := h.kind.imp And.left And.left
  length := by
    rcases h.kind with h | h
    · exact h.2
    · exact (show 36 ≤ 40 by decide).trans h.2
  shares := h.shares
  price := h.price

/-! ## The fields -/

theorem readField_eq {T : Type} [Integral T] (hT : Integral.size T = 2 ∨ Integral.size T = 4 ∨ Integral.size T = 8) (host : Host)
    {offset : ℕ} (h : offset + Integral.size T ≤ payload.length) :
    readField T host payload offset = pure (Integral.ofNat (numberAt payload offset (Integral.size T))) := by
  obtain ⟨v, hload, hv⟩ := loadAt_inside hT host h
  unfold readField
  rw [hload, pure_bind, hv]
  rfl

/-- A number of four bytes is zero as a `uint32_t` only if it is zero. -/
theorem ofNat_numberAt (payload : List Byte) (offset : ℕ) :
    (Integral.ofNat (numberAt payload offset 4) : UInt32) = 0 ↔ numberAt payload offset 4 = 0 := by
  have hlen : ((payload.drop offset).take 4).length ≤ 4 := List.length_take_le 4 _
  have hpow : 256 ^ ((payload.drop offset).take 4).length ≤ 256 ^ 4 := Nat.pow_le_pow_right (by decide) hlen
  have hlt : numberAt payload offset 4 < UInt32.size := lt_of_lt_of_le (bigEndian_lt _) hpow
  change UInt32.ofNat (numberAt payload offset 4) = 0 ↔ _
  rw [← UInt32.toNat_inj, UInt32.toNat_ofNat_of_lt' hlt]
  rfl

/-- Of an added order the validator checks the price and the quantity: the side it sees is 0 or 1. -/
theorem validate_add {u : BookUpdate} (htype : u.type = UpdateType.addOrder.toByte) (hside : u.side ≤ 1) :
    BookUpdateValidator.validate u = true ↔ u.price ≠ 0 ∧ u.qty ≠ 0 := by
  have hside' : ¬ u.side > 1 := UInt8.not_lt.2 hside
  unfold BookUpdateValidator.validate
  rw [htype]
  by_cases hprice : u.price = 0 <;> by_cases hqty : u.qty = 0 <;> simp [hprice, hqty, hside', UpdateType.toByte]

/-! ## The parser -/

/-- **`parse_add_order`** returns, and takes what is long enough and has shares and a price. -/
theorem parseAddOrder_accepts (host : Host) (stats : Statistics) (payload : List Byte) :
    ∃ update stats', parseAddOrder host stats payload = pure (update, stats') ∧
      (update.isSome = true ↔ 36 ≤ payload.length ∧ numberAt payload 20 4 ≠ 0 ∧ numberAt payload 32 4 ≠ 0) := by
  unfold parseAddOrder
  by_cases hshort : payload.length < kAddOrderLength
  · rw [if_pos hshort]
    exact ⟨_, _, rfl, iff_of_false Bool.false_ne_true fun h => absurd hshort (Nat.not_lt.2 h.1)⟩
  · have hlong : 36 ≤ payload.length := Nat.not_lt.1 hshort
    have hclock : kOffsetTimestamp + 8 ≤ payload.length := (show 7 + 8 ≤ 36 by decide).trans hlong
    obtain ⟨ts, hts, -⟩ := loadAt_inside (T := UInt64) (by decide) host hclock
    have hid := readField_eq (T := UInt64) (by decide) host
      (show kOffsetOrderRef + 8 ≤ payload.length from (show 11 + 8 ≤ 36 by decide).trans hlong)
    have hprice := readField_eq (T := UInt32) (by decide) host
      (show kOffsetPrice + 4 ≤ payload.length from (show 32 + 4 ≤ 36 by decide).trans hlong)
    have hqty := readField_eq (T := UInt32) (by decide) host
      (show kOffsetShares + 4 ≤ payload.length from (show 20 + 4 ≤ 36 by decide).trans hlong)
    have hside : byteAt payload kOffsetBuySell = pure payload[19] := by
      unfold byteAt
      rw [List.getElem?_eq_getElem (show kOffsetBuySell < payload.length from (show 19 < 36 by decide).trans_le hlong)]
      rfl
    have hview : viewAt payload kOffsetStock 8 = pure ((payload.drop kOffsetStock).take 8) :=
      if_pos ((show 24 + 8 ≤ 36 by decide).trans hlong)
    unfold readTimestamp
    rw [if_neg hshort, hts, hid, hprice, hqty, hside, hview]
    simp only [pure_bind]
    generalize hu : ({ BookUpdate.zero with
      type := UpdateType.addOrder.toByte, timestampNs := _, orderId := _, price := _, qty := _
      side := _, symbol := _ } : BookUpdate) = u
    have hnonzero : BookUpdateValidator.validate u = true ↔ numberAt payload 20 4 ≠ 0 ∧ numberAt payload 32 4 ≠ 0 := by
      have hle : u.side ≤ 1 := by
        rw [← hu]
        simp only
        split_ifs <;> decide
      rw [validate_add (by rw [← hu]) hle, and_comm, ← hu]
      exact and_congr (not_congr (ofNat_numberAt payload 20)) (not_congr (ofNat_numberAt payload 32))
    by_cases hvalid : BookUpdateValidator.validate u = true
    · rw [if_neg (by simp [hvalid])]
      exact ⟨_, _, rfl, iff_of_true rfl ⟨hlong, hnonzero.1 hvalid⟩⟩
    · rw [if_pos (by simpa using hvalid)]
      exact ⟨_, _, rfl, iff_of_false Bool.false_ne_true fun h => hvalid (hnonzero.2 h.2)⟩

/-- **`parse` returns**, and takes what is `Taken`. -/
theorem parse_accepts (host : Host) (stats : Statistics) (payload : List Byte) :
    ∃ update stats', parse host stats payload = pure (update, stats') ∧ (update.isSome = true ↔ Taken payload) := by
  cases payload with
  | nil => exact ⟨_, _, rfl, iff_of_false Bool.false_ne_true fun h => absurd h.length (by decide)⟩
  | cons msgType payload =>
    have hkind : (msgType :: payload)[0]? = some charA ∨ (msgType :: payload)[0]? = some charF ↔
        msgType = charA ∨ msgType = charF := by simp
    by_cases hadd : msgType = charA ∨ msgType = charF
    · have hparse : parse host stats (msgType :: payload) = parseAddOrder host stats (msgType :: payload) := by
        change dispatchTable host msgType stats (msgType :: payload) = _
        unfold dispatchTable
        rw [if_pos hadd]
      obtain ⟨update, stats', hrun, hiff⟩ := parseAddOrder_accepts host stats (msgType :: payload)
      refine ⟨update, stats', hparse.trans hrun, hiff.trans ?_⟩
      exact ⟨fun h => ⟨hkind.2 hadd, h.1, h.2.1, h.2.2⟩, fun h => ⟨h.length, h.shares, h.price⟩⟩
    · have hparse : parse host stats (msgType :: payload) = pure (none, stats) := by
        change dispatchTable host msgType stats (msgType :: payload) = _
        unfold dispatchTable
        rw [if_neg hadd]
        rfl
      exact ⟨_, _, hparse, iff_of_false Bool.false_ne_true fun h => hadd (hkind.1 h.kind)⟩

theorem parse_returns (host : Host) (stats : Statistics) (payload : List Byte) :
    ∃ out, parse host stats payload = pure out := by
  obtain ⟨update, stats', hrun, -⟩ := parse_accepts host stats payload
  exact ⟨_, hrun⟩

end ITCHParser

open ITCHParser

/-- **The parser accepts its grammar** on a byte string exactly when that is not read as a message with a side byte that
stands for no side, or with attribution but cut short of it. -/
theorem parse_accepts_grammar_iff (host : Host) (stats : Statistics) (payload : List Byte) :
    (∃ update stats', parse host stats payload = pure (update, stats') ∧ (update.isSome = true ↔ AddOrderGrammar payload)) ↔
      (Taken payload → (payload[19]? = some charB ∨ payload[19]? = some charS) ∧
        (payload[0]? = some charF → 40 ≤ payload.length)) := by
  obtain ⟨update, stats', hrun, haccepts⟩ := parse_accepts host stats payload
  constructor
  · rintro ⟨update', stats'', hrun', hgrammar⟩ hacc
    cases Exec.pure_inj (hrun'.symm.trans hrun)
    have hg := hgrammar.1 (haccepts.2 hacc)
    refine ⟨hg.side, fun hF => ?_⟩
    rcases hg.kind with ⟨hA, -⟩ | ⟨-, hlong⟩
    · rw [hA] at hF
      cases hF
    · exact hlong
  · intro hcond
    refine ⟨update, stats', hrun, haccepts.trans ⟨fun hacc => ?_, AddOrderGrammar.taken⟩⟩
    obtain ⟨hside, hlong⟩ := hcond hacc
    exact ⟨hacc.kind.imp (fun hA => ⟨hA, hacc.length⟩) (fun hF => ⟨hF, hlong hF⟩), hside, hacc.shares, hacc.price⟩

/-- An order for 100 at 1000 with reference 1, cut to 36 bytes. -/
def orderBytes (kind side : Byte) : List Byte :=
  [kind, 0, 0, 0, 0, 0, 0, 0, 0, 0, 0, 0, 0, 0, 0, 0, 0, 0, 1, side, 0, 0, 0, 100, 0, 0, 0, 0, 0, 0, 0, 0, 0, 0, 3, 232]

theorem ITCHParser.Taken.parsed {payload : List Byte} (h : Taken payload) :
    ∃ update stats, parse .little Statistics.zero payload = pure (some update, stats) := by
  obtain ⟨update, stats, hrun, haccepts⟩ := parse_accepts .little Statistics.zero payload
  obtain ⟨u, rfl⟩ := Option.isSome_iff_exists.1 (haccepts.2 h)
  exact ⟨u, stats, hrun⟩

/-- **Two byte strings that are no messages** are parsed as orders: a side byte `X`, and an `F` message without its last
four bytes. -/
theorem no_message_parsed :
    (¬ AddOrderGrammar (orderBytes charA 88) ∧
      ∃ update stats, parse .little Statistics.zero (orderBytes charA 88) = pure (some update, stats)) ∧
    ¬ AddOrderGrammar (orderBytes charF charB) ∧
      ∃ update stats, parse .little Statistics.zero (orderBytes charF charB) = pure (some update, stats) := by
  refine ⟨⟨fun h => absurd h.side (by decide), Taken.parsed ⟨Or.inl rfl, ?_, ?_, ?_⟩⟩,
    fun h => absurd h.kind (by decide), Taken.parsed ⟨Or.inr rfl, ?_, ?_, ?_⟩⟩
  all_goals decide

end TradeCore
