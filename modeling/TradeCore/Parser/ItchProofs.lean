import TradeCore.Orderbook.OrderBook
import TradeCore.Parser.ItchParser
/-!
# What `ITCHParser` makes of an Add Order message

`AddOrderMessage.encode` is the message as the feed sends it: its fields in order, without gaps. The parser finds
the reference, the side, the shares and the price at their places. It looks for the timestamp at offset 7, two bytes
behind its place: what it returns is the low four bytes of the timestamp and the high two of the reference
(`parse_encode`), so the timestamp is right for some messages only (`add_order_decodes_iff`).
-/

namespace TradeCore

open ByteOrder

/-- An Add Order message: its timestamp has six bytes, and neither its shares nor its price are zero. -/
structure AddOrderMessage where
  stockLocate : UInt16
  tracking : UInt16
  timestamp : UInt64
  reference : UInt64
  side : Side
  shares : UInt32
  stock : List Byte
  price : UInt32
  timestamp_lt : timestamp.toNat < 2 ^ 48
  shares_pos : 0 < shares
  stock_length : stock.length = 8
  price_pos : 0 < price

namespace AddOrderMessage

/-- `'B'` or `'S'`. -/
def sideChar : Side → Byte
  | .bid => 66
  | .ask => 83

variable (m : AddOrderMessage)

/-- Type, stock locate, tracking number, timestamp, reference, side, shares, stock, price. -/
def fields : List (List Byte) :=
  [[ITCHParser.charA], netBytes m.stockLocate, netBytes m.tracking, bigBytes 6 m.timestamp.toNat, netBytes m.reference,
    [sideChar m.side], netBytes m.shares, m.stock, netBytes m.price]

def encode : List Byte := m.fields.flatten

theorem encode_eq (i : ℕ) : m.encode = (m.fields.take i).flatten ++ (m.fields.drop i).flatten := by
  rw [← List.flatten_append, List.take_append_drop]
  rfl

theorem lengths_fields : m.fields.map List.length = [1, 2, 2, 6, 8, 1, 4, 8, 4] := by
  simp only [fields, List.map_cons, List.map_nil, length_netBytes, length_bigBytes, m.stock_length]
  rfl

/-- Where a field begins. -/
theorem length_take (i : ℕ) : (m.fields.take i).flatten.length = ([1, 2, 2, 6, 8, 1, 4, 8, 4].take i).sum := by
  rw [List.length_flatten, List.map_take, lengths_fields]

theorem length_encode : m.encode.length = 36 := by
  unfold encode
  rw [List.length_flatten, lengths_fields]
  rfl

/-- What the parser returns for the timestamp. -/
def readTimestamp : UInt64 := UInt64.ofNat (m.timestamp.toNat % 2 ^ 32 * 2 ^ 16 + m.reference.toNat / 2 ^ 48)

/-- The update that the parser makes of a message. -/
def update : BookUpdate :=
  { BookUpdate.zero with
    type := UpdateType.addOrder.toByte, timestampNs := m.readTimestamp, orderId := m.reference, price := m.price, qty := m.shares
    side := m.side.toByte, symbol := 1 }

end AddOrderMessage

namespace ITCHParser

variable (host : Host) (m : AddOrderMessage)

/-! ## Field by field -/

/-- A field at the place where the parser looks for it. -/
theorem readField_field {T : Type} [Integral T] (hT : Integral.size T = 2 ∨ Integral.size T = 4 ∨ Integral.size T = 8) (x : T) (i : ℕ)
    {rest : List Byte} {offset : ℕ} (hfield : (m.fields.drop i).flatten = netBytes x ++ rest)
    (hoffset : ([1, 2, 2, 6, 8, 1, 4, 8, 4].take i).sum = offset) : readField T host m.encode offset = pure x := by
  unfold readField
  rw [m.encode_eq i, hfield, bind_pure_comp, loadAt_netBytes hT host x ((m.length_take i).trans hoffset)]

/-- The eight bytes at offset 7: four of the timestamp, four of the reference. -/
theorem readTimestamp_encode : readTimestamp host m.encode kOffsetTimestamp = pure m.readTimestamp := by
  have hsplit : m.encode = ((m.fields.take 3).flatten ++ bigBytes 2 (m.timestamp.toNat / 256 ^ 4)) ++
      ((bigBytes 4 m.timestamp.toNat ++ bigBytes 4 (m.reference.toNat / 256 ^ 4)) ++
        (bigBytes 4 m.reference.toNat ++ (m.fields.drop 5).flatten)) := by
    have htimestamp : bigBytes 6 m.timestamp.toNat = _ := bigBytes_add 2 4 m.timestamp.toNat
    have hreference : netBytes m.reference = _ := bigBytes_add 4 4 m.reference.toNat
    have hfields : (m.fields.drop 3).flatten = bigBytes 6 m.timestamp.toNat ++ (netBytes m.reference ++ (m.fields.drop 5).flatten) := rfl
    rw [m.encode_eq 3, hfields, htimestamp, hreference]
    simp only [List.append_assoc]
  have hfront : ((m.fields.take 3).flatten ++ bigBytes 2 (m.timestamp.toNat / 256 ^ 4)).length = kOffsetTimestamp := by
    rw [List.length_append, m.length_take, length_bigBytes]
    rfl
  have hvalue : bigEndian (bigBytes 4 m.timestamp.toNat ++ bigBytes 4 (m.reference.toNat / 256 ^ 4)) =
      m.timestamp.toNat % 2 ^ 32 * 2 ^ 32 + m.reference.toNat / 2 ^ 32 := by
    have href := m.reference.toNat_lt
    rw [bigEndian_append, bigEndian_bigBytes, bigEndian_bigBytes_of_lt (by omega), length_bigBytes]
    rfl
  have hshift : (UInt64.ofNat (m.timestamp.toNat % 2 ^ 32 * 2 ^ 32 + m.reference.toNat / 2 ^ 32)) >>> 16 = m.readTimestamp := by
    have href := m.reference.toNat_lt
    refine UInt64.toNat_inj.1 ?_
    rw [UInt64.toNat_shiftRight, UInt64.toNat_ofNat', AddOrderMessage.readTimestamp, UInt64.toNat_ofNat', Nat.shiftRight_eq_div_pow]
    change _ / 2 ^ 16 = _
    omega
  have hlength : (bigBytes 4 m.timestamp.toNat ++ bigBytes 4 (m.reference.toNat / 256 ^ 4)).length = Integral.size UInt64 := by
    rw [List.length_append, length_bigBytes, length_bigBytes]
    rfl
  have hmap : readTimestamp host m.encode kOffsetTimestamp =
      (fun ts : UInt64 => ts >>> 16) <$> (netToHost host <$> loadAt UInt64 host m.encode kOffsetTimestamp) := by
    rw [← comp_map]
    exact bind_pure_comp _ _
  rw [hmap, hsplit, loadAt_netToHost (by decide) host hfront hlength, hvalue, map_pure, ← hshift]
  rfl

theorem validate_update : BookUpdateValidator.validate m.update = true := by
  have hprice : m.price ≠ 0 := UInt32.pos_iff_ne_zero.1 m.price_pos
  have hshares : m.shares ≠ 0 := UInt32.pos_iff_ne_zero.1 m.shares_pos
  have hside : ¬ m.side.toByte > 1 := by
    cases m.side <;> decide
  unfold BookUpdateValidator.validate AddOrderMessage.update
  simp only [hprice, hshares, hside, false_and, if_false]
  rfl

/-- **What is parsed of a message.** -/
theorem parse_encode (stats : Statistics) :
    parse host stats m.encode = pure (some m.update, { stats with messagesParsed := stats.messagesParsed + 1 }) := by
  have hparse : parse host stats m.encode = parseAddOrder host stats m.encode := rfl
  have hlength : ¬ m.encode.length < kAddOrderLength := by
    rw [m.length_encode]
    decide
  have horder : readField UInt64 host m.encode kOffsetOrderRef = pure m.reference :=
    readField_field host m (by decide) m.reference 4 rfl rfl
  have hprice : readField UInt32 host m.encode kOffsetPrice = pure m.price :=
    readField_field host m (by decide) m.price 8 rfl rfl
  have hqty : readField UInt32 host m.encode kOffsetShares = pure m.shares :=
    readField_field host m (by decide) m.shares 6 rfl rfl
  have hside : byteAt m.encode kOffsetBuySell = pure (AddOrderMessage.sideChar m.side) := by
    have hlen : (m.fields.take 5).flatten.length = kOffsetBuySell := m.length_take 5
    unfold byteAt
    rw [m.encode_eq 5, List.getElem?_append_right hlen.le, hlen]
    rfl
  have hview : viewAt m.encode kOffsetStock 8 = pure (m.encode.drop kOffsetStock |>.take 8) := by
    unfold viewAt
    rw [m.length_encode]
    rfl
  have hsym : (if AddOrderMessage.sideChar m.side = charB then 0 else 1) = m.side.toByte := by
    cases m.side <;> rfl
  rw [hparse]
  unfold parseAddOrder
  rw [if_neg hlength, readTimestamp_encode, horder, hprice, hqty, hside, hview]
  simp only [pure_bind]
  rw [hsym]
  change (if BookUpdateValidator.validate m.update = false then _ else _) = _
  rw [validate_update]
  rfl

end ITCHParser

/-! ## The timestamp -/

/-- The update says what the message does. -/
structure AddOrderMessage.Decodes (m : AddOrderMessage) (u : BookUpdate) : Prop where
  type : u.type = UpdateType.addOrder.toByte
  timestampNs : u.timestampNs = m.timestamp
  orderId : u.orderId = m.reference
  side : u.side = m.side.toByte
  qty : u.qty = m.shares
  price : u.price = m.price

/-- The timestamp is read as it is where its three 16-bit words are all the top word of the reference. -/
theorem AddOrderMessage.readTimestamp_eq_iff (m : AddOrderMessage) :
    m.readTimestamp = m.timestamp ↔ m.timestamp.toNat = m.reference.toNat / 2 ^ 48 * 0x100010001 := by
  have hts := m.timestamp_lt
  have href := m.reference.toNat_lt
  unfold AddOrderMessage.readTimestamp
  rw [← UInt64.toNat_inj, UInt64.toNat_ofNat', Nat.mod_eq_of_lt (by omega)]
  constructor
  · intro h
    omega
  · intro h
    omega

/-- **An Add Order message is decoded exactly** where its timestamp repeats the top word of its reference, and only there. -/
theorem add_order_decodes_iff (host : Host) (stats : Statistics) (m : AddOrderMessage) :
    (∃ u stats', ITCHParser.parse host stats m.encode = pure (some u, stats') ∧ m.Decodes u) ↔
      m.timestamp.toNat = m.reference.toNat / 2 ^ 48 * 0x100010001 := by
  rw [← m.readTimestamp_eq_iff]
  have hparse := ITCHParser.parse_encode host m stats
  constructor
  · rintro ⟨u, stats', hrun, hu⟩
    rw [hparse] at hrun
    have hupdate : m.update = u := Option.some.inj (Prod.ext_iff.1 (Exec.pure_inj hrun)).1
    rw [← hu.timestampNs, ← hupdate]
    rfl
  · intro hts
    exact ⟨m.update, _, hparse, ⟨rfl, hts, rfl, rfl, rfl, rfl⟩⟩

/-- Buy 100 at 1000, one nanosecond after midnight. -/
def oneNs (reference : UInt64) : AddOrderMessage where
  stockLocate := 0
  tracking := 0
  timestamp := 1
  reference := reference
  side := .bid
  shares := 100
  stock := [0, 0, 0, 0, 0, 0, 0, 0]
  price := 1000
  timestamp_lt := by decide
  shares_pos := by decide
  stock_length := rfl
  price_pos := by decide

theorem timestamp_misread :
    (¬ ∃ u stats, ITCHParser.parse .little Statistics.zero (oneNs 1).encode = pure (some u, stats) ∧ (oneNs 1).Decodes u) ∧
      (∃ u stats, ITCHParser.parse .little Statistics.zero (oneNs 1).encode = pure (some u, stats) ∧ u.timestampNs = 65536) ∧
      ∃ u stats, ITCHParser.parse .little Statistics.zero (oneNs (2 ^ 48)).encode = pure (some u, stats) ∧
        u.timestampNs = 65537 := by
  have hfirst := ITCHParser.parse_encode .little (oneNs 1) Statistics.zero
  have hread : (oneNs 1).update.timestampNs = 65536 := by decide
  refine ⟨?_, ⟨_, _, hfirst, hread⟩, ⟨_, _, ITCHParser.parse_encode .little (oneNs (2 ^ 48)) Statistics.zero, by decide⟩⟩
  rintro ⟨u, stats, hrun, hu⟩
  rw [hfirst] at hrun
  have hupdate : (oneNs 1).update = u := Option.some.inj (Prod.ext_iff.1 (Exec.pure_inj hrun)).1
  rw [hupdate, hu.timestampNs] at hread
  exact absurd hread (by decide)

end TradeCore
