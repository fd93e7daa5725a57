import Mdfh.Library.LittleEndian
import Mdfh.Protocol

/-!
# Byte-exact framing

The scalar loops of the codec and the encoders and decoders of the header and of
the six bodies. A load carries the proof that it stays inside its span, so a
decoder that reads out of bounds cannot be written down.

## Main definitions

* `Scalar` — the integer and enumeration types the codec moves.
* `storeLe`, `loadLe` — the byte loops.
* `encodeMessage`, `decodeHeader`, `decodeBody` — the message codec.
-/

namespace Mdfh

open Library.LittleEndian

/-- A trivially copyable scalar: its width in bytes and the casts to and from the
widened unsigned integer. -/
class Scalar (T : Type) where
  size : Nat
  toU : T → UInt64
  ofU : UInt64 → T
  size_le : size ≤ 8
  toU_lt (v : T) : (toU v).toNat < 256 ^ size
  ofU_toU (v : T) : ofU (toU v) = v
  toU_ofU (u : UInt64) : u.toNat < 256 ^ size → toU (ofU u) = u

export Scalar (size)

instance : Scalar UInt8 where
  size := 1
  toU v := v.toUInt64
  ofU u := u.toUInt8
  size_le := by decide
  toU_lt v := by simpa using v.toNat_lt
  ofU_toU v := by simp
  toU_ofU u h := by
    apply UInt64.toNat_inj.mp
    simp at h ⊢
    omega

instance : Scalar UInt16 where
  size := 2
  toU v := v.toUInt64
  ofU u := u.toUInt16
  size_le := by decide
  toU_lt v := by simpa using v.toNat_lt
  ofU_toU v := by simp
  toU_ofU u h := by
    apply UInt64.toNat_inj.mp
    simp at h ⊢
    omega

instance : Scalar UInt32 where
  size := 4
  toU v := v.toUInt64
  ofU u := u.toUInt32
  size_le := by decide
  toU_lt v := by simpa using v.toNat_lt
  ofU_toU v := by simp
  toU_ofU u h := by
    apply UInt64.toNat_inj.mp
    simp at h ⊢
    omega

instance : Scalar UInt64 where
  size := 8
  toU v := v
  ofU u := u
  size_le := by decide
  toU_lt v := by simpa using v.toNat_lt
  ofU_toU _ := rfl
  toU_ofU _ _ := rfl

instance : Scalar Int64 where
  size := 8
  toU v := v.toUInt64
  ofU u := u.toInt64
  size_le := by decide
  toU_lt v := by simpa using v.toUInt64.toNat_lt
  ofU_toU v := by simp
  toU_ofU u _ := by simp

instance : Scalar Side where
  size := 1
  toU v := v.toByte.toUInt64
  ofU u := ⟨u.toUInt8⟩
  size_le := by decide
  toU_lt v := by simpa using v.toByte.toNat_lt
  ofU_toU v := by simp
  toU_ofU u h := by
    apply UInt64.toNat_inj.mp
    simp at h ⊢
    omega

/-! ## Stores -/

/-- A pointer into an output span, with the span it points into. -/
structure Cursor where
  buf : List UInt8
  pos : Nat

def storeLoop (dst : List UInt8) (p : Nat) : Nat → UInt64 → List UInt8
  | 0, _ => dst
  | n + 1, u => storeLoop (dst.set p (u &&& 0xFF).toUInt8) (p + 1) n (u >>> 8)

def Cursor.storeLe {T : Type} [Scalar T] (c : Cursor) (value : T) : Cursor :=
  ⟨storeLoop c.buf c.pos (size T) (Scalar.toU value), c.pos + size T⟩

def encodeHeader (p : Cursor) (type : MsgType) (seq : Sequence) (ts : TimestampNs) : Cursor :=
  p.storeLe type.toByte
    |>.storeLe kProtocolVersion
    |>.storeLe (UInt16.ofNat (bodySizeFor type))
    |>.storeLe seq
    |>.storeLe ts

/-- The loop over the five levels of one side. -/
def encodeLevels (p : Cursor) (ls : List SnapshotLevel) : Cursor :=
  ls.foldl (fun p lvl => p.storeLe lvl.price |>.storeLe lvl.quantity) p

def encodeBody (p : Cursor) : Body → Cursor
  | .addOrder m =>
    p.storeLe m.symbol |>.storeLe m.orderId |>.storeLe m.side |>.storeLe m.price
      |>.storeLe m.quantity
  | .cancelOrder m => p.storeLe m.symbol |>.storeLe m.orderId
  | .modifyOrder m =>
    p.storeLe m.symbol |>.storeLe m.orderId |>.storeLe m.newPrice |>.storeLe m.newQuantity
  | .trade m =>
    p.storeLe m.symbol |>.storeLe m.restingOrderId |>.storeLe m.price |>.storeLe m.quantity
      |>.storeLe m.aggressorSide
  | .bookSnapshot m =>
    let p := p.storeLe m.symbol |>.storeLe m.numBidLevels |>.storeLe m.numAskLevels
      |>.storeLe (0 : UInt16)
    encodeLevels (encodeLevels p m.bids.val) m.asks.val
  | .heartbeat => p

/-- Encode a full framed message into `out`: the number of bytes written (0 if `out` is
too small) and the span afterwards. -/
def encodeMessage (out : List UInt8) (seq : Sequence) (ts : TimestampNs) (body : Body) :
    Nat × List UInt8 :=
  let type := msgTypeOf body
  let total := kHeaderWireSize + bodySizeFor type
  if out.length < total then (0, out)
  else
    let p := encodeHeader ⟨out, 0⟩ type seq ts
    (total, (encodeBody p body).buf)

/-- The bytes of one framed message, as its callers obtain them: encode into a zeroed
buffer of maximal size and keep the length returned. -/
def encodeFrame (seq : Sequence) (ts : TimestampNs) (body : Body) : List UInt8 :=
  let (n, buf) := encodeMessage (List.replicate kMaxMessageSize 0) seq ts body
  buf.take n

/-! ## Loads -/

def loadLoop (src : List UInt8) (off : Nat) : (i : Nat) → off + i ≤ src.length → UInt64
  | 0, _ => 0
  | i + 1, h =>
    loadLoop src off i (by omega) |||
      ((src.get ⟨off + i, by omega⟩).toUInt64 <<< UInt64.ofNat (8 * i))

def loadLe (T : Type) [Scalar T] (src : List UInt8) (off : Nat)
    (h : off + size T ≤ src.length) : T :=
  Scalar.ofU (loadLoop src off (size T) h)

/-- `std::span::subspan`, whose precondition is that the range lies inside the span. -/
def subspan (buf : List UInt8) (off n : Nat) (_h : off + n ≤ buf.length) : List UInt8 :=
  (buf.drop off).take n

@[simp] theorem length_subspan {buf : List UInt8} {off n : Nat} (h : off + n ≤ buf.length) :
    (subspan buf off n h).length = n := by
  simp [subspan]; omega

theorem subspan_fits {buf : List UInt8} {off n : Nat} (h : ¬off + n > buf.length) :
    off + n ≤ buf.length := Nat.not_lt.mp h

theorem length_subspan_le {buf : List UInt8} {off n m : Nat} (h : ¬off + n > buf.length)
    (hn : ¬n > m) : (subspan buf off n (subspan_fits h)).length ≤ m := by
  rw [length_subspan]
  exact Nat.not_lt.mp hn

theorem inside {b : List UInt8} {n k : Nat} (h : ¬b.length < n) (hk : k ≤ n) :
    k ≤ b.length := by omega

/-- `none` is the source's `false`: too short, or an invalid type byte. -/
def decodeHeader (buf : List UInt8) : Option MessageHeader :=
  if h : buf.length < kHeaderWireSize then none
  else
    let rawType := loadLe UInt8 buf 0 (inside h (by decide))
    if !isValidMsgType rawType then none
    else some
      { type := MsgType.ofByte rawType
        version := loadLe UInt8 buf 1 (inside h (by decide))
        bodySize := loadLe UInt16 buf 2 (inside h (by decide))
        sequence := loadLe UInt32 buf 4 (inside h (by decide))
        timestamp := loadLe UInt64 buf 8 (inside h (by decide)) }

def decodeAddOrder (b : List UInt8) : Option AddOrder :=
  if h : b.length < kAddOrderBodySize then none
  else some
    { symbol := loadLe UInt32 b 0 (inside h (by decide))
      orderId := loadLe UInt64 b 4 (inside h (by decide))
      side := loadLe Side b 12 (inside h (by decide))
      price := loadLe Int64 b 13 (inside h (by decide))
      quantity := loadLe UInt32 b 21 (inside h (by decide)) }

def decodeCancelOrder (b : List UInt8) : Option CancelOrder :=
  if h : b.length < kCancelOrderBodySize then none
  else some
    { symbol := loadLe UInt32 b 0 (inside h (by decide))
      orderId := loadLe UInt64 b 4 (inside h (by decide)) }

def decodeModifyOrder (b : List UInt8) : Option ModifyOrder :=
  if h : b.length < kModifyOrderBodySize then none
  else some
    { symbol := loadLe UInt32 b 0 (inside h (by decide))
      orderId := loadLe UInt64 b 4 (inside h (by decide))
      newPrice := loadLe Int64 b 12 (inside h (by decide))
      newQuantity := loadLe UInt32 b 20 (inside h (by decide)) }

def decodeTrade (b : List UInt8) : Option Trade :=
  if h : b.length < kTradeBodySize then none
  else some
    { symbol := loadLe UInt32 b 0 (inside h (by decide))
      restingOrderId := loadLe UInt64 b 4 (inside h (by decide))
      price := loadLe Int64 b 12 (inside h (by decide))
      quantity := loadLe UInt32 b 20 (inside h (by decide))
      aggressorSide := loadLe Side b 24 (inside h (by decide)) }

/-- The loop over the levels of one side; the cursor advances by 12 per level. -/
def decodeLevels (b : List UInt8) :
    (n off : Nat) → off + 12 * n ≤ b.length → { ls : List SnapshotLevel // ls.length = n }
  | 0, _, _ => ⟨[], rfl⟩
  | n + 1, off, h =>
    let lvl : SnapshotLevel :=
      { price := loadLe Int64 b off (by simp only [size]; omega)
        quantity := loadLe UInt32 b (off + 8) (by simp only [size]; omega) }
    let rest := decodeLevels b n (off + 12) (by omega)
    ⟨lvl :: rest.val, by simp [rest.property]⟩

def decodeBookSnapshot (b : List UInt8) : Option BookSnapshot :=
  if h : b.length < kSnapshotBodySize then none
  else some
    { symbol := loadLe UInt32 b 0 (inside h (by decide))
      numBidLevels := loadLe UInt8 b 4 (inside h (by decide))
      numAskLevels := loadLe UInt8 b 5 (inside h (by decide))
      bids := decodeLevels b kMaxSnapshotLevels 8 (inside h (by decide))
      asks := decodeLevels b kMaxSnapshotLevels 68 (inside h (by decide)) }

/-- The overload that decodes the body of a given type. -/
def decodeBody : MsgType → List UInt8 → Option Body
  | .addOrder, b => (decodeAddOrder b).map .addOrder
  | .cancelOrder, b => (decodeCancelOrder b).map .cancelOrder
  | .modifyOrder, b => (decodeModifyOrder b).map .modifyOrder
  | .trade, b => (decodeTrade b).map .trade
  | .bookSnapshot, b => (decodeBookSnapshot b).map .bookSnapshot
  | .heartbeat, _ => some .heartbeat

end Mdfh
