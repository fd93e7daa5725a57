import Mathlib.Data.List.Basic
import Mathlib.Data.UInt
import Mathlib.Tactic

/-!
# The market-data wire protocol

Core value types, message bodies and sizes. Every message is a 16-byte header
followed by a body whose size is fixed by its type. The structures below are the
decoded, in-memory representation; the byte layout is in `Serialization`.
-/

namespace Mdfh

/-! ## Core value types -/

/-- Scaled fixed-point price. -/
abbrev Price := Int64
abbrev Quantity := UInt32
abbrev OrderId := UInt64
abbrev SymbolId := UInt32
abbrev Sequence := UInt32
abbrev TimestampNs := UInt64

def kPriceScale : Int64 := 10000

/-- An enumeration over a byte. Its two named values are `buy` and `sell`, but the
decoder casts whatever byte arrives, so all 256 values occur. -/
structure Side where
  toByte : UInt8
  deriving DecidableEq, Repr, Inhabited

def Side.buy : Side := ⟨0⟩
def Side.sell : Side := ⟨1⟩

def opposite (s : Side) : Side := if s = .buy then .sell else .buy

/-! ## Header -/

def kProtocolVersion : UInt8 := 1

inductive MsgType where
  | heartbeat | addOrder | cancelOrder | modifyOrder | trade | bookSnapshot
  deriving DecidableEq, Repr

def MsgType.toByte : MsgType → UInt8
  | .heartbeat => 0
  | .addOrder => 1
  | .cancelOrder => 2
  | .modifyOrder => 3
  | .trade => 4
  | .bookSnapshot => 5

def isValidMsgType (v : UInt8) : Bool := v ≤ MsgType.bookSnapshot.toByte

/-- The cast from a byte; only ever applied to a valid one. -/
def MsgType.ofByte (v : UInt8) : MsgType :=
  if v = 0 then .heartbeat
  else if v = 1 then .addOrder
  else if v = 2 then .cancelOrder
  else if v = 3 then .modifyOrder
  else if v = 4 then .trade
  else .bookSnapshot

@[simp] theorem isValidMsgType_toByte (t : MsgType) : isValidMsgType t.toByte = true := by
  cases t <;> decide

@[simp] theorem MsgType.ofByte_toByte (t : MsgType) : ofByte t.toByte = t := by
  cases t <;> decide

theorem MsgType.toByte_ofByte {v : UInt8} (h : isValidMsgType v = true) :
    (ofByte v).toByte = v := by
  simp only [isValidMsgType, MsgType.toByte, decide_eq_true_eq, UInt8.le_iff_toNat_le] at h
  unfold ofByte
  split_ifs with h0 h1 h2 h3 h4
  · exact h0.symm
  · exact h1.symm
  · exact h2.symm
  · exact h3.symm
  · exact h4.symm
  · simp only [← UInt8.toNat_inj] at h0 h1 h2 h3 h4 ⊢
    simp only [MsgType.toByte]
    simp at h h0 h1 h2 h3 h4 ⊢
    omega

structure MessageHeader where
  type : MsgType := .heartbeat
  version : UInt8 := kProtocolVersion
  bodySize : UInt16 := 0
  sequence : Sequence := 0
  timestamp : TimestampNs := 0
  deriving DecidableEq, Repr

abbrev kHeaderWireSize : Nat := 16

/-! ## Message bodies -/

structure AddOrder where
  symbol : SymbolId := 0
  orderId : OrderId := 0
  side : Side := .buy
  price : Price := 0
  quantity : Quantity := 0
  deriving DecidableEq, Repr

abbrev kAddOrderBodySize : Nat := 25

structure CancelOrder where
  symbol : SymbolId := 0
  orderId : OrderId := 0
  deriving DecidableEq, Repr

abbrev kCancelOrderBodySize : Nat := 12

structure ModifyOrder where
  symbol : SymbolId := 0
  orderId : OrderId := 0
  newPrice : Price := 0
  newQuantity : Quantity := 0
  deriving DecidableEq, Repr

abbrev kModifyOrderBodySize : Nat := 24

structure Trade where
  symbol : SymbolId := 0
  restingOrderId : OrderId := 0
  price : Price := 0
  quantity : Quantity := 0
  aggressorSide : Side := .buy
  deriving DecidableEq, Repr

abbrev kTradeBodySize : Nat := 25

abbrev kMaxSnapshotLevels : Nat := 5

structure SnapshotLevel where
  price : Price := 0
  quantity : Quantity := 0
  deriving DecidableEq, Repr

/-- A `std::array` of five levels: the length is part of the type. -/
abbrev SnapshotLevels := { ls : List SnapshotLevel // ls.length = kMaxSnapshotLevels }

/-- The zero-filled array. -/
def SnapshotLevels.zero : SnapshotLevels := ⟨List.replicate kMaxSnapshotLevels {}, rfl⟩

structure BookSnapshot where
  symbol : SymbolId := 0
  numBidLevels : UInt8 := 0
  numAskLevels : UInt8 := 0
  bids : SnapshotLevels := SnapshotLevels.zero
  asks : SnapshotLevels := SnapshotLevels.zero
  deriving DecidableEq, Repr

abbrev kSnapshotBodySize : Nat := 8 + 2 * kMaxSnapshotLevels * 12

abbrev kHeartbeatBodySize : Nat := 0

/-- Largest framed message. -/
abbrev kMaxMessageSize : Nat := kHeaderWireSize + kSnapshotBodySize

def bodySizeFor : MsgType → Nat
  | .heartbeat => kHeartbeatBodySize
  | .addOrder => kAddOrderBodySize
  | .cancelOrder => kCancelOrderBodySize
  | .modifyOrder => kModifyOrderBodySize
  | .trade => kTradeBodySize
  | .bookSnapshot => kSnapshotBodySize

/-- A body of any of the six types; the source overloads on the type instead. -/
inductive Body where
  | addOrder (m : AddOrder)
  | cancelOrder (m : CancelOrder)
  | modifyOrder (m : ModifyOrder)
  | trade (m : Trade)
  | bookSnapshot (m : BookSnapshot)
  | heartbeat
  deriving DecidableEq, Repr

def msgTypeOf : Body → MsgType
  | .addOrder _ => .addOrder
  | .cancelOrder _ => .cancelOrder
  | .modifyOrder _ => .modifyOrder
  | .trade _ => .trade
  | .bookSnapshot _ => .bookSnapshot
  | .heartbeat => .heartbeat

theorem bodySizeFor_le (t : MsgType) : bodySizeFor t ≤ kSnapshotBodySize := by
  cases t <;> decide

end Mdfh
