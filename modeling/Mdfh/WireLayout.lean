import Mdfh.Codec
import Mdfh.Library.Layout

/-!
# The documented wire layout

The tables of `docs/protocol.md`, row by row, and the encoder measured against them: each
field at its documented offset, no gap, no overlap, and nothing written behind the frame.

## Main definitions

* `documentedType` — the type code and the body size of a message.
* `wireLayout` — the fields of a frame with the values that a message puts there.

## Main results

* `render_wireLayout` — the bytes of a frame are those of its table.
* `encodeMessage_layout` — what the encoder does to a span of any size.
-/

namespace Mdfh

open Library.LittleEndian Library.Layout

/-! ## The tables -/

/-- A price on the wire is its two's complement. -/
def twosComplement (p : Price) : Nat := (p.toInt % 2 ^ 64).toNat

/-- The table of message types. -/
def documentedType : Body → Nat × Nat
  | .heartbeat => (0, 0)
  | .addOrder _ => (1, 25)
  | .cancelOrder _ => (2, 12)
  | .modifyOrder _ => (3, 24)
  | .trade _ => (4, 25)
  | .bookSnapshot _ => (5, 128)

def headerLayout (seq : Sequence) (ts : TimestampNs) (body : Body) : List Field :=
  [⟨0, 1, (documentedType body).1⟩, ⟨1, 1, 1⟩, ⟨2, 2, (documentedType body).2⟩,
    ⟨4, 4, seq.toNat⟩, ⟨8, 8, ts.toNat⟩]

/-- Levels of 12 bytes from an offset on. -/
def levelsLayout (off : Nat) : List SnapshotLevel → List Field
  | [] => []
  | l :: ls =>
    ⟨off, 8, twosComplement l.price⟩ :: ⟨off + 8, 4, l.quantity.toNat⟩ ::
      levelsLayout (off + 12) ls

/-- Offsets count from the first byte of the body. -/
def bodyLayout : Body → List Field
  | .addOrder m =>
    [⟨0, 4, m.symbol.toNat⟩, ⟨4, 8, m.orderId.toNat⟩, ⟨12, 1, m.side.toByte.toNat⟩,
      ⟨13, 8, twosComplement m.price⟩, ⟨21, 4, m.quantity.toNat⟩]
  | .cancelOrder m => [⟨0, 4, m.symbol.toNat⟩, ⟨4, 8, m.orderId.toNat⟩]
  | .modifyOrder m =>
    [⟨0, 4, m.symbol.toNat⟩, ⟨4, 8, m.orderId.toNat⟩, ⟨12, 8, twosComplement m.newPrice⟩,
      ⟨20, 4, m.newQuantity.toNat⟩]
  | .trade m =>
    [⟨0, 4, m.symbol.toNat⟩, ⟨4, 8, m.restingOrderId.toNat⟩, ⟨12, 8, twosComplement m.price⟩,
      ⟨20, 4, m.quantity.toNat⟩, ⟨24, 1, m.aggressorSide.toByte.toNat⟩]
  | .bookSnapshot m =>
    -- The field at 6 is the two reserved bytes.
    [⟨0, 4, m.symbol.toNat⟩, ⟨4, 1, m.numBidLevels.toNat⟩, ⟨5, 1, m.numAskLevels.toNat⟩,
      ⟨6, 2, 0⟩] ++ (levelsLayout 8 m.bids.val ++ levelsLayout 68 m.asks.val)
  | .heartbeat => []

def wireLayout (seq : Sequence) (ts : TimestampNs) (body : Body) : List Field :=
  headerLayout seq ts body ++ (bodyLayout body).map (.shift 16)

/-! ## Scalars on the wire -/

theorem wire_u8 (v : UInt8) : wire v = bytes 1 v.toNat := by simp [wire, size, Scalar.toU]

theorem wire_u16 (v : UInt16) : wire v = bytes 2 v.toNat := by simp [wire, size, Scalar.toU]

theorem wire_u32 (v : UInt32) : wire v = bytes 4 v.toNat := by simp [wire, size, Scalar.toU]

theorem wire_u64 (v : UInt64) : wire v = bytes 8 v.toNat := rfl

theorem wire_side (v : Side) : wire v = bytes 1 v.toByte.toNat := by
  simp [wire, size, Scalar.toU]

theorem wire_price (v : Price) : wire v = bytes 8 (twosComplement v) := by
  have hint : v.toInt = if 2 * v.toUInt64.toNat < 2 ^ 64 then (v.toUInt64.toNat : Int)
      else v.toUInt64.toNat - (2 ^ 64 : Nat) := BitVec.toInt_eq_toNat_cond v.toBitVec
  have hlt := v.toUInt64.toNat_lt
  have hword : v.toUInt64.toNat = twosComplement v := by
    rw [twosComplement, hint]
    split <;> omega
  exact congrArg (bytes 8) hword

/-! ## The tables tile the frame -/

theorem levelsLayout_tiles (off : Nat) (ls : List SnapshotLevel) :
    Tiles off (off + 12 * ls.length) (levelsLayout off ls) := by
  induction ls generalizing off with
  | nil => rfl
  | cons l ls ih =>
    refine ⟨rfl, rfl, ?_⟩
    have := ih (off + 12)
    rwa [List.length_cons, Nat.mul_succ, Nat.add_comm _ 12, ← Nat.add_assoc]

theorem bodyLayout_tiles (body : Body) : Tiles 0 (documentedType body).2 (bodyLayout body) := by
  cases body with
  | addOrder m => exact ⟨rfl, rfl, rfl, rfl, rfl, rfl⟩
  | cancelOrder m => exact ⟨rfl, rfl, rfl⟩
  | modifyOrder m => exact ⟨rfl, rfl, rfl, rfl, rfl⟩
  | trade m => exact ⟨rfl, rfl, rfl, rfl, rfl, rfl⟩
  | bookSnapshot m =>
    have hbids := levelsLayout_tiles 8 m.bids.val
    have hasks := levelsLayout_tiles 68 m.asks.val
    rw [m.bids.property] at hbids
    rw [m.asks.property] at hasks
    exact ⟨rfl, rfl, rfl, rfl, hbids.append hasks⟩
  | heartbeat => rfl

theorem wireLayout_tiles (seq : Sequence) (ts : TimestampNs) (body : Body) :
    Tiles 0 (16 + (documentedType body).2) (wireLayout seq ts body) := by
  have hheader : Tiles 0 16 (headerLayout seq ts body) := ⟨rfl, rfl, rfl, rfl, rfl, rfl⟩
  exact hheader.append ((bodyLayout_tiles body).shift 16)

/-- The size table of the code is the documented one. -/
theorem bodySizeFor_documented (body : Body) :
    bodySizeFor (msgTypeOf body) = (documentedType body).2 := by
  cases body <;> rfl

theorem render_levelsLayout (off : Nat) (ls : List SnapshotLevel) :
    render (levelsLayout off ls) = ls.flatMap levelBytes := by
  induction ls generalizing off with
  | nil => rfl
  | cons l ls ih =>
    simp [levelsLayout, levelBytes, ih, wire_price, wire_u32]

theorem render_bodyLayout (body : Body) : render (bodyLayout body) = bodyBytes body := by
  cases body with
  | bookSnapshot m =>
    simp [bodyLayout, bodyBytes, render_append, render_levelsLayout, wire_u8, wire_u16, wire_u32]
  | _ => simp [bodyLayout, bodyBytes, wire_u32, wire_u64, wire_side, wire_price]

theorem render_wireLayout (seq : Sequence) (ts : TimestampNs) (body : Body) :
    render (wireLayout seq ts body) = frameBytes seq ts body := by
  have hheader : render (headerLayout seq ts body) = headerBytes (msgTypeOf body)
      kProtocolVersion (UInt16.ofNat (bodySizeFor (msgTypeOf body))) seq ts := by
    simp only [headerLayout, headerBytes, wire_u8, wire_u16, wire_u32, wire_u64, render_cons,
      render_nil, List.append_nil]
    cases body <;> rfl
  rw [wireLayout, render_append, render_shift, render_bodyLayout, hheader, frameBytes]

/-! ## The encoder -/

/-- For every message and every span. If the frame fits, the encoder returns its length, each
byte of it is that of the one field of the table that covers it, and the bytes behind stay as
they were. Otherwise it returns zero and changes nothing. -/
theorem encodeMessage_layout (out : List UInt8) (seq : Sequence) (ts : TimestampNs) (body : Body) :
    let total := 16 + bodySizeFor (msgTypeOf body)
    let r := encodeMessage out seq ts body
    total ≤ kMaxMessageSize ∧
      (total ≤ out.length →
        r.1 = total ∧ r.2.length = out.length ∧
        (∀ k < total, ∃! f, f ∈ wireLayout seq ts body ∧ f.Covers k) ∧
        (∀ f ∈ wireLayout seq ts body, ∀ k, f.Covers k →
          k < total ∧ r.2[k]? = some (f.byteAt k)) ∧
        ∀ k, total ≤ k → r.2[k]? = out[k]?) ∧
      (out.length < total → r = (0, out)) := by
  intro total r
  have htiles : Tiles 0 total (wireLayout seq ts body) := by
    have := wireLayout_tiles seq ts body
    rwa [← bodySizeFor_documented] at this
  have hlen : (frameBytes seq ts body).length = total := length_frameBytes seq ts body
  refine ⟨Nat.add_le_add_left (bodySizeFor_le _) 16, ?_, ?_⟩
  · intro hfits
    have hr : r = (total, frameBytes seq ts body ++ out.drop total) := encodeMessage_eq seq ts body hfits
    rw [hr]
    refine ⟨rfl, ?_, fun k hk => htiles.existsUnique (Nat.zero_le k) hk, ?_, ?_⟩
    · rw [List.length_append, hlen, List.length_drop]
      omega
    · intro f hf k hk
      have hinside := (htiles.inside hf).2
      have hbyte := htiles.getElem?_render hf hk
      have hlt : k < total := by grind
      refine ⟨hlt, ?_⟩
      rw [List.getElem?_append_left (hlen ▸ hlt), ← render_wireLayout]
      exact hbyte
    · intro k hk
      rw [List.getElem?_append_right (hlen ▸ hk), hlen, List.getElem?_drop]
      congr 1
      omega
  · intro hshort
    exact if_pos hshort

end Mdfh
