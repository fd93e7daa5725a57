import Mdfh.Stream

/-!
# Encoding undoes decoding

Every decoder reads each byte of its layout exactly once, the reserved bytes of a snapshot
excepted, and the parser dispatches a message only when its header has the version and the
size that the encoder would write. So a dispatched message encodes to the bytes of its
frame, with the reserved bytes zeroed.

## Main definitions

* `frameAt` — the bytes of a frame in its buffer.
* `blankReserved` — a frame with the reserved bytes zeroed.

## Main results

* `bodyBytes_of_decodeBody` — encoding a decoded body.
* `encode_dispatched` — encoding what the parser dispatches from any buffer.
-/

namespace Mdfh

open Library Library.LittleEndian

/-! ## Bodies -/

theorem bodyBytes_of_decodeAddOrder {b : List UInt8} {m : AddOrder}
    (hlen : b.length = kAddOrderBodySize) (h : decodeAddOrder b = some m) :
    bodyBytes (.addOrder m) = b := by
  rw [decodeAddOrder, dif_neg (by omega)] at h
  cases h
  exact wire_cons 0 _ (wire_cons 4 _ (wire_cons 12 _ (wire_cons 13 _ (wire_last 21 _ hlen))))

theorem bodyBytes_of_decodeCancelOrder {b : List UInt8} {m : CancelOrder}
    (hlen : b.length = kCancelOrderBodySize) (h : decodeCancelOrder b = some m) :
    bodyBytes (.cancelOrder m) = b := by
  rw [decodeCancelOrder, dif_neg (by omega)] at h
  cases h
  exact wire_cons 0 _ (wire_last 4 _ hlen)

theorem bodyBytes_of_decodeModifyOrder {b : List UInt8} {m : ModifyOrder}
    (hlen : b.length = kModifyOrderBodySize) (h : decodeModifyOrder b = some m) :
    bodyBytes (.modifyOrder m) = b := by
  rw [decodeModifyOrder, dif_neg (by omega)] at h
  cases h
  exact wire_cons 0 _ (wire_cons 4 _ (wire_cons 12 _ (wire_last 20 _ hlen)))

theorem bodyBytes_of_decodeTrade {b : List UInt8} {m : Trade}
    (hlen : b.length = kTradeBodySize) (h : decodeTrade b = some m) :
    bodyBytes (.trade m) = b := by
  rw [decodeTrade, dif_neg (by omega)] at h
  cases h
  exact wire_cons 0 _ (wire_cons 4 _ (wire_cons 12 _ (wire_cons 20 _ (wire_last 24 _ hlen))))

/-- The levels of one side, put back in front of the bytes behind them. -/
theorem levels_cons {b rest : List UInt8} (n off : Nat) (h : off + 12 * n ≤ b.length)
    (hrest : rest = b.drop (off + 12 * n)) :
    (decodeLevels b n off h).val.flatMap levelBytes ++ rest = b.drop off := by
  induction n generalizing off with
  | zero => exact hrest
  | succ n ih =>
    have hnext := ih (off + 12) (by omega) (by rw [hrest]; congr 1; omega)
    simp only [decodeLevels, List.flatMap_cons, levelBytes, List.append_assoc]
    exact wire_cons off _ (wire_cons (off + 8) _ hnext)

/-- A snapshot body with its two reserved bytes zeroed. -/
theorem bodyBytes_of_decodeBookSnapshot {b : List UInt8} {m : BookSnapshot}
    (hlen : b.length = kSnapshotBodySize) (h : decodeBookSnapshot b = some m) :
    bodyBytes (.bookSnapshot m) = (b.set 6 0).set 7 0 := by
  rw [decodeBookSnapshot, dif_neg (by omega)] at h
  cases h
  have hasks := levels_cons kMaxSnapshotLevels 68 (by rw [hlen]; decide)
    (List.drop_eq_nil_of_le hlen.le).symm
  rw [List.append_nil] at hasks
  have hback := levels_cons kMaxSnapshotLevels 8 (by rw [hlen]; decide) hasks
  have hfront : _ = b := wire_cons (T := UInt32) 0 (by rw [hlen]; decide)
    (wire_cons (T := UInt8) 4 (by rw [hlen]; decide)
      (wire_cons (T := UInt8) 5 (by rw [hlen]; decide) rfl))
  -- The fields in front of the reserved bytes are the first six bytes.
  simp only [← List.append_assoc] at hfront
  have htake := List.append_cancel_right (hfront.trans (List.take_append_drop 6 b).symm)
  have hfits : 6 + [(0 : UInt8), 0].length ≤ b.length := by rw [hlen]; decide
  calc bodyBytes _ = b.take 6 ++ [0, 0] ++ b.drop 8 := by
        simp only [bodyBytes, hback, ← htake, List.append_assoc]
        rfl
    _ = overwrite b 6 [0, 0] := (overwrite_eq hfits).symm

/-- Zero the bytes at 6 and 7 from an offset on, if the message is a snapshot. -/
def blankFrom (off : Nat) (type : MsgType) (b : List UInt8) : List UInt8 :=
  if type = .bookSnapshot then (b.set (off + 6) 0).set (off + 7) 0 else b

/-- A frame with the reserved bytes of a snapshot body zeroed. -/
def blankReserved (type : MsgType) (frame : List UInt8) : List UInt8 :=
  blankFrom kHeaderWireSize type frame

theorem blankReserved_append {type : MsgType} {front : List UInt8}
    (hfront : front.length = kHeaderWireSize) (b : List UInt8) :
    blankReserved type (front ++ b) = front ++ blankFrom 0 type b := by
  unfold blankReserved blankFrom
  split
  · rw [List.set_append_right _ _ (by omega), List.set_append_right _ _ (by omega), hfront]
    simp
  · rfl

/-- A decoded body is of the type asked for and encodes to the bytes it was read from. -/
theorem bodyBytes_of_decodeBody {type : MsgType} {b : List UInt8} {body : Body}
    (hlen : b.length = bodySizeFor type) (h : decodeBody type b = some body) :
    msgTypeOf body = type ∧ bodyBytes body = blankFrom 0 type b := by
  cases type with
  | addOrder =>
    obtain ⟨m, hm, rfl⟩ := Option.map_eq_some_iff.mp h
    exact ⟨rfl, bodyBytes_of_decodeAddOrder hlen hm⟩
  | cancelOrder =>
    obtain ⟨m, hm, rfl⟩ := Option.map_eq_some_iff.mp h
    exact ⟨rfl, bodyBytes_of_decodeCancelOrder hlen hm⟩
  | modifyOrder =>
    obtain ⟨m, hm, rfl⟩ := Option.map_eq_some_iff.mp h
    exact ⟨rfl, bodyBytes_of_decodeModifyOrder hlen hm⟩
  | trade =>
    obtain ⟨m, hm, rfl⟩ := Option.map_eq_some_iff.mp h
    exact ⟨rfl, bodyBytes_of_decodeTrade hlen hm⟩
  | bookSnapshot =>
    obtain ⟨m, hm, rfl⟩ := Option.map_eq_some_iff.mp h
    exact ⟨rfl, bodyBytes_of_decodeBookSnapshot hlen hm⟩
  | heartbeat =>
    cases h
    exact ⟨rfl, (List.length_eq_zero_iff.mp hlen).symm⟩

/-! ## Frames -/

/-- The header checks pin the version and the size to what the encoder writes. -/
theorem frameBytes_of_verdict {hdr hdr' : MessageHeader} {payload : List UInt8} {body : Body}
    (hlen : payload.length = hdr.bodySize.toNat) (h : verdict hdr payload = some (hdr', body)) :
    hdr' = hdr ∧
      frameBytes hdr.sequence hdr.timestamp body = blankReserved hdr.type (hdr.bytes ++ payload) := by
  unfold verdict at h
  split at h
  · simp at h
  next hok =>
    obtain ⟨hsize, hversion⟩ := not_or.mp hok
    rw [not_not] at hsize hversion
    obtain ⟨body', hbody, heq⟩ := Option.map_eq_some_iff.mp h
    obtain ⟨rfl, rfl⟩ := Prod.mk.inj heq
    obtain ⟨htype, hbytes⟩ := bodyBytes_of_decodeBody (hlen.trans hsize) hbody
    refine ⟨rfl, ?_⟩
    have hword : UInt16.ofNat (bodySizeFor hdr.type) = hdr.bodySize := by
      rw [← hsize, UInt16.ofNat_toNat]
    rw [blankReserved_append hdr.length_bytes, ← hbytes, frameBytes, htype, hword, ← hversion]
    rfl

/-- The bytes of the frame at an offset. -/
def frameAt (buf : List UInt8) (off : Nat) (hdr : MessageHeader) : List UInt8 :=
  (buf.drop off).take (kHeaderWireSize + hdr.bodySize.toNat)

theorem frameBytes_of_mem_units {buf : List UInt8} {off : Nat} {hdr : MessageHeader} {body : Body}
    (h : (off, some (hdr, body)) ∈ (frameScanner.scan buf).units) :
    (frameAt buf off hdr).length = kHeaderWireSize + hdr.bodySize.toNat ∧
      frameBytes hdr.sequence hdr.timestamp body = blankReserved hdr.type (frameAt buf off hdr) := by
  obtain ⟨-, ⟨n, hlook⟩ | ⟨n, hlook⟩⟩ := frameScanner.look_of_mem_units h
  · obtain ⟨hdr', hdec, rfl, hle, hverdict⟩ := frameLook_unit_iff.mp hlook
    rw [Nat.sub_zero] at hdec hle hverdict
    have hpayload : (((buf.drop off).drop kHeaderWireSize).take hdr'.bodySize.toNat).length =
        hdr'.bodySize.toNat := by
      simp only [List.length_take, List.length_drop] at hle ⊢
      omega
    obtain ⟨rfl, hbytes⟩ := frameBytes_of_verdict hpayload hverdict.symm
    have hhead := bytes_of_decodeHeader (List.length_take_of_le (by omega)) hdec
    refine ⟨List.length_take_of_le hle, ?_⟩
    rw [hbytes, frameAt, hhead, List.take_add]
  · obtain ⟨-, -, -, hnone⟩ := frameLook_stop_iff.mp hlook
    cases hnone

theorem length_blankReserved (type : MsgType) (frame : List UInt8) :
    (blankReserved type frame).length = frame.length := by
  unfold blankReserved blankFrom
  split <;> simp

/-- For every buffer and every message that the parser dispatches from it, `encodeMessage`
puts the bytes of its frame into any span that has room for them, the reserved bytes zeroed.
So equal messages, from this or another buffer, come from equal frames outside those bytes. -/
theorem encode_dispatched (buf : List UInt8) :
    (BinaryParser.parse recorder [] buf).1 = (frameScanner.scan buf).units.map callbackOf ∧
      ∀ off hdr body, (off, some (hdr, body)) ∈ (frameScanner.scan buf).units →
        let frame := frameAt buf off hdr
        frame.length = kHeaderWireSize + hdr.bodySize.toNat ∧
        (∀ out, frame.length ≤ out.length →
          encodeMessage out hdr.sequence hdr.timestamp body =
            (frame.length, blankReserved hdr.type frame ++ out.drop frame.length)) ∧
        ∀ buf' off', (off', some (hdr, body)) ∈ (frameScanner.scan buf').units →
          blankReserved hdr.type (frameAt buf' off' hdr) = blankReserved hdr.type frame := by
  refine ⟨by rw [BinaryParser.parse_eq, recorder_deliverAll]; rfl, ?_⟩
  intro off hdr body h frame
  obtain ⟨hlen, hbytes⟩ := frameBytes_of_mem_units h
  refine ⟨hlen, ?_, ?_⟩
  · intro out hout
    have htotal : kHeaderWireSize + bodySizeFor (msgTypeOf body) = frame.length := by
      rw [← length_frameBytes hdr.sequence hdr.timestamp, hbytes, length_blankReserved]
    rw [encodeMessage_eq _ _ _ (htotal ▸ hout), htotal, hbytes]
  · intro buf' off' h'
    rw [← (frameBytes_of_mem_units h').2, ← hbytes]

end Mdfh
