import Mdfh.Framing

/-!
# Parsing encoded streams

A stream is a list of items, each an encoded message or a bad frame that can still be
skipped, followed by the beginning of a frame. The parser recovers the items.

## Main results

* `parse_stream` — parsing undoes encoding and isolates bad frames.
-/

namespace Mdfh

open Library

/-- A frame with a valid type byte: any header fields, and as many body bytes as declared. -/
structure RawFrame where
  header : MessageHeader
  payload : List UInt8
  length_payload : payload.length = header.bodySize.toNat

def MessageHeader.bytes (h : MessageHeader) : List UInt8 :=
  headerBytes h.type h.version h.bodySize h.sequence h.timestamp

def RawFrame.bytes (f : RawFrame) : List UInt8 := f.header.bytes ++ f.payload

@[simp] theorem MessageHeader.length_bytes (h : MessageHeader) : h.bytes.length = kHeaderWireSize :=
  length_headerBytes _ _ _ _ _

theorem RawFrame.length_bytes (f : RawFrame) :
    f.bytes.length = kHeaderWireSize + f.header.bodySize.toNat := by
  simp [RawFrame.bytes, f.length_payload]

@[simp] theorem decodeHeader_header (h : MessageHeader) : decodeHeader h.bytes = some h :=
  decodeHeader_bytes h.type h.version h.bodySize h.sequence h.timestamp

theorem take_wire {T : Type} [Scalar T] {b : List UInt8} (off : Nat) (h : off + size T ≤ b.length) :
    b.drop off = wire (loadLe T b off h) ++ b.drop (off + size T) := by
  rw [wire_loadLe, ← List.drop_drop, List.take_append_drop]

/-- A scalar put back in front of the bytes behind it. -/
theorem wire_cons {T : Type} [Scalar T] {b rest : List UInt8} (off : Nat)
    (h : off + size T ≤ b.length) (hrest : rest = b.drop (off + size T)) :
    wire (loadLe T b off h) ++ rest = b.drop off := by
  rw [hrest, take_wire off h]

/-- The last scalar of a span. -/
theorem wire_last {T : Type} [Scalar T] {b : List UInt8} (off : Nat) (h : off + size T ≤ b.length)
    (hend : b.length = off + size T) : wire (loadLe T b off h) = b.drop off := by
  rw [take_wire off h, List.drop_eq_nil_of_le hend.le, List.append_nil]

/-- Decoding a header reads every one of its bytes exactly once. -/
theorem bytes_of_decodeHeader {b : List UInt8} {h : MessageHeader} (hlen : b.length = kHeaderWireSize)
    (hdec : decodeHeader b = some h) : h.bytes = b := by
  unfold decodeHeader at hdec
  rw [dif_neg (by omega)] at hdec
  simp only [Option.ite_none_left_eq_some, Option.some.injEq, Bool.not_eq_eq_eq_not, Bool.not_true,
    Bool.not_eq_false] at hdec
  obtain ⟨hvalid, rfl⟩ := hdec
  simp only [MessageHeader.bytes, headerBytes, MsgType.toByte_ofByte hvalid]
  exact wire_cons 0 _ (wire_cons 1 _ (wire_cons 2 _ (wire_cons 4 _ (wire_last 8 _ hlen))))

/-! ## Frames under the scanner -/

theorem frameLook_raw (f : RawFrame) (ys : List UInt8) :
    frameLook (f.bytes ++ ys) = .unit (verdict f.header f.payload) f.bytes.length := by
  have hhead : (f.bytes ++ ys).take kHeaderWireSize = f.header.bytes := by
    rw [RawFrame.bytes, List.append_assoc, List.take_left' f.header.length_bytes]
  refine frameLook_unit_iff.mpr ⟨f.header, ?_, f.length_bytes, by simp, ?_⟩
  · rw [hhead, decodeHeader_header]
  · rw [RawFrame.bytes, List.append_assoc, List.drop_left' f.header.length_bytes,
      List.take_left' f.length_payload]

theorem isUnit_raw (f : RawFrame) : frameScanner.IsUnit f.bytes (verdict f.header f.payload) := by
  have := frameLook_raw f []
  rwa [List.append_nil] at this

/-- The beginning of a frame, short of at least one byte. -/
def ProperFramePrefix (tail : List UInt8) : Prop := ∃ f : RawFrame, tail <+: f.bytes ∧ tail ≠ f.bytes

theorem frameLook_cutOff {tail : List UInt8} (h : ProperFramePrefix tail) :
    frameLook tail = .wait := by
  obtain ⟨f, ⟨more, hf⟩, hne⟩ := h
  have hmore : 0 < more.length := by
    refine List.length_pos_iff.mpr fun hnil => hne ?_
    simpa [hnil] using hf
  have hlen : tail.length + more.length = kHeaderWireSize + f.header.bodySize.toNat := by
    rw [← f.length_bytes, ← hf, List.length_append]
  by_cases hshort : tail.length < kHeaderWireSize
  · exact frameLook_wait_iff.mpr (.inl hshort)
  · have hfront : f.bytes.take kHeaderWireSize = f.header.bytes :=
      List.take_left' f.header.length_bytes
    have hhead : tail.take kHeaderWireSize = f.header.bytes := by
      rw [← hfront, ← hf, List.take_append_of_le_length (by omega)]
    refine frameLook_wait_iff.mpr (.inr ⟨f.header, ?_, by omega⟩)
    rw [hhead, decodeHeader_header]

/-! ## Streams of items -/

/-- The header the encoder writes in front of a body. -/
def encodedHeader (seq : Sequence) (ts : TimestampNs) (body : Body) : MessageHeader where
  type := msgTypeOf body
  version := kProtocolVersion
  bodySize := UInt16.ofNat (bodySizeFor (msgTypeOf body))
  sequence := seq
  timestamp := ts

/-- The encoder's frame as a raw frame. -/
def encodedFrame (seq : Sequence) (ts : TimestampNs) (body : Body) : RawFrame where
  header := encodedHeader seq ts body
  payload := bodyBytes body
  length_payload := by
    rw [length_bodyBytes]
    cases body <;> rfl

theorem encodedFrame_bytes (seq : Sequence) (ts : TimestampNs) (body : Body) :
    (encodedFrame seq ts body).bytes = encodeFrame seq ts body := (encodeFrame_eq seq ts body).symm

theorem verdict_encoded (seq : Sequence) (ts : TimestampNs) (body : Body) :
    verdict (encodedFrame seq ts body).header (encodedFrame seq ts body).payload =
      some (encodedHeader seq ts body, body) := by
  have hsize : (encodedHeader seq ts body).bodySize.toNat =
      bodySizeFor (encodedHeader seq ts body).type := by
    cases body <;> rfl
  have hversion : (encodedHeader seq ts body).version = kProtocolVersion := rfl
  have hdec : decodeBody (encodedHeader seq ts body).type (bodyBytes body) = some body :=
    decodeBody_bytes body
  simp [verdict, encodedFrame, hsize, hversion, hdec]

/-- A frame whose version or declared body size is not the one of its type. -/
structure BadFrame extends RawFrame where
  bad : header.version ≠ kProtocolVersion ∨ header.bodySize.toNat ≠ bodySizeFor header.type

theorem BadFrame.verdict_eq (f : BadFrame) : verdict f.header f.payload = none := by
  rw [verdict, if_pos f.bad.symm]

inductive StreamItem where
  | message (seq : Sequence) (ts : TimestampNs) (body : Body)
  | badFrame (f : BadFrame)

namespace StreamItem

def bytes : StreamItem → List UInt8
  | message seq ts body => encodeFrame seq ts body
  | badFrame f => f.toRawFrame.bytes

/-- The call an item at a given offset must cause. -/
def callback (off : Nat) : StreamItem → Callback
  | message seq ts body => .message (encodedHeader seq ts body) body
  | badFrame _ => .malformed off

def isMessage : StreamItem → Bool
  | message .. => true
  | badFrame _ => false

/-- The calls a list of items must cause, each at the offset where its bytes begin. -/
def callbacksFrom (off : Nat) : List StreamItem → List Callback
  | [] => []
  | it :: its => it.callback off :: callbacksFrom (off + it.bytes.length) its

def verdict : StreamItem → Option (MessageHeader × Body)
  | message seq ts body => some (encodedHeader seq ts body, body)
  | badFrame _ => none

theorem isUnit (it : StreamItem) : frameScanner.IsUnit it.bytes it.verdict := by
  cases it with
  | message seq ts body =>
    have hunit := isUnit_raw (encodedFrame seq ts body)
    rwa [encodedFrame_bytes, verdict_encoded] at hunit
  | badFrame f => simpa only [bytes, verdict, ← f.verdict_eq] using isUnit_raw f.toRawFrame

/-- The unit a scanner sees for an item. -/
def unit (it : StreamItem) : List UInt8 × Option (MessageHeader × Body) := (it.bytes, it.verdict)

theorem callbackOf_positions (off : Nat) (items : List StreamItem) :
    (Scanner.positions off (items.map unit)).map callbackOf = callbacksFrom off items := by
  induction items generalizing off with
  | nil => rfl
  | cons it its ih =>
    simp only [List.map_cons, unit, Scanner.positions, callbacksFrom, ih]
    cases it <;> rfl

theorem countP_positions (off : Nat) (items : List StreamItem)
    (p : Option (MessageHeader × Body) → Bool) :
    (Scanner.positions off (items.map unit)).countP (fun u => p u.2) =
      items.countP (fun it => p it.verdict) := by
  induction items generalizing off with
  | nil => rfl
  | cons it its ih => simp [unit, Scanner.positions, List.countP_cons, ih]

end StreamItem

open StreamItem in
/-- The scan of a list of items behind which no unit is complete. -/
theorem scan_items (items : List StreamItem) (tail : List UInt8) (htail : frameLook tail = .wait) :
    frameScanner.scan (items.flatMap bytes ++ tail) =
      ⟨Scanner.positions 0 (items.map unit), tail, false⟩ := by
  have hunits : ∀ u ∈ items.map unit, frameScanner.IsUnit u.1 u.2 := by
    intro u hu
    obtain ⟨it, -, rfl⟩ := List.mem_map.mp hu
    exact it.isUnit
  have hflat : (items.map unit).flatMap Prod.fst = items.flatMap bytes := by
    rw [List.flatMap_map]
    rfl
  have hscan := frameScanner.scanFrom_units 0 (items.map unit) tail hunits
  rw [hflat, Scanner.scanFrom_wait _ htail] at hscan
  simp only [List.append_nil] at hscan
  exact hscan

open StreamItem in
/-- Parsing a stream of encoded messages and bad frames, cut off inside a last frame: one
call per item, in order and at its offset, and the cut-off frame is left alone. -/
theorem parse_stream {σ : Type} (H : HandlerLike σ) (s : σ) (items : List StreamItem)
    (tail : List UInt8) (htail : ProperFramePrefix tail) :
    BinaryParser.parse H s (items.flatMap bytes ++ tail) =
      (H.deliverAll s (callbacksFrom 0 items),
        { bytesConsumed := (items.flatMap bytes).length
          messages := items.countP isMessage
          malformed := items.countP (!·.isMessage)
          needsMore := decide (kHeaderWireSize ≤ tail.length) }) := by
  have hmessage (it : StreamItem) : it.verdict.isSome = it.isMessage := by cases it <;> rfl
  have hmalformed (it : StreamItem) : it.verdict.isNone = !it.isMessage := by cases it <;> rfl
  rw [BinaryParser.parse_eq, scan_items items tail (frameLook_cutOff htail)]
  simp only [callbacks, resultOf, countMessages, countMalformed, callbackOf_positions,
    countP_positions 0 items Option.isSome, countP_positions 0 items Option.isNone, hmessage,
    hmalformed]
  simp

/-- An order, a frame that declares ten body bytes instead of 25, a heartbeat. -/
def mixedItems : List StreamItem :=
  [.message 1 100 (.addOrder ⟨1, 10, .buy, 1, 1⟩),
   .badFrame ⟨⟨⟨.addOrder, 1, 10, 2, 200⟩, List.replicate 10 0, rfl⟩, .inr (by decide)⟩,
   .message 3 300 .heartbeat]

theorem parse_stream_mixed : ProperFramePrefix [1, 1] ∧
    BinaryParser.parse recorder [] (mixedItems.flatMap StreamItem.bytes ++ [1, 1]) =
      (recorder.deliverAll [] (StreamItem.callbacksFrom 0 mixedItems), ⟨83, 2, 1, false⟩) := by
  have hcut : ProperFramePrefix [1, 1] :=
    ⟨⟨⟨.addOrder, 1, 0, 0, 0⟩, [], rfl⟩, by decide, by decide⟩
  refine ⟨hcut, (parse_stream recorder [] mixedItems [1, 1] hcut).trans ?_⟩
  decide +kernel

end Mdfh
