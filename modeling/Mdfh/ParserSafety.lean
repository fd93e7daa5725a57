import Mdfh.UntrustedBytes

/-!
# The parser in machine words

The parser with offsets in 64-bit words, and with spans and loads that are undefined outside
of the bytes they belong to. On every buffer that is not close to the end of the address
space it computes what `BinaryParser.parse` computes, so nothing is read out of bounds and
the loop terminates.

## Main definitions

* `Checked.parse` — the parser; `none` is an access out of bounds, or a lack of fuel.
* `Accounts` — how the calls, the counts and the consumed bytes of a run belong together.

## Main results

* `parse_safe` — the parser in words is the parser, and its run is accounted.
* `needsMore_iff` — when the flag for a partial tail tells the truth.
-/

namespace Mdfh

open Library

namespace Checked

/-! ## Words -/

/-- A sum that does not wrap. -/
theorem toNat_add {a b : UInt64} (h : a.toNat + b.toNat < 2 ^ 64) :
    (a + b).toNat = a.toNat + b.toNat := (UInt64.toNat_add a b).trans (Nat.mod_eq_of_lt h)

/-! ## Spans and loads -/

section
variable {T : Type} [Scalar T]

/-- `std::span::subspan`. -/
def subspan (buf : List UInt8) (off count : UInt64) : Option (List UInt8) :=
  if h : off.toNat + count.toNat ≤ buf.length then some (Mdfh.subspan buf off.toNat count.toNat h)
  else none

variable (T) in
/-- The load of a scalar `off` bytes behind the start of a span. -/
def loadLe (b : List UInt8) (off : Nat) : Option T :=
  if h : off + size T ≤ b.length then some (Mdfh.loadLe T b off h) else none

theorem subspan_eq {buf : List UInt8} {off count : UInt64}
    (h : off.toNat + count.toNat ≤ buf.length) :
    subspan buf off count = some (Mdfh.subspan buf off.toNat count.toNat h) := dif_pos h

theorem loadLe_eq {b : List UInt8} {off : Nat} (h : off + size T ≤ b.length) :
    loadLe T b off = some (Mdfh.loadLe T b off h) := dif_pos h

/-- A load behind a check of the length. -/
theorem loadLe_inside {b : List UInt8} {off n : Nat} (h : ¬b.length < n) (hn : off + size T ≤ n) :
    loadLe T b off = some (Mdfh.loadLe T b off (inside h hn)) := dif_pos (inside h hn)

end

/-! ## Decoders -/

def decodeHeader (buf : List UInt8) : Option (Option MessageHeader) :=
  if buf.length < kHeaderWireSize then some none
  else do
    let rawType ← loadLe UInt8 buf 0
    if !isValidMsgType rawType then return none
    let version ← loadLe UInt8 buf 1
    let bodySize ← loadLe UInt16 buf 2
    let sequence ← loadLe UInt32 buf 4
    let timestamp ← loadLe UInt64 buf 8
    return some { type := MsgType.ofByte rawType, version, bodySize, sequence, timestamp }

def decodeAddOrder (b : List UInt8) : Option (Option AddOrder) :=
  if b.length < kAddOrderBodySize then some none
  else do
    let symbol ← loadLe UInt32 b 0
    let orderId ← loadLe UInt64 b 4
    let side ← loadLe Side b 12
    let price ← loadLe Int64 b 13
    let quantity ← loadLe UInt32 b 21
    return some { symbol, orderId, side, price, quantity }

def decodeCancelOrder (b : List UInt8) : Option (Option CancelOrder) :=
  if b.length < kCancelOrderBodySize then some none
  else do
    let symbol ← loadLe UInt32 b 0
    let orderId ← loadLe UInt64 b 4
    return some { symbol, orderId }

def decodeModifyOrder (b : List UInt8) : Option (Option ModifyOrder) :=
  if b.length < kModifyOrderBodySize then some none
  else do
    let symbol ← loadLe UInt32 b 0
    let orderId ← loadLe UInt64 b 4
    let newPrice ← loadLe Int64 b 12
    let newQuantity ← loadLe UInt32 b 20
    return some { symbol, orderId, newPrice, newQuantity }

def decodeTrade (b : List UInt8) : Option (Option Trade) :=
  if b.length < kTradeBodySize then some none
  else do
    let symbol ← loadLe UInt32 b 0
    let restingOrderId ← loadLe UInt64 b 4
    let price ← loadLe Int64 b 12
    let quantity ← loadLe UInt32 b 20
    let aggressorSide ← loadLe Side b 24
    return some { symbol, restingOrderId, price, quantity, aggressorSide }

theorem length_cons_level {n : Nat} {price : Price} {quantity : Quantity}
    (rest : { ls : List SnapshotLevel // ls.length = n }) :
    (({ price, quantity } : SnapshotLevel) :: rest.val).length = n + 1 := by
  rw [List.length_cons, rest.property]

/-- The loop over the levels of one side. -/
def decodeLevels (b : List UInt8) :
    (n off : Nat) → Option { ls : List SnapshotLevel // ls.length = n }
  | 0, _ => some ⟨[], List.length_nil⟩
  | n + 1, off => do
    let price ← loadLe Int64 b off
    let quantity ← loadLe UInt32 b (off + 8)
    let rest ← decodeLevels b n (off + 12)
    return ⟨{ price, quantity } :: rest.val, length_cons_level rest⟩

def decodeBookSnapshot (b : List UInt8) : Option (Option BookSnapshot) :=
  if b.length < kSnapshotBodySize then some none
  else do
    let symbol ← loadLe UInt32 b 0
    let numBidLevels ← loadLe UInt8 b 4
    let numAskLevels ← loadLe UInt8 b 5
    let bids ← decodeLevels b kMaxSnapshotLevels 8
    let asks ← decodeLevels b kMaxSnapshotLevels 68
    return some { symbol, numBidLevels, numAskLevels, bids, asks }

def decodeBody : MsgType → List UInt8 → Option (Option Body)
  | .addOrder, b => (decodeAddOrder b).map (·.map .addOrder)
  | .cancelOrder, b => (decodeCancelOrder b).map (·.map .cancelOrder)
  | .modifyOrder, b => (decodeModifyOrder b).map (·.map .modifyOrder)
  | .trade, b => (decodeTrade b).map (·.map .trade)
  | .bookSnapshot, b => (decodeBookSnapshot b).map (·.map .bookSnapshot)
  | .heartbeat, _ => some (some .heartbeat)

section
variable (b : List UInt8)

theorem decodeHeader_eq : decodeHeader b = some (Mdfh.decodeHeader b) := by
  unfold decodeHeader Mdfh.decodeHeader
  split_ifs with hlen
  · rfl
  · simp (disch := decide) only [loadLe_inside hlen, Option.bind_eq_bind, Option.bind_some]
    split <;> rfl

theorem decodeLevels_eq (n off : Nat) (h : off + 12 * n ≤ b.length) :
    decodeLevels b n off = some (Mdfh.decodeLevels b n off h) := by
  induction n generalizing off with
  | zero => rfl
  | succ n ih =>
    have hprice : off + size Int64 ≤ b.length := by simp only [size]; omega
    have hquantity : off + 8 + size UInt32 ≤ b.length := by simp only [size]; omega
    simp [decodeLevels, Mdfh.decodeLevels, loadLe_eq hprice, loadLe_eq hquantity,
      ih (off + 12) (by omega)]

/-- The check of the length comes before every load. -/
theorem decodeBody_eq (type : MsgType) : decodeBody type b = some (Mdfh.decodeBody type b) := by
  cases type with
  | heartbeat => rfl
  | addOrder | cancelOrder | modifyOrder | trade =>
    simp only [decodeBody, Mdfh.decodeBody, decodeAddOrder, decodeCancelOrder, decodeModifyOrder,
      decodeTrade, Mdfh.decodeAddOrder, Mdfh.decodeCancelOrder, Mdfh.decodeModifyOrder,
      Mdfh.decodeTrade]
    split_ifs with hlen
    · rfl
    · simp (disch := decide) [loadLe_inside hlen]
  | bookSnapshot =>
    simp only [decodeBody, Mdfh.decodeBody, decodeBookSnapshot, Mdfh.decodeBookSnapshot]
    split_ifs with hlen
    · rfl
    · have hbids := decodeLevels_eq b kMaxSnapshotLevels 8 (inside hlen (by decide))
      have hasks := decodeLevels_eq b kMaxSnapshotLevels 68 (inside hlen (by decide))
      simp (disch := decide) [loadLe_inside hlen, hbids, hasks]

end

/-! ## The parser -/

section
variable {σ : Type} (H : HandlerLike σ)

def dispatch (hdr : MessageHeader) (body : List UInt8) (off : UInt64) (s : σ) (r : ParseResult) :
    Option (σ × ParseResult) := do
  match ← decodeBody hdr.type body with
  | some m => return (H.onMessage hdr m s, { r with messages := r.messages + 1 })
  | none => return (H.onMalformed off.toNat s, { r with malformed := r.malformed + 1 })

/-- The `while` loop, for at most `fuel` tests of its condition. -/
def parseLoop (buf : List UInt8) :
    (fuel : Nat) → (off : UInt64) → σ → ParseResult → Option (σ × ParseResult)
  | 0, _, _, _ => none
  | fuel + 1, off, s, r =>
    let bufSize := UInt64.ofNat buf.length
    let headerSize := UInt64.ofNat kHeaderWireSize
    if off + headerSize ≤ bufSize then do
      let headerSpan ← subspan buf off headerSize
      match ← decodeHeader headerSpan with
      | none => return (H.onMalformed off.toNat s,
          { r with malformed := r.malformed + 1, bytesConsumed := (off + headerSize).toNat })
      | some hdr =>
        let expectedBody := UInt64.ofNat (bodySizeFor hdr.type)
        let frame := headerSize + hdr.bodySize.toUInt64
        if off + frame > bufSize then
          return (s, { r with needsMore := true, bytesConsumed := off.toNat })
        else if hdr.bodySize.toUInt64 ≠ expectedBody ∨ hdr.version ≠ kProtocolVersion then
          parseLoop buf fuel (off + frame) (H.onMalformed off.toNat s)
            { r with malformed := r.malformed + 1 }
        else
          let body ← subspan buf (off + headerSize) expectedBody
          let sr ← dispatch H hdr body off s r
          parseLoop buf fuel (off + frame) sr.1 sr.2
    else some (s, { r with bytesConsumed := off.toNat })

def parse (fuel : Nat) (s : σ) (buf : List UInt8) : Option (σ × ParseResult) :=
  parseLoop H buf fuel 0 s {}

theorem dispatch_eq (hdr : MessageHeader) (body : List UInt8) (off : UInt64) (s : σ)
    (r : ParseResult) :
    dispatch H hdr body off s r = some (BinaryParser.dispatch H hdr body off.toNat s r) := by
  rw [dispatch, decodeBody_eq, BinaryParser.dispatch]
  cases Mdfh.decodeBody hdr.type body <;> rfl

/-- On a buffer that ends far enough from the end of the address space, no sum of offsets and
sizes wraps. -/
theorem parseLoop_eq {buf : List UInt8} (hsize : buf.length + 16 + 65535 < 2 ^ 64) (fuel : Nat)
    (off : UInt64) (s : σ) (r : ParseResult) (hoff : off.toNat ≤ buf.length)
    (hfuel : buf.length < off.toNat + fuel) :
    parseLoop H buf fuel off s r = some (BinaryParser.parseLoop H buf off.toNat s r) := by
  induction fuel generalizing off s r with
  | zero => omega
  | succ fuel ih =>
    have hbuf : (UInt64.ofNat buf.length).toNat = buf.length :=
      UInt64.toNat_ofNat_of_lt' (Nat.lt_of_le_of_lt (by omega) hsize)
    have hpos : 0 < kHeaderWireSize := by decide
    have hsixteen : (UInt64.ofNat kHeaderWireSize).toNat = kHeaderWireSize := rfl
    have hbody : (off + UInt64.ofNat kHeaderWireSize).toNat = off.toNat + kHeaderWireSize :=
      toNat_add (by rw [hsixteen]; simp only [kHeaderWireSize]; omega)
    rw [parseLoop, BinaryParser.parseLoop]
    simp only [UInt64.le_iff_toNat_le, hbuf, hbody]
    split_ifs with hin
    · rw [subspan_eq (by exact hin)]
      simp only [hsixteen, Option.bind_eq_bind, Option.bind_some, decodeHeader_eq]
      cases hdec : Mdfh.decodeHeader (Mdfh.subspan buf off.toNat kHeaderWireSize hin) with
      | none => rfl
      | some hdr =>
        have hdeclared : hdr.bodySize.toNat < 2 ^ 16 := hdr.bodySize.toNat_lt
        have hframe : (UInt64.ofNat kHeaderWireSize + hdr.bodySize.toUInt64).toNat =
            kHeaderWireSize + hdr.bodySize.toNat := by
          rw [toNat_add (by simp; omega), hsixteen, UInt16.toNat_toUInt64]
        have hnext : (off + (UInt64.ofNat kHeaderWireSize + hdr.bodySize.toUInt64)).toNat =
            off.toNat + (kHeaderWireSize + hdr.bodySize.toNat) := by
          rw [toNat_add (by rw [hframe]; simp only [kHeaderWireSize]; omega), hframe]
        have hexpected : (UInt64.ofNat (bodySizeFor hdr.type)).toNat = bodySizeFor hdr.type :=
          UInt64.toNat_ofNat_of_lt' ((bodySizeFor_le hdr.type).trans_lt (by decide))
        simp only [gt_iff_lt, UInt64.lt_iff_toNat_lt, hbuf, hnext, ne_eq, ← UInt64.toNat_inj,
          hexpected, UInt16.toNat_toUInt64]
        split_ifs with hcut hbad
        · rfl
        · rw [ih _ _ _ (by omega) (by omega), hnext]
        · rw [subspan_eq (by rw [hbody, hexpected]; omega)]
          simp only [hbody, hexpected, Option.bind_some, dispatch_eq]
          rw [ih _ _ _ (by omega) (by omega), hnext]
    · rfl

theorem parse_eq {buf : List UInt8} (hsize : buf.length + 16 + 65535 < 2 ^ 64) {fuel : Nat}
    (hfuel : buf.length < fuel) (s : σ) :
    parse H fuel s buf = some (BinaryParser.parse H s buf) :=
  parseLoop_eq H hsize fuel 0 s {} (Nat.zero_le _) (by simpa using hfuel)

end

end Checked

/-! ## Accounting -/

/-- The offsets passed to `on_malformed`, in the order of the calls. -/
def malformedOffsets (cs : List Callback) : List Nat :=
  cs.filterMap fun c => match c with
    | .malformed off => some off
    | .message .. => none

/-- How the calls and the result of a run over a buffer belong together. -/
structure Accounts (buf : List UInt8) (cs : List Callback) (r : ParseResult) : Prop where
  consumed : r.bytesConsumed ≤ buf.length
  counted : cs.length = r.messages + r.malformed
  ascending : (malformedOffsets cs).Pairwise (· < ·)
  decoded : ∀ pos hdr, Walks buf 0 pos → FrameAt buf pos hdr →
    hdr.bodySize.toNat = bodySizeFor hdr.type → (decodeBody hdr.type (payloadAt buf pos hdr)).isSome
  misframed : ∀ off ∈ malformedOffsets cs, MisframedAt buf off
  invalid : ∀ off ∈ malformedOffsets cs, InvalidAt buf off →
    (∃ front, cs = front ++ [.malformed off]) ∧ r.bytesConsumed = off + kHeaderWireSize
  once : ∀ off ∈ malformedOffsets cs, ∀ off' ∈ malformedOffsets cs,
    InvalidAt buf off → InvalidAt buf off' → off = off'

section
variable (buf : List UInt8)

theorem mem_malformedOffsets {cs : List Callback} {off : Nat} :
    off ∈ malformedOffsets cs ↔ .malformed off ∈ cs := by
  simp only [malformedOffsets, List.mem_filterMap]
  constructor
  · rintro ⟨_ | off', hmem, heq⟩
    · exact nomatch heq
    · exact Option.some.inj heq ▸ hmem
  · intro hmem
    exact ⟨_, hmem, rfl⟩

theorem malformed_mem_calls {off : Nat} :
    .malformed off ∈ BinaryParser.calls buf ↔ (off, none) ∈ (frameScanner.scan buf).units := by
  rw [BinaryParser.calls_eq, callbacks, List.mem_map]
  constructor
  · rintro ⟨⟨off', _ | m⟩, hmem, heq⟩
    · exact Callback.malformed.inj heq ▸ hmem
    · cases heq
  · intro hmem
    exact ⟨_, hmem, rfl⟩

theorem malformedOffsets_calls : malformedOffsets (BinaryParser.calls buf) =
    (frameScanner.scan buf).units.filterMap fun u => if u.2.isNone then some u.1 else none := by
  rw [BinaryParser.calls_eq, callbacks, malformedOffsets, List.filterMap_map]
  refine List.filterMap_congr fun u _ => ?_
  obtain ⟨off, _ | m⟩ := u <;> rfl

theorem length_units (s : FrameScan) : s.units.length = countMessages s + countMalformed s := by
  rw [countMessages, countMalformed, List.length_eq_countP_add_countP (·.2.isSome)]
  exact congrArg _ (List.countP_congr fun u _ => by simp)

theorem malformedOffsets_ascending : (malformedOffsets (BinaryParser.calls buf)).Pairwise (· < ·) := by
  rw [malformedOffsets_calls, List.pairwise_filterMap]
  refine (frameScanner.units_ascending 0 buf).imp ?_
  grind

/-- An invalid type byte is the last that is reported. -/
theorem calls_of_invalidAt {off : Nat} (hmem : .malformed off ∈ BinaryParser.calls buf)
    (hinvalid : InvalidAt buf off) :
    (∃ front, BinaryParser.calls buf = front ++ [.malformed off]) ∧
      (BinaryParser.parse recorder [] buf).2.bytesConsumed = off + kHeaderWireSize := by
  have hunit := (malformed_mem_calls buf).mp hmem
  have hstop := look_stop_iff.mpr ⟨hinvalid, rfl, rfl⟩
  obtain ⟨⟨front, hfront⟩, hrest⟩ := frameScanner.units_of_stop hunit hstop
  refine ⟨⟨front.map callbackOf, ?_⟩, ?_⟩
  · rw [BinaryParser.calls_eq, callbacks, Scanner.scan, hfront, List.map_append]
    rfl
  · have hle := hinvalid.1
    rw [BinaryParser.parse_eq]
    simp only [resultOf, Scanner.scan, hrest, List.length_drop]
    omega

theorem calls_accounts : Accounts buf (BinaryParser.calls buf) (BinaryParser.parse recorder [] buf).2 where
  consumed := by
    rw [BinaryParser.parse_eq]
    exact Nat.sub_le _ _
  counted := by
    rw [BinaryParser.calls_eq, BinaryParser.parse_eq, callbacks, List.length_map]
    exact length_units _
  ascending := malformedOffsets_ascending buf
  decoded pos hdr _ hframe hsize := decodeBody_isSome (hframe.length_payloadAt.trans hsize)
  misframed off hoff := by
    have hunit := (malformed_mem_calls buf).mp (mem_malformedOffsets.mp hoff)
    exact (mem_units_none_iff.mp hunit).2
  invalid off hoff hinvalid := calls_of_invalidAt buf (mem_malformedOffsets.mp hoff) hinvalid
  once off hoff off' hoff' hinvalid hinvalid' := by
    have hconsumed := (calls_of_invalidAt buf (mem_malformedOffsets.mp hoff) hinvalid).2
    have hconsumed' := (calls_of_invalidAt buf (mem_malformedOffsets.mp hoff') hinvalid').2
    exact Nat.add_right_cancel (hconsumed.symm.trans hconsumed')

end

namespace Checked

/-- On every buffer that ends far enough from the end of the address space, for every handler:
the parser in words terminates without an access out of bounds, makes the same calls, and the
calls and the result are accounted. -/
theorem parse_safe (buf : List UInt8) (hsize : buf.length + 16 + 65535 < 2 ^ 64) :
    ∃ cs r, Accounts buf cs r ∧ ∀ {σ : Type} (H : HandlerLike σ) (s : σ) (fuel : Nat),
      buf.length < fuel → parse H fuel s buf = some (H.deliverAll s cs, r) := by
  refine ⟨_, _, calls_accounts buf, ?_⟩
  intro σ H s fuel hfuel
  rw [parse_eq H hsize hfuel, BinaryParser.calls_eq, BinaryParser.parse_eq, BinaryParser.parse_eq]

/-- A heartbeat, and a header with an invalid type byte. -/
def heartbeatThenInvalid : List UInt8 := encodeFrame 1 0 .heartbeat ++ List.replicate 16 250

theorem parse_safe_heartbeatThenInvalid : ∃ cs r, Accounts heartbeatThenInvalid cs r ∧
    ∀ {σ : Type} (H : HandlerLike σ) (s : σ) (fuel : Nat),
      heartbeatThenInvalid.length < fuel →
        parse H fuel s heartbeatThenInvalid = some (H.deliverAll s cs, r) :=
  parse_safe heartbeatThenInvalid (by decide +kernel)

end Checked

/-! ## The flag for a partial tail -/

namespace BinaryParser

variable {buf : List UInt8}

/-- Without an invalid type byte the scan keeps the framing. -/
theorem stopped_eq_false (hvalid : ∀ pos, Walks buf 0 pos → ¬InvalidAt buf pos) :
    (frameScanner.scan buf).stopped = false := by
  obtain ⟨pos, hwalk, ⟨-, hinvalid⟩ | ⟨hstopped, -⟩⟩ := exists_walk (List.drop_zero (l := buf)).symm
  · exact absurd hinvalid (hvalid pos hwalk)
  · exact hstopped

/-- The walk ends 1 to 15 bytes before the end of the buffer if and only if that much is left. -/
theorem cut_header_iff (hvalid : ∀ pos, Walks buf 0 pos → ¬InvalidAt buf pos) :
    (∃ pos, Walks buf 0 pos ∧ pos < buf.length ∧ buf.length < pos + kHeaderWireSize) ↔
      0 < (frameScanner.scan buf).rest.length ∧
        (frameScanner.scan buf).rest.length < kHeaderWireSize := by
  constructor
  · rintro ⟨pos, hwalk, hlt, hcut⟩
    have hrest := hwalk.scan.2
    rw [List.drop_zero, Scanner.scanFrom_wait pos (look_short (by omega))] at hrest
    rw [Scanner.scan, hrest, List.length_drop]
    omega
  · obtain ⟨pos, hwalk, ⟨-, hinvalid⟩ | ⟨-, hrest⟩⟩ := exists_walk (List.drop_zero (l := buf)).symm
    · exact absurd hinvalid (hvalid pos hwalk)
    · rw [Scanner.scan, hrest, List.length_drop]
      intro hlength
      exact ⟨pos, hwalk, by omega, by omega⟩

/-- For every buffer on which the parser does not stop at an invalid type byte, and for every
handler: the flag tells whether a partial tail remains if and only if the tail is not a cut
header. -/
theorem needsMore_iff {σ : Type} (H : HandlerLike σ) (s : σ)
    (hvalid : ∀ pos, Walks buf 0 pos → ¬InvalidAt buf pos) :
    ((parse H s buf).2.needsMore = true ↔ (parse H s buf).2.bytesConsumed < buf.length) ↔
      ¬∃ pos, Walks buf 0 pos ∧ pos < buf.length ∧ buf.length < pos + kHeaderWireSize := by
  have hle : (frameScanner.scan buf).rest.length ≤ buf.length := frameScanner.length_rest_le 0 buf
  have hpos : 0 < kHeaderWireSize := by decide
  rw [cut_header_iff hvalid, parse_eq]
  simp only [resultOf, stopped_eq_false hvalid, Bool.not_false, Bool.true_and, decide_eq_true_eq]
  omega

/-- The first five bytes of a heartbeat. -/
def cutHeader : List UInt8 := (encodeFrame 1 0 .heartbeat).take 5

theorem not_invalidAt_cutHeader (pos : Nat) : ¬InvalidAt cutHeader pos := by
  rintro ⟨hle, -⟩
  have hlength : cutHeader.length = 5 := by decide +kernel
  simp only [kHeaderWireSize] at hle
  omega

/-- Nothing of them is consumed, and the flag is not set. -/
theorem needsMore_cutHeader : (∀ pos, Walks cutHeader 0 pos → ¬InvalidAt cutHeader pos) ∧
    ¬((parse recorder [] cutHeader).2.needsMore = true ↔
      (parse recorder [] cutHeader).2.bytesConsumed < cutHeader.length) :=
  ⟨fun pos _ => not_invalidAt_cutHeader pos, by decide +kernel⟩

theorem needsMore_iff_cutHeader :
    ((parse recorder [] cutHeader).2.needsMore = true ↔
        (parse recorder [] cutHeader).2.bytesConsumed < cutHeader.length) ↔
      ¬∃ pos, Walks cutHeader 0 pos ∧ pos < cutHeader.length ∧
        cutHeader.length < pos + kHeaderWireSize :=
  needsMore_iff recorder [] fun pos _ => not_invalidAt_cutHeader pos

end BinaryParser

end Mdfh
