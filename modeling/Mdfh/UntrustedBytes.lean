import Mdfh.Reassembly

/-!
# What the parser makes of untrusted bytes

Stepping over complete frames by the lengths they declare, the parser reports or dispatches
what it finds at each offset, and nothing else. A datagram that ends inside a frame is
therefore reported only if an earlier frame of it is bad, and a body is dispatched whatever
its side and level-count bytes are.

## Main definitions

* `Walks`, `FrameAt`, `InvalidAt` — the offsets of a walk, and what can be there.
* `MisframedAt`, `ForbiddenAt` — what the parser rejects, and what the wire format forbids.

## Main results

* `mem_units_iff` — the units of a scan are what the walk finds.
* `consumeDatagram_reports_iff` — when a truncated datagram is reported.
* `parse_validates_iff` — when everything dispatched is what the wire format allows.
-/

namespace Mdfh

open Library

/-! ## The walk -/

section
variable (buf : List UInt8)

/-- A complete frame starts at `pos`. -/
def FrameAt (pos : Nat) (hdr : MessageHeader) : Prop :=
  decodeHeader ((buf.drop pos).take kHeaderWireSize) = some hdr ∧
    pos + (kHeaderWireSize + hdr.bodySize.toNat) ≤ buf.length

/-- A whole header starts at `pos`, with an invalid type byte. -/
def InvalidAt (pos : Nat) : Prop :=
  pos + kHeaderWireSize ≤ buf.length ∧ ∃ v, buf[pos]? = some v ∧ isValidMsgType v = false

/-- Stepping over complete frames leads from one offset to another. -/
inductive Walks : Nat → Nat → Prop
  | here {off : Nat} : Walks off off
  | frame {off pos : Nat} {hdr : MessageHeader} : FrameAt buf off hdr →
      Walks (off + (kHeaderWireSize + hdr.bodySize.toNat)) pos → Walks off pos

/-- The body of a frame. -/
def payloadAt (pos : Nat) (hdr : MessageHeader) : List UInt8 :=
  (buf.drop (pos + kHeaderWireSize)).take hdr.bodySize.toNat

end

section
variable {buf : List UInt8} {off pos : Nat} {hdr : MessageHeader}

theorem FrameAt.length_payloadAt (h : FrameAt buf pos hdr) :
    (payloadAt buf pos hdr).length = hdr.bodySize.toNat := by
  have hle := h.2
  rw [payloadAt, List.length_take, List.length_drop]
  omega

theorem look_unit_iff {o : Option (MessageHeader × Body)} {n : Nat} :
    frameScanner.look (buf.drop pos) = .unit o n ↔ ∃ hdr, FrameAt buf pos hdr ∧
      n = kHeaderWireSize + hdr.bodySize.toNat ∧ o = verdict hdr (payloadAt buf pos hdr) := by
  have hpos : 0 < kHeaderWireSize := by decide
  refine frameLook_unit_iff.trans (exists_congr fun hdr => ?_)
  simp only [FrameAt, payloadAt, List.length_drop, List.drop_drop]
  constructor
  · rintro ⟨hdec, rfl, hle, ho⟩
    exact ⟨⟨hdec, by omega⟩, rfl, ho⟩
  · rintro ⟨⟨hdec, hle⟩, rfl, ho⟩
    exact ⟨hdec, rfl, by omega, ho⟩

theorem look_stop_iff {o : Option (MessageHeader × Body)} {n : Nat} :
    frameScanner.look (buf.drop pos) = .stop o n ↔
      InvalidAt buf pos ∧ n = kHeaderWireSize ∧ o = none := by
  have hpos : 0 < kHeaderWireSize := by decide
  have hinvalid : frameScanner.look (buf.drop pos) = .stop none kHeaderWireSize ↔
      InvalidAt buf pos := by
    refine frameLook_invalid_iff.trans ?_
    simp only [InvalidAt, List.length_drop, List.getElem?_drop, Nat.add_zero]
    exact and_congr_left fun _ => by omega
  constructor
  · intro h
    obtain ⟨-, rfl, -, rfl⟩ := frameLook_stop_iff.mp h
    exact ⟨hinvalid.mp h, rfl, rfl⟩
  · rintro ⟨h, rfl, rfl⟩
    exact hinvalid.mpr h

theorem Walks.scan (h : Walks buf off pos) :
    (frameScanner.scanFrom pos (buf.drop pos)).units ⊆
        (frameScanner.scanFrom off (buf.drop off)).units ∧
      (frameScanner.scanFrom off (buf.drop off)).rest =
        (frameScanner.scanFrom pos (buf.drop pos)).rest := by
  induction h with
  | here => exact ⟨List.Subset.refl _, rfl⟩
  | frame hframe _ ih =>
    have hlook := look_unit_iff.mpr ⟨_, hframe, rfl, rfl⟩
    rw [Scanner.scanFrom_unit _ hlook, List.drop_drop]
    exact ⟨List.subset_cons_of_subset _ ih.1, ih.2⟩

/-- A walk to the end of the buffer leaves nothing over. -/
theorem Walks.rest_eq_nil (h : Walks buf 0 buf.length) : (frameScanner.scan buf).rest = [] := by
  have hrest := h.scan.2
  rw [List.drop_zero, List.drop_length] at hrest
  exact hrest.trans (congrArg Scan.rest (Scanner.scanFrom_wait _ rfl))

theorem walks_of_mem_units {xs : List UInt8} {o : Option (MessageHeader × Body)}
    (hxs : xs = buf.drop off) (h : (pos, o) ∈ (frameScanner.scanFrom off xs).units) :
    Walks buf off pos := by
  fun_induction Scanner.scanFrom frameScanner off xs with
  | case1 off xs hlook => cases h
  | case2 off xs o' n hlook =>
    obtain ⟨rfl, -⟩ := Prod.mk.inj (List.mem_singleton.mp h)
    exact .here
  | case3 off xs o' n hlook r ih =>
    subst hxs
    obtain ⟨hdr, hframe, rfl, -⟩ := look_unit_iff.mp hlook
    rcases List.mem_cons.mp h with heq | h
    · obtain ⟨rfl, -⟩ := Prod.mk.inj heq
      exact .here
    · exact .frame hframe (ih List.drop_drop h)

/-- A scan ends at an offset of the walk: at an invalid type byte, or with what lies behind it. -/
theorem exists_walk {xs : List UInt8} (hxs : xs = buf.drop off) :
    ∃ pos, Walks buf off pos ∧
      ((frameScanner.scanFrom off xs).stopped = true ∧ InvalidAt buf pos ∨
        (frameScanner.scanFrom off xs).stopped = false ∧
          (frameScanner.scanFrom off xs).rest = buf.drop pos) := by
  fun_induction Scanner.scanFrom frameScanner off xs with
  | case1 off xs hlook => exact ⟨off, .here, .inr ⟨rfl, hxs⟩⟩
  | case2 off xs o n hlook =>
    subst hxs
    exact ⟨off, .here, .inl ⟨rfl, (look_stop_iff.mp hlook).1⟩⟩
  | case3 off xs o n hlook r ih =>
    subst hxs
    obtain ⟨hdr, hframe, rfl, -⟩ := look_unit_iff.mp hlook
    obtain ⟨pos, hwalk, hend⟩ := ih List.drop_drop
    exact ⟨pos, .frame hframe hwalk, hend⟩

/-- The units of a scan are the verdicts on what the walk finds at its offsets. -/
theorem mem_units_iff {o : Option (MessageHeader × Body)} :
    (pos, o) ∈ (frameScanner.scan buf).units ↔ Walks buf 0 pos ∧
      ((∃ hdr, FrameAt buf pos hdr ∧ o = verdict hdr (payloadAt buf pos hdr)) ∨
        InvalidAt buf pos ∧ o = none) := by
  constructor
  · intro h
    refine ⟨walks_of_mem_units (List.drop_zero).symm h, ?_⟩
    obtain ⟨-, ⟨n, hlook⟩ | ⟨n, hlook⟩⟩ := frameScanner.look_of_mem_units h
    · obtain ⟨hdr, hframe, -, ho⟩ := look_unit_iff.mp hlook
      exact .inl ⟨hdr, hframe, ho⟩
    · obtain ⟨hinvalid, -, ho⟩ := look_stop_iff.mp hlook
      exact .inr ⟨hinvalid, ho⟩
  · rintro ⟨hwalk, hfound⟩
    refine hwalk.scan.1 ?_
    rcases hfound with ⟨hdr, hframe, ho⟩ | ⟨hinvalid, rfl⟩
    · rw [Scanner.scanFrom_unit pos (look_unit_iff.mpr ⟨hdr, hframe, rfl, ho⟩)]
      exact List.mem_cons_self
    · rw [Scanner.scanFrom_stop pos (look_stop_iff.mpr ⟨hinvalid, rfl, rfl⟩)]
      exact List.mem_cons_self

/-! ## Rejected frames -/

/-- A body of the size that its type implies is always decoded. -/
theorem decodeBody_isSome {type : MsgType} {body : List UInt8}
    (h : body.length = bodySizeFor type) : (decodeBody type body).isSome := by
  cases type <;>
    simp_all [decodeBody, bodySizeFor, decodeAddOrder, decodeCancelOrder, decodeModifyOrder,
      decodeTrade, decodeBookSnapshot]

/-- What the parser does not accept where a frame should start: a frame whose declared body
size or version is not that of its type, or an invalid type byte. -/
def MisframedAt (buf : List UInt8) (pos : Nat) : Prop :=
  InvalidAt buf pos ∨ ∃ hdr, FrameAt buf pos hdr ∧
    (hdr.bodySize.toNat ≠ bodySizeFor hdr.type ∨ hdr.version ≠ kProtocolVersion)

theorem FrameAt.verdict_eq_none_iff (h : FrameAt buf pos hdr) :
    verdict hdr (payloadAt buf pos hdr) = none ↔
      hdr.bodySize.toNat ≠ bodySizeFor hdr.type ∨ hdr.version ≠ kProtocolVersion := by
  unfold verdict
  split_ifs with hbad
  · exact iff_of_true rfl hbad
  · have hsize := h.length_payloadAt.trans (not_not.mp (not_or.mp hbad).1)
    obtain ⟨body, hbody⟩ := Option.isSome_iff_exists.mp (decodeBody_isSome hsize)
    simp [hbody, hbad]

/-- The scan reports exactly the bad places of the walk. -/
theorem mem_units_none_iff :
    (pos, none) ∈ (frameScanner.scan buf).units ↔ Walks buf 0 pos ∧ MisframedAt buf pos := by
  rw [mem_units_iff]
  refine and_congr_right fun _ => ?_
  constructor
  · rintro (⟨hdr, hframe, ho⟩ | ⟨hinvalid, -⟩)
    · exact .inr ⟨hdr, hframe, hframe.verdict_eq_none_iff.mp ho.symm⟩
    · exact .inl hinvalid
  · rintro (hinvalid | ⟨hdr, hframe, hbad⟩)
    · exact .inr ⟨hinvalid, rfl⟩
    · exact .inl ⟨hdr, hframe, (hframe.verdict_eq_none_iff.mpr hbad).symm⟩

theorem countMalformed_pos_iff :
    1 ≤ countMalformed (frameScanner.scan buf) ↔ ∃ pos, Walks buf 0 pos ∧ MisframedAt buf pos := by
  rw [Nat.one_le_iff_ne_zero, ← Nat.pos_iff_ne_zero, countMalformed, List.countP_pos_iff]
  simp only [← mem_units_none_iff]
  constructor
  · rintro ⟨⟨pos, o⟩, hmem, ho⟩
    obtain rfl : o = none := Option.isNone_iff_eq_none.mp ho
    exact ⟨pos, hmem⟩
  · rintro ⟨pos, hmem⟩
    exact ⟨_, hmem, rfl⟩

end

/-! ## Truncated datagrams -/

namespace FeedHandler

section
variable {δ : Type} (D : HandlerLike δ)

/-- What is told downstream: the accepted messages, and every malformed frame. -/
theorem exists_calls (cs : List Callback) (fh : FeedHandler δ) :
    ∃ calls, ((handler D).deliverAll fh cs).down = D.deliverAll fh.down calls ∧
      ∀ off, .malformed off ∈ cs → .malformed off ∈ calls := by
  induction cs generalizing fh with
  | nil => exact ⟨[], rfl, nofun⟩
  | cons c cs ih =>
    obtain ⟨calls, hdown, hcalls⟩ := ih ((handler D).deliver c fh)
    rw [HandlerLike.deliverAll_cons, hdown]
    cases c with
    | malformed off =>
      refine ⟨.malformed off :: calls, rfl, ?_⟩
      intro off' hoff'
      rcases List.mem_cons.mp hoff' with heq | hmem
      · exact heq ▸ List.mem_cons_self
      · exact List.mem_cons_of_mem _ (hcalls off' hmem)
    | message hdr body =>
      have hmem : ∀ off, .malformed off ∈ Callback.message hdr body :: cs → .malformed off ∈ calls :=
        fun off hoff => hcalls off (by simpa using hoff)
      rw [deliver_message, forwardIf_eq]
      split_ifs
      · exact ⟨.message hdr body :: calls, rfl, fun off hoff => List.mem_cons_of_mem _ (hmem off hoff)⟩
      · exact ⟨calls, rfl, hmem⟩

/-- The call on a datagram reports something malformed: in its result, in the handler's
count, and in a call of the sink among the others. -/
structure Reports (fh : FeedHandler δ) (bytes : List UInt8) : Prop where
  result : 1 ≤ (consumeDatagram D bytes fh).2.malformed
  counted : (consumeDatagram D bytes fh).1.malformed =
    fh.malformed + UInt64.ofNat (consumeDatagram D bytes fh).2.malformed
  informed : ∃ before off after, (consumeDatagram D bytes fh).1.down =
    D.deliverAll (D.onMalformed off (D.deliverAll fh.down before)) after

theorem reports_iff (fh : FeedHandler δ) (bytes : List UInt8) :
    Reports D fh bytes ↔ ∃ pos, Walks bytes 0 pos ∧ MisframedAt bytes pos := by
  constructor
  · intro h
    have hresult := h.result
    rw [consumeDatagram_eq] at hresult
    exact countMalformed_pos_iff.mp hresult
  · rintro ⟨pos, hwalk, hbad⟩
    have hunit := mem_units_none_iff.mpr ⟨hwalk, hbad⟩
    have hcall : Callback.malformed pos ∈ callbacks (frameScanner.scan bytes) :=
      List.mem_map.mpr ⟨_, hunit, rfl⟩
    obtain ⟨calls, hdown, hcalls⟩ := exists_calls D (callbacks (frameScanner.scan bytes)) fh
    obtain ⟨before, after, rfl⟩ := List.append_of_mem (hcalls pos hcall)
    refine ⟨?_, ?_, before, pos, after, ?_⟩
    · rw [consumeDatagram_eq]
      exact countMalformed_pos_iff.mpr ⟨pos, hwalk, hbad⟩
    · rw [consumeDatagram_eq]
      exact congrArg (· + _) (deliverAll_malformed D _ fh)
    · rw [consumeDatagram_eq]
      refine hdown.trans ?_
      rw [HandlerLike.deliverAll, List.foldl_append]
      rfl

/-- For every state of the handler and every datagram: that a datagram which is not an exact
concatenation of complete frames is reported is true if and only if the datagram is such a
concatenation, or the walk over it meets a bad frame before its end. -/
theorem consumeDatagram_reports_iff (fh : FeedHandler δ) (bytes : List UInt8) :
    (¬Walks bytes 0 bytes.length → Reports D fh bytes) ↔
      Walks bytes 0 bytes.length ∨ ∃ pos, Walks bytes 0 pos ∧ MisframedAt bytes pos := by
  rw [reports_iff, ← or_iff_not_imp_left]

end

/-- An order to add without its last five bytes. -/
def truncatedAdd : List UInt8 :=
  (encodeFrame 1 0 (.addOrder { orderId := 7, price := 100, quantity := 5 })).take 36

/-- Nothing of the truncated datagram is reported, and the handler does not change. -/
theorem consumeDatagram_truncatedAdd :
    ¬Walks truncatedAdd 0 truncatedAdd.length ∧
      ¬Reports recorder { down := [] } truncatedAdd ∧
      (consumeDatagram recorder truncatedAdd { down := [] }).1 = { down := [] } := by
  refine ⟨?_, ?_, by decide +kernel⟩
  · intro hwalk
    have hrest : (frameScanner.scan truncatedAdd).rest ≠ [] := by decide +kernel
    exact hrest hwalk.rest_eq_nil
  · intro h
    have hnone : (consumeDatagram recorder truncatedAdd { down := [] }).2.malformed = 0 := by
      decide +kernel
    have hresult := h.result
    omega

end FeedHandler

/-! ## Bodies outside the wire format -/

/-- The wire format knows two sides and at most five levels on each side of a snapshot. -/
def Body.Conforms : Body → Prop
  | .addOrder m => m.side = .buy ∨ m.side = .sell
  | .trade m => m.aggressorSide = .buy ∨ m.aggressorSide = .sell
  | .bookSnapshot m => m.numBidLevels.toNat ≤ kMaxSnapshotLevels ∧
      m.numAskLevels.toNat ≤ kMaxSnapshotLevels
  | _ => True

/-- The same of the bytes of a body: a side byte above 1, or a level count above 5. -/
def ForbiddenBytes (b : List UInt8) : MsgType → Prop
  | .addOrder => ∃ v, b[12]? = some v ∧ 1 < v
  | .trade => ∃ v, b[24]? = some v ∧ 1 < v
  | .bookSnapshot => ∃ v, (b[4]? = some v ∨ b[5]? = some v) ∧ 5 < v
  | _ => False

/-- A well-framed message with forbidden bytes starts at `pos`. -/
def ForbiddenAt (buf : List UInt8) (pos : Nat) : Prop :=
  ∃ hdr, FrameAt buf pos hdr ∧ hdr.bodySize.toNat = bodySizeFor hdr.type ∧
    hdr.version = kProtocolVersion ∧ ForbiddenBytes (payloadAt buf pos hdr) hdr.type

section
variable {buf b : List UInt8} {pos : Nat} {hdr : MessageHeader} {body : Body}

theorem named_side_iff (s : Side) : (s = .buy ∨ s = .sell) ↔ ¬1 < s.toByte := by
  obtain ⟨v⟩ := s
  have hle : ¬1 < v ↔ v = 0 ∨ v = 1 := by
    simp only [UInt8.lt_iff_toNat_lt, ← UInt8.toNat_inj]
    simp
    omega
  simp [hle, Side.buy, Side.sell]

/-- A decoded body conforms if and only if its bytes do. -/
theorem conforms_iff {type : MsgType} (h : decodeBody type b = some body) :
    body.Conforms ↔ ¬ForbiddenBytes b type := by
  have hside (off : Nat) (hoff : off + size UInt8 ≤ b.length) :
      b[off]? = some (loadLe Side b off hoff).toByte := getElem?_loadLe off hoff
  cases type with
  | addOrder =>
    obtain ⟨m, hm, rfl⟩ := Option.map_eq_some_iff.mp h
    unfold decodeAddOrder at hm
    split_ifs at hm with hlen
    obtain rfl := Option.some.inj hm
    have hbyte := hside 12 (inside hlen (by decide))
    simp [Body.Conforms, named_side_iff, ForbiddenBytes, hbyte]
  | trade =>
    obtain ⟨m, hm, rfl⟩ := Option.map_eq_some_iff.mp h
    unfold decodeTrade at hm
    split_ifs at hm with hlen
    obtain rfl := Option.some.inj hm
    have hbyte := hside 24 (inside hlen (by decide))
    simp [Body.Conforms, named_side_iff, ForbiddenBytes, hbyte]
  | bookSnapshot =>
    obtain ⟨m, hm, rfl⟩ := Option.map_eq_some_iff.mp h
    unfold decodeBookSnapshot at hm
    split_ifs at hm with hlen
    obtain rfl := Option.some.inj hm
    have hbids := getElem?_loadLe 4 (inside hlen (by decide))
    have hasks := getElem?_loadLe 5 (inside hlen (by decide))
    simp only [Body.Conforms, ForbiddenBytes, hbids, hasks, Option.some.injEq, UInt8.lt_iff_toNat_lt]
    constructor
    · rintro ⟨hbid, hask⟩ ⟨v, rfl | rfl, hlt⟩
      · exact hbid.not_gt hlt
      · exact hask.not_gt hlt
    · intro hnone
      exact ⟨not_lt.mp fun hlt => hnone ⟨_, .inl rfl, hlt⟩,
        not_lt.mp fun hlt => hnone ⟨_, .inr rfl, hlt⟩⟩
  | cancelOrder | modifyOrder =>
    obtain ⟨m, -, rfl⟩ := Option.map_eq_some_iff.mp h
    exact iff_of_true trivial id
  | heartbeat =>
    obtain rfl := Option.some.inj h
    exact iff_of_true trivial id

theorem verdict_eq_some_iff {m : MessageHeader × Body} :
    verdict hdr b = some m ↔ hdr.bodySize.toNat = bodySizeFor hdr.type ∧
      hdr.version = kProtocolVersion ∧ hdr = m.1 ∧ decodeBody hdr.type b = some m.2 := by
  obtain ⟨hdr', body⟩ := m
  unfold verdict
  split_ifs with hbad
  · refine iff_of_false nofun ?_
    rintro ⟨hsize, hversion, -⟩
    exact hbad.elim (· hsize) (· hversion)
  · obtain ⟨hsize, hversion⟩ := not_or.mp hbad
    simp [not_not.mp hsize, not_not.mp hversion, and_comm]

end

namespace BinaryParser

/-- The calls of the parser on a buffer. -/
def calls (buf : List UInt8) : List Callback := (parse recorder [] buf).1

theorem calls_eq (buf : List UInt8) : calls buf = callbacks (frameScanner.scan buf) := by
  rw [calls, parse_eq, recorder_deliverAll, List.nil_append]

theorem message_mem_calls {buf : List UInt8} {hdr : MessageHeader} {body : Body} :
    .message hdr body ∈ calls buf ↔ ∃ pos, (pos, some (hdr, body)) ∈ (frameScanner.scan buf).units := by
  rw [calls_eq, callbacks, List.mem_map]
  constructor
  · rintro ⟨⟨pos, _ | ⟨hdr', body'⟩⟩, hmem, heq⟩
    · cases heq
    · obtain ⟨rfl, rfl⟩ := Callback.message.inj heq
      exact ⟨pos, hmem⟩
  · rintro ⟨pos, hmem⟩
    exact ⟨_, hmem, rfl⟩

/-- Everything dispatched conforms, and what does not conform is reported and counted. -/
structure Validates (buf : List UInt8) : Prop where
  dispatched : ∀ hdr body, .message hdr body ∈ calls buf → body.Conforms
  reported : ∀ pos, Walks buf 0 pos → ForbiddenAt buf pos → .malformed pos ∈ calls buf
  counted : (parse recorder [] buf).2.malformed =
    (calls buf).countP fun c => match c with | .malformed _ => true | .message .. => false

/-- For every buffer: the parser dispatches only what the wire format allows, and reports the
rest, if and only if the walk over the buffer meets no well-framed message with a side byte
above 1 or a level count above 5. -/
theorem parse_validates_iff (buf : List UInt8) :
    Validates buf ↔ ∀ pos, Walks buf 0 pos → ¬ForbiddenAt buf pos := by
  constructor
  · rintro h pos hwalk ⟨hdr, hframe, hsize, hversion, hforbidden⟩
    obtain ⟨body, hbody⟩ :=
      Option.isSome_iff_exists.mp (decodeBody_isSome (hframe.length_payloadAt.trans hsize))
    have hverdict : verdict hdr (payloadAt buf pos hdr) = some (hdr, body) :=
      verdict_eq_some_iff.mpr ⟨hsize, hversion, rfl, hbody⟩
    have hunit := mem_units_iff.mpr ⟨hwalk, .inl ⟨hdr, hframe, hverdict.symm⟩⟩
    exact (conforms_iff hbody).mp (h.dispatched hdr body (message_mem_calls.mpr ⟨pos, hunit⟩))
      hforbidden
  · intro h
    refine ⟨?_, fun pos hwalk hforbidden => absurd hforbidden (h pos hwalk), ?_⟩
    · intro hdr body hcall
      obtain ⟨pos, hunit⟩ := message_mem_calls.mp hcall
      obtain ⟨hwalk, ⟨hdr', hframe, hverdict⟩ | ⟨-, hnone⟩⟩ := mem_units_iff.mp hunit
      · obtain ⟨hsize, hversion, rfl, hbody⟩ := verdict_eq_some_iff.mp hverdict.symm
        refine (conforms_iff hbody).mpr ?_
        exact fun hforbidden => h pos hwalk ⟨hdr', hframe, hsize, hversion, hforbidden⟩
      · exact nomatch hnone
    · rw [calls_eq, parse_eq, callbacks, List.countP_map]
      refine List.countP_congr fun u _ => ?_
      obtain ⟨pos, _ | ⟨hdr, body⟩⟩ := u <;> simp [callbackOf]

/-- An order to add whose side byte is 2. -/
def thirdSideAdd : List UInt8 :=
  encodeFrame 1 0 (.addOrder { orderId := 7, side := ⟨2⟩, price := 100, quantity := 5 })

/-- It is dispatched, and neither reported nor counted. -/
theorem parse_thirdSideAdd :
    ¬Validates thirdSideAdd ∧ (parse recorder [] thirdSideAdd).2.malformed = 0 := by
  have hcalls : calls thirdSideAdd = [.message
      { type := .addOrder, bodySize := 25, sequence := 1 }
      (.addOrder { orderId := 7, side := ⟨2⟩, price := 100, quantity := 5 })] := by decide +kernel
  refine ⟨fun h => ?_, by decide +kernel⟩
  have hconforms := h.dispatched _ _ (hcalls ▸ List.mem_singleton_self _)
  exact hconforms.elim (by decide) (by decide)

end BinaryParser

end Mdfh
