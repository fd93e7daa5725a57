import Mdfh.FeedHandler
import Mdfh.Stream

/-!
# Stream reassembly

Feeding a stream to `consume` in chunks. As long as the framing is not lost the cuts do
not matter, and what stays pending is the unfinished last frame. When a header with an
invalid type byte stops the parser, everything behind that header stays pending.

## Main definitions

* `MeetsInvalidType` — the parser's walk over a buffer reaches an invalid type byte.
* `IncompleteFrame` — less than a header, or a valid header and less than its frame.
* `feedAll` — one `consume` call per chunk.

## Main results

* `feedAll_eq_consume` — reassembly does not depend on segmentation.
* `consume_pending` — what a call leaves pending, in both cases.
-/

namespace Mdfh

open Library

/-- Walking the frames of `buf` from offset `off`, the parser meets an invalid type byte
at offset `bad`. -/
inductive MeetsInvalidType (buf : List UInt8) : Nat → Nat → Prop
  | here {off : Nat} {v : UInt8} : off + kHeaderWireSize ≤ buf.length → buf[off]? = some v →
      isValidMsgType v = false → MeetsInvalidType buf off off
  | later {off bad : Nat} {hdr : MessageHeader} :
      decodeHeader ((buf.drop off).take kHeaderWireSize) = some hdr →
      off + (kHeaderWireSize + hdr.bodySize.toNat) ≤ buf.length →
      MeetsInvalidType buf (off + (kHeaderWireSize + hdr.bodySize.toNat)) bad →
      MeetsInvalidType buf off bad

def IncompleteFrame (bytes : List UInt8) : Prop :=
  bytes.length < kHeaderWireSize ∨ ∃ hdr, decodeHeader (bytes.take kHeaderWireSize) = some hdr ∧
    bytes.length < kHeaderWireSize + hdr.bodySize.toNat

theorem frameLook_eq_wait_iff {bytes : List UInt8} :
    frameLook bytes = .wait ↔ IncompleteFrame bytes := frameLook_wait_iff

/-- A declared body size is a 16-bit number. -/
theorem IncompleteFrame.length_lt {bytes : List UInt8} (h : IncompleteFrame bytes) :
    bytes.length < kHeaderWireSize + 65535 := by
  rcases h with hshort | ⟨hdr, -, hlong⟩
  · omega
  · have := hdr.bodySize.toNat_lt
    omega

theorem wire_byte (v : UInt8) : wire v = [v] := by
  change [UInt8.ofNat v.toUInt64.toNat] = [v]
  simp

theorem getElem?_loadLe {b : List UInt8} (off : Nat) (h : off + size UInt8 ≤ b.length) :
    b[off]? = some (loadLe UInt8 b off h) := by
  have hwire : [loadLe UInt8 b off h] = (b.drop off).take 1 :=
    (wire_byte _).symm.trans (wire_loadLe h)
  calc b[off]? = ((b.drop off).take 1)[0]? := by simp
    _ = some (loadLe UInt8 b off h) := by rw [← hwire]; rfl

theorem decodeHeader_eq_none_iff {b : List UInt8} (hlen : b.length = kHeaderWireSize) :
    decodeHeader b = none ↔ ∃ v, b[0]? = some v ∧ isValidMsgType v = false := by
  have hbyte := getElem?_loadLe (b := b) 0 (by rw [hlen]; decide)
  unfold decodeHeader
  rw [dif_neg (by omega)]
  simp [hbyte]

/-! ## The walk and the scan -/

theorem frameLook_invalid_iff {xs : List UInt8} :
    frameLook xs = .stop none kHeaderWireSize ↔ kHeaderWireSize ≤ xs.length ∧
      ∃ v, xs[0]? = some v ∧ isValidMsgType v = false := by
  have hhead (v : UInt8) : (xs.take kHeaderWireSize)[0]? = some v ↔ xs[0]? = some v := by
    rw [List.getElem?_take_of_lt (by decide)]
  rw [frameLook_stop_iff]
  constructor
  · rintro ⟨hdec, -, hlen, -⟩
    obtain ⟨v, hv, hbad⟩ := (decodeHeader_eq_none_iff (List.length_take_of_le hlen)).mp hdec
    exact ⟨hlen, v, (hhead v).mp hv, hbad⟩
  · rintro ⟨hlen, v, hv, hbad⟩
    refine ⟨?_, rfl, hlen, rfl⟩
    exact (decodeHeader_eq_none_iff (List.length_take_of_le hlen)).mpr ⟨v, (hhead v).mpr hv, hbad⟩

theorem MeetsInvalidType.scan {buf : List UInt8} {off bad : Nat}
    (h : MeetsInvalidType buf off bad) :
    (frameScanner.scanFrom off (buf.drop off)).stopped = true ∧
      (frameScanner.scanFrom off (buf.drop off)).rest = buf.drop (bad + kHeaderWireSize) := by
  induction h with
  | @here off v hlen hv hbad =>
    have hlook : frameScanner.look (buf.drop off) = .stop none kHeaderWireSize :=
      frameLook_invalid_iff.mpr ⟨by simp; omega, v, by simpa using hv, hbad⟩
    rw [Scanner.scanFrom_stop off hlook]
    simp
  | @later off bad hdr hdec hlen _ ih =>
    have hlook : frameScanner.look (buf.drop off) = .unit _ _ :=
      frameLook_unit_iff.mpr ⟨hdr, hdec, rfl, by simp; omega, rfl⟩
    rw [Scanner.scanFrom_unit off hlook]
    simpa only [List.drop_drop] using ih

theorem meetsInvalidType_of_scan {buf xs : List UInt8} {off : Nat} (hxs : xs = buf.drop off)
    (h : (frameScanner.scanFrom off xs).stopped = true) : ∃ bad, MeetsInvalidType buf off bad := by
  fun_induction Scanner.scanFrom frameScanner off xs with
  | case1 off xs hlook => simp at h
  | case2 off xs o n hlook =>
    have hstop := frameLook_stop_iff.mp hlook
    obtain ⟨hlen, v, hv, hbad⟩ := frameLook_invalid_iff.mp
      (frameLook_stop_iff.mpr ⟨hstop.1, rfl, hstop.2.1 ▸ hstop.2.2.1, rfl⟩)
    subst hxs
    refine ⟨off, .here ?_ (by simpa using hv) hbad⟩
    simp only [kHeaderWireSize, List.length_drop] at hlen ⊢
    omega
  | case3 off xs o n hlook r ih =>
    obtain ⟨hdr, hdec, rfl, hle, -⟩ := frameLook_unit_iff.mp hlook
    subst hxs
    have hin : off + (kHeaderWireSize + hdr.bodySize.toNat) ≤ buf.length := by
      simp only [kHeaderWireSize, List.length_drop] at hle ⊢
      omega
    obtain ⟨bad, hbad⟩ := ih List.drop_drop h
    exact ⟨bad, .later hdec hin hbad⟩

theorem scan_stopped_iff (buf : List UInt8) :
    (frameScanner.scan buf).stopped = true ↔ ∃ bad, MeetsInvalidType buf 0 bad :=
  ⟨fun h => meetsInvalidType_of_scan rfl h, fun ⟨_, h⟩ => h.scan.1⟩

theorem scan_not_stopped {buf : List UInt8} (h : ∀ bad, ¬MeetsInvalidType buf 0 bad) :
    (frameScanner.scan buf).stopped = false := by
  by_contra hstop
  obtain ⟨bad, hbad⟩ := (scan_stopped_iff buf).mp (by simpa using hstop)
  exact h bad hbad

/-! ## Frames as a fold

Offsets of malformed frames are relative to the buffer of one call, so they are the one
thing that depends on the cuts. For a sink that ignores them, a call to the feed handler
is a fold over the verdicts on the frames. -/

/-- `f` carries every callback of one sink to the same callback of the other. -/
def HandlerLike.Maps {σ τ : Type} (H : HandlerLike σ) (K : HandlerLike τ) (f : σ → τ) : Prop :=
  (∀ hdr body s, f (H.onMessage hdr body s) = K.onMessage hdr body (f s)) ∧
    ∀ off s, f (H.onMalformed off s) = K.onMalformed off (f s)

def HandlerLike.OffsetBlind {σ : Type} (H : HandlerLike σ) : Prop :=
  ∀ off off' s, H.onMalformed off s = H.onMalformed off' s

namespace FeedHandler

variable {δ : Type} (D : HandlerLike δ)

/-- The effect of one frame, given the parser's verdict on it. -/
def applyFrame (fh : FeedHandler δ) : Option (MessageHeader × Body) → FeedHandler δ
  | some (hdr, body) => forwardIf hdr.sequence (D.onMessage hdr body) fh
  | none => { fh with down := D.onMalformed 0 fh.down, malformed := fh.malformed + 1 }

def applyFrames (outs : List (Option (MessageHeader × Body))) (fh : FeedHandler δ) :
    FeedHandler δ :=
  outs.foldl (applyFrame D) fh

theorem applyFrames_cons (out : Option (MessageHeader × Body))
    (outs : List (Option (MessageHeader × Body))) (fh : FeedHandler δ) :
    applyFrames D (out :: outs) fh = applyFrames D outs (applyFrame D fh out) := rfl

theorem applyFrames_append (xs ys : List (Option (MessageHeader × Body))) (fh : FeedHandler δ) :
    applyFrames D (xs ++ ys) fh = applyFrames D ys (applyFrames D xs fh) := List.foldl_append

theorem applyFrame_residual (out : Option (MessageHeader × Body)) (fh : FeedHandler δ)
    (r : List UInt8) :
    applyFrame D { fh with residual := r } out = { applyFrame D fh out with residual := r } := by
  cases out with
  | none => rfl
  | some m =>
    simp only [applyFrame, forwardIf_eq]
    split <;> rfl

theorem applyFrames_residual (outs : List (Option (MessageHeader × Body))) (fh : FeedHandler δ)
    (r : List UInt8) :
    applyFrames D outs { fh with residual := r } = { applyFrames D outs fh with residual := r } := by
  induction outs generalizing fh with
  | nil => rfl
  | cons out outs ih => exact (congrArg (applyFrames D outs) (applyFrame_residual ..)).trans (ih _)

variable {D}

theorem afterScan_eq (hD : D.OffsetBlind) (s : FrameScan) (fh : FeedHandler δ) :
    afterScan D s fh = applyFrames D s.outs fh := by
  obtain ⟨units, rest, stopped⟩ := s
  induction units generalizing fh with
  | nil => simp [afterScan, callbacks, countMalformed, applyFrames, Scan.outs]
  | cons u us ih =>
    have hstep : afterScan D ⟨u :: us, rest, stopped⟩ fh =
        afterScan D ⟨us, rest, stopped⟩ (applyFrame D fh u.2) := by
      obtain ⟨off, _ | ⟨hdr, body⟩⟩ := u
      · have hframe := deliverAll_frame D (us.map callbackOf)
          { fh with down := D.onMalformed 0 fh.down } fh.residual (fh.malformed + 1)
        have hcount : fh.malformed + UInt64.ofNat (us.countP (·.2.isNone) + 1) =
            fh.malformed + 1 + UInt64.ofNat (us.countP (·.2.isNone)) := by
          rw [UInt64.ofNat_add, UInt64.add_comm (UInt64.ofNat _), ← UInt64.add_assoc]
          rfl
        simp only at hframe
        simp only [afterScan, applyFrame, callbacks, List.map_cons, callbackOf,
          HandlerLike.deliverAll_cons, deliver_malformed, hD off 0, countMalformed,
          List.countP_cons, Option.isNone_none, if_pos, hframe, deliverAll_malformed,
          deliverAll_residual, hcount]
      · simp [afterScan, applyFrame, callbacks, callbackOf, deliver_message, countMalformed]
    rw [hstep, ih]
    rfl

theorem consume_applyFrames (hD : D.OffsetBlind) (bytes : List UInt8) (fh : FeedHandler δ) :
    (consume D bytes fh).1 =
      { applyFrames D (frameScanner.scan (fh.residual ++ bytes)).outs fh with
        residual := (frameScanner.scan (fh.residual ++ bytes)).rest } := by
  rw [consume_eq, afterScan_eq hD]

/-! ## Feeding chunks -/

variable (D) in
/-- One `consume` call for each chunk, in order. -/
def feedAll (chunks : List (List UInt8)) (fh : FeedHandler δ) : FeedHandler δ :=
  chunks.foldl (fun fh bytes => (consume D bytes fh).1) fh

theorem feedAll_applyFrames (hD : D.OffsetBlind) (chunks : List (List UInt8))
    (fh : FeedHandler δ) :
    feedAll D chunks fh =
      { applyFrames D (frameScanner.feeds fh.residual chunks).1 fh with
        residual := (frameScanner.feeds fh.residual chunks).2 } := by
  induction chunks generalizing fh with
  | nil => rfl
  | cons bytes chunks ih =>
    have hhead := consume_applyFrames hD bytes fh
    rw [show feedAll D (bytes :: chunks) fh = feedAll D chunks (consume D bytes fh).1 from rfl, ih,
      hhead, applyFrames_residual]
    simp only [Scanner.feeds, applyFrames_append]

/-- Feeding chunks behind a residual that is an unfinished frame. -/
theorem feedAll_eq (hD : D.OffsetBlind) (chunks : List (List UInt8)) (fh : FeedHandler δ)
    (hres : IncompleteFrame fh.residual)
    (hvalid : ∀ bad, ¬MeetsInvalidType (fh.residual ++ chunks.flatten) 0 bad) :
    feedAll D chunks fh = (consume D chunks.flatten fh).1 := by
  have hfeeds := frameScanner.feeds_eq fh.residual chunks (frameLook_eq_wait_iff.mpr hres)
    (scan_not_stopped hvalid)
  rw [feedAll_applyFrames hD, hfeeds, consume_applyFrames hD]

variable (D) in
theorem feedAll_residual (chunks : List (List UInt8)) (fh : FeedHandler δ) :
    (feedAll D chunks fh).residual = (frameScanner.feeds fh.residual chunks).2 := by
  induction chunks generalizing fh with
  | nil => rfl
  | cons bytes chunks ih =>
    have hhead : (consume D bytes fh).1.residual =
        (frameScanner.scan (fh.residual ++ bytes)).rest := by rw [consume_eq]
    calc (feedAll D chunks (consume D bytes fh).1).residual
        = (frameScanner.feeds (consume D bytes fh).1.residual chunks).2 := ih _
      _ = _ := by rw [hhead]; rfl

/-! ## Changing the sink -/

variable {δ' : Type} {D' : HandlerLike δ'} {f : δ → δ'}

def mapDown (f : δ → δ') (fh : FeedHandler δ) : FeedHandler δ' :=
  { fh with down := f fh.down }

theorem deliver_mapDown (hf : D.Maps D' f) (c : Callback) (fh : FeedHandler δ) :
    ((handler D).deliver c fh).mapDown f = (handler D').deliver c (fh.mapDown f) := by
  cases c with
  | malformed off => simp [mapDown, hf.2]
  | message hdr body =>
    simp only [deliver_message, forwardIf_eq, mapDown]
    split <;> simp [hf.1]

theorem deliverAll_mapDown (hf : D.Maps D' f) (cs : List Callback) (fh : FeedHandler δ) :
    ((handler D).deliverAll fh cs).mapDown f = (handler D').deliverAll (fh.mapDown f) cs := by
  induction cs generalizing fh with
  | nil => rfl
  | cons c cs ih =>
    rw [HandlerLike.deliverAll_cons, ih, deliver_mapDown hf, HandlerLike.deliverAll_cons]

theorem consume_mapDown (hf : D.Maps D' f) (bytes : List UInt8) (fh : FeedHandler δ) :
    (consume D bytes fh).1.mapDown f = (consume D' bytes (fh.mapDown f)).1 := by
  rw [consume_eq, consume_eq, afterScan, afterScan, ← deliverAll_mapDown hf]
  rfl

theorem feedAll_mapDown (hf : D.Maps D' f) (chunks : List (List UInt8)) (fh : FeedHandler δ) :
    (feedAll D chunks fh).mapDown f = feedAll D' chunks (fh.mapDown f) := by
  induction chunks generalizing fh with
  | nil => rfl
  | cons bytes chunks ih =>
    calc (feedAll D chunks (consume D bytes fh).1).mapDown f
        = feedAll D' chunks ((consume D bytes fh).1.mapDown f) := ih _
      _ = feedAll D' chunks (consume D' bytes (fh.mapDown f)).1 := by rw [consume_mapDown hf]

end FeedHandler

/-! ## Segmentation -/

def Callback.eraseOffset : Callback → Callback
  | .message hdr body => .message hdr body
  | .malformed _ => .malformed 0

/-- The recorder that logs every malformed frame at offset zero. -/
def blindRecorder : HandlerLike (List Callback) :=
  { recorder with onMalformed := fun _ log => log ++ [.malformed 0] }

theorem blindRecorder_offsetBlind : blindRecorder.OffsetBlind := fun _ _ _ => rfl

theorem recorder_maps : recorder.Maps blindRecorder (List.map Callback.eraseOffset) := by
  constructor
  · intro hdr body log
    cases body <;> exact List.map_append
  · intro off log
    exact List.map_append

instance : Inhabited RawFrame := ⟨⟨{}, [], rfl⟩⟩

/-- A stream on which the framing is never lost is whole frames and an incomplete one. -/
theorem exists_frames {stream : List UInt8} (h : (frameScanner.scan stream).stopped = false) :
    ∃ frames : List RawFrame,
      stream = frames.flatMap RawFrame.bytes ++ (frameScanner.scan stream).rest := by
  obtain ⟨us, hus, hstream, -⟩ := frameScanner.exists_units 0 stream h
  have hraw : ∀ u ∈ us, ∃ f : RawFrame, f.bytes = u.1 := by
    intro u hu
    obtain ⟨hdr, hdec, hlen, -, -⟩ := frameLook_unit_iff.mp (hus u hu)
    refine ⟨⟨hdr, u.1.drop kHeaderWireSize, by simp; omega⟩, ?_⟩
    have hhead := bytes_of_decodeHeader (List.length_take_of_le (by omega)) hdec
    rw [RawFrame.bytes, hhead, List.take_append_drop]
  choose! frame hframe using hraw
  refine ⟨us.map frame, ?_⟩
  have hflat : (us.map frame).flatMap RawFrame.bytes = us.flatMap Prod.fst := by
    rw [List.flatMap_map]
    exact List.flatMap_congr fun u hu => hframe u hu
  rw [hflat]
  exact hstream

/-- The framing of a prefix is not lost if that of the whole is not. -/
theorem stopped_of_append {xs ys : List UInt8} (h : (frameScanner.scan (xs ++ ys)).stopped = false) :
    (frameScanner.scan xs).stopped = false := by
  by_contra hstop
  have hmore := frameScanner.scanFrom_append_stopped 0 xs ys (by simpa [Scanner.scan] using hstop)
  rw [Scanner.scan, hmore] at h
  exact Bool.noConfusion h

namespace FeedHandler

/-- The state with the offsets in the log of its recording sink erased. -/
def eraseOffsets (fh : FeedHandler (List Callback)) : FeedHandler (List Callback) :=
  fh.mapDown (List.map Callback.eraseOffset)

/-- Reassembly does not depend on segmentation: the log up to offsets, the statistics and
the residual are those of one call on the whole stream, and after every chunk the bytes
fed so far are whole frames followed by the residual, which is an incomplete frame. -/
theorem feedAll_eq_consume (chunks : List (List UInt8)) (fh : FeedHandler (List Callback))
    (hres : fh.residual = []) (hvalid : ∀ bad, ¬MeetsInvalidType chunks.flatten 0 bad) :
    (feedAll recorder chunks fh).eraseOffsets =
        (consume recorder chunks.flatten fh).1.eraseOffsets ∧
      ∀ fed ahead, chunks = fed ++ ahead → ∃ frames : List RawFrame,
        fed.flatten = frames.flatMap RawFrame.bytes ++ (feedAll recorder fed fh).residual ∧
          IncompleteFrame (feedAll recorder fed fh).residual := by
  constructor
  · have hblind : fh.eraseOffsets.residual = [] := hres
    rw [eraseOffsets, eraseOffsets, feedAll_mapDown recorder_maps, consume_mapDown recorder_maps]
    refine feedAll_eq blindRecorder_offsetBlind chunks fh.eraseOffsets ?_ ?_
    · exact hblind ▸ .inl (by decide)
    · rwa [hblind, List.nil_append]
  · rintro fed ahead rfl
    have hstop : (frameScanner.scan fed.flatten).stopped = false := by
      have hall := scan_not_stopped hvalid
      rw [List.flatten_append] at hall
      exact stopped_of_append hall
    have hnil : frameScanner.look [] = .wait := rfl
    have hfeeds := frameScanner.feeds_eq [] fed hnil hstop
    have hresidual : (feedAll recorder fed fh).residual = (frameScanner.scan fed.flatten).rest := by
      rw [feedAll_residual, hres, hfeeds]
      rfl
    obtain ⟨frames, hframes⟩ := exists_frames hstop
    rw [hresidual]
    exact ⟨frames, hframes, frameLook_eq_wait_iff.mp (frameScanner.look_rest 0 _ hstop)⟩

/-- A stream of the mixed items, cut inside a header, inside a bad frame and twice at once. -/
def cutStream : List (List UInt8) :=
  let bytes := mixedItems.flatMap StreamItem.bytes ++ [1, 1]
  [bytes.take 5, [], (bytes.drop 5).take 60, bytes.drop 65]

theorem feedAll_cutStream :
    (∀ bad, ¬MeetsInvalidType cutStream.flatten 0 bad) ∧
      (feedAll recorder cutStream { down := [] }).eraseOffsets =
        (consume recorder cutStream.flatten { down := [] }).1.eraseOffsets := by
  have hvalid : ∀ bad, ¬MeetsInvalidType cutStream.flatten 0 bad := by
    intro bad hbad
    have hstop : (frameScanner.scan cutStream.flatten).stopped = false := by decide +kernel
    exact Bool.noConfusion (hbad.scan.1.symm.trans hstop)
  exact ⟨hvalid, (feedAll_eq_consume cutStream { down := [] } rfl hvalid).1⟩

/-! ## What stays pending -/

/-- A call whose parse does not meet an invalid type byte leaves less than one frame
pending, and a call with an empty chunk then does nothing. A call whose parse does meet
one leaves everything behind that 16-byte header pending, whole frames included. -/
theorem consume_pending {δ : Type} (D : HandlerLike δ) (s : δ) (chunks : List (List UInt8))
    (bytes : List UInt8) :
    let before := feedAll D chunks { down := s }
    let after := (consume D bytes before).1
    ((∀ bad, ¬MeetsInvalidType (before.residual ++ bytes) 0 bad) →
      IncompleteFrame after.residual ∧ after.residual.length < kHeaderWireSize + 65535 ∧
        (consume D [] after).1 = after ∧ (consume D [] after).2.messages = 0 ∧
        (consume D [] after).2.malformed = 0) ∧
    (∀ bad, MeetsInvalidType (before.residual ++ bytes) 0 bad →
      after.residual = (before.residual ++ bytes).drop (bad + kHeaderWireSize)) := by
  intro before after
  have hafter : after.residual = (frameScanner.scan (before.residual ++ bytes)).rest := by
    simp only [after, consume_eq]
  constructor
  · intro hvalid
    have hwait : frameScanner.look after.residual = .wait := by
      rw [hafter]
      exact frameScanner.look_rest 0 _ (scan_not_stopped hvalid)
    have hscan : frameScanner.scan (after.residual ++ []) = ⟨[], after.residual, false⟩ := by
      rw [List.append_nil]
      exact Scanner.scanFrom_wait 0 hwait
    have hinc := frameLook_eq_wait_iff.mp hwait
    refine ⟨hinc, hinc.length_lt, ?_, ?_, ?_⟩
    all_goals simp only [consume_eq, hscan]
    · simp [afterScan, callbacks, countMalformed]
    · rfl
    · rfl
  · intro bad hbad
    rw [hafter]
    exact hbad.scan.2

/-- Sixteen bytes with type byte 250 and two heartbeats behind them. -/
def poisoned : List UInt8 :=
  250 :: List.replicate 15 0 ++ encodeFrame 1 0 .heartbeat ++ encodeFrame 2 0 .heartbeat

/-- After the cut stream an incomplete frame is pending; after a bad header, two heartbeats. -/
theorem consume_pending_poisoned :
    IncompleteFrame (consume recorder [] (feedAll recorder cutStream { down := [] })).1.residual ∧
      (consume recorder poisoned { down := [] }).1.residual =
        poisoned.drop (0 + kHeaderWireSize) := by
  have hscan : (frameScanner.scan
      ((feedAll recorder cutStream { down := [] }).residual ++ [])).stopped = false := by
    decide +kernel
  have hmeets : MeetsInvalidType poisoned 0 0 :=
    .here (v := 250) (by decide +kernel) rfl (by decide)
  constructor
  · refine ((consume_pending recorder [] cutStream []).1 fun bad hbad => ?_).1
    exact Bool.noConfusion (hbad.scan.1.symm.trans hscan)
  · exact (consume_pending recorder [] [] poisoned).2 0 hmeets

/-- Behind a header with an invalid type byte two whole frames stay pending, and the next
call dispatches them although it brings no bytes. -/
theorem consume_poisoned :
    let fh := (consume recorder poisoned { down := [] }).1
    ¬IncompleteFrame fh.residual ∧ (consume recorder [] fh).1 ≠ fh ∧
      (consume recorder [] fh).2.messages = 2 := by
  refine ⟨?_, by decide +kernel, by decide +kernel⟩
  have hres : (consume recorder poisoned { down := [] }).1.residual =
      (encodedFrame 1 0 .heartbeat).bytes ++ (encodedFrame 2 0 .heartbeat).bytes := by
    decide +kernel
  rw [hres, ← frameLook_eq_wait_iff, frameLook_raw]
  exact nofun

end FeedHandler

end Mdfh
