import Mdfh.Capture
import Mdfh.ExchangeFeed
import Mdfh.Replay

/-!
# Recorded runs

The exchange may write its run to a capture file instead of sending it. What a replay of the
file reconstructs, in any mode, is what a receiver of the live run would have; and a file
that was cut off anywhere gives the run as it was behind its last whole message.

## Main definitions

* `Recording.record` — the exchange with a capture file as its output.

## Main results

* `ReplayDriver.replay_messages` — a replay of a stream that may be cut off.
* `Recording.record_eq` — the file of a run.
* `Recording.record_replay` — from the simulator through the file to the books.
* `Recording.replay_truncated` — a file without its last bytes.
-/

namespace Mdfh

open Std Library Library.Stdio Library.LittleEndian MarketSimulator

/-! ## Replay of a stream -/

/-- What the parser sees at the beginning of a stream that is cut off inside a frame. -/
theorem Message.look_stream (ms : List Message) {tail : List UInt8}
    (hwait : frameLook tail = .wait) :
    frameScanner.look (ms.flatMap bytes ++ tail) =
      match ms with
      | [] => .wait
      | m :: _ => .unit m.item.verdict m.bytes.length := by
  cases ms with
  | nil => exact hwait
  | cons m ms =>
    rw [List.flatMap_cons, List.append_assoc]
    exact Scanner.look_append_unit m.item.isUnit _

namespace FeedHandler

/-- A buffer that is cut off inside a frame, handed over in one call. -/
theorem consume_stream (ms : List Message) {tail : List UInt8} (hwait : frameLook tail = .wait)
    {fh : FeedHandler BookBuilder} (hres : fh.residual = []) :
    let r := consume builderHandler (ms.flatMap Message.bytes ++ tail) fh
    r.1 = { ms.foldl (receive builderHandler) fh with residual := tail } ∧
      r.2.messages = ms.length ∧ r.2.malformed = 0 := by
  refine ⟨consume_cut (by rw [hres, List.nil_append]) hwait, ?_, ?_⟩
  · have hmessages : ms.countP (fun m => m.item.verdict.isSome) = ms.length :=
      List.countP_eq_length.mpr fun m _ => rfl
    rw [consume_eq, hres, List.nil_append, Message.scan_stream ms hwait]
    simp only [resultOf, countMessages, StreamItem.countP_positions 0 _ Option.isSome,
      List.countP_map, Function.comp_def, hmessages]
  · have hmalformed : ms.countP (fun m => m.item.verdict.isNone) = 0 :=
      List.countP_eq_zero.mpr fun m _ => Bool.false_ne_true
    rw [consume_eq, hres, List.nil_append, Message.scan_stream ms hwait]
    simp only [resultOf, countMalformed, StreamItem.countP_positions 0 _ Option.isNone,
      List.countP_map, Function.comp_def, hmalformed]

theorem receive_keeps {δ : Type} (D : HandlerLike δ) (fh : FeedHandler δ) (m : Message) :
    (receive D fh m).residual = fh.residual :=
  congrArg (·.residual) (receive_residual D fh m fh.residual)

theorem consume_one (m : Message) {fh : FeedHandler BookBuilder} (hres : fh.residual = []) :
    let r := consume builderHandler m.bytes fh
    r.1 = receive builderHandler fh m ∧ r.2.messages = 1 ∧ r.2.malformed = 0 := by
  have hempty : frameLook [] = .wait := frameLook_wait_iff.mpr (.inl (by decide))
  have hone := consume_stream [m] hempty hres
  rw [List.flatMap_singleton, List.append_nil] at hone
  refine ⟨hone.1.trans ?_, hone.2⟩
  have hkeep := receive_residual builderHandler fh m []
  rw [List.foldl_cons, List.foldl_nil, ← hkeep, ← hres]

end FeedHandler

namespace ReplayDriver

open FeedHandler

/-- The timed walk over the messages from an offset on. -/
theorem timedLoop_messages (cfg : ReplayConfig) (buffer : List UInt8) (off : Nat)
    (firstTs : Option TimestampNs) (feed : FeedHandler BookBuilder) (res : ReplayResult)
    {ms : List Message} {tail : List UInt8} (hwait : frameLook tail = .wait)
    (hbuffer : buffer.drop off = ms.flatMap Message.bytes ++ tail) (hres : feed.residual = []) :
    let t := timedLoop cfg buffer off firstTs feed res
    t.1 = ms.foldl (receive builderHandler) feed ∧
      t.2.messagesParsed = res.messagesParsed + UInt64.ofNat ms.length ∧
      t.2.malformed = res.malformed := by
  fun_induction timedLoop cfg buffer off firstTs feed res generalizing ms with
  | case1 off firstTs feed res hin hdec =>
    have hlook := Message.look_stream ms hwait
    rw [← hbuffer, look_invalid hin hdec] at hlook
    cases ms <;> cases hlook
  | case2 off firstTs feed res hin hdr hdec frame =>
    rename_i hframe
    have hlook := Message.look_stream ms hwait
    rw [← hbuffer, look_cutOff hin hdec hframe] at hlook
    cases ms with
    | nil => exact ⟨rfl, (UInt64.add_zero _).symm, rfl⟩
    | cons m ms => cases hlook
  | case3 off firstTs feed res hin hdr hdec frame hframe first sleeps fr =>
    rename_i ih
    obtain ⟨out, hout, -⟩ := exists_look_frame hin hdec hframe
    have hlook := Message.look_stream ms hwait
    rw [← hbuffer, hout] at hlook
    cases ms with
    | nil => cases hlook
    | cons m ms =>
      have hlen := (Look.unit.inj hlook).2
      rw [List.flatMap_cons, List.append_assoc] at hbuffer
      have hframe' : subspan buffer off frame (subspan_fits hframe) = m.bytes := by
        change (buffer.drop off).take (kHeaderWireSize + hdr.bodySize.toNat) = m.bytes
        rw [hbuffer, hlen, List.take_left]
      obtain ⟨hfeed, hmessages, hmalformed⟩ := consume_one m hres
      rw [← hframe'] at hfeed hmessages hmalformed
      have hrest : buffer.drop (off + frame) = ms.flatMap Message.bytes ++ tail := by
        change buffer.drop (off + (kHeaderWireSize + hdr.bodySize.toNat)) = _
        rw [← List.drop_drop, hbuffer, hlen, List.drop_left]
      have hres' : fr.1.residual = [] := by
        rw [show fr.1 = _ from hfeed, receive_keeps, hres]
      obtain ⟨hnext, hparsed, hbad⟩ := ih hrest hres'
      refine ⟨?_, ?_, ?_⟩
      · rw [hnext, show fr.1 = _ from hfeed]
        rfl
      · rw [hparsed, show fr.2.messages = 1 from hmessages, List.length_cons, Nat.add_comm,
          UInt64.ofNat_add, UInt64.add_assoc]
      · rw [hbad, show fr.2.malformed = 0 from hmalformed]
        exact UInt64.add_zero _
  | case4 off firstTs feed res hin =>
    have hlook := Message.look_stream ms hwait
    rw [← hbuffer, look_short hin] at hlook
    cases ms with
    | nil => exact ⟨rfl, (UInt64.add_zero _).symm, rfl⟩
    | cons m ms => cases hlook

/-- A replay in any mode of a buffer that is cut off inside a frame. -/
theorem replay_messages (cfg : ReplayConfig) (ms : List Message) {tail : List UInt8}
    (hwait : frameLook tail = .wait) :
    let r := replay { feed := { down := {} } } (ms.flatMap Message.bytes ++ tail) cfg
    (∃ bytes, r.1.feed =
        { ms.foldl (receive builderHandler) { down := {} } with residual := bytes }) ∧
      r.2.messagesParsed = UInt64.ofNat ms.length ∧ r.2.malformed = 0 ∧
      r.2.forwarded = r.1.feed.forwarded ∧ r.2.dropped = r.1.feed.dropped := by
  by_cases hmode : cfg.mode = .maxSpeed
  · have hfresh : ({ down := {} } : FeedHandler BookBuilder).residual = [] := rfl
    obtain ⟨hfeed, hmessages, hmalformed⟩ := consume_stream ms hwait hfresh
    simp only [replay, if_pos hmode, hmessages, hmalformed]
    exact ⟨⟨tail, hfeed⟩, trivial, rfl, trivial, trivial⟩
  · obtain ⟨hfeed, hparsed, hmalformed⟩ := timedLoop_messages cfg
      (ms.flatMap Message.bytes ++ tail) 0 none { down := {} } {} hwait rfl rfl
    simp only [replay, if_neg hmode]
    refine ⟨⟨[], ?_⟩, hparsed.trans (UInt64.zero_add _), hmalformed, trivial, trivial⟩
    rw [hfeed, ← foldl_receive_residual]

end ReplayDriver

/-! ## Recording -/

namespace CaptureWriter

variable {d : Disk} {w : CaptureWriter} {path : Path} {ms : List Message}

theorem length_captureOf_le (count : UInt64) (ms : List Message) :
    (captureOf count ms).length ≤ kCaptureHeaderSize + ms.length * kMaxMessageSize := by
  rw [captureOf, List.length_append, length_captureHeader, List.length_flatMap]
  refine Nat.add_le_add_left ?_ _
  have hsum := List.sum_le_card_nsmul (ms.map fun m => m.bytes.length) kMaxMessageSize ?_
  · simpa using hsum
  · intro n hn
    obtain ⟨m, -, rfl⟩ := List.mem_map.mp hn
    exact m.length_bytes_le

end CaptureWriter

namespace Recording

open CaptureWriter

variable {rng : Rng} {cfg : SimConfig}

/-- The callback of `run`, which does not look at the result of `write`. -/
def onMessage (s : Option (Disk × CaptureWriter)) (m : Message) : Option (Disk × CaptureWriter) :=
  s.bind fun s => (write s.1 s.2 m.seq m.ts m.body).map fun r => (r.1, r.2.1)

/-- The exchange with a file as its output: the disk behind it and the number of messages. There
is no result where the file cannot be opened or `fuel` calls of `next` are not enough. -/
def record (sim : MarketSimulator rng) (fuel : Nat) (d : Disk) (path : Path) :
    Except Fault (Option (Disk × UInt64)) := do
  let (d, w, ok) := openFile d {} path
  if !ok then return none
  let r ← sim.run onMessage fuel (some (d, w)) 0
  return r.bind fun (_, s, n) => s.map fun (d, w) => ((close d w).1, n)

theorem foldl_onMessage {d : Disk} {w : CaptureWriter} {path : Path} {ms : List Message}
    (h : Writing d w path ms) (more : List Message)
    (hroom : kCaptureHeaderSize + (ms.length + more.length) * kMaxMessageSize ≤ maxOffset) :
    ∃ d' w', more.foldl onMessage (some (d, w)) = some (d', w') ∧
      Writing d' w' path (ms ++ more) ∧ ∀ q ≠ path, d' q = d q := by
  induction more generalizing d w ms with
  | nil => exact ⟨d, w, rfl, by rwa [List.append_nil], fun _ _ => rfl⟩
  | cons m more ih =>
    have hone : (captureOf 0 (ms ++ [m])).length ≤ maxOffset := by
      refine (length_captureOf_le 0 (ms ++ [m])).trans (Nat.le_trans ?_ hroom)
      refine Nat.add_le_add_left (Nat.mul_le_mul_right _ ?_) _
      rw [List.length_append, List.length_cons, List.length_cons, List.length_nil]
      omega
    obtain ⟨d₁, w₁, hwrite, h₁, hother₁⟩ := h.write_of_room hone
    obtain ⟨d', w', hrest, h', hother⟩ :=
      ih h₁ (by simpa [Nat.add_assoc, Nat.add_comm 1] using hroom)
    refine ⟨d', w', ?_, by simpa using h', fun q hq => (hother q hq).trans (hother₁ q hq)⟩
    rw [List.foldl_cons, onMessage, Option.bind_some, hwrite]
    exact hrest

/-- A valid run is short enough for a file. -/
theorem room_of_valid (hcfg : cfg.Valid) :
    kCaptureHeaderSize + (0 + cfg.numMessages.toNat) * kMaxMessageSize ≤ maxOffset := by
  have hpos := UInt32.le_iff_toNat_le.mp hcfg.qty_pos
  have hle := UInt32.le_iff_toNat_le.mp hcfg.qty_le
  have htotal := hcfg.total
  have hfew : cfg.numMessages.toNat ≤ cfg.numMessages.toNat * cfg.maxQty.toNat :=
    Nat.le_mul_of_pos_right _ (hpos.trans hle)
  have hsize : kMaxMessageSize ≤ 2 ^ 10 := by decide
  have hbytes := Nat.mul_le_mul_left cfg.numMessages.toNat hsize
  rw [Nat.zero_add]
  simp only [kCaptureHeaderSize, maxOffset]
  omega

/-- The file of a run holds its messages and their number; no other file is touched. -/
theorem record_eq (hcfg : cfg.Valid)
    (hprices : emit rng cfg cfg.numMessages.toNat ≠ .error .priceOverflow) {fuel : Nat}
    (hfuel : cfg.numMessages.toNat < fuel) (d : Disk) (path : Path) :
    ∃ sim₀ sim ms d', new rng cfg = .ok sim₀ ∧
      emit rng cfg cfg.numMessages.toNat = .ok (sim, ms) ∧ ms.length = cfg.numMessages.toNat ∧
      record sim₀ fuel d path = .ok (some (d', cfg.numMessages)) ∧
      d' path = some (captureOf cfg.numMessages (ms.map GeneratedMessage.dispatch)) ∧
      ∀ q ≠ path, d' q = d q := by
  obtain ⟨⟨sim, ms⟩, hemit, -, hlen, hproduced, -⟩ :=
    (emit_numbered rng hcfg.admitted cfg.numMessages.toNat).exists_ok fun e he => he ▸ hprices
  simp only [Nat.min_self] at hlen hproduced
  rw [hproduced] at hlen
  cases hnew : new rng cfg with
  | error f =>
    have hzero : emit rng cfg 0 = .error f := by
      rw [emit, hnew]
      rfl
    cases (emit_of_error hzero (Nat.zero_le _)).symm.trans hemit
  | ok sim₀ =>
    have hstart : emit rng cfg 0 = .ok (sim₀, []) := by
      rw [emit, hnew]
      rfl
    have hopen : Writing (Function.update d path (some (captureHeader 0)))
        { file := some ⟨path, kCaptureHeaderSize⟩, count := 0 } path [] := by
      refine Writing.openFile (d := d) (w := {}) ?_
      simp only [call, openFile_eq, if_true]
      rfl
    obtain ⟨d₁, w₁, hfold, hwriting, hother⟩ :=
      foldl_onMessage hopen (ms.map GeneratedMessage.dispatch) (by
        rw [List.length_map, hlen]
        exact room_of_valid hcfg)
    have hrun := run_from onMessage hcfg.admitted hemit hstart (Nat.zero_le _) hfuel
      (some (Function.update d path (some (captureHeader 0)),
        { file := some ⟨path, kCaptureHeaderSize⟩, count := 0 })) 0
    rw [List.drop_zero, hfold, Nat.sub_zero, UInt64.ofNat_toNat, UInt64.zero_add] at hrun
    refine ⟨sim₀, sim, ms, (close d₁ w₁).1, rfl, hemit, hlen, ?_, ?_, ?_⟩
    · have hfile : openFile d {} path = (Function.update d path (some (captureHeader 0)),
          { file := some ⟨path, kCaptureHeaderSize⟩, count := 0 }, true) := openFile_eq d {} path
      simp only [record, hfile, Bool.not_true, Bool.false_eq_true, if_false, hrun]
      rfl
    · have hclose := hwriting.close
      rwa [List.nil_append, List.length_map, hlen, UInt64.ofNat_toNat] at hclose
    · intro q hq
      have helsewhere : w₁.Elsewhere q := by
        intro f hf
        obtain rfl := Option.some.inj (hwriting.file.symm.trans hf)
        exact hq.symm
      rw [close_other helsewhere, hother q hq, Function.update_of_ne hq]

/-- The exchange writes its run to a file, and the file is replayed in any mode and at any
speed. It opens and counts the messages of the run, all of them are forwarded, every book
holds exactly the simulator's live orders, and no other file is touched. -/
theorem record_replay (rng : Rng) (hcfg : cfg.Valid)
    (hprices : emit rng cfg cfg.numMessages.toNat ≠ .error .priceOverflow) {fuel : Nat}
    (hfuel : cfg.numMessages.toNat < fuel) (d : Disk) (path : Path) (reader : CaptureReader)
    (replayCfg : ReplayConfig) :
    ∃ sim₀ sim ms d', new rng cfg = .ok sim₀ ∧
      emit rng cfg cfg.numMessages.toNat = .ok (sim, ms) ∧
      record sim₀ fuel d path = .ok (some (d', cfg.numMessages)) ∧ (∀ q ≠ path, d' q = d q) ∧
      let opened := reader.openFile d' path
      let replayed := ReplayDriver.replay { feed := { down := {} } } opened.1.messages replayCfg
      opened.2 = true ∧ opened.1.messageCount = cfg.numMessages ∧
        Loopback.Consistent ⟨sim, replayed.1.feed⟩ ∧
        replayed.2.messagesParsed = cfg.numMessages ∧ replayed.2.malformed = 0 ∧
        replayed.2.forwarded = cfg.numMessages ∧ replayed.2.dropped = 0 := by
  obtain ⟨sim₀, sim, ms, d', hnew, hemit, hlen, hrecord, hfile, hother⟩ :=
    record_eq hcfg hprices hfuel d path
  have hopened := reader.openFile_capture hfile
  have hempty : frameLook [] = .wait := frameLook_wait_iff.mpr (.inl (by decide))
  obtain ⟨⟨bytes, hfeed⟩, hparsed, hmalformed, hforwarded, hdropped⟩ :=
    ReplayDriver.replay_messages replayCfg (ms.map GeneratedMessage.dispatch) hempty
  rw [List.append_nil] at hfeed hparsed hmalformed hforwarded hdropped
  have hsame := consistent_received hcfg hemit bytes
  rw [FeedHandler.received, ← hfeed] at hsame
  have hproduced : sim.produced = cfg.numMessages := by
    obtain ⟨-, -, -, hcount⟩ := leads_of_emit hcfg hemit
    exact UInt64.toNat_inj.mp (hcount.symm.trans hlen)
  refine ⟨sim₀, sim, ms, d', hnew, hemit, hrecord, hother, ?_⟩
  simp only [hopened, CaptureReader.messages, CaptureReader.messageCount]
  refine ⟨trivial, trivial, hsame, ?_, hmalformed, ?_, ?_⟩
  · rw [hparsed, List.length_map, hlen, UInt64.ofNat_toNat]
  · rw [hforwarded, hsame.forwarded, hproduced]
  · rw [hdropped, hsame.dropped]

theorem record_replay_short :
    ∃ sim₀ sim ms d', new Loopback.congruential Loopback.shortConfig = .ok sim₀ ∧
      emit Loopback.congruential Loopback.shortConfig 12 = .ok (sim, ms) ∧
      record sim₀ 13 (fun _ => none) "run.cap" = .ok (some (d', 12)) ∧
      (∀ q ≠ "run.cap", d' q = none) ∧
      let opened := CaptureReader.openFile d' {} "run.cap"
      let replayed := ReplayDriver.replay { feed := { down := {} } } opened.1.messages
        { mode := .realtime }
      opened.2 = true ∧ opened.1.messageCount = 12 ∧
        Loopback.Consistent ⟨sim, replayed.1.feed⟩ ∧ replayed.2.messagesParsed = 12 ∧
        replayed.2.malformed = 0 ∧ replayed.2.forwarded = 12 ∧ replayed.2.dropped = 0 := by
  have hprices : emit Loopback.congruential Loopback.shortConfig 12 ≠ .error .priceOverflow :=
    fun herror => Loopback.emit_short (emit_of_error herror (by decide))
  exact record_replay Loopback.congruential Loopback.shortConfig_valid hprices (by decide)
    (fun _ => none) "run.cap" {} { mode := .realtime }

/-! ## Files that are cut off -/

theorem openFile_short (reader : CaptureReader) {d : Disk} {path : Path} {content : List UInt8}
    (hfile : d path = some content) (hshort : content.length < kCaptureHeaderSize) :
    reader.openFile d path =
      ({ reader with valid := false, error := "file smaller than header" }, false) := by
  have hread : (content.take kCaptureHeaderSize).length ≠ kCaptureHeaderSize := by
    rw [List.length_take]
    omega
  simp only [CaptureReader.openFile, fopen, hfile, Option.map_some, fread, Stdio.contents,
    Option.getD_some, List.drop_zero, hread, ne_eq, not_false_eq_true, dite_true]

/-- The file of a capture without its last bytes opens if its header is whole. -/
theorem openFile_cut (reader : CaptureReader) {d : Disk} {path : Path} {count : UInt64}
    {ms : List Message} {len : Nat} (hfile : d path = some ((captureOf count ms).take len))
    (hlen : kCaptureHeaderSize ≤ len) :
    reader.openFile d path =
      ({ bytes := (ms.flatMap Message.bytes).take (len - kCaptureHeaderSize)
         count, valid := true, error := "" }, true) := by
  have hheader : ((captureOf count ms).take len).take kCaptureHeaderSize = captureHeader count := by
    rw [List.take_take, Nat.min_eq_left hlen]
    exact List.take_left' (length_captureHeader count)
  have hmagic : ((captureOf count ms).take len).take kCaptureMagic.length = kCaptureMagic := by
    have hle : kCaptureMagic.length ≤ kCaptureHeaderSize := by decide
    have hbegin : (captureHeader count).take kCaptureMagic.length = kCaptureMagic := List.take_left
    rw [← hheader, List.take_take, Nat.min_eq_left hle] at hbegin
    exact hbegin
  have hfit : 16 + size UInt64 ≤
      (((captureOf count ms).take len).take kCaptureHeaderSize).length := by
    rw [hheader, length_captureHeader]
    decide
  have hcount : loadLe UInt64
      (((captureOf count ms).take len).take kCaptureHeaderSize) 16 hfit = count := by
    have hsrc : (((captureOf count ms).take len).take kCaptureHeaderSize).drop 16 =
        wire count ++ [] := by
      rw [hheader]
      exact (List.append_nil _).symm
    exact loadLe_of_drop hfit hsrc
  have hbody : ((captureOf count ms).take len).drop kCaptureHeaderSize =
      (ms.flatMap Message.bytes).take (len - kCaptureHeaderSize) := by
    rw [List.drop_take, captureOf, List.drop_left' (length_captureHeader count)]
  rw [reader.openFile_of_magic hfile hmagic hfit, hcount, hbody]

/-- The exchange has written the first messages of its run, the count in the header is that of
the run or still zero, and the file ends after `len` bytes. A file that ends in its header
is refused. Every other opens, and a replay in any mode gives the books of the run as it
was behind the last message that is whole in the file. -/
theorem replay_truncated (rng : Rng) (hcfg : cfg.Valid) {n : Nat} (hn : n ≤ cfg.numMessages.toNat)
    {sim : MarketSimulator rng} {ms : List GeneratedMessage}
    (hemit : emit rng cfg n = .ok (sim, ms))
    {d : Disk} {path : Path} (count : UInt64) (len : Nat)
    (hfile : d path = some ((captureOf count (ms.map GeneratedMessage.dispatch)).take len))
    (reader : CaptureReader) (replayCfg : ReplayConfig) :
    let opened := reader.openFile d path
    let replayed := ReplayDriver.replay { feed := { down := {} } } opened.1.messages replayCfg
    if len < kCaptureHeaderSize then
      opened = ({ reader with valid := false, error := "file smaller than header" }, false)
    else ∃ k simk, opened.2 = true ∧ opened.1.messageCount = count ∧
      emit rng cfg k = .ok (simk, ms.take k) ∧
      (captureOf count ((ms.take k).map GeneratedMessage.dispatch)).length ≤ len ∧
      (k < ms.length →
        len < (captureOf count ((ms.take (k + 1)).map GeneratedMessage.dispatch)).length) ∧
      Loopback.Consistent ⟨simk, replayed.1.feed⟩ ∧
      replayed.2.messagesParsed = UInt64.ofNat k ∧ replayed.2.malformed = 0 ∧
      replayed.2.dropped = 0 := by
  obtain ⟨-, hlen⟩ := length_of_emit hcfg hn hemit
  intro opened replayed
  split_ifs with hshort
  · refine openFile_short reader hfile ?_
    exact (List.length_take_le _ _).trans_lt hshort
  have hopened : opened = _ := openFile_cut reader hfile (Nat.le_of_not_lt hshort)
  obtain ⟨k, tail, hbytes, hcut⟩ := Message.exists_cut (ms.map GeneratedMessage.dispatch)
    (List.take_prefix (len - kCaptureHeaderSize) _)
  have hk : k ≤ n := by simpa [hlen] using hcut.le
  obtain ⟨simk, hsimk⟩ := emit_take hemit hlen hk
  obtain ⟨⟨rest, hfeed⟩, hparsed, hmalformed, -, hdropped⟩ :=
    ReplayDriver.replay_messages replayCfg ((ms.take k).map GeneratedMessage.dispatch) hcut.wait
  have hsame := consistent_received hcfg hsimk rest
  rw [FeedHandler.received, ← hfeed] at hsame
  have hmessages : opened.1.messages =
      ((ms.take k).map GeneratedMessage.dispatch).flatMap Message.bytes ++ tail := by
    rw [List.map_take, ← hbytes, hopened]
    rfl
  rw [← hmessages] at hfeed hparsed hmalformed hdropped hsame
  have hhead (j : Nat) : (captureOf count ((ms.take j).map GeneratedMessage.dispatch)).length =
      kCaptureHeaderSize +
        (((ms.map GeneratedMessage.dispatch).take j).flatMap Message.bytes).length := by
    rw [captureOf, List.length_append, length_captureHeader, List.map_take]
  have htaken := congrArg List.length hbytes
  rw [List.length_take, List.length_append] at htaken
  refine ⟨k, simk, congrArg (·.2) hopened, congrArg (·.1.count) hopened, hsimk, ?_, ?_, hsame, ?_,
    hmalformed, hdropped.trans hsame.dropped⟩
  · rw [hhead]
    omega
  · intro hlt
    have hget : (ms.map GeneratedMessage.dispatch)[k]? = some ms[k].dispatch := by
      simp [List.getElem?_eq_getElem hlt]
    have hnext := hcut.short _ hget
    have hfits : (((ms.map GeneratedMessage.dispatch).take (k + 1)).flatMap Message.bytes).length ≤
        ((ms.map GeneratedMessage.dispatch).flatMap Message.bytes).length := by
      have hall := congrArg List.length
        (Message.take_append_drop_bytes (ms.map GeneratedMessage.dispatch) (k + 1))
      rw [List.length_append] at hall
      omega
    rw [hhead]
    rw [List.take_add_one, hget, List.flatMap_append, List.length_append] at hfits ⊢
    simp only [Option.toList_some, List.flatMap_singleton] at hfits ⊢
    omega
  · rw [hparsed, List.length_map, List.length_take_of_le (hk.trans hlen.ge)]

theorem replay_truncated_short :
    ∃ sim ms k simk, emit Loopback.congruential Loopback.shortConfig 5 = .ok (sim, ms) ∧
      emit Loopback.congruential Loopback.shortConfig k = .ok (simk, ms.take k) ∧
      let d : Disk := fun _ => some ((captureOf 0 (ms.map GeneratedMessage.dispatch)).take 100)
      let replayed := ReplayDriver.replay { feed := { down := {} } }
        (CaptureReader.openFile d {} "run.cap").1.messages { mode := .realtime }
      Loopback.Consistent ⟨simk, replayed.1.feed⟩ ∧
        replayed.2.messagesParsed = UInt64.ofNat k := by
  cases hemit : emit Loopback.congruential Loopback.shortConfig 5 with
  | error f =>
    have hok : (emit Loopback.congruential Loopback.shortConfig 5).isOk = true := by decide +kernel
    rw [hemit] at hok
    cases hok
  | ok r =>
    obtain ⟨sim, ms⟩ := r
    obtain ⟨k, simk, -, -, hsimk, -, -, hsame, hparsed, -⟩ :=
      replay_truncated Loopback.congruential Loopback.shortConfig_valid (by decide) hemit 0 100
        (d := fun _ => some ((captureOf 0 (ms.map GeneratedMessage.dispatch)).take 100)) rfl {}
        { mode := .realtime }
    exact ⟨sim, ms, k, simk, rfl, hsimk, hsame, hparsed⟩

end Recording

end Mdfh
