import Mdfh.Accounting
import Mdfh.PipelineProof
import Mdfh.Replay

/-!
# Malformed counts of the three framing loops

The parser, the timed replay and the ingestion thread each walk a buffer. All of them count
a bad frame that can be skipped. An invalid type byte, behind which nothing can be framed,
is counted by the parser only, and a frame longer than every message by the parser and the
timed replay, but not by the pipeline.

## Main definitions

* `MeetsOversized` — the walk over a buffer reaches a frame longer than every message.
* `malformedIn` — the malformed frames among those that the pipeline consumes.

## Main results

* `timedLoop_malformed`, `framesFrom_malformed` — what the two walks leave out of the scan.
* `malformed_agree_iff` — the counts agree if and only if neither is met.
-/

namespace Mdfh

open Library

/-- Walking the frames of `buf` from an offset, one that is complete is longer than every
well-formed message. -/
inductive MeetsOversized (buf : List UInt8) : Nat → Prop
  | here {off : Nat} {hdr : MessageHeader} :
      decodeHeader ((buf.drop off).take kHeaderWireSize) = some hdr →
      off + (kHeaderWireSize + hdr.bodySize.toNat) ≤ buf.length →
      kMaxMessageSize < kHeaderWireSize + hdr.bodySize.toNat → MeetsOversized buf off
  | later {off : Nat} {hdr : MessageHeader} :
      decodeHeader ((buf.drop off).take kHeaderWireSize) = some hdr →
      off + (kHeaderWireSize + hdr.bodySize.toNat) ≤ buf.length →
      MeetsOversized buf (off + (kHeaderWireSize + hdr.bodySize.toNat)) → MeetsOversized buf off

section
variable {buf : List UInt8} {off : Nat} {hdr : MessageHeader}

theorem not_meetsOversized_of_none
    (hdec : decodeHeader ((buf.drop off).take kHeaderWireSize) = none) :
    ¬MeetsOversized buf off := by
  intro h
  cases h with
  | here hdec' => simp [hdec] at hdec'
  | later hdec' => simp [hdec] at hdec'

theorem not_meetsOversized_of_short (hin : ¬off + kHeaderWireSize ≤ buf.length) :
    ¬MeetsOversized buf off := by
  intro h
  cases h with
  | here _ hle => omega
  | later _ hle => omega

variable (hdec : decodeHeader ((buf.drop off).take kHeaderWireSize) = some hdr)
include hdec

theorem not_meetsOversized_of_cutOff
    (hframe : off + (kHeaderWireSize + hdr.bodySize.toNat) > buf.length) :
    ¬MeetsOversized buf off := by
  intro h
  cases h with
  | here hdec' hle =>
    cases hdec.symm.trans hdec'
    omega
  | later hdec' hle =>
    cases hdec.symm.trans hdec'
    omega

theorem meetsOversized_iff
    (hframe : off + (kHeaderWireSize + hdr.bodySize.toNat) ≤ buf.length) :
    MeetsOversized buf off ↔ kMaxMessageSize < kHeaderWireSize + hdr.bodySize.toNat ∨
      MeetsOversized buf (off + (kHeaderWireSize + hdr.bodySize.toNat)) := by
  constructor
  · intro h
    cases h with
    | here hdec' _ hmax =>
      cases hdec.symm.trans hdec'
      exact .inl hmax
    | later hdec' _ hnext =>
      cases hdec.symm.trans hdec'
      exact .inr hnext
  · rintro (hmax | hnext)
    · exact .here hdec hframe hmax
    · exact .later hdec hframe hnext

end

/-! ## Counting along a scan -/

section
variable {xs : List UInt8} {out : Option (MessageHeader × Body)} {n : Nat}

theorem countMalformed_unit (off : Nat) (h : frameScanner.look xs = .unit out n) :
    let s := frameScanner.scanFrom off xs
    let t := frameScanner.scanFrom (off + n) (xs.drop n)
    countMalformed s = out.isNone.toNat + countMalformed t ∧ s.stopped = t.stopped := by
  rw [Scanner.scanFrom_unit off h]
  cases out <;> simp [countMalformed, Nat.add_comm]

/-- A frame cut out of the buffer is counted as in the buffer. -/
theorem countMalformed_take (h : frameScanner.look xs = .unit out n) :
    countMalformed (frameScanner.scan (xs.take n)) = out.isNone.toNat := by
  rw [Scanner.scan_take rfl h]
  cases out <;> rfl

end

/-- A frame takes at least one byte. -/
theorem countMalformed_le (off : Nat) (xs : List UInt8) :
    countMalformed (frameScanner.scanFrom off xs) ≤ xs.length := by
  fun_induction Scanner.scanFrom frameScanner off xs with
  | case1 off xs hlook => exact Nat.zero_le _
  | case2 off xs o n hlook =>
    obtain ⟨-, rfl, hle, rfl⟩ := frameLook_stop_iff.mp hlook
    exact Nat.le_trans (show 1 ≤ kHeaderWireSize by decide) hle
  | case3 off xs o n hlook r ih =>
    have hpos := frameScanner.unit_pos hlook
    have hle := (frameScanner.unit_take hlook).1
    have hone : o.isNone.toNat ≤ 1 := Bool.toNat_le _
    have hcount := (countMalformed_unit off hlook).1
    rw [Scanner.scanFrom_unit off hlook] at hcount
    rw [List.length_drop] at ih
    exact hcount.le.trans (by omega)

namespace FeedHandler

/-- The builder counts the malformed frames of a call. -/
theorem applyFrames_malformed (outs : List (Option (MessageHeader × Body)))
    (fh : FeedHandler BookBuilder) :
    (applyFrames builderHandler outs fh).down.stats.malformed =
      fh.down.stats.malformed + UInt64.ofNat (outs.countP Option.isNone) := by
  induction outs generalizing fh with
  | nil => exact (UInt64.add_zero _).symm
  | cons out outs ih =>
    rw [applyFrames_cons, ih]
    cases out with
    | none =>
      rw [List.countP_cons, if_pos Option.isNone_none, UInt64.ofNat_add,
        UInt64.add_comm (UInt64.ofNat _), ← UInt64.add_assoc]
      rfl
    | some m =>
      have hkeep : (applyFrame builderHandler fh (some m)).down.stats.malformed =
          fh.down.stats.malformed := by
        simp only [applyFrame, forwardIf_eq, BookBuilder.onMessage_eq, BookBuilder.step]
        split
        · exact BookStats.tally_malformed ..
        · rfl
      simp [hkeep]

theorem consume_malformed (bytes : List UInt8) (fh : FeedHandler BookBuilder)
    (hres : fh.residual = []) :
    let r := consume builderHandler bytes fh
    r.2.malformed = countMalformed (frameScanner.scan bytes) ∧
      r.1.down.stats.malformed = fh.down.stats.malformed + UInt64.ofNat r.2.malformed := by
  rw [consume_builder, hres, List.nil_append]
  refine ⟨rfl, (applyFrames_malformed _ fh).trans ?_⟩
  rw [← countMalformed_outs]
  rfl

theorem consumeDatagram_malformed (bytes : List UInt8) (fh : FeedHandler BookBuilder) :
    let r := consumeDatagram builderHandler bytes fh
    r.2.malformed = countMalformed (frameScanner.scan bytes) ∧
      r.1.down.stats.malformed = fh.down.stats.malformed + UInt64.ofNat r.2.malformed := by
  rw [consumeDatagram_builder]
  refine ⟨rfl, (applyFrames_malformed _ fh).trans ?_⟩
  rw [← countMalformed_outs]
  rfl

end FeedHandler

/-! ## The timed replay -/

namespace ReplayDriver

open FeedHandler

/-- The timed walk counts what the scan counts, but not the header that stops it. -/
theorem timedLoop_malformed (cfg : ReplayConfig) (messages : List UInt8) (off : Nat)
    (firstTs : Option TimestampNs) (feed : FeedHandler BookBuilder) (res : ReplayResult)
    (hoff : off ≤ messages.length) (hres : feed.residual = [])
    (hstats : feed.down.stats.malformed = res.malformed) :
    let t := timedLoop cfg messages off firstTs feed res
    let s := frameScanner.scanFrom off (messages.drop off)
    t.2.malformed + UInt64.ofNat s.stopped.toNat = res.malformed + UInt64.ofNat (countMalformed s) ∧
      t.1.down.stats.malformed = t.2.malformed := by
  fun_induction timedLoop cfg messages off firstTs feed res with
  | case1 off firstTs feed res hin hdec =>
    rw [Scanner.scanFrom_stop off (look_invalid hin hdec)]
    exact ⟨rfl, hstats⟩
  | case2 off firstTs feed res hin hdr hdec frame hframe =>
    rw [Scanner.scanFrom_wait off (look_cutOff hin hdec hframe)]
    exact ⟨rfl, hstats⟩
  | case3 off firstTs feed res hin hdr hdec frame hframe first sleeps fr ih =>
    obtain ⟨out, hlook, hscan⟩ := exists_look_frame hin hdec hframe
    have hfits := subspan_fits hframe
    obtain ⟨hcount, hdown⟩ := consume_malformed (subspan messages off frame hfits) feed hres
    have hone : fr.2.malformed = out.isNone.toNat := hcount.trans (countMalformed_take hlook)
    have hres' : fr.1.residual = [] := by
      have := consume_residual (subspan messages off frame hfits) feed hres
      rwa [hscan] at this
    obtain ⟨hnext, hstats'⟩ := ih (by omega) hres' (hdown.trans (by rw [hstats]))
    obtain ⟨hunit, hstopped⟩ := countMalformed_unit off hlook
    rw [List.drop_drop] at hunit hstopped
    refine ⟨?_, hstats'⟩
    simp only [hunit, hstopped, UInt64.ofNat_add, ← UInt64.add_assoc, ← hone]
    exact hnext
  | case4 off firstTs feed res hin =>
    rw [Scanner.scanFrom_wait off (look_short hin)]
    exact ⟨rfl, hstats⟩

/-- What a replay at full speed and one in another mode count on a fresh driver. -/
theorem replay_malformed (messages : List UInt8) (cfg : ReplayConfig) :
    let r := replay { feed := { down := {} } } messages cfg
    let s := frameScanner.scan messages
    (if cfg.mode = .maxSpeed then r.2.malformed
      else r.2.malformed + UInt64.ofNat s.stopped.toNat) = UInt64.ofNat (countMalformed s) ∧
      r.1.feed.down.stats.malformed = r.2.malformed := by
  by_cases hmode : cfg.mode = .maxSpeed
  · obtain ⟨hcount, hdown⟩ := consume_malformed messages { down := {} } rfl
    simp only [replay, if_pos hmode]
    exact ⟨congrArg UInt64.ofNat hcount, hdown.trans (UInt64.zero_add _)⟩
  · obtain ⟨hcount, hdown⟩ :=
      timedLoop_malformed cfg messages 0 none { down := {} } {} (Nat.zero_le _) rfl rfl
    simp only [replay, if_neg hmode]
    exact ⟨hcount.trans (UInt64.zero_add _), hdown⟩

end ReplayDriver

/-! ## The pipeline -/

/-- The malformed frames that a list of frames holds. -/
def malformedIn (fs : List Frame) : Nat :=
  (fs.map fun f => countMalformed (frameScanner.scan f.bytes)).sum

theorem malformedIn_append (fs gs : List Frame) :
    malformedIn (fs ++ gs) = malformedIn fs + malformedIn gs := by
  simp [malformedIn]

/-- The frames pushed hold what the scan counts, but neither the frames that are skipped
nor the header that stops the walk. -/
theorem framesFrom_malformed (messages : List UInt8) (off : Nat) (hoff : off ≤ messages.length) :
    let s := frameScanner.scanFrom off (messages.drop off)
    ∃ skipped, malformedIn (framesFrom messages off) + skipped + s.stopped.toNat =
      countMalformed s ∧ (skipped = 0 ↔ ¬MeetsOversized messages off) := by
  fun_induction framesFrom messages off with
  | case1 off hin hdec =>
    rw [Scanner.scanFrom_stop off (look_invalid hin hdec)]
    exact ⟨0, rfl, by simpa using not_meetsOversized_of_none hdec⟩
  | case2 off hin hdr hdec frameLen hframe =>
    rw [Scanner.scanFrom_wait off (look_cutOff hin hdec hframe)]
    exact ⟨0, rfl, by simpa using not_meetsOversized_of_cutOff hdec hframe⟩
  | case3 off hin hdr hdec frameLen hframe hmax ih =>
    have hlook : frameScanner.look (messages.drop off) = .unit none frameLen := by
      rw [look_frame hin hdec hframe, verdict_oversized hmax]
    obtain ⟨skipped, hcount, -⟩ := ih (by omega)
    obtain ⟨hunit, hstopped⟩ := countMalformed_unit off hlook
    rw [List.drop_drop] at hunit hstopped
    refine ⟨skipped + 1, ?_, by simpa using MeetsOversized.here hdec (by omega) hmax⟩
    simp only [hunit, hstopped, Option.isNone_none, Bool.toNat_true] at hcount ⊢
    rw [← hcount]
    omega
  | case4 off hin hdr hdec frameLen hframe hmax ih =>
    obtain ⟨out, hlook⟩ : ∃ out, frameScanner.look (messages.drop off) = .unit out frameLen :=
      ⟨_, look_frame hin hdec hframe⟩
    have hone : countMalformed (frameScanner.scan (subspan messages off frameLen (by omega))) =
        out.isNone.toNat := countMalformed_take hlook
    obtain ⟨hunit, hstopped⟩ := countMalformed_unit off hlook
    rw [List.drop_drop] at hunit hstopped
    obtain ⟨skipped, hcount, hskipped⟩ := ih (by omega)
    refine ⟨skipped, ?_, ?_⟩
    · simp only [hunit, hstopped, malformedIn, List.map_cons, List.sum_cons, Frame.bytes_ofBytes,
        hone] at hcount ⊢
      rw [← hcount]
      omega
    · rw [hskipped, meetsOversized_iff hdec (by omega), or_iff_right (by omega)]
  | case5 off hin =>
    rw [Scanner.scanFrom_wait off (look_short hin)]
    exact ⟨0, rfl, by simpa using not_meetsOversized_of_short hin⟩

namespace Pipeline

open FeedHandler

variable {fcap tcap k : Nat} {messages : List UInt8} {cfg : Config} {s s' : State fcap tcap}

/-- The frames popped whose call into the feed handler is over. -/
def consumed (s : State fcap tcap) : List Frame :=
  match s.book with
  | .consume _ => s.popped.dropLast
  | _ => s.popped

/-- The book thread and its builder have counted the malformed frames among those consumed. -/
structure Tallied (s : State fcap tcap) : Prop where
  counted : s.malformed = UInt64.ofNat (malformedIn (consumed s))
  builder : s.feed.down.stats.malformed = s.malformed

/-- A step that consumes no frame keeps the tally. -/
theorem Tallied.keep (h : Tallied s) (hconsumed : consumed s' = consumed s)
    (hfeed : s'.feed = s.feed) (hmalformed : s'.malformed = s.malformed) : Tallied s' := by
  constructor
  · rw [hmalformed, hconsumed, h.counted]
  · rw [hmalformed, hfeed, h.builder]

theorem Tallied.stepIngest (h : Tallied s) (hstep : stepIngest messages s = some s') :
    Tallied s' := by
  cases stepIngest_cases hstep
  all_goals exact h.keep rfl rfl rfl

theorem Tallied.stepAnalytics {headFirst : Bool} (h : Tallied s)
    (hstep : stepAnalytics headFirst s = some s') : Tallied s' := by
  cases stepAnalytics_cases hstep
  all_goals exact h.keep rfl rfl rfl

theorem Tallied.consume {front : List Frame} {f : Frame} (h : Tallied s)
    (hpc : s.book = .consume f) (hpopped : s.popped = front ++ [f])
    (hfeed : s'.feed = (consumeDatagram builderHandler f.bytes s.feed).1)
    (hmalformed : s'.malformed = s.malformed +
      UInt64.ofNat (consumeDatagram builderHandler f.bytes s.feed).2.malformed)
    (hconsumed : consumed s' = s.popped) : Tallied s' := by
  obtain ⟨hcall, hdown⟩ := consumeDatagram_malformed f.bytes s.feed
  have hone : malformedIn [f] = countMalformed (frameScanner.scan f.bytes) := Nat.add_zero _
  have hcounted := h.counted
  simp only [consumed, hpc, hpopped, List.dropLast_concat] at hcounted
  constructor
  · rw [hmalformed, hcounted, hcall, ← hone, ← UInt64.ofNat_add, ← malformedIn_append, ← hpopped,
      hconsumed]
  · rw [hfeed, hdown, hmalformed, h.builder]

theorem Tallied.stepBook {order : List Tick} {headFirst : Bool} (hinv : Inv messages s)
    (h : Tallied s) (hstep : stepBook cfg order headFirst s = some s') : Tallied s' := by
  have hkeep {s' : State fcap tcap} (hnot : ∀ f, s.book ≠ .consume f) :
      consumed s' = s.popped → s'.feed = s.feed → s'.malformed = s.malformed → Tallied s' := by
    intro hpopped
    refine h.keep (hpopped.trans ?_)
    unfold consumed
    split
    next f hpc => exact absurd hpc (hnot f)
    next => rfl
  cases stepBook_cases hstep with
  | popping hpc | missed hpc | emitStart hpc | emitNext hpc | pushing hpc | pushed hpc
  | testing hpc | drained hpc | refilled hpc | yield hpc | finish hpc | storeDone hpc =>
    exact hkeep (by simp [hpc]) rfl rfl rfl
  | popped hpc => exact hkeep (by simp [hpc]) List.dropLast_concat rfl rfl
  | consume hpc =>
    have hbook := hinv.book
    rw [hpc] at hbook
    obtain ⟨front, hpopped, -⟩ := hbook
    refine h.consume hpc hpopped rfl rfl ?_
    by_cases hevery : (s.processed + 1) % cfg.analyticsEvery = 0 <;> simp [consumed, hevery]
  | @emitEnd last hpc =>
    refine hkeep (by simp [hpc]) ?_ rfl rfl
    cases last <;> rfl
  | loadDone hpc =>
    refine hkeep (by simp [hpc]) ?_ rfl rfl
    cases hdone : s.ingestDone <;> simp [consumed]

theorem tallied_of_reachable {hframes : 0 < fcap} {hticks : 0 < tcap} (hcap : fcap = 2 ^ k)
    (hs : (system messages cfg hframes hticks).Reachable s) : Tallied s := by
  have hboth : Inv messages s ∧ Tallied s := by
    refine hs.invariant (I := fun s => Inv messages s ∧ Tallied s) ?_ ?_
    · exact ⟨inv_of_reachable hcap ⟨[], rfl⟩, rfl, rfl⟩
    · rintro s a s' ⟨hinv, h⟩ hstep
      refine ⟨hinv.step hcap a hstep, ?_⟩
      cases a with
      | ingest => exact h.stepIngest hstep
      | book order headFirst => exact h.stepBook hinv hstep
      | analytics headFirst => exact h.stepAnalytics hstep
  exact hboth.2

/-- What a finished pipeline has counted. -/
theorem finished_malformed {fp tp : UInt64} (hframes : RoundsTo cfg.frameQueueCapacity fp)
    (hticks : RoundsTo cfg.tickQueueCapacity tp) {s : State fp.toNat tp.toNat}
    (hs : (system messages cfg hframes.pos hticks.pos).Reachable s) (hfinished : Finished s) :
    s.malformed = UInt64.ofNat (malformedIn (framesFrom messages 0)) ∧
      s.bookStats.malformed = s.malformed := by
  obtain ⟨⟨k, hcap⟩, -, -⟩ := hframes.pow
  obtain ⟨hcounted, hbuilder⟩ := tallied_of_reachable hcap hs
  have hbook := (inv_of_reachable hcap hs).book
  rw [hfinished.2.1] at hbook
  obtain ⟨-, hdrained, -, -, hstats⟩ := hbook
  have hconsumed : consumed s = framesFrom messages 0 := by
    simp only [consumed, hfinished.2.1]
    exact hdrained
  refine ⟨hcounted.trans (by rw [hconsumed]), ?_⟩
  rw [hstats, hbuilder]

end Pipeline

/-! ## All three -/

open Pipeline in
/-- The malformed counts that a full-speed replay, a timed replay and a finished pipeline
report for a buffer, and those of the builders behind them, are one number if and only if
the walk over the buffer meets neither an invalid type byte nor an oversized frame. -/
theorem malformed_agree_iff {messages : List UInt8} (hlen : messages.length < 2 ^ 64)
    {rcfg : ReplayConfig} (hmode : rcfg.mode ≠ .maxSpeed) {cfg : Config} {fp tp : UInt64}
    (hframes : RoundsTo cfg.frameQueueCapacity fp) (hticks : RoundsTo cfg.tickQueueCapacity tp)
    {s : State fp.toNat tp.toNat}
    (hs : (system messages cfg hframes.pos hticks.pos).Reachable s) (hfinished : Finished s) :
    let full := ReplayDriver.replay { feed := { down := {} } } messages { mode := .maxSpeed }
    let timed := ReplayDriver.replay { feed := { down := {} } } messages rcfg
    (timed.2.malformed = full.2.malformed ∧ s.malformed = full.2.malformed ∧
      full.1.feed.down.stats.malformed = full.2.malformed ∧
      timed.1.feed.down.stats.malformed = full.2.malformed ∧
      s.bookStats.malformed = full.2.malformed) ↔
      (∀ bad, ¬MeetsInvalidType messages 0 bad) ∧ ¬MeetsOversized messages 0 := by
  intro full timed
  obtain ⟨hfull, hfullDown⟩ := ReplayDriver.replay_malformed messages { mode := .maxSpeed }
  obtain ⟨htimed, htimedDown⟩ := ReplayDriver.replay_malformed messages rcfg
  obtain ⟨hpipe, hpipeDown⟩ := finished_malformed hframes hticks hs hfinished
  obtain ⟨skipped, hcount, hskipped⟩ := framesFrom_malformed messages 0 (Nat.zero_le _)
  have hcount : malformedIn (framesFrom messages 0) + skipped +
      (frameScanner.scan messages).stopped.toNat = countMalformed (frameScanner.scan messages) :=
    hcount
  have hle : countMalformed (frameScanner.scan messages) ≤ messages.length :=
    countMalformed_le 0 messages
  have hvalid : (∀ bad, ¬MeetsInvalidType messages 0 bad) ↔
      (frameScanner.scan messages).stopped = false := by
    rw [← not_exists, ← scan_stopped_iff, Bool.not_eq_true]
  rw [if_pos rfl, ← hcount] at hfull
  rw [if_neg hmode, ← hcount, UInt64.ofNat_add, UInt64.add_left_inj] at htimed
  have hword {w : UInt64} {n : Nat} (hw : w = UInt64.ofNat n) (hn : n ≤ messages.length) :
      w.toNat = n := by
    rw [hw]
    exact UInt64.toNat_ofNat_of_lt' (hn.trans_lt hlen)
  have hfull := hword hfull (by omega)
  have htimed := hword htimed (by omega)
  have hpipe := hword hpipe (by omega)
  rw [hvalid, ← hskipped, hfullDown, htimedDown, hpipeDown]
  simp only [full, timed, ← UInt64.toNat_inj, hfull, htimed, hpipe, true_and]
  cases (frameScanner.scan messages).stopped with
  | true => exact ⟨fun h => absurd h.1 (by simp), fun h => absurd h.1 nofun⟩
  | false =>
    simp only [Bool.toNat_false, Nat.add_zero, true_and]
    omega

open Pipeline in
theorem malformed_agree_truncated :
    (∀ bad, ¬MeetsInvalidType truncatedBuffer 0 bad) ∧ ¬MeetsOversized truncatedBuffer 0 := by
  have hrun : (smallSystem.run smallSystem.start finishingRun).any
      (fun s => decide (Finished s ∧ s.malformed = 0 ∧ s.bookStats.malformed = 0)) = true := by
    decide +kernel
  obtain ⟨s, hs, hfin⟩ := (Option.any_eq_true _ _).mp hrun
  obtain ⟨hfinished, hcount, hstats⟩ := of_decide_eq_true hfin
  have hmode : ({ mode := .realtime } : ReplayConfig).mode ≠ .maxSpeed := by decide
  have hfull : (ReplayDriver.replay { feed := { down := {} } } truncatedBuffer
      { mode := .maxSpeed }).2.malformed = 0 := by decide +kernel
  have hcounts := malformed_agree_iff (by decide +kernel) hmode smallConfig_roundsTo
    smallConfig_roundsTo ⟨finishingRun, hs⟩ hfinished
  simp only [hfull, hcount, hstats, true_and, and_true] at hcounts
  exact hcounts.mp ⟨by decide +kernel, by decide +kernel, by decide +kernel⟩

/-- A header with an invalid type byte. -/
def invalidTypeBuffer : List UInt8 := List.replicate 16 250

/-- A heartbeat with 249 body bytes: a frame of 265 bytes, where the largest message has 144. -/
def oversizedBuffer : List UInt8 :=
  MessageHeader.bytes { bodySize := 249 } ++ List.replicate 249 0

open Pipeline in
/-- The first buffer is counted at full speed only; the second is not counted by the
pipeline. -/
theorem malformed_paths_differ :
    let count (messages : List UInt8) (mode : ReplayMode) :=
      (ReplayDriver.replay { feed := { down := {} } } messages { mode }).2.malformed
    count invalidTypeBuffer .maxSpeed = 1 ∧ count invalidTypeBuffer .realtime = 0 ∧
      count oversizedBuffer .maxSpeed = 1 ∧ count oversizedBuffer .realtime = 1 ∧
      ∃ s : State (2 : UInt64).toNat (2 : UInt64).toNat,
        (system oversizedBuffer smallConfig smallConfig_roundsTo.pos
          smallConfig_roundsTo.pos).Reachable s ∧ Finished s ∧ s.malformed = 0 := by
  intro count
  let sys : System (State 2 2) Action :=
    system oversizedBuffer smallConfig smallConfig_roundsTo.pos smallConfig_roundsTo.pos
  let actions : List Action :=
    List.replicate 3 .ingest ++ List.replicate 9 (.book [] true) ++ List.replicate 5 (.analytics true)
  have hrun : (sys.run sys.start actions).any
      (fun s => decide (Finished s ∧ s.malformed = 0)) = true := by decide +kernel
  obtain ⟨s, hs, hfin⟩ := (Option.any_eq_true _ _).mp hrun
  obtain ⟨hfinished, hcount⟩ := of_decide_eq_true hfin
  refine ⟨?_, ?_, ?_, ?_, s, ⟨actions, hs⟩, hfinished, hcount⟩
  · decide +kernel
  · decide +kernel
  · decide +kernel
  · decide +kernel

end Mdfh
