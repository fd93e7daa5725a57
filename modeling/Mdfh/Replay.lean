import Mdfh.FrameWalk

/-!
# Replay

Replaying a capture at full speed hands the whole buffer to the feed handler; the timed
modes walk it frame by frame and sleep until each frame's scheduled time. Sleeping is
modelled by recording the deadlines, which nothing reads: whatever an undefined one is, the
walk goes on as behind any other.

## Main definitions

* `ReplayDriver.replay` — both paths.

## Main results

* `timedLoop_eq` — the timed walk delivers the messages of the scan.
* `replay_eq_maxSpeed` — mode and speed do not change the result.
-/

namespace Mdfh

open Library

inductive ReplayMode where
  | maxSpeed | realtime | accelerated
  deriving DecidableEq, Repr

structure ReplayConfig where
  mode : ReplayMode := .maxSpeed
  speed : Float := 1.0

structure ReplayResult where
  messagesParsed : UInt64 := 0
  malformed : UInt64 := 0
  forwarded : UInt64 := 0
  dropped : UInt64 := 0
  seq : SeqStats := {}
  /-- The deadlines slept for, in nanoseconds after the start; none where it is undefined. -/
  sleeps : List (Option Int64) := []

structure ReplayDriver where
  feed : FeedHandler BookBuilder

namespace ReplayDriver

open FeedHandler

/-- The scheduled time of a frame, after the start. The quotient is not negative, and its
conversion to an integer is undefined from `2 ^ 63` on. That the sum with the start fits the
clock is not checked here. -/
def deadline (cfg : ReplayConfig) (firstTs ts : TimestampNs) : Option Int64 :=
  let scale := if cfg.mode = .accelerated ∧ cfg.speed > 0 then cfg.speed else 1.0
  let quotient := (ts - firstTs).toFloat / scale
  if quotient < 9223372036854775808.0 then some quotient.toInt64 else none

/-- The timed path from offset `off`; `firstTs` is the timestamp of the first frame, if any. -/
def timedLoop (cfg : ReplayConfig) (messages : List UInt8) (off : Nat)
    (firstTs : Option TimestampNs) (feed : FeedHandler BookBuilder) (res : ReplayResult) :
    FeedHandler BookBuilder × ReplayResult :=
  if hoff : off + kHeaderWireSize ≤ messages.length then
    match decodeHeader (subspan messages off kHeaderWireSize hoff) with
    | none => (feed, res)
    | some hdr =>
      let frame := kHeaderWireSize + hdr.bodySize.toNat
      if hframe : off + frame > messages.length then (feed, res)
      else
        let first := firstTs.getD hdr.timestamp
        let sleeps := res.sleeps ++ [deadline cfg first hdr.timestamp]
        let fr := consume builderHandler (subspan messages off frame (subspan_fits hframe)) feed
        timedLoop cfg messages (off + frame) (some first) fr.1
          { res with
            messagesParsed := res.messagesParsed + UInt64.ofNat fr.2.messages
            malformed := res.malformed + UInt64.ofNat fr.2.malformed
            sleeps }
  else (feed, res)
termination_by messages.length - off
decreasing_by
  simp only [kHeaderWireSize] at *
  omega

def replay (driver : ReplayDriver) (messages : List UInt8) (cfg : ReplayConfig) :
    ReplayDriver × ReplayResult :=
  let (feed, res) :=
    if cfg.mode = .maxSpeed then
      let (feed, r) := consume builderHandler messages driver.feed
      (feed, { messagesParsed := UInt64.ofNat r.messages, malformed := UInt64.ofNat r.malformed })
    else timedLoop cfg messages 0 none driver.feed {}
  ({ feed }, { res with
    forwarded := feed.forwarded
    dropped := feed.dropped
    seq := feed.seq.stats })

/-- The timed walk from `off` delivers the messages of the scan from there, and counts them. -/
theorem timedLoop_eq (cfg : ReplayConfig) (messages : List UInt8) (off : Nat)
    (firstTs : Option TimestampNs) (feed : FeedHandler BookBuilder) (res : ReplayResult)
    (hoff : off ≤ messages.length) (hres : feed.residual = []) :
    let t := timedLoop cfg messages off firstTs feed res
    let ms := messagesOf (frameScanner.scanFrom off (messages.drop off))
    t.1.forget = ms.foldl applyMessage feed.forget ∧
      t.2.messagesParsed = res.messagesParsed + UInt64.ofNat ms.length := by
  fun_induction timedLoop cfg messages off firstTs feed res with
  | case1 off firstTs feed res hin hdec =>
    rw [Scanner.scanFrom_stop off (look_invalid hin hdec)]
    exact ⟨rfl, (UInt64.add_zero _).symm⟩
  | case2 off firstTs feed res hin hdr hdec frame hframe =>
    rw [Scanner.scanFrom_wait off (look_cutOff hin hdec hframe)]
    exact ⟨rfl, (UInt64.add_zero _).symm⟩
  | case3 off firstTs feed res hin hdr hdec frame hframe first sleeps fr ih =>
    obtain ⟨out, hlook, hscan⟩ := exists_look_frame hin hdec hframe
    have hmessages : messagesOf (frameScanner.scan
        (subspan messages off frame (subspan_fits hframe))) = out.toList := by
      rw [hscan, messagesOf_cons]
      exact List.append_nil _
    have hforget : fr.1.forget = out.toList.foldl applyMessage feed.forget := by
      rw [← hmessages]
      exact forget_consume _ feed hres
    have hcount : fr.2.messages = out.toList.length := by
      rw [← hmessages]
      exact consume_messages _ feed hres
    have hres' : fr.1.residual = [] := by
      have := consume_residual (subspan messages off frame (subspan_fits hframe)) feed hres
      rwa [hscan] at this
    obtain ⟨hnext, hparsed⟩ := ih (by omega) hres'
    rw [Scanner.scanFrom_unit off hlook, List.drop_drop, messagesOf_cons]
    refine ⟨?_, ?_⟩
    · rw [hnext, hforget, ← List.foldl_append]
    · rw [hparsed, hcount, List.length_append, UInt64.ofNat_add, UInt64.add_assoc]
  | case4 off firstTs feed res hin =>
    rw [Scanner.scanFrom_wait off (look_short hin)]
    exact ⟨rfl, (UInt64.add_zero _).symm⟩

/-- The counts reported are those of the feed handler. -/
theorem replay_counts (driver : ReplayDriver) (messages : List UInt8) (cfg : ReplayConfig) :
    let r := driver.replay messages cfg
    r.2.forwarded = r.1.feed.forwarded ∧ r.2.dropped = r.1.feed.dropped ∧
      r.2.seq = r.1.feed.seq.stats := ⟨rfl, rfl, rfl⟩

/-- A replay in any mode delivers the messages of one scan of the buffer. -/
theorem replay_forget (driver : ReplayDriver) (messages : List UInt8) (cfg : ReplayConfig)
    (hres : driver.feed.residual = []) :
    let r := driver.replay messages cfg
    let ms := messagesOf (frameScanner.scan messages)
    r.1.feed.forget = ms.foldl applyMessage driver.feed.forget ∧
      r.2.messagesParsed = UInt64.ofNat ms.length := by
  by_cases hmode : cfg.mode = .maxSpeed
  · have hparsed := consume_messages messages driver.feed hres
    simp only [replay, if_pos hmode]
    exact ⟨forget_consume messages driver.feed hres, by rw [hparsed]⟩
  · have htimed := timedLoop_eq cfg messages 0 none driver.feed {} (Nat.zero_le _) hres
    simp only [replay, if_neg hmode]
    exact ⟨htimed.1, htimed.2.trans (UInt64.zero_add _)⟩

/-- Replay at any speed ends with the books and the counts of a replay at full speed. -/
theorem replay_eq_maxSpeed (messages : List UInt8) (cfg : ReplayConfig) :
    let timed := replay { feed := { down := {} } } messages cfg
    let full := replay { feed := { down := {} } } messages { mode := .maxSpeed }
    timed.1.feed.down.manager = full.1.feed.down.manager ∧
      timed.2.messagesParsed = full.2.messagesParsed ∧ timed.2.forwarded = full.2.forwarded ∧
      timed.2.dropped = full.2.dropped ∧ timed.2.seq = full.2.seq := by
  intro timed full
  obtain ⟨hfeed, hparsed⟩ := replay_forget { feed := { down := {} } } messages cfg rfl
  obtain ⟨hfeed', hparsed'⟩ :=
    replay_forget { feed := { down := {} } } messages { mode := .maxSpeed } rfl
  obtain ⟨hforwarded, hdropped, hseq⟩ := replay_counts { feed := { down := {} } } messages cfg
  obtain ⟨hforwarded', hdropped', hseq'⟩ :=
    replay_counts { feed := { down := {} } } messages { mode := .maxSpeed }
  have hforget : timed.1.feed.forget = full.1.feed.forget := hfeed.trans hfeed'.symm
  refine ⟨congrArg (·.down.manager) hforget, hparsed.trans hparsed'.symm, ?_, ?_, ?_⟩
  · exact hforwarded.trans ((congrArg (·.forwarded) hforget).trans hforwarded'.symm)
  · exact hdropped.trans ((congrArg (·.dropped) hforget).trans hdropped'.symm)
  · exact hseq.trans ((congrArg (·.seq.stats) hforget).trans hseq'.symm)

end ReplayDriver

end Mdfh
