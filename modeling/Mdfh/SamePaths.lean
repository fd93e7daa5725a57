import Mdfh.MalformedPaths
import Mdfh.RecordedRun
import Mdfh.TcpDelivery

/-!
# One reconstruction on every path

The bytes that a receiver has read so far give the same books and counters when they are
replayed in any mode, and when the three threads of the pipeline have worked through them.

## Main results

* `FeedHandler.HasRead.replay` — reading in chunks and a replay.
* `Pipeline.Inv.feed_eq` — what the book thread leaves.
* `TcpFeed.received_replays` — all paths, at any moment of a TCP feed.
-/

namespace Mdfh

open Library MarketSimulator

namespace FeedHandler

variable {δ : Type} {ms : List Message} {p : List UInt8}

/-- It does not matter that the bytes came in several chunks. -/
theorem HasRead.eq_consume {D : HandlerLike δ} {fh₀ fh : FeedHandler δ} (h : HasRead D ms fh₀ p fh)
    (hres : fh₀.residual = []) : fh = (FeedHandler.consume D p fh₀).1 := by
  obtain ⟨k, tail, rfl, hcut, rfl⟩ := h
  refine (consume_cut ?_ hcut.wait).symm
  rw [hres, List.nil_append]

theorem HasRead.replay {fh : FeedHandler BookBuilder}
    (h : HasRead builderHandler ms { down := {} } p fh) (cfg : ReplayConfig) :
    { (ReplayDriver.replay { feed := { down := {} } } p cfg).1.feed with residual := [] } =
      { fh with residual := [] } := by
  obtain ⟨k, tail, rfl, hcut, rfl⟩ := h
  obtain ⟨⟨bytes, hfeed⟩, -⟩ := ReplayDriver.replay_messages cfg (ms.take k) hcut.wait
  rw [hfeed]

/-- A part of a stream has no malformed frame. -/
theorem HasRead.malformed {fh : FeedHandler BookBuilder}
    (h : HasRead builderHandler ms { down := {} } p fh) :
    countMalformed (frameScanner.scan p) = 0 ∧ fh.down.stats.malformed = 0 := by
  have hconsumed := h.eq_consume rfl
  obtain ⟨k, tail, rfl, hcut, -⟩ := h
  have hfresh : ({ down := {} } : FeedHandler BookBuilder).residual = [] := rfl
  obtain ⟨-, -, hnone⟩ := consume_stream (ms.take k) hcut.wait hfresh
  obtain ⟨hcount, hdown⟩ :=
    consume_malformed ((ms.take k).flatMap Message.bytes ++ tail) _ hfresh
  rw [hnone] at hcount hdown
  rw [hconsumed]
  exact ⟨hcount.symm, hdown⟩

end FeedHandler

theorem BookBuilder.eq_of_forget {b b' : BookBuilder} (h : b.forget = b'.forget)
    (hmalformed : b.stats.malformed = b'.stats.malformed) : b = b' := by
  obtain ⟨m, st⟩ := b
  obtain ⟨m', st'⟩ := b'
  obtain ⟨rfl, hst⟩ := BookBuilder.mk.inj h
  cases st
  cases st'
  simp_all

namespace Pipeline

open FeedHandler

variable {fcap tcap : Nat} {messages : List UInt8} {t : State fcap tcap}

/-- The builder behind the last frame. -/
theorem Inv.feed_eq (h : Inv messages t) (hexited : t.book = .exited) :
    t.feed.forget = (consume builderHandler messages { down := {} }).1.forget ∧
      t.fingerprint = bookFingerprint t.feed.down.manager ∧
      t.finalSymbolCount = t.feed.down.manager.symbolCount ∧ t.bookStats = t.feed.down.stats := by
  have hbook := h.book
  rw [hexited] at hbook
  obtain ⟨⟨hfeed, -⟩, hdrained, hshown⟩ := hbook
  refine ⟨?_, hshown⟩
  rw [forget_consume messages { down := {} } rfl, hfeed, hdrained,
    framesFrom_messages messages 0 (Nat.zero_le _)]
  rfl

end Pipeline

namespace TcpFeed

variable {rng : Rng} {cfg : SimConfig}

/-- The bytes that `recv` has returned up to any moment, broken off or not, give the receiver's
books, sequence state and counters in a replay of these bytes, and in every finished run of
the pipeline on them. -/
theorem received_replays (hcfg : cfg.Valid) {sim : MarketSimulator rng}
    (hnew : new rng cfg = .ok sim) {actions : List Action} {s : State rng}
    (hrun : (system sim).run (system sim).start actions = some s) :
    let p := (system sim).trace recvBytes (system sim).start actions
    (∃ ms, emit rng cfg ms.length = .ok (s.sim, ms) ∧ p ++ s.wire <+: wireBytes ms) ∧
      (∀ replayCfg : ReplayConfig,
        { (ReplayDriver.replay { feed := { down := {} } } p replayCfg).1.feed with residual := [] } =
          { s.feed with residual := [] }) ∧
      ∀ (pipelineCfg : Pipeline.Config) (fp tp : UInt64)
        (hframes : RoundsTo pipelineCfg.frameQueueCapacity fp)
        (hticks : RoundsTo pipelineCfg.tickQueueCapacity tp)
        (t : Pipeline.State fp.toNat tp.toNat),
        (Pipeline.system p pipelineCfg hframes.pos hticks.pos).Reachable t → Pipeline.Finished t →
          t.feed.down = s.feed.down ∧ t.feed.seq = s.feed.seq ∧ t.malformed = 0 ∧
            t.fingerprint = bookFingerprint s.feed.down.manager ∧
            t.finalSymbolCount = s.feed.down.manager.symbolCount ∧
            t.bookStats = s.feed.down.stats := by
  intro p
  obtain ⟨ms, h⟩ : ∃ ms, Linked cfg s ms p := linked_of_run hcfg hnew hrun
  clear_value p
  refine ⟨⟨ms, h.emitted, h.begins⟩, h.hasRead.replay, ?_⟩
  intro pipelineCfg fp tp hframes hticks t ht hfinished
  obtain ⟨⟨k, hcap⟩, -, -⟩ := hframes.pow
  obtain ⟨hfeed, hfingerprint, hcount, hstats⟩ :=
    (Pipeline.inv_of_reachable hcap ht).feed_eq hfinished.2.1
  rw [← h.hasRead.eq_consume rfl] at hfeed
  obtain ⟨hclean, hzero⟩ := h.hasRead.malformed
  obtain ⟨hmalformed, hbuilder⟩ := Pipeline.finished_malformed hframes hticks ht hfinished
  have hnone : t.malformed = 0 := by
    obtain ⟨skipped, hall, -⟩ := framesFrom_malformed p 0 (Nat.zero_le _)
    have hall : malformedIn (framesFrom p 0) + skipped + (frameScanner.scan p).stopped.toNat =
        countMalformed (frameScanner.scan p) := hall
    have hframes : malformedIn (framesFrom p 0) = 0 := by omega
    rw [hmalformed, hframes]
    rfl
  have hdown : t.feed.down = s.feed.down := by
    refine BookBuilder.eq_of_forget (congrArg (·.down) hfeed) ?_
    rw [hzero, ← hstats, hbuilder, hnone]
  refine ⟨hdown, congrArg (·.seq) hfeed, hnone, ?_, ?_, ?_⟩
  · rw [hfingerprint, hdown]
  · rw [hcount, hdown]
  · rw [hstats, hdown]

/-- What `recv` returns until the connection fails. -/
def brokenBytes : List UInt8 :=
  encodeFrame 1 1000000000 (.addOrder { orderId := 1, price := 999100, quantity := 4 }) ++
    (encodeFrame 2 1000001000 (.cancelOrder { orderId := 1 })).take 4

theorem trace_brokenSchedule {sim : MarketSimulator Loopback.congruential}
    (hnew : new Loopback.congruential pairConfig = .ok sim) :
    (system sim).trace recvBytes (system sim).start brokenSchedule = brokenBytes := by
  have htrace : (new Loopback.congruential pairConfig).toOption.map (fun sim =>
      (system sim).trace recvBytes (system sim).start brokenSchedule) = some brokenBytes := by
    decide +kernel
  rw [hnew] at htrace
  exact Option.some.inj htrace

def brokenSystem : System (Pipeline.State 2 2) Pipeline.Action :=
  Pipeline.system brokenBytes Pipeline.smallConfig Pipeline.smallConfig_pos Pipeline.smallConfig_pos

def brokenRun : List Pipeline.Action :=
  let book := .book [{ sym := 0, bid := 999100 }] true
  List.replicate 4 .ingest ++ List.replicate 4 book ++ List.replicate 4 (.analytics false) ++
    List.replicate 3 .ingest ++ List.replicate 24 book ++ List.replicate 9 (.analytics true)

/-- The connection fails inside the second frame. What has been read is replayed in real time,
and the pipeline works through it. -/
theorem received_replays_broken :
    ∃ sim s t, new Loopback.congruential pairConfig = .ok sim ∧
      (system sim).run (system sim).start brokenSchedule = some s ∧ s.receiver = .exited (-1) ∧
      (system sim).trace recvBytes (system sim).start brokenSchedule = brokenBytes ∧
      brokenSystem.Reachable t ∧ Pipeline.Finished t ∧
      (∃ ms, emit Loopback.congruential pairConfig ms.length = .ok (s.sim, ms) ∧
        brokenBytes ++ s.wire <+: wireBytes ms) ∧
      { (ReplayDriver.replay { feed := { down := {} } } brokenBytes { mode := .realtime }).1.feed with
        residual := [] } = { s.feed with residual := [] } ∧
      t.feed.down = s.feed.down ∧ t.feed.seq = s.feed.seq ∧ t.malformed = 0 ∧
      t.fingerprint = bookFingerprint s.feed.down.manager ∧
      t.finalSymbolCount = s.feed.down.manager.symbolCount ∧ t.bookStats = s.feed.down.stats := by
  have hends : (brokenSystem.run brokenSystem.start brokenRun).any
      (fun t => decide (Pipeline.Finished t)) = true := by decide +kernel
  obtain ⟨t, ht, hfin⟩ := (Option.any_eq_true _ _).mp hends
  have hfinished := of_decide_eq_true hfin
  obtain ⟨sim, s, hnew, hrun, hend⟩ := exists_of_outcome outcome_brokenSchedule
  have htrace := trace_brokenSchedule hnew
  have hreplays := received_replays pairConfig_valid hnew hrun
  rw [htrace] at hreplays
  obtain ⟨hread, hreplay, hpipeline⟩ := hreplays
  exact ⟨sim, s, t, hnew, hrun, (Prod.mk.inj hend).2, htrace, ⟨brokenRun, ht⟩, hfinished, hread,
    hreplay _, hpipeline Pipeline.smallConfig 2 2 Pipeline.smallConfig_roundsTo
      Pipeline.smallConfig_roundsTo t ⟨brokenRun, ht⟩ hfinished⟩

end TcpFeed

end Mdfh
