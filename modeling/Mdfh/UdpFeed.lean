import Mdfh.Library.Transition
import Mdfh.LossyDelivery

/-!
# A feed over datagrams

The exchange sends each message as a datagram of its own and does not look at the outcome.
The network delivers datagrams in any order, once, several times or never. A loss spoils the
orders that the lost message was about and no others: an order whose messages have arrived
in sequence rests in the receiver's book as it does at the exchange. Losses do not go
unnoticed: the receiver's counters say how many messages have not reached its books.

## Main definitions

* `UdpFeed.State`, `UdpFeed.system` — both processes and the network.
* `UdpFeed.Linked` — the invariant.

## Main results

* `UdpFeed.order_exact` — every order in every reachable state.
* `UdpFeed.losses_counted` — what the receiver can tell from its counters.
-/

namespace Mdfh

open Std Library Library.Keyed MarketSimulator

namespace UdpFeed

/-- The size of the buffer that the receiver passes to `recv`. -/
def kRecvBufferSize : Nat := 64 * 1024

theorem kMaxMessageSize_le : kMaxMessageSize ≤ kRecvBufferSize := by
  norm_num [kMaxMessageSize, kHeaderWireSize, kSnapshotBodySize, kMaxSnapshotLevels,
    kRecvBufferSize]

structure State (rng : Rng) where
  sim : MarketSimulator rng
  /-- The source's `n`. -/
  sent : UInt64 := 0
  /-- The exchange is in the loop of `run`. -/
  sending : Bool := true
  /-- The datagrams that the network has taken. -/
  network : List (List UInt8) := []
  /-- The receiver is in its loop. -/
  receiving : Bool := true
  feed : FeedHandler BookBuilder := { down := {} }

inductive Action where
  /-- A call of `next` with its callback; `taken` is the result of `send`. -/
  | next (taken : Bool)
  /-- A datagram arrives, for the first time or again. -/
  | arrive (i : Nat)
  /-- `recv` times out or fails. -/
  | giveUp
  deriving DecidableEq

variable {rng : Rng} {cfg : SimConfig}

/-- The callback of `run`. -/
def onMessage (s : State rng) (taken : Bool) (m : GeneratedMessage) : State rng :=
  { s with
    network := if taken then s.network ++ [m.dispatch.bytes] else s.network
    sent := s.sent + 1 }

def stepNext (s : State rng) (taken : Bool) : Option (State rng) :=
  match s.sending, s.sim.next with
  | true, .ok (sim, some m) => some (onMessage { s with sim } taken m)
  | true, .ok (sim, none) => some { s with sim, sending := false }
  | _, _ => none

/-- One round of the receiver with a datagram; what does not fit into the buffer is cut off. -/
def onDatagram (s : State rng) (datagram : List UInt8) : State rng :=
  let bytes := datagram.take kRecvBufferSize
  if bytes.length = 0 then { s with receiving := false }
  else { s with feed := (s.feed.consumeDatagram builderHandler bytes).1 }

def step (s : State rng) : Action → Option (State rng)
  | .next taken => stepNext s taken
  | .arrive i => if s.receiving then s.network[i]?.map (onDatagram s) else none
  | .giveUp => if s.receiving then some { s with receiving := false } else none

def system (sim : MarketSimulator rng) : System (State rng) Action where
  start := { sim }
  step := step

/-! ## The invariant -/

/-- `ms` are the messages that were generated, `arrived` those that were read. -/
structure Linked (cfg : SimConfig) (s : State rng) (ms : List GeneratedMessage)
    (arrived : List Message) : Prop where
  emitted : emit rng cfg ms.length = .ok (s.sim, ms)
  network : ∀ d ∈ s.network, ∃ m ∈ ms, d = m.dispatch.bytes
  arrived_subset : arrived ⊆ ms.map GeneratedMessage.dispatch
  feed_eq : s.feed = arrived.foldl (FeedHandler.receive builderHandler) { down := {} }

variable {s s' : State rng} {ms : List GeneratedMessage} {arrived : List Message}

theorem Linked.start {sim : MarketSimulator rng} (hnew : new rng cfg = .ok sim) :
    Linked cfg ({ sim } : State rng) [] [] where
  emitted := by
    rw [List.length_nil, emit, hnew]
    rfl
  network _ hd := by cases hd
  arrived_subset := List.nil_subset _
  feed_eq := rfl

theorem Linked.next (h : Linked cfg s ms arrived) {sim : MarketSimulator rng}
    {m : GeneratedMessage} (hnext : s.sim.next = .ok (sim, some m)) (taken : Bool) :
    Linked cfg (onMessage { s with sim } taken m) (ms ++ [m]) arrived where
  emitted := by
    rw [List.length_append]
    exact emit_succ h.emitted hnext
  network d hd := by
    have hold (hd : d ∈ s.network) : ∃ m' ∈ ms ++ [m], d = m'.dispatch.bytes := by
      obtain ⟨m', hm', hbytes⟩ := h.network d hd
      exact ⟨m', List.mem_append_left _ hm', hbytes⟩
    cases taken with
    | false =>
      simp only [onMessage, Bool.false_eq_true, if_false] at hd
      exact hold hd
    | true =>
      simp only [onMessage, if_true] at hd
      rcases List.mem_append.mp hd with hd | hd
      · exact hold hd
      · exact ⟨m, List.mem_append_right _ (List.mem_singleton_self m), List.mem_singleton.mp hd⟩
  arrived_subset := by
    rw [List.map_append]
    exact List.Subset.trans h.arrived_subset (List.subset_append_left _ _)
  feed_eq := h.feed_eq

/-- At the end of the run the simulator stays as it is. -/
theorem Linked.done (h : Linked cfg s ms arrived) (hcfg : cfg.Valid) {sim : MarketSimulator rng}
    (hnext : s.sim.next = .ok (sim, none)) :
    Linked cfg { s with sim, sending := false } ms arrived := by
  obtain ⟨R, hsim, -⟩ := leads_of_emit hcfg h.emitted
  have hensures := next_ensures hcfg hsim
  rw [hnext] at hensures
  rcases hensures with ⟨hsame, -⟩ | ⟨m, sym, R', hout, -⟩
  · obtain rfl : sim = s.sim := congrArg Prod.fst hsame
    exact ⟨h.emitted, h.network, h.arrived_subset, h.feed_eq⟩
  · cases hout

theorem Linked.arrive (h : Linked cfg s ms arrived) {d : List UInt8} (hd : d ∈ s.network) :
    ∃ m, Linked cfg (onDatagram s d) ms (arrived ++ [m]) := by
  obtain ⟨m, hm, hbytes⟩ := h.network d hd
  refine ⟨m.dispatch, ?_⟩
  have hlen := m.dispatch.length_bytes_pos
  have hwhole : m.dispatch.bytes.take kRecvBufferSize = m.dispatch.bytes :=
    List.take_of_length_le (m.dispatch.length_bytes_le.trans kMaxMessageSize_le)
  have hone := FeedHandler.consumeDatagram_messages builderHandler [m.dispatch] s.feed
  rw [List.flatMap_singleton] at hone
  have hdatagram : onDatagram s d =
      { s with feed := FeedHandler.receive builderHandler s.feed m.dispatch } := by
    simp only [onDatagram, hbytes, hwhole, if_neg hlen.ne', hone]
    rfl
  rw [hdatagram]
  refine ⟨h.emitted, h.network, ?_, ?_⟩
  · refine List.append_subset.mpr ⟨h.arrived_subset, ?_⟩
    rintro _ hmem
    rw [List.mem_singleton.mp hmem]
    exact List.mem_map_of_mem hm
  · rw [List.foldl_append, ← h.feed_eq]
    rfl

theorem Linked.step (h : Linked cfg s ms arrived) (hcfg : cfg.Valid) {a : Action}
    (hstep : step s a = some s') : ∃ ms' arrived', Linked cfg s' ms' arrived' := by
  cases a with
  | next taken =>
    simp only [UdpFeed.step, stepNext] at hstep
    split at hstep
    case h_1 sim m hsending hnext =>
      obtain rfl := Option.some.inj hstep
      exact ⟨_, _, h.next hnext taken⟩
    case h_2 sim hsending hnext =>
      obtain rfl := Option.some.inj hstep
      exact ⟨_, _, h.done hcfg hnext⟩
    case h_3 => cases hstep
  | arrive i =>
    simp only [UdpFeed.step] at hstep
    split_ifs at hstep
    obtain ⟨d, hd, rfl⟩ := Option.map_eq_some_iff.mp hstep
    obtain ⟨m, hm⟩ := h.arrive (List.mem_of_getElem? hd)
    exact ⟨_, _, hm⟩
  | giveUp =>
    simp only [UdpFeed.step] at hstep
    split_ifs at hstep
    obtain rfl := Option.some.inj hstep
    exact ⟨ms, arrived, h.emitted, h.network, h.arrived_subset, h.feed_eq⟩

theorem linked_of_reachable (hcfg : cfg.Valid) {sim : MarketSimulator rng}
    (hnew : new rng cfg = .ok sim) (h : (system sim).Reachable s) :
    ∃ ms arrived, Linked cfg s ms arrived :=
  h.invariant (I := fun s => ∃ ms arrived, Linked cfg s ms arrived) ⟨[], [], .start hnew⟩
    fun _ _ _ ⟨_, _, hs⟩ hstep => hs.step hcfg hstep

end UdpFeed

/-! ## The numbers of a run -/

theorem Leads.seqs {ms : List GeneratedMessage} {R : SymbolId → Reference} (h : Leads ms R)
    (hlen : ms.length < 2 ^ 32) :
    (ms.map GeneratedMessage.dispatch).map (·.seq.toNat) = List.range' 1 ms.length := by
  induction h with
  | nil => rfl
  | @snoc ms R sym m R' _ hseq _ ih =>
    rw [List.length_append, List.length_singleton] at hlen
    have hnumber : m.dispatch.seq.toNat = 1 + ms.length := by
      rw [show m.dispatch.seq = m.seq from rfl, hseq, UInt32.toNat_ofNat_of_lt' hlen, Nat.add_comm]
    rw [List.map_append, List.map_append, ih (by omega), List.length_append,
      List.length_singleton, List.range'_concat, Nat.one_mul, ← hnumber]
    rfl

/-! ## Orders under loss -/

theorem MarketSimulator.Inv.liveOrder_eq {rng : Rng} {cfg : SimConfig} {x : Loopback rng}
    {R : SymbolId → Reference} (h : x.sim.Inv cfg R) (sym : SymbolId) (id : OrderId) :
    x.liveOrder sym id = (lookup Entry.id id (R sym)).map Entry.live := by
  rw [Loopback.liveOrder]
  cases hs : x.sim.symbols[sym.toNat]? with
  | none =>
    rw [h.outside sym hs]
    rfl
  | some s => exact (h.symbols sym s hs).models.orders_eq id

/-- Two parts of an ascending list that have the same messages of a kind. -/
theorem Message.filter_eq {sent ms ms' : List Message}
    (hsorted : sent.Pairwise (·.seq.toNat < ·.seq.toNat)) (h : ms.Sublist sent)
    (h' : ms'.Sublist sent) {p : Message → Bool}
    (hsame : ∀ m ∈ sent, p m = true → (m ∈ ms ↔ m ∈ ms')) : ms.filter p = ms'.filter p := by
  have hmem (m : Message) : m ∈ ms.filter p ↔ m ∈ ms'.filter p := by
    simp only [List.mem_filter]
    refine and_congr_left fun hp => ⟨fun hm => ?_, fun hm => ?_⟩
    · exact (hsame m (h.subset hm) hp).mp hm
    · exact (hsame m (h'.subset hm) hp).mpr hm
  have hanti : Std.Antisymm fun m m' : Message => m.seq.toNat < m'.seq.toNat :=
    ⟨fun _ _ hlt hgt => absurd hlt (Nat.lt_asymm hgt)⟩
  have hnodup : sent.Nodup := hsorted.imp fun hlt heq => by simp [heq] at hlt
  have hperm : (ms.filter p).Perm (ms'.filter p) :=
    (List.perm_ext_iff_of_nodup ((hnodup.sublist h).filter p) ((hnodup.sublist h').filter p)).mpr hmem
  exact hperm.eq_of_pairwise' ((hsorted.sublist h).filter p) ((hsorted.sublist h').filter p)

namespace UdpFeed

variable {rng : Rng} {cfg : SimConfig} {s : State rng}

/-- A run of less than 2^32 messages is numbered from 1 without a break. -/
theorem numbers_of_emit (hcfg : cfg.Valid) (hseq : cfg.numMessages.toNat < 2 ^ 32 - 1) {n : Nat}
    {sim : MarketSimulator rng} {ms : List GeneratedMessage}
    (hemit : emit rng cfg n = .ok (sim, ms)) :
    (ms.map GeneratedMessage.dispatch).map (·.seq.toNat) = List.range' 1 ms.length ∧
      (∀ m ∈ ms.map GeneratedMessage.dispatch, m.seq.toNat < 2 ^ 32 - 1) ∧
      ms.length < 2 ^ 32 - 1 := by
  obtain ⟨R, hsim, hleads, hlen⟩ := leads_of_emit hcfg hemit
  have hle := hsim.produced_le
  have hseqs := hleads.seqs (by omega)
  refine ⟨hseqs, ?_, by omega⟩
  intro m hm
  have hmem : m.seq.toNat ∈ List.range' 1 ms.length := hseqs ▸ List.mem_map_of_mem hm
  have hrange := List.mem_range'_1.mp hmem
  omega

/-- In every state that the exchange, the network and the receiver can reach: the receiver's
books are built from some of the messages sent, in their order, and are consistent in
themselves; and an order about which the receiver has got exactly what the exchange had sent
by some moment rests in its book as it did at the exchange at that moment, whatever else was
lost, repeated or delayed. -/
theorem order_exact (hcfg : cfg.Valid) (hseq : cfg.numMessages.toNat < 2 ^ 32 - 1)
    {sim : MarketSimulator rng} (hnew : new rng cfg = .ok sim) (h : (system sim).Reachable s) :
    ∃ (ms : List GeneratedMessage) (fw : List Message),
      emit rng cfg ms.length = .ok (s.sim, ms) ∧
      fw.Sublist (ms.map GeneratedMessage.dispatch) ∧ s.feed.down = BookBuilder.buildFrom fw {} ∧
      (∀ sym, (s.feed.down.manager.book sym).val.LocatorAgreement) ∧
      ∀ k ≤ ms.length, ∃ simk, emit rng cfg k = .ok (simk, ms.take k) ∧
        ∀ sym id, (∀ m ∈ ms.map GeneratedMessage.dispatch, m.names sym id = true →
            (m ∈ fw ↔ m ∈ (ms.take k).map GeneratedMessage.dispatch)) →
          (s.feed.down.manager.book sym).val.resting id =
            Loopback.liveOrder ⟨simk, s.feed⟩ sym id := by
  obtain ⟨ms, arrived, hlinked⟩ := linked_of_reachable hcfg hnew h
  obtain ⟨hseqs, hbound, -⟩ := numbers_of_emit hcfg hseq hlinked.emitted
  have hsorted : (ms.map GeneratedMessage.dispatch).Pairwise (·.seq.toNat < ·.seq.toNat) :=
    List.pairwise_map.mp (hseqs ▸ List.pairwise_lt_range')
  obtain ⟨fw, hknows⟩ := FeedHandler.Knows.receives hbound hlinked.arrived_subset
  rw [← hlinked.feed_eq] at hknows
  rw [← List.length_map GeneratedMessage.dispatch] at hseqs
  have hfw := (hknows.sublist hseqs).2.trans (List.take_sublist _ _)
  have hdown := hknows.down
  have hholds := BookBuilder.holds_build fw
  rw [← hdown] at hholds
  refine ⟨ms, fw, hlinked.emitted, hfw, hdown, fun sym => (hholds sym).locatorAgreement, ?_⟩
  intro k hk
  obtain ⟨simk, hsimk⟩ := emit_take hlinked.emitted rfl hk
  obtain ⟨Rk, hinvk, hleadsk, -⟩ := leads_of_emit hcfg hsimk
  refine ⟨simk, hsimk, fun sym id hsame => ?_⟩
  have hpart : ((ms.take k).map GeneratedMessage.dispatch).Sublist
      (ms.map GeneratedMessage.dispatch) := (List.take_sublist k ms).map _
  have hhistory := lookup_of_history (Message.filter_eq hsorted hfw hpart hsame)
  have hlive := Inv.liveOrder_eq (x := ⟨simk, s.feed⟩) hinvk sym id
  rw [(hholds sym).resting_eq, hlive, hleadsk.eq_run sym, hhistory]

/-- Of the first three messages one is lost, one is overtaken and one arrives twice. -/
theorem order_exact_lossy :
    ∃ sim s, new Loopback.congruential Loopback.shortConfig = .ok sim ∧
      (system sim).Reachable s ∧ s.feed.forwarded = 1 ∧ s.feed.dropped = 2 ∧
      ∃ (ms : List GeneratedMessage) (fw : List Message),
        emit Loopback.congruential Loopback.shortConfig ms.length = .ok (s.sim, ms) ∧
        fw.Sublist (ms.map GeneratedMessage.dispatch) ∧
        s.feed.down = BookBuilder.buildFrom fw {} ∧
        (∀ sym, (s.feed.down.manager.book sym).val.LocatorAgreement) ∧
        ∀ k ≤ ms.length, ∃ simk,
          emit Loopback.congruential Loopback.shortConfig k = .ok (simk, ms.take k) ∧
          ∀ sym id, (∀ m ∈ ms.map GeneratedMessage.dispatch, m.names sym id = true →
              (m ∈ fw ↔ m ∈ (ms.take k).map GeneratedMessage.dispatch)) →
            (s.feed.down.manager.book sym).val.resting id =
              Loopback.liveOrder ⟨simk, s.feed⟩ sym id := by
  have hrun : ((new Loopback.congruential Loopback.shortConfig).toOption.bind fun sim =>
      ((system sim).run (system sim).start [.next true, .next false, .next true, .arrive 1,
        .arrive 0, .arrive 1]).map fun s => (s.feed.forwarded, s.feed.dropped)) =
      some (1, 2) := by decide +kernel
  cases hnew : new Loopback.congruential Loopback.shortConfig with
  | error f =>
    rw [hnew] at hrun
    cases hrun
  | ok sim =>
    rw [hnew] at hrun
    obtain ⟨s, hs, hcounts⟩ := Option.map_eq_some_iff.mp hrun
    obtain ⟨hforwarded, hdropped⟩ := Prod.mk.inj hcounts
    exact ⟨sim, s, rfl, ⟨_, hs⟩, hforwarded, hdropped,
      order_exact Loopback.shortConfig_valid (by decide) hnew ⟨_, hs⟩⟩

/-! ## What the receiver can tell -/

/-- A receiver that has got every message builds its books from all of them. -/
theorem received_down (hcfg : cfg.Valid) (hseq : cfg.numMessages.toNat < 2 ^ 32 - 1) {n : Nat}
    {sim : MarketSimulator rng} {ms : List GeneratedMessage}
    (hemit : emit rng cfg n = .ok (sim, ms)) :
    (FeedHandler.received ms).down =
      BookBuilder.buildFrom (ms.map GeneratedMessage.dispatch) {} := by
  obtain ⟨hseqs, hbound, hlen⟩ := numbers_of_emit hcfg hseq hemit
  obtain ⟨fw, hknows⟩ := FeedHandler.Knows.receives hbound (List.Subset.refl _)
  rw [← List.length_map GeneratedMessage.dispatch] at hseqs
  have hsub := (hknows.sublist hseqs).2.trans (List.take_sublist _ _)
  obtain ⟨-, -, -, hproduced⟩ := leads_of_emit hcfg hemit
  have hforwarded : UInt64.ofNat fw.length = sim.produced :=
    hknows.forwarded.symm.trans (consistent_received hcfg hemit []).forwarded
  have hall : fw.length = (ms.map GeneratedMessage.dispatch).length := by
    have hfew := hknows.length_le
    rw [List.length_map] at hfew ⊢
    rw [hproduced, ← hforwarded]
    refine (UInt64.toNat_ofNat_of_lt' ?_).symm
    change fw.length < 18446744073709551616
    omega
  rw [FeedHandler.received, hknows.down, hsub.eq_of_length hall]

/-- In every state that the exchange, the network and the receiver can reach, the receiver can
tell from its counters what it has lost. With `k` the last number that it accepted: its
books are built from `forwarded` of the first `k` messages, in order; `missing` of them were
lost behind the first that was accepted. If `forwarded` is `k`, the books are those of the
exchange behind `k` messages. -/
theorem losses_counted (hcfg : cfg.Valid) (hseq : cfg.numMessages.toNat < 2 ^ 32 - 1)
    {sim : MarketSimulator rng} (hnew : new rng cfg = .ok sim) (h : (system sim).Reachable s) :
    let k := s.feed.seq.highWater
    ∃ (ms : List GeneratedMessage) (fw : List Message),
      emit rng cfg ms.length = .ok (s.sim, ms) ∧ k ≤ ms.length ∧
      fw.Sublist ((ms.take k).map GeneratedMessage.dispatch) ∧
      s.feed.down = BookBuilder.buildFrom fw {} ∧ s.feed.forwarded.toNat = fw.length ∧
      (∀ m ∈ fw.head?,
        s.feed.forwarded.toNat + s.feed.seq.stats.missing.toNat + m.seq.toNat = k + 1) ∧
      (s.feed.forwarded.toNat = k → ∃ simk, emit rng cfg k = .ok (simk, ms.take k) ∧
        Loopback.Consistent ⟨simk, { s.feed with dropped := 0 }⟩) := by
  intro k
  obtain ⟨ms, arrived, hlinked⟩ := linked_of_reachable hcfg hnew h
  obtain ⟨hseqs, hbound, hlen⟩ := numbers_of_emit hcfg hseq hlinked.emitted
  obtain ⟨fw, hknows⟩ := FeedHandler.Knows.receives hbound hlinked.arrived_subset
  rw [← hlinked.feed_eq] at hknows
  rw [← List.length_map GeneratedMessage.dispatch] at hseqs
  obtain ⟨hle, hsub⟩ := hknows.sublist hseqs
  obtain ⟨-, hhead, -⟩ := hknows.counts
  rw [List.length_map] at hle
  have hcount : s.feed.forwarded.toNat = fw.length := by
    have hfew := hknows.length_le
    rw [List.length_map] at hfew
    rw [hknows.forwarded]
    exact UInt64.toNat_ofNat_of_lt' (by change fw.length < 18446744073709551616; omega)
  refine ⟨ms, fw, hlinked.emitted, hle, ?_, hknows.down, hcount, ?_, ?_⟩
  · rwa [List.map_take]
  · rwa [hcount]
  · intro hall
    obtain ⟨simk, hsimk⟩ := emit_take hlinked.emitted rfl hle
    obtain ⟨-, -, -, hproduced⟩ := leads_of_emit hcfg hsimk
    rw [List.length_take, Nat.min_eq_left hle] at hproduced
    have hdown : s.feed.down = (FeedHandler.received (ms.take k)).down := by
      rw [received_down hcfg hseq hsimk, hknows.down, hknows.eq_take hseqs (hcount ▸ hall),
        List.map_take]
    have hsame := consistent_received hcfg hsimk []
    refine ⟨simk, hsimk, ?_, rfl, hknows.malformed, ?_, ?_, ?_, ?_, ?_⟩
    · exact UInt64.toNat_inj.mp (hall.trans hproduced)
    · exact hdown ▸ hsame.badFrames
    · exact hdown ▸ hsame.rejected
    · intro sym id
      have horders := hsame.orders sym id
      simp only [Loopback.book] at horders ⊢
      rw [hdown]
      exact horders
    · intro sym
      have hlevels := hsame.levels sym
      simp only [Loopback.book] at hlevels ⊢
      rwa [hdown]
    · intro sym
      have huncrossed := hsame.uncrossed sym
      simp only [Loopback.book] at huncrossed ⊢
      rwa [hdown]

/-- The second of three messages is lost and the third arrives twice. -/
theorem losses_counted_lossy :
    ∃ sim s, new Loopback.congruential Loopback.shortConfig = .ok sim ∧
      (system sim).Reachable s ∧ s.feed.forwarded = 2 ∧ s.feed.seq.stats.missing = 1 ∧
      s.feed.seq.highWater = 3 ∧
      ∃ (ms : List GeneratedMessage) (fw : List Message),
        emit Loopback.congruential Loopback.shortConfig ms.length = .ok (s.sim, ms) ∧
        fw.Sublist ((ms.take s.feed.seq.highWater).map GeneratedMessage.dispatch) ∧
        s.feed.down = BookBuilder.buildFrom fw {} ∧ s.feed.forwarded.toNat = fw.length := by
  have hrun : ((new Loopback.congruential Loopback.shortConfig).toOption.bind fun sim =>
      ((system sim).run (system sim).start [.next true, .arrive 0, .next false, .next true,
        .arrive 1, .arrive 1]).map fun s =>
          (s.feed.forwarded, s.feed.seq.stats.missing, s.feed.seq.highWater)) =
      some (2, 1, 3) := by decide +kernel
  cases hnew : new Loopback.congruential Loopback.shortConfig with
  | error f =>
    rw [hnew] at hrun
    cases hrun
  | ok sim =>
    rw [hnew] at hrun
    obtain ⟨s, hs, hcounts⟩ := Option.map_eq_some_iff.mp hrun
    obtain ⟨hforwarded, hcounts⟩ := Prod.mk.inj hcounts
    obtain ⟨hmissing, hwater⟩ := Prod.mk.inj hcounts
    obtain ⟨ms, fw, hemit, -, hsub, hdown, hcount, -⟩ :=
      losses_counted Loopback.shortConfig_valid (by decide) hnew ⟨_, hs⟩
    exact ⟨sim, s, rfl, ⟨_, hs⟩, hforwarded, hmissing, hwater, ms, fw, hemit, hsub, hdown, hcount⟩

end UdpFeed

end Mdfh
