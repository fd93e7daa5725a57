import Mdfh.TcpFeed

/-!
# What arrives over a stream connection

In every state the bytes that were read, those on their way and those still to be sent are
the encoded messages of the run so far, or a beginning of them once the connection failed.
So the receiver agrees with the exchange as it was behind some earlier message, and when it
has read the end of an unbroken stream, with the exchange as it is.

## Main definitions

* `TcpFeed.Linked` — the invariant of both processes.
* `TcpFeed.recvBytes` — what `recv` returns in one step.

## Main results

* `TcpFeed.Linked.move` — one step.
* `TcpFeed.feed_consistent` — every reachable state.
* `TcpFeed.feed_complete` — every run without a failure that has come to its end.
-/

namespace Mdfh

open Std Library MarketSimulator

/-- The bytes of a list of messages, in order. -/
def wireBytes (ms : List GeneratedMessage) : List UInt8 := ms.flatMap fun m => m.dispatch.bytes

theorem wireBytes_dispatch (ms : List GeneratedMessage) :
    (ms.map GeneratedMessage.dispatch).flatMap Message.bytes = wireBytes ms := by
  rw [List.flatMap_map, wireBytes]

theorem wireBytes_concat (ms : List GeneratedMessage) (m : GeneratedMessage) :
    wireBytes (ms ++ [m]) = wireBytes ms ++ m.dispatch.bytes := by
  simp [wireBytes]

namespace TcpFeed

variable {rng : Rng} {cfg : SimConfig}

def SenderPc.unsent : SenderPc → List UInt8
  | .send remaining => remaining
  | _ => []

/-- The messages whose callback has returned. -/
def SenderPc.finished (pc : SenderPc) (n : Nat) : Nat :=
  match pc with
  | .send _ => n - 1
  | _ => n

@[simp] theorem SenderPc.unsent_exited : SenderPc.exited.unsent = [] := rfl

@[simp] theorem SenderPc.finished_exited (n : Nat) : SenderPc.exited.finished n = n := rfl

/-- What both processes have done: `ms` are the messages that were generated and `p` the
bytes that were read. -/
structure Linked (cfg : SimConfig) (s : State rng) (ms : List GeneratedMessage) (p : List UInt8) :
    Prop where
  emitted : emit rng cfg ms.length = .ok (s.sim, ms)
  hasRead : FeedHandler.HasRead builderHandler (ms.map GeneratedMessage.dispatch) { down := {} } p
    s.feed
  begins : p ++ s.wire <+: wireBytes ms
  whole : s.ok = true → p ++ s.wire ++ s.sender.unsent = wireBytes ms
  broken : s.ok = false → s.sender.unsent = []
  streamed : s.ok = true → s.streamed = UInt64.ofNat (s.sender.finished ms.length)
  offered : ∀ remaining, s.sender = .send remaining → remaining ≠ [] ∧ ms ≠ []
  exited : s.sender = .exited → ms.length = cfg.numMessages.toNat
  closed : s.receiver = .exited 0 → s.wire = [] ∧ s.sender = .exited

variable {s s' : State rng} {ms : List GeneratedMessage} {p : List UInt8} {a : Action}

theorem Linked.start {sim : MarketSimulator rng} (hnew : new rng cfg = .ok sim) :
    Linked cfg ({ sim } : State rng) [] [] where
  emitted := by
    rw [List.length_nil, emit, hnew]
    rfl
  hasRead := FeedHandler.hasRead_nil _ rfl
  begins := List.prefix_rfl
  whole _ := rfl
  broken h := by cases h
  streamed _ := rfl
  offered _ h := by cases h
  exited h := by cases h
  closed h := by cases h

/-! ## Steps of the exchange -/

/-- A call of `next` that produces nothing leaves the simulator as it is. -/
theorem Linked.next_none (h : Linked cfg s ms p) (hcfg : cfg.Valid) {sim : MarketSimulator rng}
    (hnext : s.sim.next = .ok (sim, none)) :
    sim = s.sim ∧ ms.length = cfg.numMessages.toNat := by
  obtain ⟨R, hsim, -, hlen⟩ := leads_of_emit hcfg h.emitted
  have hensures := next_ensures hcfg hsim
  rw [hnext] at hensures
  rcases hensures with ⟨hsame, hdone⟩ | ⟨m, sym, R', hout, -⟩
  · exact ⟨congrArg Prod.fst hsame, hlen.trans hdone⟩
  · cases hout

theorem Linked.next_some (h : Linked cfg s ms p) {sim : MarketSimulator rng}
    {m : GeneratedMessage} (hnext : s.sim.next = .ok (sim, some m)) :
    emit rng cfg (ms ++ [m]).length = .ok (sim, ms ++ [m]) := by
  rw [List.length_append]
  exact emit_succ h.emitted hnext

theorem Linked.hasRead_concat (h : Linked cfg s ms p) (m : GeneratedMessage) :
    FeedHandler.HasRead builderHandler ((ms ++ [m]).map GeneratedMessage.dispatch) { down := {} } p
      s.feed := by
  rw [List.map_append]
  exact h.hasRead.append _

theorem Linked.begins_concat (h : Linked cfg s ms p) (m : GeneratedMessage) :
    p ++ s.wire <+: wireBytes (ms ++ [m]) := by
  rw [wireBytes_concat]
  exact h.begins.trans (List.prefix_append _ _)

theorem Linked.ok_of_send (h : Linked cfg s ms p) {remaining : List UInt8}
    (hpc : s.sender = .send remaining) : s.ok = true := by
  cases hok : s.ok with
  | true => rfl
  | false =>
    have hunsent := h.broken hok
    rw [hpc] at hunsent
    exact absurd hunsent (h.offered remaining hpc).1

theorem Linked.done (h : Linked cfg s ms p) (hcfg : cfg.Valid) (hpc : s.sender = .next)
    {sim : MarketSimulator rng} (hnext : s.sim.next = .ok (sim, none)) :
    Linked cfg { s with sim, sender := .exited } ms p := by
  obtain ⟨rfl, hdone⟩ := h.next_none hcfg hnext
  have hwhole := h.whole
  have hstreamed := h.streamed
  rw [hpc] at hwhole hstreamed
  exact {
    emitted := h.emitted
    hasRead := h.hasRead
    begins := h.begins
    whole := hwhole
    broken := fun _ => rfl
    streamed := hstreamed
    offered := fun _ hsend => by cases hsend
    exited := fun _ => hdone
    closed := fun hend => ⟨(h.closed hend).1, rfl⟩ }

theorem Linked.dropped (h : Linked cfg s ms p) (hpc : s.sender = .next) (hok : s.ok = false)
    {sim : MarketSimulator rng} {m : GeneratedMessage} (hnext : s.sim.next = .ok (sim, some m)) :
    Linked cfg { s with sim } (ms ++ [m]) p where
  emitted := h.next_some hnext
  hasRead := h.hasRead_concat m
  begins := h.begins_concat m
  whole hok' := by cases hok.symm.trans hok'
  broken := h.broken
  streamed hok' := by cases hok.symm.trans hok'
  offered _ hsend := by cases hpc.symm.trans hsend
  exited hend := by cases hpc.symm.trans hend
  closed := h.closed

theorem Linked.offer (h : Linked cfg s ms p) (hpc : s.sender = .next) (hok : s.ok = true)
    {sim : MarketSimulator rng} {m : GeneratedMessage} (hnext : s.sim.next = .ok (sim, some m)) :
    Linked cfg { s with sim, sender := .send m.dispatch.bytes } (ms ++ [m]) p := by
  have hwhole := h.whole hok
  have hstreamed := h.streamed hok
  rw [hpc] at hwhole hstreamed
  exact {
    emitted := h.next_some hnext
    hasRead := h.hasRead_concat m
    begins := h.begins_concat m
    whole := fun _ => by
      rw [wireBytes_concat, ← hwhole]
      simp [SenderPc.unsent]
    broken := fun hok' => by cases hok.symm.trans hok'
    streamed := fun _ => by
      rw [List.length_append]
      exact hstreamed
    offered := by
      intro remaining hsend
      obtain rfl := SenderPc.send.inj hsend
      exact ⟨List.ne_nil_of_length_pos m.dispatch.length_bytes_pos,
        List.append_ne_nil_of_right_ne_nil _ (List.cons_ne_nil _ _)⟩
    exited := fun hend => by cases hend
    closed := fun hend => by cases hpc.symm.trans (h.closed hend).2 }

theorem Linked.sendFailed (h : Linked cfg s ms p) {remaining : List UInt8}
    (hpc : s.sender = .send remaining) : Linked cfg (sent s false) ms p where
  emitted := h.emitted
  hasRead := h.hasRead
  begins := h.begins
  whole hok := by cases hok
  broken _ := rfl
  streamed hok := by cases hok
  offered _ hsend := by cases hsend
  exited hend := by cases hend
  closed hend := by cases hpc.symm.trans (h.closed hend).2

theorem Linked.taken (h : Linked cfg s ms p) {remaining : List UInt8} {n : Nat}
    (hpc : s.sender = .send remaining) (hlt : n < remaining.length) :
    Linked cfg { s with wire := s.wire ++ remaining.take n, sender := .send (remaining.drop n) }
      ms p := by
  have hok := h.ok_of_send hpc
  have hwhole := h.whole hok
  have hstreamed := h.streamed hok
  rw [hpc] at hwhole hstreamed
  simp only [SenderPc.unsent] at hwhole
  exact {
    emitted := h.emitted
    hasRead := h.hasRead
    begins := ⟨remaining.drop n, by simpa using hwhole⟩
    whole := fun _ => by simpa [SenderPc.unsent] using hwhole
    broken := fun hok' => by cases hok.symm.trans hok'
    streamed := fun _ => hstreamed
    offered := by
      rintro _ ⟨⟩
      exact ⟨by simpa using hlt, (h.offered remaining hpc).2⟩
    exited := fun hend => by cases hend
    closed := fun hend => by cases hpc.symm.trans (h.closed hend).2 }

theorem Linked.finished (h : Linked cfg s ms p) {remaining : List UInt8}
    (hpc : s.sender = .send remaining) :
    Linked cfg (sent { s with wire := s.wire ++ remaining } true) ms p := by
  have hok := h.ok_of_send hpc
  have hwhole := h.whole hok
  have hstreamed := h.streamed hok
  rw [hpc] at hwhole hstreamed
  simp only [SenderPc.unsent] at hwhole
  have hpos := List.length_pos_iff.mpr (h.offered remaining hpc).2
  exact {
    emitted := h.emitted
    hasRead := h.hasRead
    begins := ⟨[], by simpa [sent] using hwhole⟩
    whole := fun _ => by simpa [sent, SenderPc.unsent] using hwhole
    broken := fun _ => rfl
    streamed := fun _ => by
      simp only [sent, SenderPc.finished, hstreamed]
      rw [show ms.length = ms.length - 1 + 1 by omega, UInt64.ofNat_add]
      rfl
    offered := fun _ hsend => by cases hsend
    exited := fun hend => by cases hend
    closed := fun hend => by cases hpc.symm.trans (h.closed hend).2 }

/-! ## Steps of the receiver -/

theorem Linked.leave (h : Linked cfg s ms p) {result : Int}
    (hend : result = 0 → s.wire = [] ∧ s.sender = .exited) :
    Linked cfg { s with receiver := .exited result } ms p where
  emitted := h.emitted
  hasRead := h.hasRead
  begins := h.begins
  whole := h.whole
  broken := h.broken
  streamed := h.streamed
  offered := h.offered
  exited := h.exited
  closed hresult := hend (ReceiverPc.exited.inj hresult)

theorem Linked.received (h : Linked cfg s ms p) (hpc : s.receiver = .recv) (n : Nat) :
    Linked cfg { s with
      wire := s.wire.drop n
      feed := (s.feed.consume builderHandler (s.wire.take n)).1 } ms (p ++ s.wire.take n) where
  emitted := h.emitted
  hasRead := by
    refine h.hasRead.consume ?_
    rw [wireBytes_dispatch]
    refine List.IsPrefix.trans ⟨s.wire.drop n, ?_⟩ h.begins
    rw [List.append_assoc, List.take_append_drop]
  begins := by
    rw [List.append_assoc, List.take_append_drop]
    exact h.begins
  whole hok := by
    rw [List.append_assoc p, List.take_append_drop]
    exact h.whole hok
  broken := h.broken
  streamed := h.streamed
  offered := h.offered
  exited := h.exited
  closed hend := by cases hpc.symm.trans hend

/-! ## Every run -/

/-- The bytes that a call of `recv` returns. -/
def recvBytes (s : State rng) : Action → List UInt8
  | .recv (.count n) => s.wire.take n
  | _ => []

theorem recvBytes_eq_nil (s : State rng) (h : ∀ n, a ≠ .recv (.count n)) : recvBytes s a = [] := by
  unfold recvBytes
  split
  · exact absurd rfl (h _)
  · rfl

/-- One step of either process. -/
theorem Linked.move (h : Linked cfg s ms p) (hcfg : cfg.Valid) (hmove : Move s a s') :
    ∃ ms', Linked cfg s' ms' (p ++ recvBytes s a) := by
  have hkeep {s' : State rng} {ms' : List GeneratedMessage} (hbytes : recvBytes s a = [])
      (h' : Linked cfg s' ms' p) : ∃ ms', Linked cfg s' ms' (p ++ recvBytes s a) := by
    rw [hbytes, List.append_nil]
    exact ⟨ms', h'⟩
  cases hmove with
  | done hpc hnext => exact hkeep rfl (h.done hcfg hpc hnext)
  | dropped hpc hnext hok => exact hkeep rfl (h.dropped hpc hok hnext)
  | offered hpc hnext hok => exact hkeep rfl (h.offer hpc hok hnext)
  | sendFailed hpc hfails =>
    refine hkeep (recvBytes_eq_nil s ?_) (h.sendFailed hpc)
    rintro n rfl
    cases hfails
  | taken hpc _ hlt => exact hkeep rfl (h.taken hpc hlt)
  | finished hpc _ => exact hkeep rfl (h.finished hpc)
  | recvFailed hpc => exact hkeep rfl (h.leave fun hzero => absurd hzero (by decide))
  | closed hpc hwire hsender => exact hkeep rfl (h.leave fun _ => ⟨hwire, hsender⟩)
  | received hpc _ _ => exact ⟨ms, h.received hpc _⟩
  | retried hretried =>
    refine hkeep (recvBytes_eq_nil s ?_) h
    rintro n rfl
    cases hretried

/-- After any run, with the bytes that its calls of `recv` have returned. -/
theorem linked_of_run (hcfg : cfg.Valid) {sim : MarketSimulator rng}
    (hnew : new rng cfg = .ok sim) {actions : List Action}
    (hrun : (system sim).run (system sim).start actions = some s) :
    ∃ ms, Linked cfg s ms ((system sim).trace recvBytes (system sim).start actions) := by
  have hstart : ∃ ms, Linked cfg (system sim).start ms [] := ⟨[], .start hnew⟩
  refine System.trace_invariant (I := fun s p => ∃ ms, Linked cfg s ms p) ?_ actions hstart hrun
  rintro s p a s' ⟨ms, h⟩ hstep
  exact h.move hcfg (step_cases hstep)

theorem linked_of_reachable (hcfg : cfg.Valid) {sim : MarketSimulator rng}
    (hnew : new rng cfg = .ok sim) (h : (system sim).Reachable s) : ∃ ms p, Linked cfg s ms p := by
  obtain ⟨actions, hrun⟩ := h
  obtain ⟨ms, hlinked⟩ := linked_of_run hcfg hnew hrun
  exact ⟨ms, _, hlinked⟩

/-- In every state that the two processes can reach, however the bytes are cut and whether or
not the connection has failed, the receiver agrees with the exchange as it was behind some
earlier message, and it keeps less than one frame. -/
theorem feed_consistent (hcfg : cfg.Valid) {sim : MarketSimulator rng}
    (hnew : new rng cfg = .ok sim) (h : (system sim).Reachable s) :
    ∃ k simk ms, k ≤ s.sim.produced.toNat ∧ emit rng cfg k = .ok (simk, ms) ∧ ms.length = k ∧
      Loopback.Consistent ⟨simk, s.feed⟩ ∧ s.feed.residual.length < kMaxMessageSize := by
  obtain ⟨ms, p, hlinked⟩ := linked_of_reachable hcfg hnew h
  obtain ⟨k, tail, -, hcut, hfeed⟩ := hlinked.hasRead
  have hk : k ≤ ms.length := by simpa using hcut.le
  obtain ⟨simk, hsimk⟩ := emit_take hlinked.emitted rfl hk
  obtain ⟨R, -, -, hproduced⟩ := leads_of_emit hcfg hlinked.emitted
  have hconsistent := consistent_received hcfg hsimk tail
  rw [FeedHandler.received, List.map_take, ← hfeed] at hconsistent
  refine ⟨k, simk, ms.take k, hproduced ▸ hk, hsimk, by simpa using hk, hconsistent, ?_⟩
  rw [hfeed]
  rcases Nat.lt_or_eq_of_le hcut.le with hlt | rfl
  · exact (hcut.short _ (List.getElem?_eq_getElem hlt)).trans_le (Message.length_bytes_le _)
  · rw [hcut.eq_nil]
    exact (by decide : 0 < kMaxMessageSize)

/-- Two messages, of 41 and of 28 bytes. -/
def pairConfig : SimConfig := { Loopback.shortConfig with numMessages := 2 }

theorem pairConfig_valid : pairConfig.Valid :=
  { Loopback.shortConfig_valid with total := by decide }

/-- Where a run of the two messages ends, if all its steps are enabled. -/
def outcome (actions : List Action) : Option (SenderPc × ReceiverPc) := do
  let sim ← (new Loopback.congruential pairConfig).toOption
  let s ← (system sim).run (system sim).start actions
  return (s.sender, s.receiver)

theorem exists_of_outcome {actions : List Action} {pcs : SenderPc × ReceiverPc}
    (h : outcome actions = some pcs) : ∃ sim s, new Loopback.congruential pairConfig = .ok sim ∧
      (system sim).run (system sim).start actions = some s ∧ (s.sender, s.receiver) = pcs := by
  unfold outcome at h
  cases hnew : new Loopback.congruential pairConfig with
  | error f =>
    rw [hnew] at h
    cases h
  | ok sim =>
    rw [hnew] at h
    change ((system sim).run (system sim).start actions).bind _ = some pcs at h
    obtain ⟨s, hrun, hpcs⟩ := Option.bind_eq_some_iff.mp h
    exact ⟨sim, s, rfl, hrun, Option.some.inj hpcs⟩

/-- The connection fails inside the second frame. -/
def brokenSchedule : List Action :=
  [.next, .send (.count 41), .next, .send (.count 10), .send .failed, .next, .recv (.count 45),
    .recv .failed]

theorem outcome_brokenSchedule : outcome brokenSchedule = some (.exited, .exited (-1)) := by
  decide +kernel

theorem feed_consistent_broken :
    ∃ sim s, new Loopback.congruential pairConfig = .ok sim ∧ (system sim).Reachable s ∧
      ∃ k simk ms, k ≤ s.sim.produced.toNat ∧
        emit Loopback.congruential pairConfig k = .ok (simk, ms) ∧ ms.length = k ∧
        Loopback.Consistent ⟨simk, s.feed⟩ ∧ s.feed.residual.length < kMaxMessageSize := by
  obtain ⟨sim, s, hnew, hrun, -⟩ := exists_of_outcome outcome_brokenSchedule
  exact ⟨sim, s, hnew, ⟨_, hrun⟩, feed_consistent pairConfig_valid hnew ⟨_, hrun⟩⟩

/-! ## Runs without a failure -/

/-- The connection has not failed on either side. -/
def State.Unbroken (s : State rng) : Prop :=
  s.ok = true ∧ (s.receiver = .recv ∨ s.receiver = .exited 0)

theorem Move.unbroken (hmove : Move s a s') (hfails : a.fails = false) (h : s.Unbroken) :
    s'.Unbroken := by
  cases hmove with
  | sendFailed _ hfails' => cases hfails.symm.trans hfails'
  | recvFailed => cases hfails
  | finished => exact ⟨rfl, h.2⟩
  | closed => exact ⟨h.1, .inr rfl⟩
  | _ => exact h

/-- Unless a price overflows, the exchange has a next message or comes to its end. -/
theorem Linked.next_ok (h : Linked cfg s ms p) (hcfg : cfg.Valid)
    (hprices : emit rng cfg cfg.numMessages.toNat ≠ .error .priceOverflow) :
    ∃ r, s.sim.next = .ok r := by
  obtain ⟨R, hsim, -, hlen⟩ := leads_of_emit hcfg h.emitted
  cases hnext : s.sim.next with
  | ok r => exact ⟨r, rfl⟩
  | error f =>
    exfalso
    have hfault : f = .priceOverflow := by
      have hensures := next_ensures hcfg hsim
      rwa [hnext] at hensures
    have herror : emit rng cfg (ms.length + 1) = .error f := by
      rw [emit, h.emitted]
      change (s.sim.next >>= _) = _
      rw [hnext]
      rfl
    rcases Nat.lt_or_eq_of_le (hlen ▸ hsim.produced_le) with hlt | hdone
    · exact hprices (hfault ▸ emit_of_error herror hlt)
    · have hemitted := h.emitted
      rw [hdone] at hemitted
      cases hnext.symm.trans (next_of_done hcfg.admitted hemitted)

/-- Where nothing but a failure or a retry is possible, both processes have exited. -/
theorem Linked.exited_of_stuck (h : Linked cfg s ms p) (hcfg : cfg.Valid)
    (hprices : emit rng cfg cfg.numMessages.toNat ≠ .error .priceOverflow) (hs : s.Unbroken)
    (hstuck : ∀ a : Action, a.retried = false → a.fails = false → step s a = none) :
    s.sender = .exited ∧ s.receiver = .exited 0 := by
  have hsender : s.sender = .exited := by
    cases hpc : s.sender with
    | exited => rfl
    | next =>
      obtain ⟨⟨sim, out⟩, hnext⟩ := h.next_ok hcfg hprices
      have hnone := hstuck .next rfl rfl
      cases out <;> simp [step, stepNext, hpc, hnext] at hnone
    | send remaining =>
      obtain ⟨b, rest, rfl⟩ := List.exists_cons_of_ne_nil (h.offered remaining hpc).1
      have hnone := hstuck (.send (.count (rest.length + 1))) rfl rfl
      simp [step, stepSend, hpc] at hnone
  refine ⟨hsender, ?_⟩
  rcases hs.2 with hpc | hend
  · cases hwire : s.wire with
    | nil =>
      have hnone := hstuck (.recv (.count 0)) rfl rfl
      simp [step, stepRecv, hpc, hwire, hsender] at hnone
    | cons b rest =>
      have hnone := hstuck (.recv (.count 1)) rfl rfl
      simp [step, stepRecv, hpc, hwire, kRecvBufferSize] at hnone
  · exact hend

/-- A run in which no call fails and that cannot go on: the exchange has sent all messages
and closed the connection, the receiver has read its end, and it is in the state that one
call with the whole stream leads to, where it agrees with the exchange. -/
theorem feed_complete (hcfg : cfg.Valid)
    (hprices : emit rng cfg cfg.numMessages.toNat ≠ .error .priceOverflow)
    {sim : MarketSimulator rng} (hnew : new rng cfg = .ok sim) {actions : List Action}
    (hfails : ∀ a ∈ actions, a.fails = false)
    (hrun : (system sim).run (system sim).start actions = some s)
    (hstuck : ∀ a : Action, a.retried = false → a.fails = false → step s a = none) :
    s.sender = .exited ∧ s.receiver = .exited 0 ∧ s.streamed = cfg.numMessages ∧
      Loopback.Consistent ⟨s.sim, s.feed⟩ ∧
      ∃ ms, emit rng cfg cfg.numMessages.toNat = .ok (s.sim, ms) ∧
        ms.length = cfg.numMessages.toNat ∧
        s.feed = (FeedHandler.consume builderHandler (wireBytes ms) { down := {} }).1 := by
  obtain ⟨ms, p, h⟩ := linked_of_reachable hcfg hnew ⟨actions, hrun⟩
  have hunbroken : s.Unbroken :=
    System.run_invariant_of_forall (fun s a s' hfails hs hstep => (step_cases hstep).unbroken hfails hs)
      actions hfails ⟨rfl, .inl rfl⟩ hrun
  obtain ⟨hsender, hreceiver⟩ := h.exited_of_stuck hcfg hprices hunbroken hstuck
  obtain ⟨hwire, -⟩ := h.closed hreceiver
  have hdone := h.exited hsender
  have hemitted := h.emitted
  have hread := h.hasRead
  have hwhole := h.whole hunbroken.1
  rw [hdone] at hemitted
  rw [hwire, hsender, List.append_nil, SenderPc.unsent_exited, List.append_nil] at hwhole
  rw [hwhole, ← wireBytes_dispatch] at hread
  have hfeed := hread.whole
  refine ⟨hsender, hreceiver, ?_, ?_, ms, hemitted, hdone, ?_⟩
  · rw [h.streamed hunbroken.1, hsender, SenderPc.finished_exited, hdone, UInt64.ofNat_toNat]
  · rw [hfeed]
    exact consistent_received hcfg hemitted []
  · rw [← wireBytes_dispatch, FeedHandler.consume_receive _ _ _ rfl]
    exact hfeed

/-- Both calls of `send` and both of `recv` that take a part of the first frame. -/
def pairSchedule : List Action :=
  [.next, .send (.count 20), .recv .interrupted, .recv (.count 7), .send .interrupted,
    .send (.count 21), .next, .recv (.count 34), .send (.count 28), .recv (.count 28), .next,
    .recv (.count 0)]

theorem outcome_pairSchedule : outcome pairSchedule = some (.exited, .exited 0) := by
  decide +kernel

theorem feed_complete_pair :
    ∃ sim s, new Loopback.congruential pairConfig = .ok sim ∧
      (system sim).run (system sim).start pairSchedule = some s ∧
      s.sender = .exited ∧ s.receiver = .exited 0 ∧ s.streamed = 2 ∧
      Loopback.Consistent ⟨s.sim, s.feed⟩ ∧
      ∃ ms, emit Loopback.congruential pairConfig 2 = .ok (s.sim, ms) ∧ ms.length = 2 ∧
        s.feed = (FeedHandler.consume builderHandler (wireBytes ms) { down := {} }).1 := by
  have hok : (emit Loopback.congruential pairConfig 2).isOk = true := by decide +kernel
  have hprices : emit Loopback.congruential pairConfig pairConfig.numMessages.toNat ≠
      .error .priceOverflow := by
    intro hfault
    rw [show pairConfig.numMessages.toNat = 2 from rfl] at hfault
    rw [hfault] at hok
    exact Bool.noConfusion hok
  obtain ⟨sim, s, hnew, hrun, hpcs⟩ := exists_of_outcome outcome_pairSchedule
  obtain ⟨hsender, hreceiver⟩ := Prod.mk.inj hpcs
  have hstuck (a : Action) (_ : a.retried = false) (_ : a.fails = false) : step s a = none := by
    cases a <;> simp [step, stepNext, stepSend, stepRecv, hsender, hreceiver]
  exact ⟨sim, s, hnew, hrun, feed_complete pairConfig_valid hprices hnew (by decide) hrun hstuck⟩

/-! ## Termination -/

def SenderPc.running : SenderPc → Nat
  | .exited => 0
  | _ => 1

def ReceiverPc.running : ReceiverPc → Nat
  | .exited _ => 0
  | .recv => 1

/-- How many more calls there can be: every byte is sent and read at most once. -/
def work (cfg : SimConfig) (s : State rng) : Nat :=
  (cfg.numMessages.toNat - s.sim.produced.toNat) * (2 * kMaxMessageSize + 1) +
    2 * s.sender.unsent.length + s.wire.length + s.sender.running + s.receiver.running

theorem Linked.produced (h : Linked cfg s ms p) (hcfg : cfg.Valid) {sim : MarketSimulator rng}
    {m : GeneratedMessage} (hnext : s.sim.next = .ok (sim, some m)) :
    cfg.numMessages.toNat - s.sim.produced.toNat =
      cfg.numMessages.toNat - sim.produced.toNat + 1 := by
  obtain ⟨-, -, -, hbefore⟩ := leads_of_emit hcfg h.emitted
  obtain ⟨R, hsim, -, hafter⟩ := leads_of_emit hcfg (h.next_some hnext)
  have hle := hsim.produced_le
  rw [List.length_append, List.length_singleton] at hafter
  omega

theorem Linked.work_lt (h : Linked cfg s ms p) (hcfg : cfg.Valid) (hmove : Move s a s') :
    work cfg s' ≤ work cfg s ∧ (a.retried = false → work cfg s' < work cfg s) := by
  cases hmove with
  | done hpc hnext =>
    obtain ⟨rfl, -⟩ := h.next_none hcfg hnext
    simp [work, hpc, SenderPc.unsent, SenderPc.running]
  | dropped hpc hnext hok =>
    have hleft := h.produced hcfg hnext
    simp only [work, hleft, Nat.add_mul]
    omega
  | @offered sim m hpc hnext hok =>
    have hleft := h.produced hcfg hnext
    have hlen := m.dispatch.length_bytes_le
    simp only [work, hleft, hpc, SenderPc.unsent, SenderPc.running, Nat.add_mul, List.length_nil]
    omega
  | @sendFailed remaining _ hpc hfails =>
    have hpos := List.length_pos_iff.mpr (h.offered remaining hpc).1
    simp only [work, sent, hpc, SenderPc.unsent, SenderPc.running, List.length_nil]
    omega
  | taken hpc hpos hlt =>
    simp only [work, hpc, SenderPc.unsent, SenderPc.running, List.length_append, List.length_take,
      List.length_drop]
    omega
  | finished hpc hne =>
    have hpos := List.length_pos_iff.mpr hne
    simp only [work, sent, hpc, SenderPc.unsent, SenderPc.running, List.length_append,
      List.length_nil]
    omega
  | recvFailed hpc => simp [work, hpc, ReceiverPc.running]
  | closed hpc hwire hsender => simp [work, hpc, ReceiverPc.running]
  | received hpc hpos hle =>
    simp only [work, List.length_drop]
    omega
  | retried hretried => exact ⟨le_rfl, fun hnot => by cases hnot.symm.trans hretried⟩

/-- Both processes come to an end: apart from calls that were interrupted, a run makes no
more calls than there are bytes to send and read, and two more. -/
theorem calls_bounded (hcfg : cfg.Valid) {sim : MarketSimulator rng}
    (hnew : new rng cfg = .ok sim) {actions : List Action}
    (hrun : (system sim).run (system sim).start actions = some s) :
    actions.countP (!·.retried) ≤
      cfg.numMessages.toNat * (2 * kMaxMessageSize + 1) + 2 := by
  have hcount := System.run_countP_le (S := system sim)
    (I := fun s => ∃ ms p, Linked cfg s ms p) (work cfg) (!·.retried)
    (fun s a s' ⟨ms, p, h⟩ hstep => by
      have hmove := step_cases hstep
      have hwork := h.work_lt hcfg hmove
      obtain ⟨ms', hnext⟩ := h.move hcfg hmove
      exact ⟨⟨ms', _, hnext⟩, hwork.1, fun hp => hwork.2 (by simpa using hp)⟩)
    actions ⟨[], [], .start hnew⟩ hrun
  have hstart : work cfg (system sim).start ≤
      cfg.numMessages.toNat * (2 * kMaxMessageSize + 1) + 2 := by
    simp only [work, system, SenderPc.unsent, SenderPc.running, ReceiverPc.running,
      List.length_nil, Nat.mul_zero, Nat.add_zero, Nat.add_assoc]
    exact Nat.add_le_add_right (Nat.mul_le_mul_right _ (Nat.sub_le _ _)) _
  exact (Nat.le_add_right _ _).trans (hcount.trans hstart)

theorem calls_bounded_pair :
    ∃ sim s, new Loopback.congruential pairConfig = .ok sim ∧
      (system sim).run (system sim).start pairSchedule = some s ∧
      pairSchedule.countP (!·.retried) ≤ 2 * (2 * kMaxMessageSize + 1) + 2 := by
  obtain ⟨sim, s, hnew, hrun, -⟩ := exists_of_outcome outcome_pairSchedule
  exact ⟨sim, s, hnew, hrun, calls_bounded pairConfig_valid hnew hrun⟩

end TcpFeed

end Mdfh
