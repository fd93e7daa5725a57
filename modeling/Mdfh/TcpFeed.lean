import Mdfh.ExchangeFeed
import Mdfh.Library.Transition

/-!
# A feed over a stream connection

The exchange writes each message to the connection until the kernel has taken all of it, or
the connection fails; the receiver reads what there is and hands it to its feed handler. The
kernel takes and returns as many bytes as it likes, so frames are cut anywhere.

## Main definitions

* `TcpFeed.State` — both processes and the bytes between them.
* `TcpFeed.system` — a step is one call of `next`, `send` or `recv`.
* `TcpFeed.Move` — what a step can do.

## Main results

* `TcpFeed.step_cases` — every step is one of these.
-/

namespace Mdfh

open Std Library

/-- What a call of `send` or `recv` returns: a number of bytes, or `-1` with an error. -/
inductive KernelAnswer where
  | count (n : Nat)
  /-- The error is `EINTR`. -/
  | interrupted
  | failed
  deriving DecidableEq

namespace TcpFeed

/-- The size of the buffer that the receiver passes to `recv`. -/
def kRecvBufferSize : Nat := 64 * 1024

inductive SenderPc where
  /-- At the head of the loop of `run`. -/
  | next
  /-- In the loop of `send_all`, with these bytes to go. -/
  | send (remaining : List UInt8)
  /-- The run is over and the connection is closed. -/
  | exited
  deriving DecidableEq

inductive ReceiverPc where
  | recv
  /-- The loop was left with this result of `recv_some`. -/
  | exited (result : Int)
  deriving DecidableEq

structure State (rng : Rng) where
  sim : MarketSimulator rng
  ok : Bool := true
  /-- The source's `n`. -/
  streamed : UInt64 := 0
  sender : SenderPc := .next
  /-- The bytes that `send` has taken and `recv` has not returned. -/
  wire : List UInt8 := []
  receiver : ReceiverPc := .recv
  feed : FeedHandler BookBuilder := { down := {} }

variable {rng : Rng}

/-! ## The exchange -/

/-- The end of a call of `send_all`, back in the callback. -/
def sent (s : State rng) (ok : Bool) : State rng :=
  { s with ok, streamed := s.streamed + 1, sender := .next }

/-- The head of the loop of `send_all`. -/
def sendAll (s : State rng) (remaining : List UInt8) : State rng :=
  if remaining.length > 0 then { s with sender := .send remaining } else sent s true

/-- The callback of `run`. -/
def onMessage (s : State rng) (m : GeneratedMessage) : State rng :=
  if !s.ok then s else sendAll s m.dispatch.bytes

def stepNext (s : State rng) : Option (State rng) :=
  match s.sender, s.sim.next with
  | .next, .ok (sim, some m) => some (onMessage { s with sim } m)
  | .next, .ok (sim, none) => some { s with sim, sender := .exited }
  | _, _ => none

def stepSend (answer : KernelAnswer) (s : State rng) : Option (State rng) :=
  match s.sender, answer with
  | .send _, .interrupted => some s
  | .send _, .failed => some (sent s false)
  | .send remaining, .count n =>
    -- No more is taken than is offered.
    if n ≤ remaining.length then
      if n = 0 then some (sent s false)
      else some (sendAll { s with wire := s.wire ++ remaining.take n } (remaining.drop n))
    else none
  | _, _ => none

/-! ## The receiver -/

def stepRecv (answer : KernelAnswer) (s : State rng) : Option (State rng) :=
  match s.receiver, answer with
  | .recv, .interrupted => some s
  | .recv, .failed => some { s with receiver := .exited (-1) }
  | .recv, .count n =>
    if n = 0 then
      -- The end of the stream: it is closed and everything was read.
      if s.wire = [] ∧ s.sender = .exited then some { s with receiver := .exited 0 } else none
    else if n ≤ kRecvBufferSize ∧ n ≤ s.wire.length then
      some { s with
        wire := s.wire.drop n
        feed := (s.feed.consume builderHandler (s.wire.take n)).1 }
    else none
  | _, _ => none

inductive Action where
  | next
  | send (answer : KernelAnswer)
  | recv (answer : KernelAnswer)
  deriving DecidableEq

def step (s : State rng) : Action → Option (State rng)
  | .next => stepNext s
  | .send answer => stepSend answer s
  | .recv answer => stepRecv answer s

/-- The two processes, from the accepted connection on. -/
def system (sim : MarketSimulator rng) : System (State rng) Action where
  start := { sim }
  step := step

/-- The call is made again. -/
def Action.retried : Action → Bool
  | .send .interrupted | .recv .interrupted => true
  | _ => false

/-- The connection fails. -/
def Action.fails : Action → Bool
  | .send .failed | .send (.count 0) | .recv .failed => true
  | _ => false

/-! ## What a step can do -/

inductive Move (s : State rng) : Action → State rng → Prop
  | done {sim : MarketSimulator rng} : s.sender = .next → s.sim.next = .ok (sim, none) →
      Move s .next { s with sim, sender := .exited }
  /-- The connection has failed before, so the message is dropped. -/
  | dropped {sim : MarketSimulator rng} {m : GeneratedMessage} : s.sender = .next →
      s.sim.next = .ok (sim, some m) → s.ok = false → Move s .next { s with sim }
  | offered {sim : MarketSimulator rng} {m : GeneratedMessage} : s.sender = .next →
      s.sim.next = .ok (sim, some m) → s.ok = true →
      Move s .next { s with sim, sender := .send m.dispatch.bytes }
  | sendFailed {remaining : List UInt8} {a : Action} : s.sender = .send remaining → a.fails = true →
      Move s a (sent s false)
  /-- A part of the message is taken. -/
  | taken {remaining : List UInt8} {n : Nat} : s.sender = .send remaining → 0 < n →
      n < remaining.length → Move s (.send (.count n))
        { s with wire := s.wire ++ remaining.take n, sender := .send (remaining.drop n) }
  /-- The rest of the message is taken. -/
  | finished {remaining : List UInt8} : s.sender = .send remaining → remaining ≠ [] →
      Move s (.send (.count remaining.length)) (sent { s with wire := s.wire ++ remaining } true)
  | recvFailed : s.receiver = .recv → Move s (.recv .failed) { s with receiver := .exited (-1) }
  | closed : s.receiver = .recv → s.wire = [] → s.sender = .exited →
      Move s (.recv (.count 0)) { s with receiver := .exited 0 }
  | received {n : Nat} : s.receiver = .recv → 0 < n → n ≤ s.wire.length →
      Move s (.recv (.count n)) { s with
        wire := s.wire.drop n
        feed := (s.feed.consume builderHandler (s.wire.take n)).1 }
  | retried {a : Action} : a.retried = true → Move s a s

theorem stepNext_cases {s s' : State rng} (h : stepNext s = some s') : Move s .next s' := by
  unfold stepNext at h
  split at h
  case h_1 sim m hpc hnext =>
    obtain rfl := Option.some.inj h
    cases hok : s.ok with
    | false => simpa [onMessage, hok] using Move.dropped hpc hnext hok
    | true => simpa [onMessage, hok, sendAll, m.dispatch.length_bytes_pos] using Move.offered hpc hnext hok
  case h_2 sim hpc hnext =>
    obtain rfl := Option.some.inj h
    exact .done hpc hnext
  case h_3 => cases h

theorem stepSend_cases {answer : KernelAnswer} {s s' : State rng}
    (h : stepSend answer s = some s') : Move s (.send answer) s' := by
  unfold stepSend at h
  split at h
  case h_1 remaining hpc =>
    obtain rfl := Option.some.inj h
    exact .retried rfl
  case h_2 remaining hpc =>
    obtain rfl := Option.some.inj h
    exact .sendFailed hpc rfl
  case h_3 remaining n hpc =>
    split_ifs at h with hle hzero
    · obtain rfl := Option.some.inj h
      subst hzero
      exact .sendFailed hpc rfl
    · obtain rfl := Option.some.inj h
      rcases Nat.lt_or_eq_of_le hle with hlt | rfl
      · simpa [sendAll, hlt] using Move.taken hpc (Nat.pos_of_ne_zero hzero) hlt
      · simpa [sendAll] using Move.finished hpc (by simpa using hzero)
  case h_4 => cases h

theorem stepRecv_cases {answer : KernelAnswer} {s s' : State rng}
    (h : stepRecv answer s = some s') : Move s (.recv answer) s' := by
  unfold stepRecv at h
  split at h
  case h_1 hpc =>
    obtain rfl := Option.some.inj h
    exact .retried rfl
  case h_2 hpc =>
    obtain rfl := Option.some.inj h
    exact .recvFailed hpc
  case h_3 n hpc =>
    split_ifs at h with hzero hclosed hle
    · obtain rfl := Option.some.inj h
      subst hzero
      exact .closed hpc hclosed.1 hclosed.2
    · obtain rfl := Option.some.inj h
      exact .received hpc (Nat.pos_of_ne_zero hzero) hle.2
  case h_4 => cases h

theorem step_cases {s s' : State rng} {a : Action} (h : step s a = some s') : Move s a s' := by
  cases a with
  | next => exact stepNext_cases h
  | send answer => exact stepSend_cases h
  | recv answer => exact stepRecv_cases h

end TcpFeed

end Mdfh
