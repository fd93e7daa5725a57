import Mdfh.FrameWalk
import Mdfh.SpscFifo

/-!
# The concurrent pipeline

Three threads connected by two queues: ingestion cuts the buffer into frames, the book
thread applies them and now and then emits ticks, analytics drains the ticks. Each atomic
load or store, each slot copy and each computation on unshared data is one step, and any
thread may take the next step.

## Main definitions

* `Pipeline.State` — the shared memory, the three program counters and the locals.
* `Pipeline.system` — the threads as a transition system.
* `Pipeline.IngestStep`, `BookStep`, `AnalyticsStep` — what a step of each thread can do.

## Main results

* `Pipeline.stepBook_cases` and its siblings — every step is one of these.
-/

namespace Mdfh

open Library

/-- A framed message in a fixed-size array. -/
structure Frame where
  len : UInt16 := 0
  data : { d : List UInt8 // d.length = kMaxMessageSize } :=
    ⟨List.replicate kMaxMessageSize 0, List.length_replicate⟩
  deriving DecidableEq

instance : Inhabited Frame := ⟨{}⟩

namespace Frame

/-- Copy the bytes of a frame to the front of a zeroed array. -/
def ofBytes (bytes : List UInt8) (h : bytes.length ≤ kMaxMessageSize) : Frame where
  len := UInt16.ofNat bytes.length
  data := ⟨bytes ++ List.replicate (kMaxMessageSize - bytes.length) 0, by
    rw [List.length_append, List.length_replicate]
    omega⟩

def bytes (f : Frame) : List UInt8 := f.data.val.take f.len.toNat

end Frame

structure Tick where
  sym : SymbolId := 0
  bid : Price := 0
  ask : Price := 0
  deriving DecidableEq, Inhabited

namespace Pipeline

/-- `analytics_every` divides a counter, so zero is excluded. -/
structure Config where
  frameQueueCapacity : UInt64 := 65536
  tickQueueCapacity : UInt64 := 65536
  analyticsEvery : UInt64 := 512
  every_pos : analyticsEvery ≠ 0 := by decide

variable {fcap tcap : Nat}

inductive IngestPc (fcap : Nat) where
  /-- At the head of the loop, with the rest of the buffer from `off` to go. -/
  | scan (off : Nat)
  /-- Inside `try_push(f)`; `next` is the offset behind the frame. -/
  | push (next : Nat) (f : Frame) (pc : PushPc Frame fcap)
  | yield (next : Nat) (f : Frame)
  | storeDone
  | exited
  deriving DecidableEq

inductive BookPc (fcap tcap : Nat) where
  | pop (pc : PopPc Frame fcap)
  | consume (f : Frame)
  /-- Entering `emit_tick`, the last time when `last` is set. -/
  | emitStart (last : Bool)
  /-- Inside `emit_tick`: the ticks left, and the `try_push` in progress. -/
  | emit (last : Bool) (todo : List Tick) (pc : Option (PushPc Tick tcap))
  | loadDone
  | testEmpty (pc : EmptyPc fcap)
  | yield
  | finish
  | storeDone
  | exited
  deriving DecidableEq

inductive AnalyticsPc (tcap : Nat) where
  | pop (pc : PopPc Tick tcap)
  | loadDone
  | testEmpty (pc : EmptyPc tcap)
  | yield
  | exited
  deriving DecidableEq

structure State (fcap tcap : Nat) where
  frames : SPSCQueue Frame fcap
  ticks : SPSCQueue Tick tcap
  ingestDone : Bool := false
  bookDone : Bool := false
  ingest : IngestPc fcap := .scan 0
  book : BookPc fcap tcap := .pop .loadTail
  analytics : AnalyticsPc tcap := .pop .loadTail
  feed : FeedHandler BookBuilder := { down := {} }
  processed : UInt64 := 0
  messagesParsed : UInt64 := 0
  malformed : UInt64 := 0
  analyticsEvents : UInt64 := 0
  lastTick : Tick := {}
  fingerprint : UInt64 := 0
  finalSymbolCount : Nat := 0
  bookStats : BookStats := {}
  /-- Ghost history: the frames whose push has been published. -/
  published : List Frame := []
  /-- Ghost history: the frames popped. -/
  popped : List Frame := []

/-- The computation at the head of the ingestion loop. -/
def scanStep (messages : List UInt8) (off : Nat) : IngestPc fcap :=
  if hoff : off + kHeaderWireSize ≤ messages.length then
    match decodeHeader (subspan messages off kHeaderWireSize hoff) with
    | none => .storeDone
    | some hdr =>
      let frameLen := kHeaderWireSize + hdr.bodySize.toNat
      if hframe : off + frameLen > messages.length then .storeDone
      else if hmax : frameLen > kMaxMessageSize then .scan (off + frameLen)
      else
        let f := Frame.ofBytes (subspan messages off frameLen (subspan_fits hframe))
          (length_subspan_le hframe hmax)
        .push (off + frameLen) f (.loadHead f)
  else .storeDone

def stepIngest (messages : List UInt8) (s : State fcap tcap) : Option (State fcap tcap) :=
  match s.ingest with
  | .scan off => some { s with ingest := scanStep messages off }
  | .push next f pc =>
    match pc.step s.frames with
    | (frames, .inl pc) => some { s with frames, ingest := .push next f pc }
    | (frames, .inr true) =>
      some { s with frames, ingest := .scan next, published := s.published ++ [pc.item] }
    | (frames, .inr false) => some { s with frames, ingest := .yield next f }
  | .yield next f => some { s with ingest := .push next f (.loadHead f) }
  | .storeDone => some { s with ingestDone := true, ingest := .exited }
  | .exited => none

/-- The ticks `emit_tick` pushes; the source visits the books in an unspecified order. -/
def ticksOf (b : BookBuilder) : List Tick :=
  b.manager.books.toList.map fun e =>
    { sym := e.1
      bid := (e.2.val.bestBid.map (·.price)).getD 0
      ask := (e.2.val.bestAsk.map (·.price)).getD 0 }

/-- One step of the book thread. `order` is the order in which `emit_tick` visits the
books, `headFirst` the order of the loads in `empty`; other steps ignore them. -/
def stepBook (cfg : Config) (order : List Tick) (headFirst : Bool) (s : State fcap tcap) :
    Option (State fcap tcap) :=
  match s.book with
  | .pop pc =>
    match pc.step s.frames with
    | (frames, .inl pc) => some { s with frames, book := .pop pc }
    | (frames, .inr (some f)) =>
      some { s with frames, book := .consume f, popped := s.popped ++ [f] }
    | (frames, .inr none) => some { s with frames, book := .loadDone }
  | .consume f =>
    let (feed, r) := s.feed.consumeDatagram builderHandler f.bytes
    let processed := s.processed + 1
    some { s with
      feed
      processed
      messagesParsed := s.messagesParsed + UInt64.ofNat r.messages
      malformed := s.malformed + UInt64.ofNat r.malformed
      book := if processed % cfg.analyticsEvery = 0 then .emitStart false else .pop .loadTail }
  | .emitStart last =>
    if order.isPerm (ticksOf s.feed.down) then some { s with book := .emit last order none }
    else none
  | .emit last [] none => some { s with book := if last then .finish else .pop .loadTail }
  | .emit last (t :: ts) none => some { s with book := .emit last ts (some (.loadHead t)) }
  | .emit last todo (some pc) =>
    match pc.step s.ticks with
    | (ticks, .inl pc) => some { s with ticks, book := .emit last todo (some pc) }
    -- A tick that does not fit is dropped.
    | (ticks, .inr _) => some { s with ticks, book := .emit last todo none }
  | .loadDone =>
    some { s with book := if s.ingestDone then .testEmpty (.first headFirst) else .yield }
  | .testEmpty pc =>
    match pc.step s.frames with
    | .inl pc => some { s with book := .testEmpty pc }
    | .inr true => some { s with book := .emitStart true }
    | .inr false => some { s with book := .yield }
  | .yield => some { s with book := .pop .loadTail }
  | .finish =>
    some { s with
      fingerprint := bookFingerprint s.feed.down.manager
      finalSymbolCount := s.feed.down.manager.symbolCount
      bookStats := s.feed.down.stats
      book := .storeDone }
  | .storeDone => some { s with bookDone := true, book := .exited }
  | .exited => none

def stepAnalytics (headFirst : Bool) (s : State fcap tcap) : Option (State fcap tcap) :=
  match s.analytics with
  | .pop pc =>
    match pc.step s.ticks with
    | (ticks, .inl pc) => some { s with ticks, analytics := .pop pc }
    | (ticks, .inr (some t)) =>
      some { s with
        ticks
        analytics := .pop .loadTail
        analyticsEvents := s.analyticsEvents + 1
        lastTick := t }
    | (ticks, .inr none) => some { s with ticks, analytics := .loadDone }
  | .loadDone =>
    some { s with analytics := if s.bookDone then .testEmpty (.first headFirst) else .yield }
  | .testEmpty pc =>
    match pc.step s.ticks with
    | .inl pc => some { s with analytics := .testEmpty pc }
    | .inr true => some { s with analytics := .exited }
    | .inr false => some { s with analytics := .yield }
  | .yield => some { s with analytics := .pop .loadTail }
  | .exited => none

/-- The thread that takes the next step. -/
inductive Action where
  | ingest
  | book (order : List Tick) (headFirst : Bool)
  | analytics (headFirst : Bool)

def step (messages : List UInt8) (cfg : Config) (s : State fcap tcap) :
    Action → Option (State fcap tcap)
  | .ingest => stepIngest messages s
  | .book order headFirst => stepBook cfg order headFirst s
  | .analytics headFirst => stepAnalytics headFirst s

def system (messages : List UInt8) (cfg : Config) (hframes : 0 < fcap) (hticks : 0 < tcap) :
    System (State fcap tcap) Action where
  start := { frames := .new hframes, ticks := .new hticks }
  step := step messages cfg

/-- All three threads have exited. -/
def Finished (s : State fcap tcap) : Prop :=
  s.ingest = .exited ∧ s.book = .exited ∧ s.analytics = .exited

/-! ## What a step does

One constructor for each way a step of a thread can go. -/

inductive IngestStep (messages : List UInt8) (s : State fcap tcap) : State fcap tcap → Prop
  | scan {off : Nat} (hpc : s.ingest = .scan off) :
      IngestStep messages s { s with ingest := scanStep messages off }
  | pushing {next : Nat} {f : Frame} {pc pc' : PushPc Frame fcap} {frames : SPSCQueue Frame fcap}
      (hpc : s.ingest = .push next f pc) (hq : pc.step s.frames = (frames, .inl pc')) :
      IngestStep messages s { s with frames, ingest := .push next f pc' }
  | pushed {next : Nat} {f : Frame} {pc : PushPc Frame fcap} {frames : SPSCQueue Frame fcap}
      (hpc : s.ingest = .push next f pc) (hq : pc.step s.frames = (frames, .inr true)) :
      IngestStep messages s
        { s with frames, ingest := .scan next, published := s.published ++ [pc.item] }
  | full {next : Nat} {f : Frame} {pc : PushPc Frame fcap} {frames : SPSCQueue Frame fcap}
      (hpc : s.ingest = .push next f pc) (hq : pc.step s.frames = (frames, .inr false)) :
      IngestStep messages s { s with frames, ingest := .yield next f }
  | yield {next : Nat} {f : Frame} (hpc : s.ingest = .yield next f) :
      IngestStep messages s { s with ingest := .push next f (.loadHead f) }
  | storeDone (hpc : s.ingest = .storeDone) :
      IngestStep messages s { s with ingestDone := true, ingest := .exited }

inductive BookStep (cfg : Config) (order : List Tick) (headFirst : Bool) (s : State fcap tcap) :
    State fcap tcap → Prop
  | popping {pc pc' : PopPc Frame fcap} {frames : SPSCQueue Frame fcap} (hpc : s.book = .pop pc)
      (hq : pc.step s.frames = (frames, .inl pc')) :
      BookStep cfg order headFirst s { s with frames, book := .pop pc' }
  | popped {pc : PopPc Frame fcap} {frames : SPSCQueue Frame fcap} {f : Frame}
      (hpc : s.book = .pop pc) (hq : pc.step s.frames = (frames, .inr (some f))) :
      BookStep cfg order headFirst s
        { s with frames, book := .consume f, popped := s.popped ++ [f] }
  | missed {pc : PopPc Frame fcap} {frames : SPSCQueue Frame fcap} (hpc : s.book = .pop pc)
      (hq : pc.step s.frames = (frames, .inr none)) :
      BookStep cfg order headFirst s { s with frames, book := .loadDone }
  | consume {f : Frame} (hpc : s.book = .consume f) :
      BookStep cfg order headFirst s { s with
        feed := (s.feed.consumeDatagram builderHandler f.bytes).1
        processed := s.processed + 1
        messagesParsed := s.messagesParsed +
          UInt64.ofNat (s.feed.consumeDatagram builderHandler f.bytes).2.messages
        malformed := s.malformed +
          UInt64.ofNat (s.feed.consumeDatagram builderHandler f.bytes).2.malformed
        book := if (s.processed + 1) % cfg.analyticsEvery = 0 then .emitStart false
          else .pop .loadTail }
  | emitStart {last : Bool} (hpc : s.book = .emitStart last)
      (hperm : order.Perm (ticksOf s.feed.down)) :
      BookStep cfg order headFirst s { s with book := .emit last order none }
  | emitEnd {last : Bool} (hpc : s.book = .emit last [] none) :
      BookStep cfg order headFirst s { s with book := if last then .finish else .pop .loadTail }
  | emitNext {last : Bool} {t : Tick} {ts : List Tick} (hpc : s.book = .emit last (t :: ts) none) :
      BookStep cfg order headFirst s { s with book := .emit last ts (some (.loadHead t)) }
  | pushing {last : Bool} {todo : List Tick} {pc pc' : PushPc Tick tcap}
      {ticks : SPSCQueue Tick tcap} (hpc : s.book = .emit last todo (some pc))
      (hq : pc.step s.ticks = (ticks, .inl pc')) :
      BookStep cfg order headFirst s { s with ticks, book := .emit last todo (some pc') }
  | pushed {last : Bool} {todo : List Tick} {pc : PushPc Tick tcap} {ticks : SPSCQueue Tick tcap}
      {ok : Bool} (hpc : s.book = .emit last todo (some pc))
      (hq : pc.step s.ticks = (ticks, .inr ok)) :
      BookStep cfg order headFirst s { s with ticks, book := .emit last todo none }
  | loadDone (hpc : s.book = .loadDone) :
      BookStep cfg order headFirst s
        { s with book := if s.ingestDone then .testEmpty (.first headFirst) else .yield }
  | testing {pc pc' : EmptyPc fcap} (hpc : s.book = .testEmpty pc)
      (hq : pc.step s.frames = .inl pc') :
      BookStep cfg order headFirst s { s with book := .testEmpty pc' }
  | drained {pc : EmptyPc fcap} (hpc : s.book = .testEmpty pc) (hq : pc.step s.frames = .inr true) :
      BookStep cfg order headFirst s { s with book := .emitStart true }
  | refilled {pc : EmptyPc fcap} (hpc : s.book = .testEmpty pc)
      (hq : pc.step s.frames = .inr false) :
      BookStep cfg order headFirst s { s with book := .yield }
  | yield (hpc : s.book = .yield) :
      BookStep cfg order headFirst s { s with book := .pop .loadTail }
  | finish (hpc : s.book = .finish) :
      BookStep cfg order headFirst s { s with
        fingerprint := bookFingerprint s.feed.down.manager
        finalSymbolCount := s.feed.down.manager.symbolCount
        bookStats := s.feed.down.stats
        book := .storeDone }
  | storeDone (hpc : s.book = .storeDone) :
      BookStep cfg order headFirst s { s with bookDone := true, book := .exited }

inductive AnalyticsStep (headFirst : Bool) (s : State fcap tcap) : State fcap tcap → Prop
  | popping {pc pc' : PopPc Tick tcap} {ticks : SPSCQueue Tick tcap} (hpc : s.analytics = .pop pc)
      (hq : pc.step s.ticks = (ticks, .inl pc')) :
      AnalyticsStep headFirst s { s with ticks, analytics := .pop pc' }
  | popped {pc : PopPc Tick tcap} {ticks : SPSCQueue Tick tcap} {t : Tick}
      (hpc : s.analytics = .pop pc) (hq : pc.step s.ticks = (ticks, .inr (some t))) :
      AnalyticsStep headFirst s { s with
        ticks
        analytics := .pop .loadTail
        analyticsEvents := s.analyticsEvents + 1
        lastTick := t }
  | missed {pc : PopPc Tick tcap} {ticks : SPSCQueue Tick tcap} (hpc : s.analytics = .pop pc)
      (hq : pc.step s.ticks = (ticks, .inr none)) :
      AnalyticsStep headFirst s { s with ticks, analytics := .loadDone }
  | loadDone (hpc : s.analytics = .loadDone) :
      AnalyticsStep headFirst s
        { s with analytics := if s.bookDone then .testEmpty (.first headFirst) else .yield }
  | testing {pc pc' : EmptyPc tcap} (hpc : s.analytics = .testEmpty pc)
      (hq : pc.step s.ticks = .inl pc') :
      AnalyticsStep headFirst s { s with analytics := .testEmpty pc' }
  | drained {pc : EmptyPc tcap} (hpc : s.analytics = .testEmpty pc)
      (hq : pc.step s.ticks = .inr true) :
      AnalyticsStep headFirst s { s with analytics := .exited }
  | refilled {pc : EmptyPc tcap} (hpc : s.analytics = .testEmpty pc)
      (hq : pc.step s.ticks = .inr false) :
      AnalyticsStep headFirst s { s with analytics := .yield }
  | yield (hpc : s.analytics = .yield) :
      AnalyticsStep headFirst s { s with analytics := .pop .loadTail }

section
variable {messages : List UInt8} {cfg : Config} {order : List Tick} {headFirst : Bool}
  {s s' : State fcap tcap}

theorem stepIngest_cases (hstep : stepIngest messages s = some s') : IngestStep messages s s' := by
  unfold stepIngest at hstep
  split at hstep
  next hpc => cases hstep; exact .scan hpc
  next hpc =>
    split at hstep
    next hq => cases hstep; exact .pushing hpc hq
    next hq => cases hstep; exact .pushed hpc hq
    next hq => cases hstep; exact .full hpc hq
  next hpc => cases hstep; exact .yield hpc
  next hpc => cases hstep; exact .storeDone hpc
  next => exact nomatch hstep

theorem stepBook_cases (hstep : stepBook cfg order headFirst s = some s') :
    BookStep cfg order headFirst s s' := by
  unfold stepBook at hstep
  split at hstep
  next hpc =>
    split at hstep
    next hq => cases hstep; exact .popping hpc hq
    next hq => cases hstep; exact .popped hpc hq
    next hq => cases hstep; exact .missed hpc hq
  next hpc => cases hstep; exact .consume hpc
  next hpc =>
    split at hstep
    next hperm => cases hstep; exact .emitStart hpc (List.isPerm_iff.mp hperm)
    next => exact nomatch hstep
  next hpc => cases hstep; exact .emitEnd hpc
  next hpc => cases hstep; exact .emitNext hpc
  next hpc =>
    split at hstep
    next hq => cases hstep; exact .pushing hpc hq
    next hq => cases hstep; exact .pushed hpc hq
  next hpc => cases hstep; exact .loadDone hpc
  next hpc =>
    split at hstep
    next hq => cases hstep; exact .testing hpc hq
    next hq => cases hstep; exact .drained hpc hq
    next hq => cases hstep; exact .refilled hpc hq
  next hpc => cases hstep; exact .yield hpc
  next hpc => cases hstep; exact .finish hpc
  next hpc => cases hstep; exact .storeDone hpc
  next => exact nomatch hstep

theorem stepAnalytics_cases (hstep : stepAnalytics headFirst s = some s') :
    AnalyticsStep headFirst s s' := by
  unfold stepAnalytics at hstep
  split at hstep
  next hpc =>
    split at hstep
    next hq => cases hstep; exact .popping hpc hq
    next hq => cases hstep; exact .popped hpc hq
    next hq => cases hstep; exact .missed hpc hq
  next hpc => cases hstep; exact .loadDone hpc
  next hpc =>
    split at hstep
    next hq => cases hstep; exact .testing hpc hq
    next hq => cases hstep; exact .drained hpc hq
    next hq => cases hstep; exact .refilled hpc hq
  next hpc => cases hstep; exact .yield hpc
  next => exact nomatch hstep

end

end Pipeline

end Mdfh
