import Mdfh.PipelineProof

/-!
# Analytics receives every accepted tick

The queue of ticks is lossy only at its entrance: a tick whose push succeeds stays in the
queue until analytics pops it. Analytics leaves its loop only after it has seen the flag of
the book thread, which pushes nothing after setting it, and then an empty queue.

## Main definitions

* `TickEvent`, `tickEvents` — the pushes and pops of ticks that succeed along a run.
* `TickInv` — the invariant of the queue of ticks.

## Main results

* `TickInv.step` — every step of every thread keeps the invariant.
* `finished_ticks` — what analytics has seen in every finished run.
-/

namespace Mdfh

open Library

namespace Pipeline

variable {fcap tcap : Nat}

/-! ## What happens to ticks -/

inductive TickEvent where
  /-- A `try_push` of `emit_tick` succeeded. -/
  | accepted (t : Tick)
  /-- A `try_pop` of analytics succeeded. -/
  | received (t : Tick)
  deriving DecidableEq

/-- The event of a step, if it is the last of a call that succeeds. -/
def tickEvents (s : State fcap tcap) : Action → List TickEvent
  | .ingest => []
  | .book _ _ =>
    match s.book with
    | .emit _ _ (some pc) => if (pc.step s.ticks).2 = .inr true then [.accepted pc.item] else []
    | _ => []
  | .analytics _ =>
    match s.analytics with
    | .pop pc =>
      match (pc.step s.ticks).2 with
      | .inr (some t) => [.received t]
      | _ => []
    | _ => []

/-- The accepted ticks, in the order of their pushes. -/
def acceptedIn (log : List TickEvent) : List Tick :=
  log.filterMap fun e => match e with
    | .accepted t => some t
    | .received _ => none

/-- The received ticks, in the order of their pops. -/
def receivedIn (log : List TickEvent) : List Tick :=
  log.filterMap fun e => match e with
    | .accepted _ => none
    | .received t => some t

section
variable (log : List TickEvent) (t : Tick)

@[simp] theorem acceptedIn_accepted : acceptedIn (log ++ [.accepted t]) = acceptedIn log ++ [t] := by
  simp [acceptedIn]

@[simp] theorem acceptedIn_received : acceptedIn (log ++ [.received t]) = acceptedIn log := by
  simp [acceptedIn]

@[simp] theorem receivedIn_accepted : receivedIn (log ++ [.accepted t]) = receivedIn log := by
  simp [receivedIn]

@[simp] theorem receivedIn_received : receivedIn (log ++ [.received t]) = receivedIn log ++ [t] := by
  simp [receivedIn]

end

/-! ## The invariant -/

def BookPc.TickOk (q : SPSCQueue Tick tcap) (accepted received : List Tick) :
    BookPc fcap tcap → Prop
  | .emit _ _ (some pc) => pc.Ok q accepted received
  | _ => True

def AnalyticsPc.TickOk (q : SPSCQueue Tick tcap) (bookDone : Bool) (accepted received : List Tick) :
    AnalyticsPc tcap → Prop
  | .pop pc => pc.Ok q accepted received
  | .loadDone | .yield => True
  | .testEmpty pc => bookDone = true ∧ pc.Current q
  | .exited => bookDone = true ∧ received = accepted

structure TickInv (s : State fcap tcap) (log : List TickEvent) : Prop where
  holds : Holds s.ticks (acceptedIn log) (receivedIn log)
  book : s.book.TickOk s.ticks (acceptedIn log) (receivedIn log)
  analytics : s.analytics.TickOk s.ticks s.bookDone (acceptedIn log) (receivedIn log)
  done : s.bookDone = true ↔ s.book = .exited
  events : s.analyticsEvents = UInt64.ofNat (receivedIn log).length
  last : s.lastTick = (receivedIn log).getLast?.getD {}

variable {messages : List UInt8} {cfg : Config} {s s' : State fcap tcap} {log : List TickEvent}
  {k : Nat}

/-- As long as the book thread runs, analytics is in front of its exit and does not see what
is pushed. -/
theorem TickInv.analytics_frame (h : TickInv s log) (hrunning : s.book ≠ .exited)
    {ticks : SPSCQueue Tick tcap} (htail : ticks.tail = s.ticks.tail) (more : List Tick)
    (bookDone : Bool) :
    s.analytics.TickOk ticks bookDone (acceptedIn log ++ more) (receivedIn log) := by
  have hok := h.analytics
  have hnot : s.bookDone ≠ true := mt h.done.mp hrunning
  revert hok
  cases s.analytics with
  | pop pc => exact fun hok => hok.frame htail
  | loadDone => exact id
  | yield => exact id
  | testEmpty pc => exact fun hok => absurd hok.1 hnot
  | exited => exact fun hok => absurd hok.1 hnot

/-- A step of the book thread that leaves the ticks alone. -/
theorem TickInv.quiet (h : TickInv s log) (hrunning : s.book ≠ .exited) (hticks : s'.ticks = s.ticks)
    (hanalytics : s'.analytics = s.analytics) (hevents : s'.analyticsEvents = s.analyticsEvents)
    (hlast : s'.lastTick = s.lastTick)
    (hbook : s'.book.TickOk s.ticks (acceptedIn log) (receivedIn log))
    (hdone : s'.bookDone = true ↔ s'.book = .exited) : TickInv s' log where
  holds := hticks ▸ h.holds
  book := hticks ▸ hbook
  analytics := by
    have hframe := h.analytics_frame hrunning (show s.ticks.tail = s.ticks.tail from rfl) [] s'.bookDone
    rw [List.append_nil] at hframe
    rw [hticks, hanalytics]
    exact hframe
  done := hdone
  events := hevents.trans h.events
  last := hlast.trans h.last

theorem TickInv.stepIngest (h : TickInv s log) (hstep : stepIngest messages s = some s') :
    TickInv s' log := by
  cases stepIngest_cases hstep
  all_goals exact ⟨h.holds, h.book, h.analytics, h.done, h.events, h.last⟩

theorem TickInv.stepBook (hcap : tcap = 2 ^ k) {order : List Tick} {headFirst : Bool}
    (h : TickInv s log) (hstep : stepBook cfg order headFirst s = some s') :
    TickInv s' (log ++ tickEvents s (.book order headFirst)) := by
  have hrunning : s.book ≠ .exited := by
    intro hexited
    rw [Pipeline.stepBook, hexited] at hstep
    exact nomatch hstep
  have hnot : ¬s.bookDone = true := mt h.done.mp hrunning
  have hbook := h.book
  cases stepBook_cases hstep with
  | popping hpc | popped hpc | missed hpc | emitStart hpc | emitNext hpc | testing hpc
  | drained hpc | refilled hpc | yield hpc | finish hpc =>
    simp only [tickEvents, hpc, List.append_nil]
    exact h.quiet hrunning rfl rfl rfl rfl trivial (iff_of_false hnot nofun)
  | consume hpc | loadDone hpc =>
    simp only [tickEvents, hpc, List.append_nil]
    refine h.quiet hrunning rfl rfl rfl rfl ?_ (iff_of_false hnot ?_)
    · simp only
      split <;> trivial
    · simp only
      split <;> nofun
  | @emitEnd last hpc =>
    simp only [tickEvents, hpc, List.append_nil]
    cases last
    all_goals exact h.quiet hrunning rfl rfl rfl rfl trivial (iff_of_false hnot nofun)
  | @pushing last todo pc pc' ticks hpc hq =>
    rw [hpc] at hbook
    have hok : pc.Ok s.ticks (acceptedIn log) (receivedIn log) := hbook
    obtain ⟨hholds, hok', -, htail⟩ := PushPc.step_continue hcap h.holds hok hq
    have hframe := h.analytics_frame hrunning htail [] s.bookDone
    simp only [tickEvents, hpc, hq, reduceCtorEq, if_false, List.append_nil] at hframe ⊢
    exact ⟨hholds, hok', hframe, iff_of_false hnot nofun, h.events, h.last⟩
  | @pushed last todo pc ticks ok hpc hq =>
    rw [hpc] at hbook
    have hok : pc.Ok s.ticks (acceptedIn log) (receivedIn log) := hbook
    cases ok with
    | true =>
      obtain ⟨hholds, htail⟩ := PushPc.step_pushed hcap h.holds hok hq
      have hframe := h.analytics_frame hrunning htail [pc.item] s.bookDone
      simp only [tickEvents, hpc, hq, if_true]
      refine ⟨?_, trivial, ?_, iff_of_false hnot nofun, ?_, ?_⟩
      · simpa using hholds
      · simpa using hframe
      · simpa using h.events
      · simpa using h.last
    | false =>
      obtain ⟨rfl, -⟩ := PushPc.step_full hcap h.holds hok hq
      simp only [tickEvents, hpc, hq, Sum.inr.injEq, Bool.false_eq_true, if_false, List.append_nil]
      exact h.quiet hrunning rfl rfl rfl rfl trivial (iff_of_false hnot nofun)
  | storeDone hpc =>
    simp only [tickEvents, hpc, List.append_nil]
    exact h.quiet hrunning rfl rfl rfl rfl trivial (iff_of_true rfl rfl)

/-- A call of the producer in progress survives a pop. -/
theorem BookPc.TickOk.frame {q q' : SPSCQueue Tick tcap} {accepted received : List Tick}
    {pc : BookPc fcap tcap} (h : pc.TickOk q accepted received) (hhead : q'.head = q.head)
    (hbuffer : q'.buffer = q.buffer) (more : List Tick) :
    pc.TickOk q' accepted (received ++ more) := by
  cases pc with
  | emit last todo pc =>
    cases pc with
    | none => trivial
    | some pc => exact PushPc.Ok.frame h hhead hbuffer
  | _ => trivial

theorem TickInv.stepAnalytics (hcap : tcap = 2 ^ k) {headFirst : Bool} (h : TickInv s log)
    (hstep : stepAnalytics headFirst s = some s') :
    TickInv s' (log ++ tickEvents s (.analytics headFirst)) := by
  have hanalytics := h.analytics
  cases stepAnalytics_cases hstep with
  | @popping pc pc' ticks hpc hq =>
    rw [hpc] at hanalytics
    have hok : pc.Ok s.ticks (acceptedIn log) (receivedIn log) := hanalytics
    obtain ⟨rfl, hok'⟩ := PopPc.step_continue h.holds hok hq
    simp only [tickEvents, hpc, hq, List.append_nil]
    exact ⟨h.holds, h.book, hok', h.done, h.events, h.last⟩
  | @popped pc ticks t hpc hq =>
    rw [hpc] at hanalytics
    have hok : pc.Ok s.ticks (acceptedIn log) (receivedIn log) := hanalytics
    obtain ⟨hholds, hhead, hbuffer⟩ := PopPc.step_popped hcap h.holds hok hq
    have hbook := h.book.frame hhead hbuffer [t]
    simp only [tickEvents, hpc, hq]
    refine ⟨?_, ?_, trivial, h.done, ?_, ?_⟩
    · simpa using hholds
    · simpa using hbook
    · simp [h.events, UInt64.ofNat_add]
    · simp
  | @missed pc ticks hpc hq =>
    rw [hpc] at hanalytics
    have hok : pc.Ok s.ticks (acceptedIn log) (receivedIn log) := hanalytics
    obtain ⟨rfl, -⟩ := PopPc.step_empty h.holds hok hq
    simp only [tickEvents, hpc, hq, List.append_nil]
    exact ⟨h.holds, h.book, trivial, h.done, h.events, h.last⟩
  | loadDone hpc =>
    simp only [tickEvents, hpc, List.append_nil]
    refine ⟨h.holds, h.book, ?_, h.done, h.events, h.last⟩
    cases hdone : s.bookDone with
    | true => exact ⟨rfl, trivial⟩
    | false => trivial
  | testing hpc hq =>
    rw [hpc] at hanalytics
    simp only [tickEvents, hpc, List.append_nil]
    exact ⟨h.holds, h.book, ⟨hanalytics.1, EmptyPc.Current.step hq⟩, h.done, h.events, h.last⟩
  | drained hpc hq =>
    rw [hpc] at hanalytics
    obtain ⟨hdone, hcurrent⟩ := hanalytics
    simp only [tickEvents, hpc, List.append_nil]
    -- The flag is set and the queue is empty, so all that was accepted has been received.
    have hlen := h.holds.empty_iff.mp (EmptyPc.Current.of_true hcurrent hq)
    have hall : receivedIn log = acceptedIn log := by
      rw [h.holds.isPrefix, hlen, List.take_length]
    exact ⟨h.holds, h.book, ⟨hdone, hall⟩, h.done, h.events, h.last⟩
  | refilled hpc | yield hpc =>
    simp only [tickEvents, hpc, List.append_nil]
    exact ⟨h.holds, h.book, trivial, h.done, h.events, h.last⟩

theorem TickInv.step (hcap : tcap = 2 ^ k) (h : TickInv s log) (a : Action)
    (hstep : step messages cfg s a = some s') : TickInv s' (log ++ tickEvents s a) := by
  cases a with
  | ingest =>
    rw [tickEvents, List.append_nil]
    exact h.stepIngest hstep
  | book order headFirst => exact h.stepBook hcap hstep
  | analytics headFirst => exact h.stepAnalytics hcap hstep

theorem tickInv_start {hframes : 0 < fcap} {hticks : 0 < tcap} :
    TickInv (system messages cfg hframes hticks).start [] :=
  ⟨holds_new hticks, trivial, trivial, iff_of_false nofun nofun, rfl, rfl⟩

/-- The ticks that `emit_tick` and analytics have passed on along a run. -/
def tickLog (messages : List UInt8) (cfg : Config) (hframes : 0 < fcap) (hticks : 0 < tcap)
    (actions : List Action) : List TickEvent :=
  (system messages cfg hframes hticks).trace tickEvents (system messages cfg hframes hticks).start
    actions

theorem tickInv_of_run {hframes : 0 < fcap} {hticks : 0 < tcap} (hcap : tcap = 2 ^ k)
    {actions : List Action} (hrun : (system messages cfg hframes hticks).run
      (system messages cfg hframes hticks).start actions = some s) :
    TickInv s (tickLog messages cfg hframes hticks actions) :=
  System.trace_invariant (fun _ _ a _ h hstep => h.step hcap a hstep) actions tickInv_start hrun

/-- Whatever the schedule, once the three threads have exited analytics has received the
accepted ticks, all of them and in the order of their pushes; it has counted them, and it
remembers the last. -/
theorem finished_ticks {fp tp : UInt64} (hframes : RoundsTo cfg.frameQueueCapacity fp)
    (hticks : RoundsTo cfg.tickQueueCapacity tp) {s : State fp.toNat tp.toNat}
    {actions : List Action} (hrun : (system messages cfg hframes.pos hticks.pos).run
      (system messages cfg hframes.pos hticks.pos).start actions = some s)
    (hfinished : Finished s) :
    let log := tickLog messages cfg hframes.pos hticks.pos actions
    receivedIn log = acceptedIn log ∧
      s.analyticsEvents = UInt64.ofNat (acceptedIn log).length ∧
      s.lastTick = (acceptedIn log).getLast?.getD {} := by
  intro log
  obtain ⟨⟨k, hcap⟩, -, -⟩ := hticks.pow
  have h := tickInv_of_run hcap hrun
  have hanalytics := h.analytics
  rw [hfinished.2.2] at hanalytics
  have hall : receivedIn log = acceptedIn log := hanalytics.2
  exact ⟨hall, hall ▸ h.events, hall ▸ h.last⟩

/-- One tick is accepted, the last one is dropped. -/
theorem finished_ticks_small :
    ∃ s, smallSystem.run smallSystem.start finishingRun = some s ∧ Finished s ∧
      s.analyticsEvents = 1 ∧ s.lastTick = { sym := 7, bid := 100 } := by
  have hrun : (smallSystem.run smallSystem.start finishingRun).any
      (fun s => decide (Finished s)) = true := by decide +kernel
  have hlog : acceptedIn (tickLog truncatedBuffer smallConfig smallConfig_roundsTo.pos
      smallConfig_roundsTo.pos finishingRun) = [{ sym := 7, bid := 100 }] := by decide +kernel
  obtain ⟨s, hs, hfin⟩ := (Option.any_eq_true _ _).mp hrun
  have hfinished := of_decide_eq_true hfin
  obtain ⟨-, hevents, hlast⟩ :=
    finished_ticks smallConfig_roundsTo smallConfig_roundsTo hs hfinished
  rw [hlog] at hevents hlast
  exact ⟨s, hs, hfinished, hevents, hlast⟩

end Pipeline

end Mdfh
