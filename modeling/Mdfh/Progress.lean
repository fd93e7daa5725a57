import Mdfh.TickDelivery

/-!
# The pipeline never gets stuck

A thread may spin for as long as another one is not scheduled, but in every state before
the end some thread gets on by itself: ingestion when the queue of frames has room, the
book thread when it has a frame to pop or nothing left to wait for, and analytics once the
book thread has exited.

## Main definitions

* `completes`, `looping`, `exited` — the calls and the loops of the three threads.
* `Moves` — a call succeeds, a loop is left, or a thread exits.

## Main results

* `inevitable_ingest`, `inevitable_book`, `inevitable_analytics` — when each thread gets on.
* `progress` — one of them does in every state that is not the last.
-/

namespace Mdfh

open Library

variable {T : Type} {cap : Nat}

/-! ## Steps left in a call -/

def SPSCQueue.occupied (q : SPSCQueue T cap) : Bool := q.tail ≠ q.head

def PushPc.rank : PushPc T cap → Nat
  | loadHead _ => 4
  | loadTail _ _ => 3
  | copy _ _ => 2
  | storeHead _ _ => 1

def PopPc.rank : PopPc T cap → Nat
  | loadTail => 4
  | loadHead _ => 3
  | copy _ => 2
  | storeTail _ _ => 1

def EmptyPc.rank : EmptyPc cap → Nat
  | first _ => 2
  | second _ _ => 1

section
variable {q q' : SPSCQueue T cap}

theorem PushPc.rank_step {pc pc' : PushPc T cap} (h : pc.step q = (q', .inl pc')) :
    pc'.rank < pc.rank := by
  cases pc <;> grind [PushPc.step, PushPc.rank]

theorem PopPc.rank_step {pc pc' : PopPc T cap} (h : pc.step q = (q', .inl pc')) :
    pc'.rank < pc.rank := by
  cases pc <;> grind [PopPc.step, PopPc.rank]

theorem EmptyPc.rank_step {pc pc' : EmptyPc cap} (h : pc.step q = .inl pc') :
    pc'.rank < pc.rank := by
  cases pc with
  | first headFirst => cases headFirst <;> cases h <;> exact Nat.one_lt_two
  | second headFirst seen => cases headFirst <;> cases h

theorem PushPc.rank_pos (pc : PushPc T cap) : 0 < pc.rank := by cases pc <;> simp [rank]

theorem PopPc.rank_pos (pc : PopPc T cap) : 0 < pc.rank := by cases pc <;> simp [rank]

theorem EmptyPc.rank_pos (pc : EmptyPc cap) : 0 < pc.rank := by cases pc <;> simp [rank]

theorem EmptyPc.Current.of_false {pc : EmptyPc cap} (h : pc.Current q)
    (hstep : pc.step q = .inr false) : q.occupied = true := by
  cases pc with
  | first headFirst => cases headFirst <;> cases hstep
  | second headFirst seen =>
    cases headFirst with
    | true =>
      obtain rfl : seen = q.head := h
      have hne := of_decide_eq_false (Sum.inr.inj hstep)
      exact decide_eq_true (Ne.symm hne)
    | false =>
      obtain rfl : seen = q.tail := h
      have hne := of_decide_eq_false (Sum.inr.inj hstep)
      exact decide_eq_true (Ne.symm hne)

theorem Holds.not_occupied {published popped : List T} (h : Holds q published popped)
    (hempty : q.contents = []) : q.occupied = false := by
  have hlen := h.length_contents
  have hle := h.le
  rw [hempty, List.length_nil] at hlen
  have heq := h.empty_iff.mpr (by omega)
  simp [SPSCQueue.occupied, heq]

end

namespace Pipeline

variable {fcap tcap : Nat}

/-! ## What counts as getting on -/

inductive Thread where
  | ingest
  | book
  | analytics
  deriving DecidableEq

def Action.thread : Action → Thread
  | .ingest => .ingest
  | .book _ _ => .book
  | .analytics _ => .analytics

/-- The step is the last of a `try_push` or `try_pop` that succeeds. -/
def completes (s : State fcap tcap) : Action → Bool
  | .ingest =>
    match s.ingest with
    | .push _ _ pc => ((pc.step s.frames).2 matches .inr true)
    | _ => false
  | .book _ _ =>
    match s.book with
    | .pop pc => ((pc.step s.frames).2 matches .inr (some _))
    | .emit _ _ (some pc) => ((pc.step s.ticks).2 matches .inr true)
    | _ => false
  | .analytics _ =>
    match s.analytics with
    | .pop pc => ((pc.step s.ticks).2 matches .inr (some _))
    | _ => false

def IngestPc.looping : IngestPc fcap → Bool
  | .scan _ | .push _ _ _ | .yield _ _ => true
  | .storeDone | .exited => false

/-- The last `emit_tick` stands behind the loop. -/
def BookPc.looping : BookPc fcap tcap → Bool
  | .pop _ | .consume _ | .loadDone | .testEmpty _ | .yield => true
  | .emitStart last | .emit last _ _ => !last
  | .finish | .storeDone | .exited => false

def AnalyticsPc.looping : AnalyticsPc tcap → Bool
  | .exited => false
  | _ => true

def looping (s : State fcap tcap) : Thread → Bool
  | .ingest => s.ingest.looping
  | .book => s.book.looping
  | .analytics => s.analytics.looping

def exited (s : State fcap tcap) : Thread → Bool
  | .ingest => s.ingest = .exited
  | .book => s.book = .exited
  | .analytics => s.analytics = .exited

/-- A call succeeds or a loop is left. -/
def Advances (s : State fcap tcap) (a : Action) (s' : State fcap tcap) : Prop :=
  completes s a = true ∨ (looping s a.thread = true ∧ looping s' a.thread = false)

/-- A thread behind its loop gets on as well: it exits. -/
def Moves (s : State fcap tcap) (a : Action) (s' : State fcap tcap) : Prop :=
  Advances s a s' ∨ exited s' a.thread = true

variable {messages : List UInt8} {cfg : Config} {s s' : State fcap tcap} {k : Nat}
  {hframes : 0 < fcap} {hticks : 0 < tcap}

/-! ## Ingestion -/

def IngestPc.rank (messages : List UInt8) : IngestPc fcap → Nat
  | .scan off => messages.length - off + 6
  | .push _ _ pc => pc.rank
  | .yield _ _ => 5
  | .storeDone | .exited => 0

theorem scanStep_rank (messages : List UInt8) (off : Nat) :
    (scanStep messages off : IngestPc fcap).rank messages < messages.length - off + 6 := by
  fun_cases scanStep messages off with
  | case1 => exact Nat.succ_pos _
  | case2 => exact Nat.succ_pos _
  | case3 hin hdr hdec frameLen hframe hmax =>
    simp only [IngestPc.rank, frameLen, kHeaderWireSize] at *
    omega
  | case4 hin hdr hdec frameLen hframe hmax f =>
    simp only [IngestPc.rank, PushPc.rank]
    omega
  | case5 => exact Nat.succ_pos _

theorem exists_stepIngest (messages : List UInt8) (hrunning : s.ingest ≠ .exited) :
    ∃ s', stepIngest messages s = some s' := by
  unfold Pipeline.stepIngest
  split
  next => exact ⟨_, rfl⟩
  next => split <;> exact ⟨_, rfl⟩
  next => exact ⟨_, rfl⟩
  next => exact ⟨_, rfl⟩
  next hpc => exact absurd hpc hrunning

/-- With room in the queue, a step that does not get the thread on brings it nearer. -/
theorem stepIngest_rank (hcap : fcap = 2 ^ k) (h : Inv messages s)
    (hroom : s.published.length + 1 < s.popped.length + fcap)
    (hstep : stepIngest messages s = some s') (hnot : ¬Moves s .ingest s') :
    s'.ingest ≠ .exited ∧ s'.published = s.published ∧ s'.popped = s.popped ∧
      s'.ingest.rank messages < s.ingest.rank messages := by
  obtain ⟨hadvances, hexited⟩ := not_or.mp hnot
  obtain ⟨hcompletes, hleaves⟩ := not_or.mp hadvances
  have hrunning : s'.ingest ≠ .exited := by simpa [exited, Action.thread] using hexited
  have hok := h.ingest
  cases stepIngest_cases hstep with
  | @scan off hpc =>
    refine ⟨hrunning, rfl, rfl, ?_⟩
    rw [hpc]
    exact scanStep_rank messages off
  | pushing hpc hq =>
    refine ⟨hrunning, rfl, rfl, ?_⟩
    rw [hpc]
    exact PushPc.rank_step hq
  | pushed hpc hq => exact absurd (by simp [completes, hpc, hq]) hcompletes
  | full hpc hq =>
    rw [hpc] at hok
    obtain ⟨-, hfull⟩ := PushPc.step_full hcap h.holds hok.1 hq
    have hle := h.holds.le
    rw [h.holds.length_contents, SPSCQueue.capacity] at hfull
    omega
  | yield hpc =>
    refine ⟨hrunning, rfl, rfl, ?_⟩
    rw [hpc]
    exact Nat.lt_succ_self 4
  | storeDone hpc => exact absurd rfl hrunning

theorem inevitable_ingest (hcap : fcap = 2 ^ k) (h : Inv messages s) (hrunning : s.ingest ≠ .exited)
    (hroom : s.published.length + 1 < s.popped.length + fcap) :
    (system messages cfg hframes hticks).Inevitable (·.thread = .ingest) Moves s := by
  refine System.Inevitable.of_measure (I := fun s => Inv messages s ∧ s.ingest ≠ .exited ∧
      s.published.length + 1 < s.popped.length + fcap) (fun s => s.ingest.rank messages)
    ?_ ?_ ⟨h, hrunning, hroom⟩
  · rintro s ⟨-, hrunning, -⟩
    obtain ⟨s', hs'⟩ := exists_stepIngest messages hrunning
    exact ⟨.ingest, s', rfl, hs'⟩
  · rintro s a s' ⟨hinv, -, hroom⟩ hown hstep hnot
    cases a with
    | ingest =>
      obtain ⟨hrunning', hpublished, hpopped, hrank⟩ := stepIngest_rank hcap hinv hroom hstep hnot
      exact ⟨⟨hinv.stepIngest hcap hstep, hrunning', by rwa [hpublished, hpopped]⟩, hrank⟩
    | book => exact nomatch hown
    | analytics => exact nomatch hown

/-! ## Polling

Both consumers pop, and after a failed pop test a flag and then the queue. Their positions
are ordered by the way to a successful pop when the queue is occupied, and else by the way
to the end of the loop. -/

def popRank (occupied : Bool) (pc : PopPc T cap) : Nat := pc.rank + if occupied then 0 else 4

def testRank (occupied : Bool) (pc : EmptyPc cap) : Nat := pc.rank + if occupied then 5 else 0

def flagRank (occupied : Bool) : Nat := if occupied then 8 else 3

def yieldRank (occupied : Bool) : Nat := if occupied then 5 else 9

section
variable (occupied : Bool)

theorem popRank_step {q q' : SPSCQueue T cap} {pc pc' : PopPc T cap}
    (h : pc.step q = (q', .inl pc')) : popRank occupied pc' < popRank occupied pc :=
  Nat.add_lt_add_right (PopPc.rank_step h) _

theorem testRank_step {q : SPSCQueue T cap} {pc pc' : EmptyPc cap} (h : pc.step q = .inl pc') :
    testRank occupied pc' < testRank occupied pc :=
  Nat.add_lt_add_right (EmptyPc.rank_step h) _

theorem flagRank_lt_popRank (pc : PopPc T cap) : flagRank false < popRank false pc := by
  have hpos := pc.rank_pos
  simp only [flagRank, popRank]
  grind

theorem testRank_lt_flagRank (headFirst : Bool) :
    testRank occupied (.first headFirst : EmptyPc cap) < flagRank occupied := by
  cases occupied <;> simp [testRank, flagRank, EmptyPc.rank]

theorem yieldRank_lt_flagRank : yieldRank true < flagRank true := by decide

theorem yieldRank_lt_testRank (pc : EmptyPc cap) : yieldRank true < testRank true pc := by
  have hpos := pc.rank_pos
  simp only [yieldRank, testRank]
  grind

theorem popRank_lt_yieldRank : popRank occupied (.loadTail : PopPc T cap) < yieldRank occupied := by
  cases occupied <;> simp [popRank, yieldRank, PopPc.rank]

end

/-! ## The book thread -/

/-- The books known now, or once the frame at hand is consumed, bound the ticks to emit. -/
def BookPc.rank (occupied : Bool) (feed : FeedHandler BookBuilder) : BookPc fcap tcap → Nat
  | .pop pc => popRank occupied pc
  | .loadDone => flagRank occupied
  | .testEmpty pc => testRank occupied pc
  | .yield => yieldRank occupied
  | .emit _ todo none => 6 * todo.length + 10
  | .emit _ todo (some pc) => 6 * todo.length + 10 + pc.rank
  | .emitStart _ => 6 * (ticksOf feed.down).length + 11
  | .consume f =>
    6 * (ticksOf (feed.consumeDatagram builderHandler f.bytes).1.down).length + 12
  | .finish => 2
  | .storeDone => 1
  | .exited => 0

/-- In its loop, the thread has a frame to pop or the flag is set. -/
def BookReady (s : State fcap tcap) : Prop :=
  s.book.looping = true → s.frames.occupied = true ∨ s.ingestDone = true

theorem popRank_loadTail_lt (occupied : Bool) (n : Nat) :
    popRank occupied (.loadTail : PopPc T cap) < n + 10 := by
  cases occupied <;> simp [popRank, PopPc.rank]

theorem exists_stepBook (cfg : Config) (hrunning : s.book ≠ .exited) :
    ∃ s', stepBook cfg (ticksOf s.feed.down) true s = some s' := by
  unfold Pipeline.stepBook
  split
  next => split <;> exact ⟨_, rfl⟩
  next => exact ⟨_, rfl⟩
  next => exact ⟨_, if_pos (List.isPerm_iff.mpr (List.Perm.refl _))⟩
  next => exact ⟨_, rfl⟩
  next => exact ⟨_, rfl⟩
  next => split <;> exact ⟨_, rfl⟩
  next => exact ⟨_, rfl⟩
  next => split <;> exact ⟨_, rfl⟩
  next => exact ⟨_, rfl⟩
  next => exact ⟨_, rfl⟩
  next => exact ⟨_, rfl⟩
  next hpc => exact absurd hpc hrunning

theorem stepBook_rank (h : Inv messages s) (hready : BookReady s) {order : List Tick}
    {headFirst : Bool} (hstep : stepBook cfg order headFirst s = some s')
    (hnot : ¬Moves s (.book order headFirst) s') :
    s'.book ≠ .exited ∧ BookReady s' ∧
      s'.book.rank s'.frames.occupied s'.feed < s.book.rank s.frames.occupied s.feed := by
  obtain ⟨hadvances, hexited⟩ := not_or.mp hnot
  obtain ⟨hcompletes, hleaves⟩ := not_or.mp hadvances
  have hrunning : s'.book ≠ .exited := by simpa [exited, Action.thread] using hexited
  have hok := h.book
  refine ⟨hrunning, ?_⟩
  clear hrunning
  cases stepBook_cases hstep with
  | popping hpc hq =>
    rw [hpc] at hok
    obtain ⟨rfl, -⟩ := PopPc.step_continue h.holds hok.1 hq
    refine ⟨fun _ => hready (by rw [hpc]; rfl), ?_⟩
    rw [hpc]
    exact popRank_step _ hq
  | popped hpc hq => exact absurd (by simp [completes, hpc, hq]) hcompletes
  | missed hpc hq =>
    rw [hpc] at hok
    obtain ⟨rfl, hempty⟩ := PopPc.step_empty h.holds hok.1 hq
    have hfalse := h.holds.not_occupied hempty
    refine ⟨fun _ => hready (by rw [hpc]; rfl), ?_⟩
    rw [hpc, hfalse]
    exact flagRank_lt_popRank _
  | consume hpc =>
    refine ⟨fun _ => hready (by rw [hpc]; rfl), ?_⟩
    rw [hpc]
    simp only
    split
    · exact Nat.lt_succ_self _
    · exact popRank_loadTail_lt _ _
  | emitStart hpc hperm =>
    refine ⟨fun hloop => hready (by rw [hpc]; exact hloop), ?_⟩
    rw [hpc]
    simp only [BookPc.rank, hperm.length_eq]
    omega
  | @emitEnd last hpc =>
    cases last with
    | true =>
      refine ⟨nofun, ?_⟩
      rw [hpc]
      simp [BookPc.rank]
    | false =>
      refine ⟨fun _ => hready (by rw [hpc]; rfl), ?_⟩
      rw [hpc]
      exact popRank_loadTail_lt _ _
  | emitNext hpc =>
    refine ⟨fun hloop => hready (by rw [hpc]; exact hloop), ?_⟩
    rw [hpc]
    simp only [BookPc.rank, PushPc.rank, List.length_cons]
    omega
  | pushing hpc hq =>
    refine ⟨fun hloop => hready (by rw [hpc]; exact hloop), ?_⟩
    rw [hpc]
    exact Nat.add_lt_add_left (PushPc.rank_step hq) _
  | @pushed last todo pc ticks ok hpc hq =>
    cases ok with
    | true => exact absurd (by simp [completes, hpc, hq]) hcompletes
    | false =>
      refine ⟨fun hloop => hready (by rw [hpc]; exact hloop), ?_⟩
      rw [hpc]
      exact Nat.lt_add_of_pos_right pc.rank_pos
  | loadDone hpc =>
    have hwait := hready (by rw [hpc]; rfl)
    refine ⟨fun _ => hwait, ?_⟩
    rw [hpc]
    cases hdone : s.ingestDone with
    | true => exact testRank_lt_flagRank _ headFirst
    | false =>
      have hoccupied := hwait.resolve_right (by simp [hdone])
      rw [hoccupied]
      exact yieldRank_lt_flagRank
  | testing hpc hq =>
    refine ⟨fun _ => hready (by rw [hpc]; rfl), ?_⟩
    rw [hpc]
    exact testRank_step _ hq
  | drained hpc hq =>
    exact absurd ⟨by simp [looping, Action.thread, hpc, BookPc.looping], rfl⟩ hleaves
  | refilled hpc hq =>
    rw [hpc] at hok
    have hoccupied := hok.2.2.of_false hq
    refine ⟨fun _ => hready (by rw [hpc]; rfl), ?_⟩
    rw [hpc, hoccupied]
    exact yieldRank_lt_testRank _
  | yield hpc =>
    refine ⟨fun _ => hready (by rw [hpc]; rfl), ?_⟩
    rw [hpc]
    exact popRank_lt_yieldRank _
  | finish hpc =>
    refine ⟨nofun, ?_⟩
    rw [hpc]
    exact Nat.one_lt_two
  | storeDone hpc => exact absurd rfl hexited

theorem inevitable_book (hcap : fcap = 2 ^ k) (h : Inv messages s) (hrunning : s.book ≠ .exited)
    (hready : BookReady s) :
    (system messages cfg hframes hticks).Inevitable (·.thread = .book) Moves s := by
  refine System.Inevitable.of_measure
    (I := fun s => Inv messages s ∧ s.book ≠ .exited ∧ BookReady s)
    (fun s => s.book.rank s.frames.occupied s.feed) ?_ ?_ ⟨h, hrunning, hready⟩
  · rintro s ⟨-, hrunning, -⟩
    obtain ⟨s', hs'⟩ := exists_stepBook cfg hrunning
    exact ⟨.book _ true, s', rfl, hs'⟩
  · rintro s a s' ⟨hinv, -, hready⟩ hown hstep hnot
    cases a with
    | ingest => exact nomatch hown
    | book order headFirst =>
      obtain ⟨hrunning', hready', hrank⟩ := stepBook_rank hinv hready hstep hnot
      exact ⟨⟨hinv.stepBook hcap hstep, hrunning', hready'⟩, hrank⟩
    | analytics => exact nomatch hown

/-! ## Analytics -/

def AnalyticsPc.rank (occupied : Bool) : AnalyticsPc tcap → Nat
  | .pop pc => popRank occupied pc
  | .loadDone => flagRank occupied
  | .testEmpty pc => testRank occupied pc
  | .yield => yieldRank occupied
  | .exited => 0

theorem exists_stepAnalytics (headFirst : Bool) (hrunning : s.analytics ≠ .exited) :
    ∃ s', stepAnalytics headFirst s = some s' := by
  unfold Pipeline.stepAnalytics
  split
  next => split <;> exact ⟨_, rfl⟩
  next => exact ⟨_, rfl⟩
  next => split <;> exact ⟨_, rfl⟩
  next => exact ⟨_, rfl⟩
  next hpc => exact absurd hpc hrunning

theorem stepAnalytics_rank {log : List TickEvent} (h : TickInv s log) (hbook : s.book = .exited)
    {headFirst : Bool} (hstep : stepAnalytics headFirst s = some s')
    (hnot : ¬Moves s (.analytics headFirst) s') :
    s'.analytics ≠ .exited ∧ s'.book = .exited ∧
      s'.analytics.rank s'.ticks.occupied < s.analytics.rank s.ticks.occupied := by
  obtain ⟨hadvances, hexited⟩ := not_or.mp hnot
  obtain ⟨hcompletes, -⟩ := not_or.mp hadvances
  have hrunning : s'.analytics ≠ .exited := by simpa [exited, Action.thread] using hexited
  have hok := h.analytics
  cases stepAnalytics_cases hstep with
  | popping hpc hq =>
    rw [hpc] at hok
    obtain ⟨rfl, -⟩ := PopPc.step_continue h.holds hok hq
    refine ⟨hrunning, hbook, ?_⟩
    rw [hpc]
    exact popRank_step _ hq
  | popped hpc hq => exact absurd (by simp [completes, hpc, hq]) hcompletes
  | missed hpc hq =>
    rw [hpc] at hok
    obtain ⟨rfl, hempty⟩ := PopPc.step_empty h.holds hok hq
    have hfalse := h.holds.not_occupied hempty
    refine ⟨hrunning, hbook, ?_⟩
    rw [hpc, hfalse]
    exact flagRank_lt_popRank _
  | loadDone hpc =>
    refine ⟨hrunning, hbook, ?_⟩
    rw [hpc, h.done.mpr hbook]
    exact testRank_lt_flagRank _ headFirst
  | testing hpc hq =>
    refine ⟨hrunning, hbook, ?_⟩
    rw [hpc]
    exact testRank_step _ hq
  | drained hpc hq => exact absurd rfl hrunning
  | refilled hpc hq =>
    rw [hpc] at hok
    have hoccupied := hok.2.of_false hq
    refine ⟨hrunning, hbook, ?_⟩
    rw [hpc, hoccupied]
    exact yieldRank_lt_testRank _
  | yield hpc =>
    refine ⟨hrunning, hbook, ?_⟩
    rw [hpc]
    exact popRank_lt_yieldRank _

theorem inevitable_analytics (hcap : tcap = 2 ^ k) {log : List TickEvent} (h : TickInv s log)
    (hbook : s.book = .exited) (hrunning : s.analytics ≠ .exited) :
    (system messages cfg hframes hticks).Inevitable (·.thread = .analytics) Moves s := by
  refine System.Inevitable.of_measure
    (I := fun s => (∃ log, TickInv s log) ∧ s.book = .exited ∧ s.analytics ≠ .exited)
    (fun s => s.analytics.rank s.ticks.occupied) ?_ ?_ ⟨⟨log, h⟩, hbook, hrunning⟩
  · rintro s ⟨-, -, hrunning⟩
    obtain ⟨s', hs'⟩ := exists_stepAnalytics true hrunning
    exact ⟨.analytics true, s', rfl, hs'⟩
  · rintro s a s' ⟨⟨log, hinv⟩, hbook, -⟩ hown hstep hnot
    cases a with
    | ingest => exact nomatch hown
    | book => exact nomatch hown
    | analytics headFirst =>
      obtain ⟨hrunning', hbook', hrank⟩ := stepAnalytics_rank hinv hbook hstep hnot
      exact ⟨⟨⟨_, hinv.stepAnalytics hcap hstep⟩, hbook', hrunning'⟩, hrank⟩

/-! ## All three -/

theorem scanStep_ne_exited (messages : List UInt8) (off : Nat) :
    (scanStep messages off : IngestPc fcap) ≠ .exited := by
  fun_cases scanStep messages off <;> simp

/-- Ingestion exits only with its flag set. -/
theorem flag_of_exited (hs : (system messages cfg hframes hticks).Reachable s) :
    s.ingest = .exited → s.ingestDone = true := by
  refine hs.invariant (I := fun s => s.ingest = .exited → s.ingestDone = true) nofun ?_
  intro s a s' hflag hstep
  cases a with
  | ingest =>
    cases stepIngest_cases hstep with
    | scan => exact fun hpc => absurd hpc (scanStep_ne_exited _ _)
    | pushing | pushed | full | yield => exact nofun
    | storeDone => exact fun _ => rfl
  | book order headFirst =>
    cases stepBook_cases hstep
    all_goals exact hflag
  | analytics headFirst =>
    cases stepAnalytics_cases hstep
    all_goals exact hflag

/-- In every reachable state with a thread left, there is one that, scheduled alone, gets on
whatever it does: after finitely many of its steps a `try_push` or `try_pop` succeeds, or it
leaves its loop, or it exits because it had left its loop already. -/
theorem progress {fp tp : UInt64} (hframes : RoundsTo cfg.frameQueueCapacity fp)
    (hticks : RoundsTo cfg.tickQueueCapacity tp) {s : State fp.toNat tp.toNat}
    (hs : (system messages cfg hframes.pos hticks.pos).Reachable s) (hnot : ¬Finished s) :
    ∃ t : Thread, (system messages cfg hframes.pos hticks.pos).Inevitable (·.thread = t) Moves s := by
  obtain ⟨⟨k, hfcap⟩, htwo, -⟩ := hframes.pow
  obtain ⟨⟨j, htcap⟩, -, -⟩ := hticks.pow
  have hinv := inv_of_reachable hfcap hs
  have hbook (hready : BookReady s) (hrunning : s.book ≠ .exited) :
      (system messages cfg hframes.pos hticks.pos).Inevitable (·.thread = .book) Moves s :=
    inevitable_book hfcap hinv hrunning hready
  by_cases hingest : s.ingest = .exited
  · by_cases hexited : s.book = .exited
    · obtain ⟨actions, hrun⟩ := hs
      have hanalytics : s.analytics ≠ .exited := fun h => hnot ⟨hingest, hexited, h⟩
      exact ⟨.analytics, inevitable_analytics htcap (tickInv_of_run htcap hrun) hexited hanalytics⟩
    · exact ⟨.book, hbook (fun _ => .inr (flag_of_exited hs hingest)) hexited⟩
  · by_cases hroom : s.published.length + 1 < s.popped.length + fp.toNat
    · exact ⟨.ingest, inevitable_ingest hfcap hinv hingest hroom⟩
    · -- The queue of frames is full, and even the smallest one then holds a frame.
      have hne : s.popped.length ≠ s.published.length := by omega
      have hoccupied : s.frames.occupied = true := by
        simpa [SPSCQueue.occupied] using mt hinv.holds.empty_iff.mp hne
      refine ⟨.book, hbook (fun _ => .inl hoccupied) fun hexited => ?_⟩
      have hok := hinv.book
      rw [hexited] at hok
      have hlen := congrArg List.length hinv.remaining
      have hle := hinv.holds.le
      rw [← show s.popped = framesFrom messages 0 from hok.2.1, List.length_append] at hlen
      omega

/-- A small system on an empty buffer. -/
def idleSystem : System (State 2 2) Action :=
  system [] smallConfig smallConfig_pos smallConfig_pos

/-- Ingestion has left its loop and not yet set the flag: it has nothing to push, and the
other two poll empty queues for as long as it is not scheduled. -/
theorem progress_waiting : ∃ s, idleSystem.Reachable s ∧ ¬Finished s ∧
    ∀ t : Thread, ¬idleSystem.CanAdvance (·.thread = t) Advances s := by
  refine ⟨{ idleSystem.start with ingest := .storeDone }, ⟨[.ingest], rfl⟩, ?_, fun t => ?_⟩
  · rintro ⟨hexited, -, -⟩
    cases hexited
  cases t with
  | ingest =>
    refine System.not_canAdvance (I := fun s => s.ingest = .storeDone ∨ s.ingest = .exited)
      ?_ (.inl rfl)
    rintro s a s' hpc hown hstep
    cases a with
    | ingest =>
      change stepIngest [] s = some s' at hstep
      rcases hpc with hpc | hpc <;> rw [stepIngest, hpc] at hstep <;> cases hstep
      refine ⟨.inr rfl, ?_⟩
      simp [Advances, completes, looping, Action.thread, hpc, IngestPc.looping]
    | book => cases hown
    | analytics => cases hown
  | book =>
    refine System.not_canAdvance (I := fun s => s.ingestDone = false ∧ s.frames.tail = s.frames.head ∧
      (s.book = .pop .loadTail ∨ s.book = .pop (.loadHead s.frames.tail) ∨ s.book = .loadDone ∨
        s.book = .yield)) ?_ ⟨rfl, rfl, .inl rfl⟩
    rintro s a s' ⟨hdone, hempty, hpc⟩ hown hstep
    cases a with
    | ingest => cases hown
    | book order headFirst =>
      change stepBook smallConfig order headFirst s = some s' at hstep
      rcases hpc with hpc | hpc | hpc | hpc
      all_goals
        simp [stepBook, hpc, hdone, hempty, PopPc.step] at hstep
        subst hstep
        simp [Advances, completes, looping, Action.thread, hpc, hempty, BookPc.looping,
          PopPc.step]
    | analytics => cases hown
  | analytics =>
    refine System.not_canAdvance (I := fun s => s.bookDone = false ∧ s.ticks.tail = s.ticks.head ∧
      (s.analytics = .pop .loadTail ∨ s.analytics = .pop (.loadHead s.ticks.tail) ∨
        s.analytics = .loadDone ∨ s.analytics = .yield)) ?_ ⟨rfl, rfl, .inl rfl⟩
    rintro s a s' ⟨hdone, hempty, hpc⟩ hown hstep
    cases a with
    | ingest => cases hown
    | book => cases hown
    | analytics headFirst =>
      change stepAnalytics headFirst s = some s' at hstep
      rcases hpc with hpc | hpc | hpc | hpc
      all_goals
        simp [stepAnalytics, hpc, hdone, hempty, PopPc.step] at hstep
        subst hstep
        simp [Advances, completes, looping, Action.thread, hpc, hempty,
          AnalyticsPc.looping, PopPc.step]

/-- In that state ingestion alone gets on by setting the flag. -/
theorem progress_idle : ∃ s, idleSystem.run idleSystem.start [.ingest] = some s ∧ ¬Finished s ∧
    ∃ t : Thread, idleSystem.Inevitable (·.thread = t) Moves s := by
  have hrun : (idleSystem.run idleSystem.start [.ingest]).any
      (fun s => decide (¬Finished s)) = true := by decide +kernel
  obtain ⟨s, hs, hnot⟩ := (Option.any_eq_true _ _).mp hrun
  have hnot := of_decide_eq_true hnot
  exact ⟨s, hs, hnot, progress smallConfig_roundsTo smallConfig_roundsTo ⟨_, hs⟩ hnot⟩

end Pipeline

end Mdfh
