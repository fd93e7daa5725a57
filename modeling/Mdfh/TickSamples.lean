import Mdfh.TickDelivery

/-!
# Analytics sees samples of the single-threaded run

Each call of `emit_tick` hands over the best prices of all books behind some number of
frames, the same as if one thread had applied those frames. Ticks may be dropped between
`emit_tick` and analytics; what arrives are ticks of these samples, in their order.

## Main definitions

* `feedOf` — the frames applied by one thread.
* `samplePoints` — the numbers of frames behind which the loop calls `emit_tick`.
* `Samples` — ticks that come from the samples at some points.

## Main results

* `BookPc.SampleOk.step` — every step of the book thread keeps to the samples.
* `received_samples` — what analytics has received in any run.
-/

namespace Mdfh

open Library

namespace Pipeline

/-! ## Samples -/

/-- A fresh feed handler after these frames. -/
def feedOf (fs : List Frame) : FeedHandler BookBuilder :=
  fs.foldl (fun fh f => (fh.consumeDatagram builderHandler f.bytes).1) { down := {} }

/-- The counts of frames up to `n` behind which the loop calls `emit_tick`. -/
def samplePoints (cfg : Config) (n : Nat) : List Nat :=
  ((List.range n).map (· + 1)).filter fun k => UInt64.ofNat k % cfg.analyticsEvery = 0

/-- The calls of `emit_tick` behind `n` frames, with the one behind the loop. -/
def emitPoints (cfg : Config) (last : Bool) (n : Nat) : List Nat :=
  samplePoints cfg n ++ if last then [n] else []

/-- The ticks of a sample at each of the points, or some of them. -/
def Samples (fs : List Frame) (points : List Nat) (ticks : List Tick) : Prop :=
  ∃ batches, List.Forall₂ (fun n b => List.Perm b (ticksOf (feedOf (fs.take n)).down)) points batches ∧
    ticks.Sublist batches.flatten

theorem samplePoints_succ (cfg : Config) (n : Nat) :
    samplePoints cfg (n + 1) =
      samplePoints cfg n ++ if UInt64.ofNat (n + 1) % cfg.analyticsEvery = 0 then [n + 1] else [] := by
  simp only [samplePoints, List.range_succ, List.map_append, List.filter_append, List.map_singleton,
    List.filter_singleton, Bool.cond_decide]

theorem samplePoints_mono (cfg : Config) {n m : Nat} (h : n ≤ m) :
    samplePoints cfg n <+: samplePoints cfg m := by
  induction h with
  | refl => exact List.prefix_rfl
  | step _ ih =>
    rw [samplePoints_succ]
    exact ih.trans (List.prefix_append _ _)

theorem Samples.nil (fs : List Frame) : Samples fs [] [] := ⟨[], .nil, List.nil_sublist _⟩

theorem Samples.concat {fs : List Frame} {points : List Nat} {ticks more batch : List Tick} {n : Nat}
    (h : Samples fs points ticks) (hbatch : batch.Perm (ticksOf (feedOf (fs.take n)).down))
    (hmore : more.Sublist batch) : Samples fs (points ++ [n]) (ticks ++ more) := by
  obtain ⟨batches, hall, hticks⟩ := h
  refine ⟨batches ++ [batch], List.rel_append hall (.cons hbatch .nil), ?_⟩
  rw [List.flatten_append, List.flatten_singleton]
  exact hticks.append hmore

/-! ## The book thread -/

variable {fcap tcap : Nat} {messages : List UInt8} {cfg : Config} {s s' : State fcap tcap}
  {log : List TickEvent} {k : Nat} {fs popped : List Frame} {feed : FeedHandler BookBuilder}
  {processed : UInt64} {accepted : List Tick}

/-- The book thread has applied these frames. -/
def Applied (feed : FeedHandler BookBuilder) (processed : UInt64) (consumed : List Frame) : Prop :=
  feed = feedOf consumed ∧ processed = UInt64.ofNat consumed.length

/-- The accepted ticks at each position of the book thread. Inside `emit_tick` those of the
call in progress are among `handled`, the ticks whose pushes are over. -/
def BookPc.SampleOk (fs : List Frame) (cfg : Config) (popped : List Frame)
    (feed : FeedHandler BookBuilder) (processed : UInt64) (accepted : List Tick) :
    BookPc fcap tcap → Prop
  | .pop _ | .loadDone | .testEmpty _ | .yield =>
    Applied feed processed popped ∧ Samples fs (samplePoints cfg popped.length) accepted
  | .consume f => ∃ consumed, popped = consumed ++ [f] ∧ Applied feed processed consumed ∧
      Samples fs (samplePoints cfg consumed.length) accepted
  | .emitStart last => Applied feed processed popped ∧ ∃ before,
      emitPoints cfg last popped.length = before ++ [popped.length] ∧ Samples fs before accepted
  | .emit last todo pc => Applied feed processed popped ∧ ∃ before ticks sent handled,
      emitPoints cfg last popped.length = before ++ [popped.length] ∧ Samples fs before ticks ∧
        accepted = ticks ++ sent ∧ sent.Sublist handled ∧
        (handled ++ (pc.map PushPc.item).toList ++ todo).Perm (ticksOf feed.down)
  | .finish | .storeDone | .exited => Samples fs (emitPoints cfg true popped.length) accepted

theorem PushPc.item_step {T : Type} {cap : Nat} {q q' : SPSCQueue T cap} {pc pc' : PushPc T cap}
    (h : pc.step q = (q', .inl pc')) : pc'.item = pc.item := by
  cases pc <;> grind [PushPc.step, PushPc.item]

@[simp] theorem acceptedIn_nil : acceptedIn [] = [] := rfl

theorem acceptedIn_analytics (s : State fcap tcap) (headFirst : Bool) :
    acceptedIn (tickEvents s (.analytics headFirst)) = [] := by
  unfold tickEvents
  simp only
  split
  · split <;> rfl
  · rfl

theorem acceptedIn_append (log log' : List TickEvent) :
    acceptedIn (log ++ log') = acceptedIn log ++ acceptedIn log' := List.filterMap_append

theorem Applied.consume {consumed : List Frame} (h : Applied feed processed consumed) (f : Frame) :
    Applied (feed.consumeDatagram builderHandler f.bytes).1 (processed + 1) (consumed ++ [f]) := by
  obtain ⟨rfl, rfl⟩ := h
  refine ⟨?_, ?_⟩
  · rw [feedOf, feedOf, List.foldl_concat]
  · rw [List.length_append, List.length_singleton, UInt64.ofNat_add]
    rfl

/-- `hpopped` says that the frames popped are the first ones of the buffer. -/
theorem BookPc.SampleOk.step (hpopped : s.popped = fs.take s.popped.length)
    (h : s.book.SampleOk fs cfg s.popped s.feed s.processed accepted) {order : List Tick}
    {headFirst : Bool} (hstep : stepBook cfg order headFirst s = some s') :
    s'.book.SampleOk fs cfg s'.popped s'.feed s'.processed
      (accepted ++ acceptedIn (tickEvents s (.book order headFirst))) := by
  cases stepBook_cases hstep with
  | popping hpc | missed hpc | testing hpc | refilled hpc | yield hpc =>
    rw [hpc] at h
    simp only [tickEvents, hpc, acceptedIn_nil, List.append_nil]
    exact h
  | popped hpc =>
    rw [hpc] at h
    simp only [tickEvents, hpc, acceptedIn_nil, List.append_nil]
    exact ⟨s.popped, rfl, h⟩
  | @consume f hpc =>
    rw [hpc] at h
    obtain ⟨consumed, happend, happlied, hsamples⟩ := h
    simp only [tickEvents, hpc, acceptedIn_nil, List.append_nil]
    have happlied' := happlied.consume f
    rw [← happend] at happlied'
    have hpoints := samplePoints_succ cfg consumed.length
    have hlen : s.popped.length = consumed.length + 1 := by
      rw [happend, List.length_append, List.length_singleton]
    have hcount : s.processed + 1 = UInt64.ofNat (consumed.length + 1) := by
      rw [happlied.2, UInt64.ofNat_add]
      rfl
    rw [← hcount, ← hlen] at hpoints
    split_ifs with hdue
    · rw [if_pos hdue] at hpoints
      refine ⟨happlied', samplePoints cfg consumed.length, ?_, hsamples⟩
      rw [emitPoints, hpoints]
      exact List.append_nil _
    · rw [if_neg hdue, List.append_nil] at hpoints
      exact ⟨happlied', hpoints ▸ hsamples⟩
  | emitStart hpc hperm =>
    rw [hpc] at h
    obtain ⟨happlied, before, hbefore, hsamples⟩ := h
    simp only [tickEvents, hpc, acceptedIn_nil, List.append_nil]
    exact ⟨happlied, before, accepted, [], [], hbefore, hsamples, (List.append_nil _).symm,
      List.Sublist.refl _, hperm⟩
  | @emitEnd last hpc =>
    rw [hpc] at h
    obtain ⟨happlied, before, ticks, sent, handled, hbefore, hsamples, rfl, hsent, hperm⟩ := h
    simp only [tickEvents, hpc, acceptedIn_nil, List.append_nil]
    -- All ticks of the call have been handled, so it is one more sample.
    simp only [Option.map_none, Option.toList_none, List.append_nil, happlied.1] at hperm
    rw [hpopped] at hperm
    have hnext := hsamples.concat hperm hsent
    rw [← hbefore] at hnext
    cases last with
    | true => exact hnext
    | false =>
      rw [emitPoints, if_neg Bool.false_ne_true, List.append_nil] at hnext
      exact ⟨happlied, hnext⟩
  | emitNext hpc =>
    rw [hpc] at h
    obtain ⟨happlied, before, ticks, sent, handled, hbefore, hsamples, heq, hsent, hperm⟩ := h
    simp only [tickEvents, hpc, acceptedIn_nil, List.append_nil]
    refine ⟨happlied, before, ticks, sent, handled, hbefore, hsamples, heq, hsent, ?_⟩
    simpa [PushPc.item] using hperm
  | pushing hpc hq =>
    rw [hpc] at h
    obtain ⟨happlied, before, ticks, sent, handled, hbefore, hsamples, heq, hsent, hperm⟩ := h
    simp only [tickEvents, hpc, hq, reduceCtorEq, if_false, acceptedIn_nil, List.append_nil]
    refine ⟨happlied, before, ticks, sent, handled, hbefore, hsamples, heq, hsent, ?_⟩
    simpa [PushPc.item_step hq] using hperm
  | @pushed last todo pc q ok hpc hq =>
    rw [hpc] at h
    obtain ⟨happlied, before, ticks, sent, handled, hbefore, hsamples, rfl, hsent, hperm⟩ := h
    have hperm' : (handled ++ [pc.item] ++ todo).Perm (ticksOf s.feed.down) := by
      simpa using hperm
    cases ok with
    | true =>
      refine ⟨happlied, before, ticks, sent ++ [pc.item], handled ++ [pc.item], hbefore, hsamples,
        ?_, hsent.append (List.Sublist.refl _), by simpa using hperm'⟩
      simp [tickEvents, hpc, hq, acceptedIn]
    | false =>
      refine ⟨happlied, before, ticks, sent, handled ++ [pc.item], hbefore, hsamples, ?_,
        hsent.trans (List.sublist_append_left _ _), by simpa using hperm'⟩
      simp [tickEvents, hpc, hq, acceptedIn]
  | loadDone hpc =>
    rw [hpc] at h
    simp only [tickEvents, hpc, acceptedIn_nil, List.append_nil]
    split_ifs <;> exact h
  | drained hpc =>
    rw [hpc] at h
    obtain ⟨happlied, hsamples⟩ := h
    simp only [tickEvents, hpc, acceptedIn_nil, List.append_nil]
    exact ⟨happlied, samplePoints cfg s.popped.length, rfl, hsamples⟩
  | finish hpc | storeDone hpc =>
    rw [hpc] at h
    simp only [tickEvents, hpc, acceptedIn_nil, List.append_nil]
    exact h

/-! ## Runs -/

/-- The frames popped are the first ones of the buffer. -/
theorem Inv.popped_eq (h : Inv messages s) :
    s.popped = (framesFrom messages 0).take s.popped.length := by
  rw [← h.remaining, List.take_append_of_le_length h.holds.le]
  exact h.holds.isPrefix

theorem sampleOk_of_run {hframes : 0 < fcap} {hticks : 0 < tcap} (hcap : fcap = 2 ^ k)
    {actions : List Action} (hrun : (system messages cfg hframes hticks).run
      (system messages cfg hframes hticks).start actions = some s) :
    Inv messages s ∧ s.book.SampleOk (framesFrom messages 0) cfg s.popped s.feed s.processed
      (acceptedIn (tickLog messages cfg hframes hticks actions)) := by
  have hstart : (system messages cfg hframes hticks).start.book.SampleOk (framesFrom messages 0)
      cfg [] { down := {} } 0 (acceptedIn []) := ⟨⟨rfl, rfl⟩, .nil _⟩
  refine System.trace_invariant (I := fun s log => Inv messages s ∧
    s.book.SampleOk (framesFrom messages 0) cfg s.popped s.feed s.processed (acceptedIn log))
    ?_ actions ⟨inv_of_reachable hcap ⟨[], rfl⟩, hstart⟩ hrun
  rintro s log a s' ⟨hinv, hok⟩ hstep
  refine ⟨hinv.step hcap a hstep, ?_⟩
  rw [acceptedIn_append]
  cases a with
  | ingest =>
    rw [show tickEvents s .ingest = [] from rfl, acceptedIn_nil, List.append_nil]
    cases stepIngest_cases hstep
    all_goals exact hok
  | book order headFirst => exact hok.step hinv.popped_eq hstep
  | analytics headFirst =>
    rw [acceptedIn_analytics, List.append_nil]
    cases stepAnalytics_cases hstep
    all_goals exact hok

theorem emitPoints_mono (cfg : Config) {last : Bool} {n m : Nat} (hle : n ≤ m)
    (hlast : last = true → n = m) : emitPoints cfg last n <+: emitPoints cfg true m := by
  cases last with
  | true =>
    rw [hlast rfl]
  | false =>
    rw [emitPoints, if_neg Bool.false_ne_true, List.append_nil]
    exact (samplePoints_mono cfg hle).trans (List.prefix_append _ _)

theorem Samples.mono {points : List Nat} {ticks ticks' : List Tick} (h : Samples fs points ticks)
    (hsub : ticks'.Sublist ticks) : Samples fs points ticks' := by
  obtain ⟨batches, hall, hticks⟩ := h
  exact ⟨batches, hall, hsub.trans hticks⟩

/-- The samples behind the accepted ticks, wherever the book thread is. -/
theorem BookPc.SampleOk.exists_points (hinv : Inv messages s)
    (h : s.book.SampleOk (framesFrom messages 0) cfg s.popped s.feed s.processed accepted) :
    ∃ points, points <+: emitPoints cfg true (framesFrom messages 0).length ∧
      Samples (framesFrom messages 0) points accepted ∧
      (s.book = .exited → points = emitPoints cfg true (framesFrom messages 0).length) := by
  have hle : s.popped.length ≤ (framesFrom messages 0).length := by
    rw [hinv.popped_eq]
    exact List.length_take_le' _ _
  have hall (hdrained : Drained messages s) :
      s.popped.length = (framesFrom messages 0).length := congrArg List.length hdrained
  have hok := hinv.book
  revert h hok
  cases s.book with
  | pop | loadDone | testEmpty | yield =>
    rintro ⟨-, hsamples⟩ -
    exact ⟨_, (samplePoints_mono cfg hle).trans (List.prefix_append _ _), hsamples, nofun⟩
  | consume f =>
    rintro ⟨consumed, hpopped, -, hsamples⟩ -
    have hle' : consumed.length ≤ s.popped.length := by
      rw [hpopped, List.length_append]
      exact Nat.le_add_right _ _
    exact ⟨_, (samplePoints_mono cfg (hle'.trans hle)).trans (List.prefix_append _ _), hsamples,
      nofun⟩
  | emitStart last =>
    rintro ⟨-, before, hbefore, hsamples⟩ ⟨-, hlast⟩
    have hprefix := emitPoints_mono cfg hle fun h => hall (hlast h)
    rw [hbefore] at hprefix
    exact ⟨before, (List.prefix_append _ _).trans hprefix, hsamples, nofun⟩
  | emit last todo pc =>
    rintro ⟨happlied, before, ticks, sent, handled, hbefore, hsamples, rfl, hsent, hperm⟩ ⟨-, hlast⟩
    have hprefix := emitPoints_mono cfg hle fun h => hall (hlast h)
    rw [hbefore] at hprefix
    rw [happlied.1, hinv.popped_eq, List.append_assoc] at hperm
    refine ⟨_, hprefix, hsamples.concat hperm ?_, nofun⟩
    exact hsent.trans (List.sublist_append_left _ _)
  | finish =>
    rintro hsamples ⟨-, hdrained⟩
    exact ⟨_, emitPoints_mono cfg hle fun _ => hall hdrained, hsamples, nofun⟩
  | storeDone | exited =>
    rintro hsamples ⟨-, hdrained, -⟩
    exact ⟨_, emitPoints_mono cfg hle fun _ => hall hdrained, hsamples, fun _ => by
      rw [hall hdrained]⟩

/-- Whatever the schedule, the ticks that analytics has received so far are among those of
the samples that one thread would have taken behind the same frames, in their order; and
once all three threads have exited these are all of its samples. -/
theorem received_samples {fp tp : UInt64} (hframes : RoundsTo cfg.frameQueueCapacity fp)
    (hticks : RoundsTo cfg.tickQueueCapacity tp) {s : State fp.toNat tp.toNat}
    {actions : List Action} (hrun : (system messages cfg hframes.pos hticks.pos).run
      (system messages cfg hframes.pos hticks.pos).start actions = some s) :
    let log := tickLog messages cfg hframes.pos hticks.pos actions
    let all := framesFrom messages 0
    ∃ points, points <+: emitPoints cfg true all.length ∧ Samples all points (receivedIn log) ∧
      (Finished s → points = emitPoints cfg true all.length) := by
  intro log all
  obtain ⟨⟨k, hfcap⟩, -, -⟩ := hframes.pow
  obtain ⟨⟨j, htcap⟩, -, -⟩ := hticks.pow
  obtain ⟨hinv, hok⟩ := sampleOk_of_run hfcap hrun
  obtain ⟨points, hprefix, hsamples, hexited⟩ := hok.exists_points hinv
  have hholds := (tickInv_of_run htcap hrun).holds
  refine ⟨points, hprefix, hsamples.mono ?_, fun hfinished => hexited hfinished.2.1⟩
  rw [show receivedIn log = _ from hholds.isPrefix]
  exact List.take_sublist _ _

/-- The best bid behind the one frame is sampled in the loop and again at the end; the second
tick has been dropped. -/
theorem received_samples_small :
    ∃ s, smallSystem.run smallSystem.start finishingRun = some s ∧ Finished s ∧
      Samples (framesFrom truncatedBuffer 0) [1, 1] [{ sym := 7, bid := 100 }] := by
  have hrun : (smallSystem.run smallSystem.start finishingRun).any
      (fun s => decide (Finished s)) = true := by decide +kernel
  have hlog : receivedIn (tickLog truncatedBuffer smallConfig smallConfig_roundsTo.pos
      smallConfig_roundsTo.pos finishingRun) = [{ sym := 7, bid := 100 }] := by decide +kernel
  have hpoints : emitPoints smallConfig true (framesFrom truncatedBuffer 0).length = [1, 1] := by
    decide +kernel
  obtain ⟨s, hs, hfin⟩ := (Option.any_eq_true _ _).mp hrun
  have hfinished := of_decide_eq_true hfin
  obtain ⟨points, -, hsamples, hall⟩ :=
    received_samples smallConfig_roundsTo smallConfig_roundsTo hs
  rw [hall hfinished, hlog, hpoints] at hsamples
  exact ⟨s, hs, hfinished, hsamples⟩

end Pipeline

end Mdfh
