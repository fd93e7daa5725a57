import Mdfh.Progress

/-!
# Fair runs of the pipeline end

In every state one thread is helpful: whatever the other two do, its steps bring the end of
the run nearer, and it stays helpful until they have. So a run that goes on for ever has
stopped scheduling a thread that could have taken a step at any time, and a scheduler that
is fair to all three threads reaches the end.

## Main definitions

* `weight` — what is left to do, and `helpful` — the thread that can do it.
* `Quiet` — a step that leaves both as they are.

## Main results

* `quiet_or_lower` — every step is quiet or does a part of what is left.
* `ingest_lowers`, `book_lowers`, `analytics_lowers` — the quiet steps of each thread.
* `unfair_of_infinite` — every run without end is unfair to a thread.
-/

namespace Mdfh

open Library

namespace Pipeline

variable {fcap tcap : Nat} {messages : List UInt8} {cfg : Config} {s s' : State fcap tcap}
  {k : Nat} {hframes : 0 < fcap} {hticks : 0 < tcap}

/-! ## What is left to do -/

/-- The pushes, the pops, the end of the book thread's loop and the two exits to come. -/
def weight (messages : List UInt8) (s : State fcap tcap) : Nat :=
  ((framesFrom messages 0).length - s.published.length) +
    ((framesFrom messages 0).length - s.popped.length) +
    (if s.ingest = .exited then 0 else 1) + (if s.book.looping then 1 else 0) +
    if s.book = .exited then 0 else 1

/-- Nothing of what is left has been done. -/
structure Quiet (s s' : State fcap tcap) : Prop where
  published : s'.published = s.published
  popped : s'.popped = s.popped
  ingest : s'.ingest = .exited ↔ s.ingest = .exited
  looping : s'.book.looping = s.book.looping
  book : s'.book = .exited ↔ s.book = .exited

/-- Ingestion while there is room, then the book thread, and analytics at the end. -/
def helpful (s : State fcap tcap) : Thread :=
  if s.ingest ≠ .exited ∧ s.published.length + 1 < s.popped.length + fcap then .ingest
  else if s.book ≠ .exited then .book
  else .analytics

theorem Quiet.weight_eq (h : Quiet s s') : weight messages s' = weight messages s := by
  simp only [weight, h.published, h.popped, h.ingest, h.looping, h.book]

theorem Quiet.helpful_eq (h : Quiet s s') : helpful s' = helpful s := by
  simp only [helpful, ne_eq, h.published, h.popped, h.ingest, h.book]

theorem Inv.published_le (h : Inv messages s) :
    s.published.length ≤ (framesFrom messages 0).length := by
  rw [← h.remaining, List.length_append]
  exact Nat.le_add_right _ _

theorem quiet_or_lower (hcap : fcap = 2 ^ k) (h : Inv messages s) {a : Action}
    (hstep : step messages cfg s a = some s') :
    Quiet s s' ∨ weight messages s' < weight messages s := by
  have hle := (h.step hcap a hstep).published_le
  have hle' := (h.step hcap a hstep).holds.le
  cases a with
  | ingest =>
    cases stepIngest_cases hstep with
    | scan hpc =>
      exact .inl ⟨rfl, rfl, iff_of_false (scanStep_ne_exited _ _) (by simp [hpc]), rfl, Iff.rfl⟩
    | pushing hpc | full hpc | yield hpc =>
      exact .inl ⟨rfl, rfl, by simp [hpc], rfl, Iff.rfl⟩
    | pushed hpc =>
      right
      simp only [List.length_append, List.length_singleton] at hle
      simp only [weight, hpc, reduceCtorEq, if_false, List.length_append, List.length_singleton]
      omega
    | storeDone hpc =>
      right
      simp only [weight, hpc, reduceCtorEq, if_false, if_true]
      omega
  | book order headFirst =>
    have hpopped := h.published_le
    cases stepBook_cases hstep with
    | popping hpc | missed hpc | emitStart hpc | emitNext hpc | pushing hpc | pushed hpc
    | testing hpc | refilled hpc | yield hpc | finish hpc =>
      exact .inl ⟨rfl, rfl, Iff.rfl, by rw [hpc]; rfl, by simp [hpc]⟩
    | consume hpc =>
      refine .inl ⟨rfl, rfl, Iff.rfl, ?_, ?_⟩
      all_goals
        simp only [hpc]
        split <;> simp [BookPc.looping]
    | loadDone hpc =>
      refine .inl ⟨rfl, rfl, Iff.rfl, ?_, ?_⟩
      all_goals
        simp only [hpc]
        split <;> simp [BookPc.looping]
    | @emitEnd last hpc =>
      refine .inl ⟨rfl, rfl, Iff.rfl, ?_, ?_⟩
      all_goals
        simp only [hpc]
        cases last <;> simp [BookPc.looping]
    | popped hpc =>
      right
      simp only [List.length_append, List.length_singleton] at hle'
      simp only [weight, hpc, BookPc.looping, reduceCtorEq, if_false, List.length_append,
        List.length_singleton]
      omega
    | drained hpc =>
      right
      simp only [weight, hpc, BookPc.looping, reduceCtorEq, if_false, if_true, Bool.not_true]
      omega
    | storeDone hpc =>
      right
      simp only [weight, hpc, BookPc.looping, reduceCtorEq, if_false, if_true]
      omega
  | analytics headFirst =>
    cases stepAnalytics_cases hstep
    all_goals exact .inl ⟨rfl, rfl, Iff.rfl, rfl, Iff.rfl⟩

/-! ## Quiet steps -/

theorem ingest_lowers (hcap : fcap = 2 ^ k) (h : Inv messages s)
    (hroom : s.published.length + 1 < s.popped.length + fcap)
    (hstep : stepIngest messages s = some s') (hquiet : Quiet s s') :
    s'.ingest.rank messages < s.ingest.rank messages := by
  have hok := h.ingest
  cases stepIngest_cases hstep with
  | @scan off hpc =>
    rw [hpc]
    exact scanStep_rank messages off
  | pushing hpc hq =>
    rw [hpc]
    exact PushPc.rank_step hq
  | pushed => exact absurd hquiet.published (by simp)
  | full hpc hq =>
    rw [hpc] at hok
    obtain ⟨-, hfull⟩ := PushPc.step_full hcap h.holds hok.1 hq
    have hle := h.holds.le
    rw [h.holds.length_contents, SPSCQueue.capacity] at hfull
    omega
  | yield hpc =>
    rw [hpc]
    exact Nat.lt_succ_self 4
  | storeDone hpc => simpa [hpc] using hquiet.ingest

/-- The book thread completes a call by popping a frame or by pushing a tick. -/
theorem book_lowers (h : Inv messages s) (hready : BookReady s) {order : List Tick}
    {headFirst : Bool} (hstep : stepBook cfg order headFirst s = some s') (hquiet : Quiet s s') :
    s'.book.rank s'.frames.occupied s'.feed < s.book.rank s.frames.occupied s.feed := by
  by_cases hmoves : Moves s (.book order headFirst) s'
  · rcases hmoves with (hcompletes | ⟨hloop, hout⟩) | hexited
    · cases stepBook_cases hstep with
      | popped => exact absurd hquiet.popped (by simp)
      | @pushed last todo pc ticks ok hpc hq =>
        rw [hpc]
        exact Nat.lt_add_of_pos_right pc.rank_pos
      | popping hpc hq | missed hpc hq | pushing hpc hq => simp [completes, hpc, hq] at hcompletes
      | consume hpc | emitStart hpc | emitEnd hpc | emitNext hpc | loadDone hpc | testing hpc
      | drained hpc | refilled hpc | yield hpc | finish hpc | storeDone hpc =>
        simp [completes, hpc] at hcompletes
    · have hloop : s.book.looping = true := hloop
      have hout : s'.book.looping = false := hout
      rw [hquiet.looping, hloop] at hout
      cases hout
    · have hexited : s'.book = .exited := of_decide_eq_true hexited
      rw [stepBook, hquiet.book.mp hexited] at hstep
      cases hstep
  · exact (stepBook_rank h hready hstep hmoves).2.2

theorem analytics_lowers (hcap : tcap = 2 ^ k) {log : List TickEvent} (h : TickInv s log)
    (hbook : s.book = .exited) {headFirst : Bool} (hstep : stepAnalytics headFirst s = some s') :
    16 * s'.ticks.contents.length + s'.analytics.rank s'.ticks.occupied <
      16 * s.ticks.contents.length + s.analytics.rank s.ticks.occupied := by
  have hok := h.analytics
  cases stepAnalytics_cases hstep with
  | popping hpc hq =>
    rw [hpc] at hok
    obtain ⟨rfl, -⟩ := PopPc.step_continue h.holds hok hq
    rw [hpc]
    exact Nat.add_lt_add_left (popRank_step _ hq) _
  | @popped pc ticks t hpc hq =>
    rw [hpc] at hok
    obtain ⟨hholds, -⟩ := PopPc.step_popped hcap h.holds hok hq
    have hlen := h.holds.length_contents
    have hlen' := hholds.length_contents
    have hle := hholds.le
    have hrank : popRank ticks.occupied (.loadTail : PopPc Tick tcap) < 0 + 10 :=
      popRank_loadTail_lt _ 0
    rw [List.length_append, List.length_singleton] at hlen' hle
    simp only [AnalyticsPc.rank]
    omega
  | missed hpc hq =>
    rw [hpc] at hok
    obtain ⟨rfl, hempty⟩ := PopPc.step_empty h.holds hok hq
    rw [hpc, h.holds.not_occupied hempty]
    exact Nat.add_lt_add_left (flagRank_lt_popRank _) _
  | loadDone hpc =>
    rw [hpc, h.done.mpr hbook]
    exact Nat.add_lt_add_left (testRank_lt_flagRank _ headFirst) _
  | testing hpc hq =>
    rw [hpc]
    exact Nat.add_lt_add_left (testRank_step _ hq) _
  | @drained pc hpc hq =>
    rw [hpc]
    exact Nat.add_lt_add_left (Nat.add_pos_left pc.rank_pos _) _
  | refilled hpc hq =>
    rw [hpc] at hok
    rw [hpc, hok.2.of_false hq]
    exact Nat.add_lt_add_left (yieldRank_lt_testRank _) _
  | yield hpc =>
    rw [hpc]
    exact Nat.add_lt_add_left (popRank_lt_yieldRank _) _

/-! ## The helpful thread -/

/-- The steps that the helpful thread needs at most before its next step that is not quiet. -/
def helpfulRank (messages : List UInt8) (s : State fcap tcap) : Nat :=
  match helpful s with
  | .ingest => s.ingest.rank messages
  | .book => s.book.rank s.frames.occupied s.feed
  | .analytics => 16 * s.ticks.contents.length + s.analytics.rank s.ticks.occupied

theorem helpful_eq_ingest (h : helpful s = .ingest) :
    s.ingest ≠ .exited ∧ s.published.length + 1 < s.popped.length + fcap := by
  unfold helpful at h
  split_ifs at h with hroom
  exact hroom

/-- The book thread is helpful only with a frame to pop or the flag set. -/
theorem helpful_eq_book (htwo : 2 ≤ fcap) (hinv : Inv messages s)
    (hflag : s.ingest = .exited → s.ingestDone = true) (h : helpful s = .book) :
    s.book ≠ .exited ∧ BookReady s := by
  unfold helpful at h
  split_ifs at h with hroom hbook
  refine ⟨hbook, fun _ => ?_⟩
  by_cases hingest : s.ingest = .exited
  · exact .inr (hflag hingest)
  · have hfull := mt (And.intro hingest) hroom
    have hne : s.popped.length ≠ s.published.length := by omega
    exact .inl (by simpa [SPSCQueue.occupied] using mt hinv.holds.empty_iff.mp hne)

/-- Analytics is helpful only when the other two have exited. -/
theorem helpful_eq_analytics (htwo : 2 ≤ fcap) (hinv : Inv messages s)
    (h : helpful s = .analytics) : s.ingest = .exited ∧ s.book = .exited := by
  unfold helpful at h
  split_ifs at h with hroom hbook
  have hexited : s.book = .exited := not_not.mp hbook
  refine ⟨?_, hexited⟩
  by_contra hingest
  have hok := hinv.book
  rw [hexited] at hok
  have hlen := congrArg List.length hinv.remaining
  have hle := hinv.holds.le
  rw [← show s.popped = framesFrom messages 0 from hok.2.1, List.length_append] at hlen
  have hfull := mt (And.intro hingest) hroom
  omega

theorem step_other {a : Action} (hstep : step messages cfg s a = some s') :
    (a.thread ≠ .ingest → s'.ingest = s.ingest) ∧
      (a.thread ≠ .book → s'.book = s.book ∧ s'.feed = s.feed) := by
  cases a with
  | ingest =>
    refine ⟨fun h => absurd rfl h, fun _ => ?_⟩
    cases stepIngest_cases hstep
    all_goals exact ⟨rfl, rfl⟩
  | book order headFirst =>
    refine ⟨fun _ => ?_, fun h => absurd rfl h⟩
    cases stepBook_cases hstep
    all_goals rfl
  | analytics headFirst =>
    cases stepAnalytics_cases hstep
    all_goals exact ⟨fun _ => rfl, fun _ => ⟨rfl, rfl⟩⟩

theorem Quiet.occupied_eq (h : Quiet s s') (hinv : Inv messages s) (hinv' : Inv messages s') :
    s'.frames.occupied = s.frames.occupied := by
  simp only [SPSCQueue.occupied, ne_eq, hinv.holds.empty_iff, hinv'.holds.empty_iff, h.published,
    h.popped]

theorem step_finished (h : Finished s) (a : Action) : step messages cfg s a = none := by
  cases a with
  | ingest => simp [step, stepIngest, h.1]
  | book => simp [step, stepBook, h.2.1]
  | analytics => simp [step, stepAnalytics, h.2.2]

section
variable {j : Nat} {a : Action}

theorem rank_lt_of_quiet (hfcap : fcap = 2 ^ k) (htwo : 2 ≤ fcap) (htcap : tcap = 2 ^ j)
    (hs : (system messages cfg hframes hticks).Reachable s)
    (hstep : step messages cfg s a = some s') (hquiet : Quiet s s') (ha : a.thread = helpful s) :
    helpfulRank messages s' < helpfulRank messages s := by
  have hinv := inv_of_reachable hfcap hs
  simp only [helpfulRank, hquiet.helpful_eq]
  cases hh : helpful s with
  | ingest =>
    cases a with
    | ingest => exact ingest_lowers hfcap hinv (helpful_eq_ingest hh).2 hstep hquiet
    | book | analytics => cases ha.trans hh
  | book =>
    cases a with
    | book =>
      obtain ⟨-, hready⟩ := helpful_eq_book htwo hinv (flag_of_exited hs) hh
      exact book_lowers hinv hready hstep hquiet
    | ingest | analytics => cases ha.trans hh
  | analytics =>
    cases a with
    | analytics =>
      obtain ⟨actions, hrun⟩ := hs
      obtain ⟨-, hexited⟩ := helpful_eq_analytics htwo hinv hh
      exact analytics_lowers htcap (tickInv_of_run htcap hrun) hexited hstep
    | ingest | book => cases ha.trans hh

theorem rank_eq_of_quiet (hfcap : fcap = 2 ^ k) (htwo : 2 ≤ fcap)
    (hs : (system messages cfg hframes hticks).Reachable s)
    (hstep : step messages cfg s a = some s') (hquiet : Quiet s s') (ha : a.thread ≠ helpful s) :
    helpfulRank messages s' = helpfulRank messages s := by
  have hinv := inv_of_reachable hfcap hs
  obtain ⟨hingest, hbook⟩ := step_other hstep
  simp only [helpfulRank, hquiet.helpful_eq]
  cases hh : helpful s with
  | ingest => simp only [hingest (hh ▸ ha)]
  | book =>
    obtain ⟨hpc, hfeed⟩ := hbook (hh ▸ ha)
    simp only [hpc, hfeed, hquiet.occupied_eq hinv (hinv.step hfcap a hstep)]
  | analytics =>
    -- The other two have exited, so there is no step to take.
    obtain ⟨hingested, hbooked⟩ := helpful_eq_analytics htwo hinv hh
    cases a with
    | ingest => simp [step, stepIngest, hingested] at hstep
    | book => simp [step, stepBook, hbooked] at hstep
    | analytics => exact absurd hh.symm ha

/-- The steps of the helpful thread lower the measure, and those of the others lower it, or
leave it and the helpful thread as they are. -/
theorem step_lowers (hfcap : fcap = 2 ^ k) (htwo : 2 ≤ fcap) (htcap : tcap = 2 ^ j)
    (hs : (system messages cfg hframes hticks).Reachable s)
    (hstep : step messages cfg s a = some s') :
    toLex (weight messages s', helpfulRank messages s') <
        toLex (weight messages s, helpfulRank messages s) ∨
      (a.thread ≠ helpful s ∧ toLex (weight messages s', helpfulRank messages s') ≤
        toLex (weight messages s, helpfulRank messages s) ∧ helpful s' = helpful s) := by
  rcases quiet_or_lower hfcap (inv_of_reachable hfcap hs) hstep with hquiet | hlt
  · rw [hquiet.weight_eq]
    by_cases ha : a.thread = helpful s
    · have hlt := rank_lt_of_quiet hfcap htwo htcap hs hstep hquiet ha
      exact .inl (Prod.Lex.toLex_lt_toLex.mpr (.inr ⟨rfl, hlt⟩))
    · have heq := rank_eq_of_quiet hfcap htwo hs hstep hquiet ha
      exact .inr ⟨ha, heq ▸ le_refl _, hquiet.helpful_eq⟩
  · exact .inl (Prod.Lex.toLex_lt_toLex.mpr (.inl hlt))

end

/-! ## Runs without end -/

/-- A thread that has not exited can take a step. -/
theorem exists_step (messages : List UInt8) (cfg : Config) {t : Thread}
    (hrunning : exited s t = false) :
    ∃ a s', a.thread = t ∧ step messages cfg s a = some s' := by
  cases t with
  | ingest =>
    obtain ⟨s', hs'⟩ := exists_stepIngest messages (of_decide_eq_false hrunning)
    exact ⟨.ingest, s', rfl, hs'⟩
  | book =>
    obtain ⟨s', hs'⟩ := exists_stepBook cfg (of_decide_eq_false hrunning)
    exact ⟨.book _ true, s', rfl, hs'⟩
  | analytics =>
    obtain ⟨s', hs'⟩ := exists_stepAnalytics true (of_decide_eq_false hrunning)
    exact ⟨.analytics true, s', rfl, hs'⟩

/-- Every run without end is unfair: from some step on, one of the threads is never
scheduled again, although it has not exited and could take a step in every state. -/
theorem unfair_of_infinite {fp tp : UInt64} (hframes : RoundsTo cfg.frameQueueCapacity fp)
    (hticks : RoundsTo cfg.tickQueueCapacity tp) {st : Nat → State fp.toNat tp.toNat}
    {act : Nat → Action}
    (hrun : (system messages cfg hframes.pos hticks.pos).InfiniteRun st act) :
    ∃ t : Thread, ∃ n₀, ∀ n ≥ n₀, (act n).thread ≠ t ∧ exited (st n) t = false ∧
      ∃ a s', a.thread = t ∧ step messages cfg (st n) a = some s' := by
  obtain ⟨⟨k, hfcap⟩, htwo, -⟩ := hframes.pow
  obtain ⟨⟨j, htcap⟩, -, -⟩ := hticks.pow
  obtain ⟨n₀, hn₀⟩ := hrun.starves Action.thread helpful
    (fun s => toLex (weight messages s, helpfulRank messages s))
    fun s a s' hs hstep => step_lowers hfcap htwo htcap hs hstep
  refine ⟨helpful (st n₀), n₀, fun n hn => ?_⟩
  obtain ⟨hsame, hother⟩ := hn₀ n hn
  have hs := hrun.reachable n
  have hinv := inv_of_reachable hfcap hs
  have hrunning : exited (st n) (helpful (st n₀)) = false := by
    rw [← hsame]
    cases hh : helpful (st n) with
    | ingest => exact decide_eq_false (helpful_eq_ingest hh).1
    | book => exact decide_eq_false (helpful_eq_book htwo hinv (flag_of_exited hs) hh).1
    | analytics =>
      obtain ⟨hingest, hbook⟩ := helpful_eq_analytics htwo hinv hh
      refine decide_eq_false fun hanalytics => ?_
      have hnone := (hrun.step n).symm.trans (step_finished ⟨hingest, hbook, hanalytics⟩ (act n))
      cases hnone
  exact ⟨hother, hrunning, exists_step messages cfg hrunning⟩

/-- Polls of an empty queue, one after the other. -/
def pollingPc : Nat → BookPc 2 2
  | 0 => .pop .loadTail
  | 1 => .pop (.loadHead 0)
  | 2 => .loadDone
  | 3 => .yield
  | n + 4 => pollingPc n

def pollingState (n : Nat) : State 2 2 := { idleSystem.start with book := pollingPc n }

theorem polling_step : ∀ n, idleSystem.step (pollingState n) (.book [] true) =
    some (pollingState (n + 1))
  | 0 => rfl
  | 1 => rfl
  | 2 => rfl
  | 3 => rfl
  | n + 4 => polling_step n

/-- The book thread polls an empty queue for ever, and another thread is starved. -/
theorem unfair_of_infinite_polling : ∃ t : Thread, ∃ n₀, ∀ n ≥ n₀,
    Thread.book ≠ t ∧ exited (pollingState n) t = false := by
  have hrun : idleSystem.InfiniteRun pollingState fun _ => .book [] true :=
    ⟨rfl, polling_step⟩
  obtain ⟨t, n₀, hn₀⟩ := unfair_of_infinite smallConfig_roundsTo smallConfig_roundsTo hrun
  exact ⟨t, n₀, fun n hn => ⟨(hn₀ n hn).1, (hn₀ n hn).2.1⟩⟩

end Pipeline

end Mdfh
