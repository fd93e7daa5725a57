import Mdfh.Accounting

/-!
# What the tracker's counters say about a stream

The high-water mark is as far from the first number as the counters say, in the arithmetic
of 32-bit sequence numbers, and the numbers that were dropped leave no trace in it: a tracker
that observes only the others comes to the same mark and the same counters.

## Main results

* `observeAll_conserves` — the conservation laws, for every stream of numbers.
-/

namespace Mdfh.SequenceTracker

/-- The numbers classified as in order or as a gap, each with its status. -/
def accepted (t : SequenceTracker) (seqs : List Sequence) : List (Sequence × SeqStatus) :=
  (seqs.zip (t.observeAll seqs).2).filter (·.2.forwards)

/-! ## The distance travelled -/

/-- The mark lies behind the first number by what was received in order, by the numbers that
ended a gap and by those that are missing. -/
structure Travelled (first : Sequence) (t : SequenceTracker) : Prop where
  running : t.initialized = true
  mark : t.nextExpected =
    first + (t.stats.inOrder + t.stats.gapEvents + t.stats.missing).toUInt32

section
variable {t u : SequenceTracker} {first : Sequence}

theorem travelled_first (first : Sequence) : Travelled first (({} : SequenceTracker).observe first).1 where
  running := rfl
  mark := rfl

theorem Travelled.observe (h : Travelled first t) (seq : Sequence) :
    Travelled first (t.observe seq).1 := by
  obtain ⟨hrunning, hmark⟩ := h
  simp only [UInt64.toUInt32_add] at hmark
  fun_cases SequenceTracker.observe t seq with
  | case1 st hfresh => simp [hrunning] at hfresh
  | case2 st hinit heq =>
    refine ⟨hrunning, ?_⟩
    simp only [UInt64.toUInt32_add, st]
    have hone : (1 : UInt64).toUInt32 = 1 := rfl
    grind
  | case3 st hinit hne hgt =>
    refine ⟨hrunning, ?_⟩
    simp only [UInt64.toUInt32_add, UInt32.toUInt32_toUInt64, st]
    have hone : (1 : UInt64).toUInt32 = 1 := rfl
    grind
  | case4 st hinit hne hgt hlast => exact ⟨hrunning, by simpa [st] using hmark⟩
  | case5 st hinit hne hgt hlast => exact ⟨hrunning, by simpa [st] using hmark⟩

theorem Travelled.observeAll (h : Travelled first t) (seqs : List Sequence) :
    Travelled first (t.observeAll seqs).1 := by
  induction seqs generalizing t with
  | nil => exact h
  | cons seq seqs ih => exact ih (h.observe seq)

/-- The same in numbers, where the counters may be taken to have wrapped or not. -/
theorem Travelled.distance (h : Travelled first t) :
    (t.nextExpected - first).toNat ≡
      t.stats.inOrder.toNat + t.stats.gapEvents.toNat + t.stats.missing.toNat [MOD 2 ^ 32] := by
  have hsub : t.nextExpected - first =
      (t.stats.inOrder + t.stats.gapEvents + t.stats.missing).toUInt32 := by
    rw [h.mark]
    grind
  rw [hsub]
  simp only [UInt64.toNat_toUInt32, UInt64.toNat_add, Nat.ModEq]
  omega

/-! ## The classes -/

theorem observeAll_classified (seqs : List Sequence) (t : SequenceTracker)
    (htotal : t.stats.total.toNat = t.stats.classified)
    (hbound : t.stats.classified + seqs.length < 2 ^ 64) :
    (t.observeAll seqs).1.stats.total.toNat = (t.observeAll seqs).1.stats.classified := by
  induction seqs generalizing t with
  | nil => exact htotal
  | cons seq seqs ih =>
    rw [List.length_cons] at hbound
    obtain ⟨htotal', hclassified'⟩ := t.observe_counts seq (by omega) (by omega)
    exact ih _ (by omega) (by omega)

/-! ## The dropped numbers -/

/-- What two trackers have in common when one of them did not see the dropped numbers. -/
structure Agrees (t u : SequenceTracker) : Prop where
  initialized : u.initialized = t.initialized
  nextExpected : u.nextExpected = t.nextExpected
  inOrder : u.stats.inOrder = t.stats.inOrder
  gapEvents : u.stats.gapEvents = t.stats.gapEvents
  missing : u.stats.missing = t.stats.missing

/-- An accepted number is classified by the mark alone. -/
theorem Agrees.observe (h : Agrees t u) (seq : Sequence) (hfw : (t.observe seq).2.forwards = true) :
    (u.observe seq).2 = (t.observe seq).2 ∧ Agrees (t.observe seq).1 (u.observe seq).1 := by
  obtain ⟨hinit, hnext, hinOrder, hgaps, hmissing⟩ := h
  revert hfw
  rw [SequenceTracker.observe.eq_def u, hinit, hnext]
  fun_cases SequenceTracker.observe t seq with
  | case1 st hfresh =>
    intro _
    rw [if_pos hfresh]
    exact ⟨rfl, rfl, rfl, congrArg (· + 1) hinOrder, hgaps, hmissing⟩
  | case2 st hrun heq =>
    intro _
    rw [if_neg hrun, if_pos heq]
    exact ⟨rfl, rfl, rfl, congrArg (· + 1) hinOrder, hgaps, hmissing⟩
  | case3 st hrun hne hgt =>
    intro _
    rw [if_neg hrun, if_neg hne, if_pos hgt]
    exact ⟨rfl, rfl, rfl, hinOrder, congrArg (· + 1) hgaps, congrArg (· + _) hmissing⟩
  | case4 | case5 => simp [SeqStatus.forwards]

/-- A dropped number does not move what they have in common. -/
theorem Agrees.drop (h : Agrees t u) (seq : Sequence) (hfw : (t.observe seq).2.forwards = false) :
    Agrees (t.observe seq).1 u := by
  obtain ⟨hinit, hnext, hinOrder, hgaps, hmissing⟩ := h
  revert hfw
  fun_cases SequenceTracker.observe t seq with
  | case1 | case2 | case3 => simp [SeqStatus.forwards]
  | case4 | case5 => exact fun _ => ⟨hinit, hnext, hinOrder, hgaps, hmissing⟩

theorem accepted_cons (t : SequenceTracker) (seq : Sequence) (seqs : List Sequence) :
    t.accepted (seq :: seqs) = if (t.observe seq).2.forwards then
      (seq, (t.observe seq).2) :: (t.observe seq).1.accepted seqs
    else (t.observe seq).1.accepted seqs := by
  rw [accepted, SequenceTracker.observeAll, List.zip_cons_cons, List.filter_cons]
  rfl

theorem Agrees.observeAll (h : Agrees t u) (seqs : List Sequence) :
    (u.observeAll ((t.accepted seqs).map Prod.fst)).2 = (t.accepted seqs).map Prod.snd ∧
      Agrees (t.observeAll seqs).1 (u.observeAll ((t.accepted seqs).map Prod.fst)).1 := by
  induction seqs generalizing t u with
  | nil => exact ⟨rfl, h⟩
  | cons seq seqs ih =>
    rw [accepted_cons]
    split_ifs with hfw
    · obtain ⟨hstatus, hagrees⟩ := h.observe seq hfw
      obtain ⟨hstatuses, hend⟩ := ih hagrees
      exact ⟨congrArg₂ List.cons hstatus hstatuses, hend⟩
    · exact ih (h.drop seq (Bool.eq_false_iff.mpr hfw))

end

/-! ## The conservation laws -/

/-- What holds of a fresh tracker `t` after a stream, given what another one, `u`, makes of
the accepted numbers. -/
structure Conserves (first : Sequence) (kept : List (Sequence × SeqStatus)) (t : SequenceTracker)
    (u : SequenceTracker × List SeqStatus) : Prop where
  distance : (t.nextExpected - first).toNat ≡
    t.stats.inOrder.toNat + t.stats.gapEvents.toNat + t.stats.missing.toNat [MOD 2 ^ 32]
  total : t.stats.total.toNat = t.stats.inOrder.toNat + t.stats.duplicates.toNat +
    t.stats.outOfOrder.toNat + t.stats.gapEvents.toNat
  statuses : u.2 = kept.map Prod.snd
  nextExpected : u.1.nextExpected = t.nextExpected
  inOrder : u.1.stats.inOrder = t.stats.inOrder
  gapEvents : u.1.stats.gapEvents = t.stats.gapEvents
  missing : u.1.stats.missing = t.stats.missing

/-- For every stream of sequence numbers, of a length that the counters can hold. -/
theorem observeAll_conserves (first : Sequence) (rest : List Sequence)
    (hlength : (first :: rest).length < 2 ^ 64) :
    let fresh : SequenceTracker := {}
    let kept := fresh.accepted (first :: rest)
    Conserves first kept (fresh.observeAll (first :: rest)).1
      (fresh.observeAll (kept.map Prod.fst)) := by
  intro fresh kept
  have htravelled := (travelled_first first).observeAll rest
  have hfresh : Agrees fresh fresh := ⟨rfl, rfl, rfl, rfl, rfl⟩
  obtain ⟨hstatuses, hagrees⟩ := hfresh.observeAll (first :: rest)
  exact
    { distance := htravelled.distance
      total := observeAll_classified (first :: rest) fresh rfl
        (by simpa [fresh, SeqStats.classified] using hlength)
      statuses := hstatuses
      nextExpected := hagrees.nextExpected
      inOrder := hagrees.inOrder
      gapEvents := hagrees.gapEvents
      missing := hagrees.missing }

/-- A stream that starts at the last number before the wrap, skips three numbers behind it and
repeats two. -/
def wrappingStream : List Sequence := [0, 4, 4, 2, 5]

theorem observeAll_conserves_wrapping :
    Conserves 4294967295 (({} : SequenceTracker).accepted (4294967295 :: wrappingStream))
      (({} : SequenceTracker).observeAll (4294967295 :: wrappingStream)).1
      (({} : SequenceTracker).observeAll
        ((({} : SequenceTracker).accepted (4294967295 :: wrappingStream)).map Prod.fst)) :=
  observeAll_conserves 4294967295 wrappingStream (by decide)

end Mdfh.SequenceTracker
