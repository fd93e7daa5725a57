import Mdfh.Protocol

/-!
# Sequence-number validation

The tracker classifies each arriving sequence number against a high-water mark and
the last number seen. It never reorders the stream.
-/

namespace Mdfh

inductive SeqStatus where
  | inOrder | duplicate | gap | outOfOrder
  deriving DecidableEq, Repr

structure SeqStats where
  total : UInt64 := 0
  inOrder : UInt64 := 0
  duplicates : UInt64 := 0
  outOfOrder : UInt64 := 0
  gapEvents : UInt64 := 0
  missing : UInt64 := 0
  deriving DecidableEq, Repr

structure SequenceTracker where
  initialized : Bool := false
  nextExpected : Sequence := 0
  lastSeq : Sequence := 0
  stats : SeqStats := {}
  deriving DecidableEq, Repr

namespace SequenceTracker

def observe (t : SequenceTracker) (seq : Sequence) : SequenceTracker × SeqStatus :=
  let st := { t.stats with total := t.stats.total + 1 }
  if !t.initialized then
    ({ initialized := true, nextExpected := seq + 1, lastSeq := seq,
       stats := { st with inOrder := st.inOrder + 1 } }, .inOrder)
  else if seq = t.nextExpected then
    ({ t with nextExpected := seq + 1, lastSeq := seq,
              stats := { st with inOrder := st.inOrder + 1 } }, .inOrder)
  else if seq > t.nextExpected then
    ({ t with nextExpected := seq + 1, lastSeq := seq,
              stats := { st with missing := st.missing + (seq - t.nextExpected).toUInt64
                                 gapEvents := st.gapEvents + 1 } }, .gap)
  else if seq = t.lastSeq then
    ({ t with lastSeq := seq, stats := { st with duplicates := st.duplicates + 1 } }, .duplicate)
  else
    ({ t with lastSeq := seq, stats := { st with outOfOrder := st.outOfOrder + 1 } }, .outOfOrder)

/-- One observation for each number, with the statuses in order. -/
def observeAll (t : SequenceTracker) : List Sequence → SequenceTracker × List SeqStatus
  | [] => (t, [])
  | seq :: seqs =>
    let r := t.observe seq
    let rs := r.1.observeAll seqs
    (rs.1, r.2 :: rs.2)

end SequenceTracker

/-- The statuses whose message the feed handler forwards. -/
def SeqStatus.forwards : SeqStatus → Bool
  | .inOrder | .gap => true
  | .duplicate | .outOfOrder => false

namespace SequenceTracker

variable {t : SequenceTracker} {seq : Sequence}

theorem observe_first (h : t.initialized = false) :
    (t.observe seq).2.forwards = true ∧ (t.observe seq).1.initialized = true ∧
      (t.observe seq).1.nextExpected = seq + 1 ∧
      (t.observe seq).1.stats.missing = t.stats.missing := by
  simp [observe, h, SeqStatus.forwards]

/-- A number at or beyond the high-water mark is forwarded and moves the mark behind it. -/
theorem observe_ahead (h : t.initialized = true) (hle : t.nextExpected ≤ seq) :
    (t.observe seq).2.forwards = true ∧ (t.observe seq).1.initialized = true ∧
      (t.observe seq).1.nextExpected = seq + 1 ∧
      (t.observe seq).1.stats.missing = t.stats.missing + (seq - t.nextExpected).toUInt64 := by
  by_cases heq : seq = t.nextExpected
  · simp [observe, h, heq, SeqStatus.forwards]
  · have hlt : t.nextExpected < seq := UInt32.lt_of_le_of_ne hle (Ne.symm heq)
    simp [observe, h, heq, hlt, SeqStatus.forwards]

/-- A number below the high-water mark is dropped and moves nothing. -/
theorem observe_behind (h : t.initialized = true) (hlt : seq < t.nextExpected) :
    (t.observe seq).2.forwards = false ∧ (t.observe seq).1.initialized = true ∧
      (t.observe seq).1.nextExpected = t.nextExpected ∧
      (t.observe seq).1.stats.missing = t.stats.missing := by
  have hne : seq ≠ t.nextExpected := UInt32.ne_of_lt hlt
  have hngt : ¬t.nextExpected < seq := UInt32.lt_asymm hlt
  by_cases hlast : seq = t.lastSeq
  · have hne' := hlast ▸ hne
    have hngt' := hlast ▸ hngt
    simp [observe, h, hlast, hne', hngt', SeqStatus.forwards]
  · simp [observe, h, hne, hngt, hlast, SeqStatus.forwards]

end SequenceTracker

end Mdfh
