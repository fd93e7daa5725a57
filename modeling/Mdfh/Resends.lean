import Mdfh.Delivery
import Mdfh.FrameWalk

/-!
# Messages sent again

What the feed handler does with a message whose number it has already passed. The tracker
compares numbers as plain 32-bit words while its high-water mark wraps, so a number sent
before the wrap looks new behind it.

## Main definitions

* `consecutive` — a live stream, numbered modulo 2^32.
* `FeedHandler.IgnoresResend` — a repeated number is dropped and later ones are not.
* `StaleInsertion` — a list of messages with stale ones inserted.

## Main results

* `resend_iff` — a re-send is ignored if and only if it does not cross the wrap.
* `feed_stale` — stale messages never reach the sink.
-/

namespace Mdfh

open Library

/-- The numbers `s, s + 1, …` modulo 2^32, `n` of them. -/
def consecutive (s : Sequence) : Nat → List Sequence
  | 0 => []
  | n + 1 => s :: consecutive (s + 1) n

namespace SequenceTracker

variable {t : SequenceTracker} {s : Sequence}

/-- The tracker waits for the number `s`; before the first observation it takes any. -/
def Awaits (t : SequenceTracker) (s : Sequence) : Prop :=
  t.initialized = true → t.nextExpected = s

theorem observe_awaited (h : t.Awaits s) :
    (t.observe s).2 = .inOrder ∧ (t.observe s).1.initialized = true ∧
      (t.observe s).1.nextExpected = s + 1 := by
  cases hinit : t.initialized with
  | false => simp [observe, hinit]
  | true => simp [observe, hinit, h hinit]

/-- A live stream stays in order across the wrap. -/
theorem observeAll_consecutive (h : t.Awaits s) (n : Nat) :
    (t.observeAll (consecutive s n)).2 = List.replicate n .inOrder ∧
      (t.observeAll (consecutive s n)).1.Awaits (s + UInt32.ofNat n) ∧
      (0 < n → (t.observeAll (consecutive s n)).1.initialized = true) := by
  induction n generalizing t s with
  | zero => simpa [observeAll, consecutive] using h
  | succ n ih =>
    obtain ⟨hstatus, hinit, hnext⟩ := observe_awaited h
    obtain ⟨hstatuses, hawaits, hinit'⟩ := ih (t := (t.observe s).1) (s := s + 1) fun _ => hnext
    have hstart : s + UInt32.ofNat (n + 1) = s + 1 + UInt32.ofNat n := by
      rw [UInt32.ofNat_add, UInt32.add_comm (UInt32.ofNat n), ← UInt32.add_assoc]
      rfl
    refine ⟨?_, ?_, ?_⟩
    · rw [consecutive, observeAll, hstatuses, hstatus, List.replicate_succ]
    · rw [hstart]
      exact hawaits
    · intro _
      cases n with
      | zero => exact hinit
      | succ n => exact hinit' n.succ_pos

end SequenceTracker

namespace FeedHandler

open SequenceTracker

variable {δ : Type} {fh : FeedHandler δ}

/-- One call of `accept` for each number, with the values returned. -/
def acceptAll : List Sequence → FeedHandler δ → FeedHandler δ × List Bool
  | [], fh => (fh, [])
  | seq :: seqs, fh =>
    let r := fh.accept seq
    let rs := acceptAll seqs r.1
    (rs.1, r.2 :: rs.2)

theorem accept_seq (seq : Sequence) (fh : FeedHandler δ) :
    (fh.accept seq).1.seq = (fh.seq.observe seq).1 ∧
      (fh.accept seq).2 = (fh.seq.observe seq).2.forwards := by
  cases hst : (fh.seq.observe seq).2 <;> simp [accept, hst, SeqStatus.forwards]

theorem acceptAll_seq (seqs : List Sequence) (fh : FeedHandler δ) :
    (acceptAll seqs fh).1.seq = (fh.seq.observeAll seqs).1 ∧
      (acceptAll seqs fh).2 = (fh.seq.observeAll seqs).2.map SeqStatus.forwards := by
  induction seqs generalizing fh with
  | nil => exact ⟨rfl, rfl⟩
  | cons seq seqs ih =>
    obtain ⟨hseq, hforwards⟩ := accept_seq seq fh
    obtain ⟨hseqs, hall⟩ := ih (fh.accept seq).1
    rw [hseq] at hseqs hall
    refine ⟨hseqs, ?_⟩
    rw [acceptAll, observeAll, hforwards, hall]
    rfl

/-- The number `again` is classified as behind, nothing is forwarded for it, the mark stays
at `live`, and the stream that goes on from there is forwarded in full. -/
structure IgnoresResend (fh : FeedHandler δ) (again live : Sequence) : Prop where
  status : (fh.seq.observe again).2 = .duplicate ∨ (fh.seq.observe again).2 = .outOfOrder
  mark : (fh.seq.observe again).1.nextExpected = live
  dropped : (fh.accept again).2 = false
  continues : ∀ m, (acceptAll (consecutive live m) (fh.accept again).1).2 = List.replicate m true

theorem forwards_eq_false_iff {status : SeqStatus} :
    status.forwards = false ↔ status = .duplicate ∨ status = .outOfOrder := by
  cases status <;> simp [SeqStatus.forwards]

/-- A number is ignored if and only if it is below the mark as a 32-bit word. -/
theorem ignoresResend_iff (hinit : fh.seq.initialized = true) (again : Sequence) :
    fh.IgnoresResend again fh.seq.nextExpected ↔ again < fh.seq.nextExpected := by
  constructor
  · intro h
    by_contra hge
    have hforwards := (observe_ahead hinit (UInt32.not_lt.mp hge)).1
    rw [forwards_eq_false_iff.mpr h.status] at hforwards
    exact Bool.noConfusion hforwards
  · intro hlt
    obtain ⟨hdrop, -, hmark, -⟩ := observe_behind hinit hlt
    obtain ⟨hseq, hforwards⟩ := accept_seq again fh
    refine ⟨forwards_eq_false_iff.mp hdrop, hmark, hforwards.trans hdrop, ?_⟩
    intro m
    have hawaits : (fh.accept again).1.seq.Awaits fh.seq.nextExpected := by
      intro _
      rw [hseq, hmark]
    rw [(acceptAll_seq _ _).2, (observeAll_consecutive hawaits m).1, List.map_replicate]
    rfl

/-- After `n` live numbers from `s` on, all of them in order, the re-send of one of them is
ignored if and only if no wrap lies between it and the mark: the mark modulo 2^32 is greater
than the distance `j` of the number from the last one. -/
theorem resend_iff (d : δ) (s : Sequence) (n j : Nat) (hj : j < min n (2 ^ 31)) :
    let live := s + UInt32.ofNat n
    (observeAll {} (consecutive s n)).2 = List.replicate n .inOrder ∧
      ((acceptAll (consecutive s n) { down := d }).1.IgnoresResend
        (live - 1 - UInt32.ofNat j) live ↔ j < live.toNat) := by
  intro live
  have hfresh : Awaits {} s := nofun
  obtain ⟨hstatuses, hawaits, hinit⟩ := observeAll_consecutive hfresh n
  refine ⟨hstatuses, ?_⟩
  have hrun := (acceptAll_seq (consecutive s n) ({ down := d } : FeedHandler δ)).1
  set fh := (acceptAll (consecutive s n) ({ down := d } : FeedHandler δ)).1
  have hinit : fh.seq.initialized = true := hrun ▸ hinit (by omega)
  have hmark : fh.seq.nextExpected = live := hrun ▸ hawaits (hrun ▸ hinit)
  have hiff := ignoresResend_iff hinit (live - 1 - UInt32.ofNat j)
  rw [hmark] at hiff
  have hword : (live - 1 - UInt32.ofNat j).toNat = (live.toNat + 2 ^ 32 - 1 - j) % 2 ^ 32 := by
    have hone : (1 : UInt32).toNat = 1 := rfl
    rw [UInt32.toNat_sub, UInt32.toNat_sub, UInt32.toNat_ofNat', hone]
    omega
  have hlive := live.toNat_lt
  rw [hiff, UInt32.lt_iff_toNat_lt, hword]
  omega

/-- Five numbers far from the wrap, the third sent again. -/
theorem resend_early :
    (acceptAll (consecutive 100 5) { down := () }).1.IgnoresResend 102 105 :=
  (resend_iff () 100 5 2 (by decide)).2.mpr (by decide)

/-- Three numbers across the wrap, the first sent again: it is taken for a gap and forwarded
a second time, and the next live number is dropped. -/
theorem resend_wrapped :
    let r := acceptAll (consecutive 4294967294 3) { down := () }
    r.2 = [true, true, true] ∧ (r.1.seq.observe 4294967294).2 = .gap ∧
      (r.1.accept 4294967294).2 = true ∧
      (acceptAll [1] (r.1.accept 4294967294).1).2 = [false] := by
  decide

end FeedHandler

/-! ## Stale messages among live ones -/

/-- The first list is the second with messages inserted whose number is at most that of some
message of the second list in front of them, or of `seen`. -/
inductive StaleInsertion : List Message → List Message → List Message → Prop
  | nil {seen : List Message} : StaleInsertion seen [] []
  | live {seen all live : List Message} (m : Message) : StaleInsertion (m :: seen) all live →
      StaleInsertion seen (m :: all) (m :: live)
  | stale {seen all live : List Message} (m old : Message) : old ∈ seen → m.seq ≤ old.seq →
      StaleInsertion seen all live → StaleInsertion seen (m :: all) live

theorem StaleInsertion.refl (seen ms : List Message) : StaleInsertion seen ms ms := by
  induction ms generalizing seen with
  | nil => exact .nil
  | cons m ms ih => exact .live m (ih _)

namespace FeedHandler

open SequenceTracker

variable {δ : Type} (D : HandlerLike δ)

/-- The mark is above everything seen and not above what is still to come. -/
structure Between (t : SequenceTracker) (seen ahead : List Message) : Prop where
  passed : ∀ m ∈ seen, t.initialized = true ∧ m.seq < t.nextExpected
  ahead : ∀ m ∈ ahead, t.initialized = true → t.nextExpected ≤ m.seq

/-- A live message is forwarded and moves the mark right behind it. -/
theorem Between.live {t : SequenceTracker} {seen ahead : List Message} {m : Message}
    (h : Between t seen (m :: ahead)) (hasc : ∀ m' ∈ ahead, m.seq < m'.seq)
    (hbound : m.seq.toNat < 2 ^ 32 - 1) :
    (t.observe m.seq).2.forwards = true ∧ Between (t.observe m.seq).1 (m :: seen) ahead := by
  obtain ⟨hforwards, hinit, hmark⟩ : (t.observe m.seq).2.forwards = true ∧
      (t.observe m.seq).1.initialized = true ∧ (t.observe m.seq).1.nextExpected = m.seq + 1 := by
    cases hinit : t.initialized with
    | false =>
      obtain ⟨hforwards, hinit', hmark, -⟩ := @observe_first t m.seq hinit
      exact ⟨hforwards, hinit', hmark⟩
    | true =>
      obtain ⟨hforwards, hinit', hmark, -⟩ := observe_ahead hinit (h.ahead m List.mem_cons_self hinit)
      exact ⟨hforwards, hinit', hmark⟩
  have hnext : (m.seq + 1).toNat = m.seq.toNat + 1 := by
    rw [UInt32.toNat_add]
    exact Nat.mod_eq_of_lt (by simp; omega)
  refine ⟨hforwards, ?_, ?_⟩
  · intro old hold
    rw [hmark, UInt32.lt_iff_toNat_lt, hnext]
    refine ⟨hinit, ?_⟩
    rcases List.mem_cons.mp hold with rfl | hold
    · exact Nat.lt_succ_self _
    · obtain ⟨hinit, hlt⟩ := h.passed old hold
      have hle := h.ahead m List.mem_cons_self hinit
      rw [UInt32.lt_iff_toNat_lt] at hlt
      rw [UInt32.le_iff_toNat_le] at hle
      omega
  · intro m' hm' _
    rw [hmark, UInt32.le_iff_toNat_le, hnext]
    exact UInt32.lt_iff_toNat_lt.mp (hasc m' hm')

/-- A stale message is dropped and leaves the mark where it is. -/
theorem Between.stale {t : SequenceTracker} {seen ahead : List Message} {m old : Message}
    (h : Between t seen ahead) (hold : old ∈ seen) (hle : m.seq ≤ old.seq) :
    (t.observe m.seq).2.forwards = false ∧ Between (t.observe m.seq).1 seen ahead := by
  obtain ⟨hinit, hlt⟩ := h.passed old hold
  obtain ⟨hforwards, hinit', hmark, -⟩ := observe_behind hinit (UInt32.lt_of_le_of_lt hle hlt)
  refine ⟨hforwards, ?_, ?_⟩
  · intro m' hm'
    rw [hmark]
    exact ⟨hinit', (h.passed m' hm').2⟩
  · intro m' hm' _
    rw [hmark]
    exact h.ahead m' hm' hinit

/-- Stale messages never reach the sink. -/
theorem receive_stale {seen all live : List Message} (hstale : StaleInsertion seen all live)
    {fh : FeedHandler δ} (hbetween : Between fh.seq seen live)
    (hasc : live.Pairwise (·.seq < ·.seq)) (hbound : ∀ m ∈ live, m.seq.toNat < 2 ^ 32 - 1) :
    (all.foldl (receive D) fh).down =
      live.foldl (fun s m => D.onMessage m.header m.body s) fh.down := by
  induction hstale generalizing fh with
  | nil => rfl
  | live m _ ih =>
    obtain ⟨hm, hasc⟩ := List.pairwise_cons.mp hasc
    obtain ⟨hboundm, hbound⟩ := List.forall_mem_cons.mp hbound
    obtain ⟨hforwards, hbetween'⟩ := hbetween.live hm hboundm
    have hreceive : receive D fh m = { fh with
        seq := (fh.seq.observe m.seq).1
        forwarded := fh.forwarded + 1
        down := D.onMessage m.header m.body fh.down } := by
      rw [receive, forwardIf_eq, if_pos hforwards]
    rw [List.foldl_cons, List.foldl_cons, ih (hreceive ▸ hbetween') hasc hbound, hreceive]
  | stale m old hold hle _ ih =>
    obtain ⟨hforwards, hbetween'⟩ := hbetween.stale hold hle
    have hreceive : receive D fh m = { fh with
        seq := (fh.seq.observe m.seq).1
        dropped := fh.dropped + 1 } := by
      rw [receive, forwardIf_eq, if_neg (by simp [hforwards])]
    rw [List.foldl_cons, ih (hreceive ▸ hbetween') hasc hbound, hreceive]

variable {D} in
/-- A stream of whole encoded frames in chunks is received message by message. -/
theorem feedAll_messages (hD : D.OffsetBlind) {chunks : List (List UInt8)} {ms : List Message}
    (hchunks : chunks.flatten = ms.flatMap Message.bytes) (s : δ) :
    (feedAll D chunks { down := s }).down = (ms.foldl (receive D) { down := s }).down := by
  have hvalid (bad : Nat) : ¬MeetsInvalidType chunks.flatten 0 bad := by
    intro hbad
    have hstop := (scan_stopped_iff _).mpr ⟨bad, hbad⟩
    rw [hchunks, Message.scan_bytes] at hstop
    exact Bool.noConfusion hstop
  rw [feedAll_eq hD chunks { down := s } (.inl (Nat.succ_pos 15)) hvalid, hchunks,
    consume_receive D ms _ rfl]

theorem eq_of_map_eraseOffset {log : List Callback} {ms : List Message}
    (h : log.map Callback.eraseOffset = ms.map Message.callback) :
    log = ms.map Message.callback := by
  induction log generalizing ms with
  | nil => simpa using h
  | cons c log ih =>
    obtain ⟨m, ms, rfl⟩ : ∃ m ms', ms = m :: ms' := List.exists_cons_of_ne_nil (by rintro rfl; simp at h)
    obtain ⟨hc, hlog⟩ := List.cons.inj h
    cases c with
    | message hdr body => rw [ih hlog, List.map_cons, ← hc]; rfl
    | malformed off => exact nomatch hc

theorem foldl_recorder (ms : List Message) (log : List Callback) :
    ms.foldl (fun log m => recorder.onMessage m.header m.body log) log =
      log ++ ms.map Message.callback := by
  have hdeliver : ms.foldl (fun log m => recorder.onMessage m.header m.body log) log =
      recorder.deliverAll log (ms.map Message.callback) := by
    rw [HandlerLike.deliverAll, List.foldl_map]
    rfl
  rw [hdeliver, recorder_deliverAll]

/-- Stale messages of any kind, inserted anywhere behind a live message with a number that
is not below theirs: the sink receives the live messages, and the builder ends as if it had
been fed them alone. So it is for a stream in any chunks and for datagrams of any size. -/
theorem feed_stale {live all : List Message} (hasc : live.Pairwise (·.seq < ·.seq))
    (hbound : ∀ m ∈ live, m.seq.toNat < 2 ^ 32 - 1) (hstale : StaleInsertion [] all live) :
    let clean := (consume builderHandler (live.flatMap Message.bytes) { down := {} }).1.down
    (∀ chunks : List (List UInt8), chunks.flatten = all.flatMap Message.bytes →
      (feedAll recorder chunks { down := [] }).down = live.map Message.callback ∧
        let fed := (feedAll builderHandler chunks { down := {} }).down
        fed.manager = clean.manager ∧ fed.stats = clean.stats ∧
          bookFingerprint fed.manager = bookFingerprint clean.manager) ∧
    ∀ datagrams : List (List Message), datagrams.flatten = all →
      (receiveAll recorder datagrams { down := [] }).down = live.map Message.callback ∧
        let fed := (receiveAll builderHandler datagrams { down := {} }).down
        fed.manager = clean.manager ∧ fed.stats = clean.stats ∧
          bookFingerprint fed.manager = bookFingerprint clean.manager := by
  intro clean
  have hfold {δ : Type} (D : HandlerLike δ) (s : δ) {all' : List Message}
      (h : StaleInsertion [] all' live) : (all'.foldl (receive D) { down := s }).down =
        live.foldl (fun s m => D.onMessage m.header m.body s) s := by
    have hstart : Between ({ down := s } : FeedHandler δ).seq [] live := ⟨nofun, nofun⟩
    exact receive_stale D h hstart hasc hbound
  have hlog : (all.foldl (receive recorder) { down := [] }).down = live.map Message.callback := by
    rw [hfold recorder [] hstale, foldl_recorder, List.nil_append]
  have hclean : (all.foldl (receive builderHandler) { down := {} }).down = clean := by
    rw [hfold builderHandler {} hstale, ← hfold builderHandler {} (.refl [] live)]
    exact (congrArg FeedHandler.down (consume_receive builderHandler live _ rfl)).symm
  constructor
  · intro chunks hchunks
    have hblind : (feedAll blindRecorder chunks { down := [] }).down =
        live.map Message.callback := by
      rw [feedAll_messages blindRecorder_offsetBlind hchunks, hfold blindRecorder [] hstale]
      exact (foldl_recorder live []).trans (List.nil_append _)
    have hmap := congrArg FeedHandler.down
      (feedAll_mapDown recorder_maps chunks { down := [] })
    have hbuilder := (feedAll_messages builderHandler_offsetBlind hchunks {}).trans hclean
    refine ⟨eq_of_map_eraseOffset (hmap.trans hblind), ?_⟩
    rw [hbuilder]
    exact ⟨rfl, rfl, rfl⟩
  · intro datagrams hdatagrams
    rw [receiveAll_eq, receiveAll_eq, hdatagrams, hlog, hclean]
    exact ⟨rfl, rfl, rfl, rfl⟩

/-- Two live orders; behind the first its cancellation under an older number, behind the
second the first order again. -/
theorem feed_stale_cancel :
    let add (n : Sequence) : Message := ⟨n, 0, .addOrder ⟨7, n.toUInt64, .buy, 100, 5⟩⟩
    let live := [add 4, add 6]
    let all := [add 4, ⟨3, 0, .cancelOrder ⟨7, 4⟩⟩, add 6, add 4]
    (receiveAll recorder [all] { down := [] }).down = live.map Message.callback := by
  intro add live all
  have hstale : StaleInsertion [] all live :=
    .live (add 4) (.stale _ (add 4) (by simp) (by decide)
      (.live (add 6) (.stale (add 4) (add 6) (by simp) (by decide) .nil)))
  have hasc : live.Pairwise (·.seq < ·.seq) := by decide
  have hbound : ∀ m ∈ live, m.seq.toNat < 2 ^ 32 - 1 := by decide
  exact ((feed_stale hasc hbound hstale).2 [all] (List.append_nil _)).1

end FeedHandler

end Mdfh
