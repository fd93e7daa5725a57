import Mathlib.Data.List.Sort
import Mathlib.Order.Interval.Finset.Nat
import Mdfh.FeedHandler
import Mdfh.Stream

/-!
# Delivery over datagrams

Datagrams carry whole encoded frames, but the network may lose, repeat and reorder them.
The feed handler forwards a message only if its number is at or beyond the high-water
mark, so what reaches the sink is an ascending part of what was sent.

## Main definitions

* `Message` — a sequence number, a timestamp and a body, as sent.
* `Tracks` — what the tracker knows about the numbers forwarded so far.

## Main results

* `consumeDatagram_messages` — a datagram of whole frames is a fold over its messages.
* `receiveAll_delivery` — the forwarded messages ascend, and `missing` counts the rest.
-/

namespace Mdfh

open Library SequenceTracker

structure Message where
  seq : Sequence
  ts : TimestampNs
  body : Body
  deriving DecidableEq

namespace Message

def bytes (m : Message) : List UInt8 := encodeFrame m.seq m.ts m.body

def header (m : Message) : MessageHeader := encodedHeader m.seq m.ts m.body

def item (m : Message) : StreamItem := .message m.seq m.ts m.body

/-- The call that reports the message to a sink. -/
def callback (m : Message) : Callback := .message m.header m.body

theorem callbacksFrom_items (off : Nat) (ms : List Message) :
    StreamItem.callbacksFrom off (ms.map item) = ms.map callback := by
  induction ms generalizing off with
  | nil => rfl
  | cons m ms ih => exact congrArg (m.callback :: ·) (ih _)

/-- The scan of a list of whole encoded frames. -/
theorem scan_bytes (ms : List Message) :
    frameScanner.scan (ms.flatMap bytes) =
      ⟨Scanner.positions 0 ((ms.map item).map StreamItem.unit), [], false⟩ := by
  have hscan := scan_items (ms.map item) [] rfl
  rwa [List.append_nil, List.flatMap_map] at hscan

end Message

namespace FeedHandler

variable {δ : Type} (D : HandlerLike δ)

/-- The effect of one well-formed message. -/
def receive (fh : FeedHandler δ) (m : Message) : FeedHandler δ :=
  forwardIf m.seq (D.onMessage m.header m.body) fh

theorem deliver_callback (m : Message) (fh : FeedHandler δ) :
    (handler D).deliver m.callback fh = receive D fh m := deliver_message D m.header m.body fh

theorem afterScan_messages (ms : List Message) (fh : FeedHandler δ) :
    afterScan D (frameScanner.scan (ms.flatMap Message.bytes)) fh = ms.foldl (receive D) fh := by
  have hcalls : callbacks (frameScanner.scan (ms.flatMap Message.bytes)) =
      ms.map Message.callback := by
    rw [Message.scan_bytes, callbacks, StreamItem.callbackOf_positions,
      Message.callbacksFrom_items]
  have hcount : countMalformed (frameScanner.scan (ms.flatMap Message.bytes)) = 0 := by
    rw [Message.scan_bytes, countMalformed, StreamItem.countP_positions 0 _ Option.isNone,
      List.countP_map]
    exact List.countP_eq_zero.mpr fun m _ => Bool.false_ne_true
  have hfold : (handler D).deliverAll fh (ms.map Message.callback) = ms.foldl (receive D) fh := by
    simp only [HandlerLike.deliverAll, List.foldl_map, deliver_callback]
  rw [afterScan, hcalls, hcount, hfold]
  simp

/-- A datagram of whole encoded frames is received message by message. -/
theorem consumeDatagram_messages (ms : List Message) (fh : FeedHandler δ) :
    (consumeDatagram D (ms.flatMap Message.bytes) fh).1 = ms.foldl (receive D) fh := by
  rw [consumeDatagram_eq, afterScan_messages]

/-- So is a stream chunk that begins and ends at frame boundaries. -/
theorem consume_receive (ms : List Message) (fh : FeedHandler δ) (hres : fh.residual = []) :
    (consume D (ms.flatMap Message.bytes) fh).1 =
      { ms.foldl (receive D) fh with residual := [] } := by
  have hconsume := consume_eq D (ms.flatMap Message.bytes) fh
  rw [hres, List.nil_append] at hconsume
  rw [hconsume, afterScan_messages, Message.scan_bytes]

/-- One call of `consumeDatagram` for each datagram, given by the messages it carries. -/
def receiveAll (datagrams : List (List Message)) (fh : FeedHandler δ) : FeedHandler δ :=
  datagrams.foldl (fun fh ms => (consumeDatagram D (ms.flatMap Message.bytes) fh).1) fh

theorem receiveAll_eq (datagrams : List (List Message)) (fh : FeedHandler δ) :
    receiveAll D datagrams fh = datagrams.flatten.foldl (receive D) fh := by
  simp only [receiveAll, consumeDatagram_messages, List.foldl_flatten]

end FeedHandler

/-! ## What the tracker knows -/

/-- The numbers strictly inside the range of a list that are not in the list. -/
def skipped : List Nat → Finset Nat
  | [] => ∅
  | a :: as => (Finset.Icc a ((a :: as).getLast (List.cons_ne_nil a as))).filter (· ∉ a :: as)

/-- The tracker's state after forwarding messages with the given numbers. -/
inductive Tracks (t : SequenceTracker) : List Nat → Prop
  | idle : t.initialized = false → t.stats.missing = 0 → Tracks t []
  | running {a b : Nat} {seqs : List Nat} : seqs.head? = some a → seqs.getLast? = some b →
      t.initialized = true → t.nextExpected.toNat = b + 1 →
      a + t.stats.missing.toNat + seqs.length = b + 1 → Tracks t seqs

theorem le_getLast {seqs : List Nat} {b : Nat} (hasc : seqs.Pairwise (· < ·))
    (hb : seqs.getLast? = some b) : ∀ x ∈ seqs, x ≤ b := by
  obtain ⟨front, rfl⟩ := List.getLast?_eq_some_iff.mp hb
  intro x hx
  have hlt := (List.pairwise_append.mp hasc).2.2
  rcases List.mem_append.mp hx with hfront | hlast
  · exact (hlt x hfront b (by simp)).le
  · exact (List.mem_singleton.mp hlast).le

theorem card_skipped {seqs : List Nat} {a b : Nat} (hasc : seqs.Pairwise (· < ·))
    (ha : seqs.head? = some a) (hb : seqs.getLast? = some b) :
    (skipped seqs).card + a + seqs.length = b + 1 := by
  obtain ⟨as, rfl⟩ := List.head?_eq_some_iff.mp ha
  have hlast : (a :: as).getLast (List.cons_ne_nil a as) = b :=
    Option.some.inj ((List.getLast?_eq_getLast_of_ne_nil _).symm.trans hb)
  have hle := le_getLast hasc hb
  have hge : ∀ x ∈ a :: as, a ≤ x := by
    intro x hx
    rcases List.mem_cons.mp hx with rfl | htail
    · exact le_rfl
    · exact ((List.pairwise_cons.mp hasc).1 x htail).le
  have hsub : (a :: as).toFinset ⊆ Finset.Icc a b := by
    intro x hx
    have hx := List.mem_toFinset.mp hx
    exact Finset.mem_Icc.mpr ⟨hge x hx, hle x hx⟩
  have hsdiff : skipped (a :: as) = Finset.Icc a b \ (a :: as).toFinset := by
    ext x
    simp [skipped, hlast]
  have hcard : (a :: as).toFinset.card = (a :: as).length :=
    List.toFinset_card_of_nodup (hasc.imp Nat.ne_of_lt)
  have htotal := Finset.card_sdiff_add_card_eq_card hsub
  rw [← hsdiff, hcard, Nat.card_Icc] at htotal
  have hab := hle a (by simp)
  omega

theorem Tracks.missing_eq {t : SequenceTracker} {seqs : List Nat} (h : Tracks t seqs)
    (hasc : seqs.Pairwise (· < ·)) : t.stats.missing.toNat = (skipped seqs).card := by
  cases h with
  | idle _ hmissing => simp [hmissing, skipped]
  | running ha hb _ _ hcount =>
    have := card_skipped hasc ha hb
    omega

/-- One observation either forwards a number above all earlier ones or changes nothing the
tracker knows. -/
theorem Tracks.observe {t : SequenceTracker} {seqs : List Nat} (h : Tracks t seqs)
    (hasc : seqs.Pairwise (· < ·)) (seq : Sequence) (hbound : seq.toNat < 2 ^ 32 - 1) :
    ((t.observe seq).2.forwards = true ∧ (∀ x ∈ seqs, x < seq.toNat) ∧
        Tracks (t.observe seq).1 (seqs ++ [seq.toNat])) ∨
      ((t.observe seq).2.forwards = false ∧ Tracks (t.observe seq).1 seqs) := by
  have hnext : (seq + 1).toNat = seq.toNat + 1 := by
    rw [UInt32.toNat_add]
    simp
    omega
  cases h with
  | idle hinit hmissing =>
    obtain ⟨hfw, hinit', hnext', hmissing'⟩ := @observe_first t seq hinit
    refine .inl ⟨hfw, by simp, .running (a := seq.toNat) (b := seq.toNat) rfl rfl hinit'
      (by rw [hnext', hnext]) ?_⟩
    simp [hmissing', hmissing]
  | @running a b _ ha hb hinit hmark hcount =>
    by_cases hle : t.nextExpected ≤ seq
    · obtain ⟨hfw, hinit', hnext', hmissing'⟩ := observe_ahead hinit hle
      have hlen : 0 < seqs.length := List.length_pos_of_mem (List.mem_of_getLast? hb)
      have habove : b < seq.toNat := by
        have := UInt32.le_iff_toNat_le.mp hle
        omega
      refine .inl ⟨hfw, fun x hx => (le_getLast hasc hb x hx).trans_lt habove,
        .running (a := a) (b := seq.toNat) ?_ ?_ hinit' (by rw [hnext', hnext]) ?_⟩
      · simp [ha]
      · simp
      · have hgap : (seq - t.nextExpected).toNat = seq.toNat - (b + 1) := by
          rw [UInt32.toNat_sub_of_le _ _ hle, hmark]
        rw [hmissing', UInt64.toNat_add, UInt32.toNat_toUInt64, hgap, List.length_append,
          List.length_singleton, Nat.mod_eq_of_lt (by omega)]
        omega
    · obtain ⟨hfw, hinit', hnext', hmissing'⟩ := observe_behind hinit (UInt32.not_le.mp hle)
      exact .inr ⟨hfw, .running ha hb hinit' (by rw [hnext', hmark]) (by rw [hmissing', hcount])⟩

/-! ## Runs -/

namespace FeedHandler

/-- The invariant of delivery: the log is an ascending list `fw` of sent messages, and the
tracker counts what is missing between them. -/
structure Delivered (sent : List Message) (fh : FeedHandler (List Callback))
    (fw : List Message) : Prop where
  log : fh.down = fw.map Message.callback
  subset : fw ⊆ sent
  ascending : fw.Pairwise (·.seq.toNat < ·.seq.toNat)
  tracks : Tracks fh.seq (fw.map (·.seq.toNat))

theorem Delivered.receive {sent : List Message} {fh : FeedHandler (List Callback)}
    {fw : List Message} (h : Delivered sent fh fw) {m : Message} (hm : m ∈ sent)
    (hbound : m.seq.toNat < 2 ^ 32 - 1) :
    ∃ fw', Delivered sent (receive recorder fh m) fw' := by
  have hseqs : (fw.map (·.seq.toNat)).Pairwise (· < ·) := List.pairwise_map.mpr h.ascending
  have hcall : recorder.onMessage m.header m.body fh.down = fh.down ++ [m.callback] :=
    recorder_deliver m.callback fh.down
  rcases h.tracks.observe hseqs m.seq hbound with ⟨hforward, habove, htracks⟩ | ⟨hdrop, htracks⟩
  · refine ⟨fw ++ [m], ?_⟩
    rw [FeedHandler.receive, forwardIf_eq, if_pos hforward]
    constructor
    · exact hcall.trans (by simp [h.log])
    · exact List.append_subset.mpr ⟨h.subset, by simpa using hm⟩
    · refine List.pairwise_append.mpr ⟨h.ascending, List.pairwise_singleton _ _, ?_⟩
      intro m' hm' m'' hm''
      rw [List.mem_singleton.mp hm'']
      exact habove _ (List.mem_map_of_mem hm')
    · simpa using htracks
  · refine ⟨fw, ?_⟩
    rw [FeedHandler.receive, forwardIf_eq, if_neg (by simp [hdrop])]
    exact ⟨h.log, h.subset, h.ascending, htracks⟩

theorem Delivered.receives {sent : List Message} (hbound : ∀ m ∈ sent, m.seq.toNat < 2 ^ 32 - 1)
    (ms : List Message) (hms : ms ⊆ sent) {fh : FeedHandler (List Callback)} {fw : List Message}
    (h : Delivered sent fh fw) : ∃ fw', Delivered sent (ms.foldl (FeedHandler.receive recorder) fh) fw' := by
  induction ms generalizing fh fw with
  | nil => exact ⟨fw, h⟩
  | cons m ms ih =>
    obtain ⟨hm, hms⟩ := List.cons_subset.mp hms
    obtain ⟨fw', h'⟩ := h.receive hm (hbound m hm)
    exact ih hms h'

/-- Whatever the network loses, repeats or reorders: the forwarded messages are a
subsequence of those sent, with strictly increasing numbers, and `missing` is the number of
sequence numbers between the first and the last of them that were not forwarded. -/
theorem receiveAll_delivery (first : Nat) (sent : List Message)
    (hseq : sent.map (·.seq.toNat) = List.range' first sent.length)
    (hbound : ∀ m ∈ sent, m.seq.toNat < 2 ^ 32 - 1) (datagrams : List (List Message))
    (hsent : ∀ ms ∈ datagrams, ms ⊆ sent) :
    let fh := receiveAll recorder datagrams { down := [] }
    ∃ fw : List Message, fh.down = fw.map Message.callback ∧ fw.Sublist sent ∧
      fw.Pairwise (·.seq.toNat < ·.seq.toNat) ∧
      fh.seq.stats.missing.toNat = (skipped (fw.map (·.seq.toNat))).card := by
  intro fh
  have hall : datagrams.flatten ⊆ sent := by
    intro m hm
    obtain ⟨ms, hms, hm⟩ := List.mem_flatten.mp hm
    exact hsent ms hms hm
  have hstart : Delivered sent { down := [] } [] :=
    ⟨rfl, List.nil_subset _, .nil, .idle rfl rfl⟩
  obtain ⟨fw, hfw⟩ := hstart.receives hbound datagrams.flatten hall
  rw [← receiveAll_eq] at hfw
  have hsorted : sent.Pairwise (·.seq.toNat < ·.seq.toNat) :=
    List.pairwise_map.mp (hseq ▸ List.pairwise_lt_range')
  have hseqs : (fw.map (·.seq.toNat)).Pairwise (· < ·) := List.pairwise_map.mpr hfw.ascending
  have hanti : Std.Antisymm fun m m' : Message => m.seq.toNat < m'.seq.toNat :=
    ⟨fun _ _ hlt hgt => absurd hlt (Nat.lt_asymm hgt)⟩
  have hnodup : fw.Nodup := hfw.ascending.imp fun hlt heq => by simp [heq] at hlt
  refine ⟨fw, hfw.log, ?_, hfw.ascending, hfw.tracks.missing_eq hseqs⟩
  exact List.sublist_of_subperm_of_pairwise (List.subperm_of_subset hnodup hfw.subset)
    hfw.ascending hsorted

/-- Five heartbeats of which the second is lost; the third overtakes the fourth, the fifth
arrives twice. -/
theorem receiveAll_delivery_lossy :
    let hb (n : Sequence) : Message := ⟨n, 0, .heartbeat⟩
    let fh := receiveAll recorder [[hb 1, hb 4], [hb 3], [hb 5, hb 5]] { down := [] }
    ∃ fw : List Message, fh.down = fw.map Message.callback ∧
      fw.Sublist [hb 1, hb 2, hb 3, hb 4, hb 5] ∧
      fw.Pairwise (·.seq.toNat < ·.seq.toNat) ∧
      fh.seq.stats.missing.toNat = (skipped (fw.map (·.seq.toNat))).card :=
  receiveAll_delivery 1 _ (by decide) (by decide) _ (by decide)

end FeedHandler

end Mdfh
