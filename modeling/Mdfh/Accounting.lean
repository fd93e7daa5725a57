import Mdfh.BookIsolation
import Mdfh.FrameWalk

/-!
# One account for every frame

The parser's results, the feed handler, the sequence tracker and the builder each keep
counters of their own. A `Ledger` says what they owe each other after a number of messages
and of malformed frames. One frame keeps it, and so do the frames of any calls.

## Main definitions

* `Call`, `FeedHandler.runCalls` — calls of both entry points, with their results.
* `FeedHandler.Ledger` — the identities between the counters of the four layers.

## Main results

* `Ledger.applyFrames` — every frame is counted once.
* `runCalls_accounts` — after any calls, every frame and every byte is accounted for once.
-/

namespace Mdfh

open Library

theorem UInt64.toNat_add_one {n : UInt64} (h : n.toNat + 1 < 2 ^ 64) :
    (n + 1).toNat = n.toNat + 1 := by
  rw [UInt64.toNat_add]
  exact Nat.mod_eq_of_lt h

/-! ## The counters of each layer -/

/-- The observations by class. -/
def SeqStats.classified (st : SeqStats) : Nat :=
  st.inOrder.toNat + st.duplicates.toNat + st.outOfOrder.toNat + st.gapEvents.toNat

/-- One observation is counted in one class. -/
theorem SequenceTracker.observe_counts (t : SequenceTracker) (seq : Sequence)
    (htotal : t.stats.total.toNat + 1 < 2 ^ 64) (hclassified : t.stats.classified + 1 < 2 ^ 64) :
    (t.observe seq).1.stats.total.toNat = t.stats.total.toNat + 1 ∧
      (t.observe seq).1.stats.classified = t.stats.classified + 1 := by
  have hinOrder := UInt64.toNat_add_one (n := t.stats.inOrder)
  have hduplicates := UInt64.toNat_add_one (n := t.stats.duplicates)
  have houtOfOrder := UInt64.toNat_add_one (n := t.stats.outOfOrder)
  have hgapEvents := UInt64.toNat_add_one (n := t.stats.gapEvents)
  have htotal := UInt64.toNat_add_one htotal
  unfold SeqStats.classified at *
  fun_cases observe t seq <;> grind

namespace BookStats

/-- The events that touch a book. -/
def applied (st : BookStats) : Nat :=
  st.adds.toNat + st.cancels.toNat + st.modifies.toNat + st.trades.toNat

def events (st : BookStats) : Nat := st.applied + st.snapshots.toNat + st.heartbeats.toNat

/-- One event is counted in one kind, and rejected at most if it touches a book. -/
theorem tally_counts (st : BookStats) (body : Body) (ok : Bool)
    (hbound : st.events + 1 < 2 ^ 64) (hok : body.op = none → ok = true)
    (hrejected : st.rejected.toNat ≤ st.applied) :
    (st.tally body ok).events = st.events + 1 ∧
      (st.tally body ok).rejected.toNat ≤ (st.tally body ok).applied := by
  have hadds := UInt64.toNat_add_one (n := st.adds)
  have hcancels := UInt64.toNat_add_one (n := st.cancels)
  have hmodifies := UInt64.toNat_add_one (n := st.modifies)
  have htrades := UInt64.toNat_add_one (n := st.trades)
  have hsnapshots := UInt64.toNat_add_one (n := st.snapshots)
  have hheartbeats := UInt64.toNat_add_one (n := st.heartbeats)
  have hrejections := UInt64.toNat_add_one (n := st.rejected)
  unfold events applied at *
  cases body <;> cases ok <;> simp [tally, Body.op] at hok ⊢ <;> omega

end BookStats

/-! ## The account -/

namespace FeedHandler

/-- The identities between the counters after a number of messages and of malformed frames. -/
structure Ledger (fh : FeedHandler BookBuilder) (messages bad : Nat) : Prop where
  observed : fh.seq.stats.total.toNat = messages
  classified : fh.seq.stats.classified = messages
  decided : fh.forwarded.toNat + fh.dropped.toNat = messages
  applied : fh.down.stats.events = fh.forwarded.toNat
  rejected : fh.down.stats.rejected.toNat ≤ fh.down.stats.applied
  malformed : fh.malformed.toNat = bad
  reported : fh.down.stats.malformed.toNat = bad

theorem ledger_fresh : Ledger { down := {} } 0 0 := ⟨rfl, rfl, rfl, rfl, le_rfl, rfl, rfl⟩

variable {fh : FeedHandler BookBuilder} {n k : Nat}

theorem Ledger.setResidual (h : fh.Ledger n k) (bytes : List UInt8) :
    Ledger { fh with residual := bytes } n k := ⟨h.1, h.2, h.3, h.4, h.5, h.6, h.7⟩

theorem Ledger.malformedFrame (h : fh.Ledger n k) (hk : k + 1 < 2 ^ 64) :
    (applyFrame builderHandler fh none).Ledger n (k + 1) := by
  obtain ⟨hobserved, hclassified, hdecided, happlied, hrejected, hmalformed, hreported⟩ := h
  refine ⟨hobserved, hclassified, hdecided, happlied, hrejected, ?_, ?_⟩
  · exact (UInt64.toNat_add_one (by omega)).trans (by omega)
  · exact (UInt64.toNat_add_one (by omega)).trans (by omega)

/-- A message is observed and classified, then either forwarded and applied, or dropped. -/
theorem Ledger.message (h : fh.Ledger n k) (hn : n + 1 < 2 ^ 64) (m : MessageHeader × Body) :
    (applyFrame builderHandler fh (some m)).Ledger (n + 1) k := by
  obtain ⟨hobserved, hclassified, hdecided, happlied, hrejected, hmalformed, hreported⟩ := h
  obtain ⟨htotal, hclass⟩ :=
    fh.seq.observe_counts m.1.sequence (by omega) (by omega)
  have hforwarded := UInt64.toNat_add_one (n := fh.forwarded)
  have hdropped := UInt64.toNat_add_one (n := fh.dropped)
  have hok : m.2.op = none → (fh.down.manager.touch m.2).2 = true := by
    intro hop
    rw [BookManager.touch, hop]
  obtain ⟨hevents, hrej⟩ := fh.down.stats.tally_counts m.2 (fh.down.manager.touch m.2).2
    (by omega) hok hrejected
  simp only [applyFrame, forwardIf_eq, BookBuilder.onMessage_eq, BookBuilder.step]
  split
  · have hbad := congrArg UInt64.toNat (fh.down.stats.tally_malformed m.2
      (fh.down.manager.touch m.2).2)
    have hfwd := hforwarded (by omega)
    exact ⟨htotal.trans (by omega), hclass.trans (by omega), by simp only; omega,
      hevents.trans (show _ = (fh.forwarded + 1).toNat by omega), hrej, hmalformed,
      hbad.trans hreported⟩
  · have hdrop := hdropped (by omega)
    exact ⟨htotal.trans (by omega), hclass.trans (by omega), by simp only; omega, happlied,
      hrejected, hmalformed, hreported⟩

/-- Every frame is counted once, as a message or as malformed. -/
theorem Ledger.applyFrames (h : fh.Ledger n k) {outs : List (Option (MessageHeader × Body))}
    (hn : n + outs.countP Option.isSome < 2 ^ 64) (hk : k + outs.countP Option.isNone < 2 ^ 64) :
    (applyFrames builderHandler outs fh).Ledger (n + outs.countP Option.isSome)
      (k + outs.countP Option.isNone) := by
  induction outs generalizing fh n k with
  | nil => exact h
  | cons out outs ih =>
    rw [applyFrames_cons]
    cases out with
    | none =>
      simp only [List.countP_cons, Option.isNone_none, Option.isSome_none, if_true] at hn hk ⊢
      have := ih (h.malformedFrame (by omega)) (by simpa using hn) (by omega)
      simpa [Nat.add_assoc, Nat.add_comm 1] using this
    | some m =>
      simp only [List.countP_cons, Option.isNone_some, Option.isSome_some, if_true] at hn hk ⊢
      have := ih (h.message (by omega) m) (by omega) (by simpa using hk)
      simpa [Nat.add_assoc, Nat.add_comm 1] using this

/-! ## Calls -/

end FeedHandler

/-- A call of one of the two entry points. -/
inductive Call where
  | consume (bytes : List UInt8)
  | consumeDatagram (bytes : List UInt8)

namespace FeedHandler

section
variable {δ : Type} (D : HandlerLike δ)

def call (fh : FeedHandler δ) : Call → FeedHandler δ × ParseResult
  | .consume bytes => consume D bytes fh
  | .consumeDatagram bytes => consumeDatagram D bytes fh

/-- Calls one after the other, with the result that each returns. -/
def runCalls : List Call → FeedHandler δ → FeedHandler δ × List (Call × ParseResult)
  | [], fh => (fh, [])
  | c :: cs, fh =>
    let r := fh.call D c
    let t := runCalls cs r.1
    (t.1, (c, r.2) :: t.2)

end

/-- The bytes that a call gave to `consume`. -/
def streamed : Call × ParseResult → Nat
  | (.consume bytes, _) => bytes.length
  | (.consumeDatagram _, _) => 0

/-- The bytes that a call of `consume` reported as consumed. -/
def consumed : Call × ParseResult → Nat
  | (.consume _, r) => r.bytesConsumed
  | (.consumeDatagram _, _) => 0

variable {fh : FeedHandler BookBuilder} {n k : Nat}

theorem countMessages_outs (s : FrameScan) : countMessages s = s.outs.countP Option.isSome := by
  simp [countMessages, Scan.outs, List.countP_map, Function.comp_def]

theorem countMalformed_outs (s : FrameScan) : countMalformed s = s.outs.countP Option.isNone := by
  simp [countMalformed, Scan.outs, List.countP_map, Function.comp_def]

theorem Ledger.call (h : fh.Ledger n k) (c : Call) :
    let r := fh.call builderHandler c
    n + r.2.messages < 2 ^ 64 → k + r.2.malformed < 2 ^ 64 →
      r.1.Ledger (n + r.2.messages) (k + r.2.malformed) := by
  have hscan (bytes : List UInt8) (len : Nat) :
      let r := resultOf len (frameScanner.scan bytes)
      n + r.messages < 2 ^ 64 → k + r.malformed < 2 ^ 64 →
        Ledger (FeedHandler.applyFrames builderHandler (frameScanner.scan bytes).outs fh)
          (n + r.messages) (k + r.malformed) := by
    simp only [resultOf, countMessages_outs, countMalformed_outs]
    exact h.applyFrames
  cases c with
  | consume bytes =>
    rw [FeedHandler.call, consume_builder]
    intro r hn hk
    exact (hscan _ _ hn hk).setResidual _
  | consumeDatagram bytes =>
    rw [FeedHandler.call, consumeDatagram_builder]
    exact hscan _ _

/-- A call keeps the account of the bytes: pending before and given is consumed and pending
after. -/
theorem call_bytes {δ : Type} (D : HandlerLike δ) (fh : FeedHandler δ) (c : Call) :
    let r := fh.call D c
    fh.residual.length + streamed (c, r.2) = consumed (c, r.2) + r.1.residual.length := by
  cases c with
  | consume bytes =>
    have hle := frameScanner.length_rest_le 0 (fh.residual ++ bytes)
    simp only [FeedHandler.call, consume_eq, streamed, consumed, resultOf, Scanner.scan,
      List.length_append] at hle ⊢
    omega
  | consumeDatagram bytes =>
    simp [FeedHandler.call, consumeDatagram_eq, streamed, consumed, afterScan]

variable (D : HandlerLike BookBuilder) in
theorem runCalls_bytes (calls : List Call) (fh : FeedHandler BookBuilder) :
    let r := runCalls D calls fh
    fh.residual.length + (r.2.map streamed).sum =
      (r.2.map consumed).sum + r.1.residual.length := by
  induction calls generalizing fh with
  | nil => simp [runCalls]
  | cons c calls ih =>
    have hcall := call_bytes D fh c
    have hrest := ih (fh.call D c).1
    simp only [runCalls, List.map_cons, List.sum_cons] at hcall hrest ⊢
    omega

theorem Ledger.runCalls (h : fh.Ledger n k) (calls : List Call) :
    let r := runCalls builderHandler calls fh
    n + (r.2.map (·.2.messages)).sum < 2 ^ 64 → k + (r.2.map (·.2.malformed)).sum < 2 ^ 64 →
      r.1.Ledger (n + (r.2.map (·.2.messages)).sum) (k + (r.2.map (·.2.malformed)).sum) := by
  induction calls generalizing fh n k with
  | nil => exact fun _ _ => h
  | cons c calls ih =>
    intro r hn hk
    simp only [r, FeedHandler.runCalls, List.map_cons, List.sum_cons, ← Nat.add_assoc] at hn hk ⊢
    exact ih (h.call c (by omega) (by omega)) hn hk

/-- Any calls on a fresh feed handler in front of a fresh builder, as long as no counter
wraps: the counters of every layer add up to the messages and the malformed frames that the
calls reported, and the bytes given to `consume` to those it consumed and those pending. -/
theorem runCalls_accounts (calls : List Call) :
    let r := FeedHandler.runCalls builderHandler calls { down := {} }
    let messages := (r.2.map (·.2.messages)).sum
    let malformed := (r.2.map (·.2.malformed)).sum
    messages < 2 ^ 64 → malformed < 2 ^ 64 →
      r.1.Ledger messages malformed ∧
        (r.2.map streamed).sum = (r.2.map consumed).sum + r.1.residual.length := by
  intro r messages malformed hmessages hmalformed
  have hledger := ledger_fresh.runCalls calls
  have hbytes := runCalls_bytes builderHandler calls { down := {} }
  simp only [Nat.zero_add, List.length_nil] at hledger hbytes
  exact ⟨hledger hmessages hmalformed, hbytes⟩

/-- A heartbeat cut in two, with a datagram of the same heartbeat and a stray byte in between. -/
theorem runCalls_heartbeat :
    let frame := encodeFrame 5 0 .heartbeat
    let calls : List Call :=
      [.consume (frame.take 9), .consumeDatagram (frame ++ [255]), .consume (frame.drop 9)]
    (FeedHandler.runCalls builderHandler calls { down := {} }).1.Ledger 2 0 := by
  intro frame calls
  have hmessages : ((FeedHandler.runCalls builderHandler calls { down := {} }).2.map
      (·.2.messages)).sum = 2 := by decide +kernel
  have hmalformed : ((FeedHandler.runCalls builderHandler calls { down := {} }).2.map
      (·.2.malformed)).sum = 0 := by decide +kernel
  have h := (runCalls_accounts calls (by rw [hmessages]; decide) (by rw [hmalformed]; decide)).1
  rwa [hmessages, hmalformed] at h

end FeedHandler

end Mdfh
