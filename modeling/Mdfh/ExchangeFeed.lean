import Mdfh.SimulatorStream

/-!
# What the exchange has sent

The messages of a run lead from empty lists of orders to those of the simulator's state, so
a receiver that has got them, all of them or the first few, agrees with the simulator as it
was behind the last of them. A byte stream may be cut anywhere: what was read of it is some
whole messages and the beginning of the next, which the receiver keeps.

## Main definitions

* `Leads` — the messages of a run and the lists they lead to.
* `Message.CutAt` — where the beginning of a stream ends.
* `FeedHandler.HasRead` — the receiver behind a part of the stream.

## Main results

* `MarketSimulator.consistent_received` — a receiver that has got all messages so far.
* `FeedHandler.HasRead.consume` — one chunk, wherever it is cut.
-/

namespace Mdfh

open Std Library

/-! ## The messages of a run -/

/-- The messages are numbered from 1 on, and each asks for an operation that succeeds or for
none. -/
inductive Leads : List GeneratedMessage → (SymbolId → Reference) → Prop
  | nil : Leads [] fun _ => []
  | snoc {ms : List GeneratedMessage} {R : SymbolId → Reference} {sym : SymbolId}
      {m : GeneratedMessage} {R' : Reference} : Leads ms R →
      m.seq = UInt32.ofNat (ms.length + 1) → Emits sym (R sym) m R' →
      Leads (ms ++ [m]) (Function.update R sym R')

namespace MarketSimulator

variable {rng : Rng} {cfg : SimConfig} {sim sim' : MarketSimulator rng}
  {ms ms' : List GeneratedMessage}

theorem emit_leads (rng : Rng) (hcfg : cfg.Valid) (n : Nat) :
    Ensures Overflows (emit rng cfg n) fun r =>
      ∃ R, r.1.Inv cfg R ∧ Leads r.2 R ∧ r.2.length = r.1.produced.toNat := by
  induction n with
  | zero =>
    refine (new_ensures rng hcfg).bind ?_
    rintro sim ⟨hsim, hproduced⟩
    exact ⟨_, hsim, .nil, (congrArg UInt64.toNat hproduced).symm⟩
  | succ n ih =>
    refine ih.bind ?_
    rintro ⟨sim, ms⟩ ⟨R, hsim, hleads, hlen⟩
    refine (next_ensures hcfg hsim).bind ?_
    rintro ⟨sim', out⟩ hnext
    rcases hnext with ⟨hsame, -⟩ | ⟨m, sym, R', hout, hseq, hemits, hsim', hproduced⟩
    · obtain ⟨rfl, rfl⟩ := Prod.mk.inj hsame
      exact ⟨R, hsim, by simpa using hleads, by simpa using hlen⟩
    · obtain rfl : out = some m := hout
      have hnumber : m.seq = UInt32.ofNat (ms.length + 1) := by
        rw [hseq, hsim.nextSeq]
        exact congrArg (fun k => UInt32.ofNat (k + 1)) hlen.symm
      refine ⟨_, hsim', hleads.snoc hnumber hemits, ?_⟩
      rw [hproduced, ← hlen]
      exact List.length_append

theorem leads_of_emit (hcfg : cfg.Valid) {n : Nat} (h : emit rng cfg n = .ok (sim, ms)) :
    ∃ R, sim.Inv cfg R ∧ Leads ms R ∧ ms.length = sim.produced.toNat := by
  have hensures := emit_leads rng hcfg n
  rwa [h] at hensures

/-- The last call of a run. -/
theorem exists_last_call {n : Nat} (h : emit rng cfg (n + 1) = .ok (sim', ms')) :
    ∃ sim ms out, emit rng cfg n = .ok (sim, ms) ∧ sim.next = .ok (sim', out) ∧
      ms' = ms ++ out.toList := by
  cases hn : emit rng cfg n with
  | error f => cases (emit_of_error hn (Nat.le_succ n)).symm.trans h
  | ok r =>
    obtain ⟨sim, ms⟩ := r
    obtain ⟨out, hnext⟩ := next_of_emit hn h
    obtain ⟨-, hms⟩ := Prod.mk.inj (Except.ok.inj (h.symm.trans (emit_succ hn hnext)))
    exact ⟨sim, ms, out, rfl, hnext, hms⟩

theorem length_le_of_emit {n : Nat} (h : emit rng cfg n = .ok (sim, ms)) : ms.length ≤ n := by
  induction n generalizing sim ms with
  | zero =>
    cases hnew : new rng cfg with
    | error f =>
      rw [emit, hnew] at h
      cases h
    | ok sim₀ =>
      rw [emit, hnew] at h
      obtain ⟨-, rfl⟩ := Prod.mk.inj (Except.ok.inj h)
      exact le_rfl
  | succ n ih =>
    obtain ⟨sim₀, ms₀, out, h₀, -, rfl⟩ := exists_last_call h
    have hle := ih h₀
    cases out <;> simp <;> omega

theorem length_of_emit (hcfg : cfg.Valid) {n : Nat} (hn : n ≤ cfg.numMessages.toNat)
    (hemit : emit rng cfg n = .ok (sim, ms)) :
    sim.produced.toNat = n ∧ ms.length = n := by
  have hcount := emit_numbered rng hcfg.admitted n
  rw [hemit] at hcount
  obtain ⟨-, hlen, hproduced, -⟩ := hcount
  simp only [Nat.min_eq_left hn] at hlen hproduced
  exact ⟨hproduced, hlen.trans hproduced⟩

/-- The states that a run has gone through. -/
theorem emit_take {n : Nat} (h : emit rng cfg n = .ok (sim, ms)) (hlen : ms.length = n) {k : Nat}
    (hk : k ≤ n) : ∃ simk, emit rng cfg k = .ok (simk, ms.take k) := by
  induction n generalizing sim ms with
  | zero =>
    obtain rfl := Nat.le_zero.mp hk
    obtain rfl := List.length_eq_zero_iff.mp hlen
    exact ⟨sim, h⟩
  | succ n ih =>
    rcases Nat.le_succ_iff.mp hk with hle | rfl
    · obtain ⟨sim₀, ms₀, out, h₀, -, rfl⟩ := exists_last_call h
      have hle₀ := length_le_of_emit h₀
      have hlen₀ : ms₀.length = n := by
        cases out <;> simp at hlen <;> omega
      obtain ⟨simk, hsimk⟩ := ih h₀ hlen₀ hle
      refine ⟨simk, ?_⟩
      rwa [List.take_append_of_le_length (hlen₀ ▸ hle)]
    · refine ⟨sim, ?_⟩
      rwa [List.take_of_length_le hlen.le]

end MarketSimulator

/-! ## The receiver of whole messages -/

namespace FeedHandler

/-- A fresh receiver that has got these messages. -/
def received (ms : List GeneratedMessage) : FeedHandler BookBuilder :=
  (ms.map GeneratedMessage.dispatch).foldl (receive builderHandler) { down := {} }

theorem received_concat (ms : List GeneratedMessage) (m : GeneratedMessage) :
    received (ms ++ [m]) = receive builderHandler (received ms) m.dispatch := by
  simp [received]

section
variable {δ : Type} (D : HandlerLike δ)

/-- A message neither reads nor writes the residual. -/
theorem receive_residual (fh : FeedHandler δ) (m : Message) (bytes : List UInt8) :
    receive D { fh with residual := bytes } m = { receive D fh m with residual := bytes } := by
  have hframe := deliver_frame D m.callback fh bytes fh.malformed
  have hkeep := deliver_frame D m.callback fh fh.residual fh.malformed
  simp only [deliver_callback] at hframe hkeep
  rw [hframe, hkeep]

theorem foldl_receive_residual (ms : List Message) (fh : FeedHandler δ) (bytes : List UInt8) :
    ms.foldl (receive D) { fh with residual := bytes } =
      { ms.foldl (receive D) fh with residual := bytes } := by
  induction ms generalizing fh with
  | nil => rfl
  | cons m ms ih =>
    simp only [List.foldl_cons, receive_residual]
    exact ih _

end

theorem Reconstructs.receive {fh : FeedHandler BookBuilder} {R : SymbolId → Reference} {n : Nat}
    {sym : SymbolId} {m : GeneratedMessage} {R' : Reference} (h : fh.Reconstructs R n)
    (hseq : m.seq = UInt32.ofNat (n + 1)) (hemits : Emits sym (R sym) m R') :
    (receive builderHandler fh m.dispatch).Reconstructs (Function.update R sym R') (n + 1) := by
  have hconsume := h.consume hseq hemits
  have hwhole := consume_receive builderHandler [m.dispatch] fh h.residual
  have hkeep := receive_residual builderHandler fh m.dispatch []
  rw [List.flatMap_singleton] at hwhole
  rw [hwhole, List.foldl_cons, List.foldl_nil, ← hkeep] at hconsume
  rwa [show ({ fh with residual := [] } : FeedHandler BookBuilder) = fh by
    rw [← h.residual]] at hconsume

end FeedHandler

theorem Leads.reconstructs {ms : List GeneratedMessage} {R : SymbolId → Reference}
    (h : Leads ms R) : (FeedHandler.received ms).Reconstructs R ms.length := by
  induction h with
  | nil => exact ⟨rfl, rfl, rfl, rfl, BookManager.holds_empty, rfl, rfl, .inl ⟨rfl, rfl⟩⟩
  | snoc _ hseq hemits ih =>
    rw [FeedHandler.received_concat, List.length_append]
    exact ih.receive hseq hemits

/-- A receiver that has got every message agrees with the simulator, whatever it keeps of the
next message. -/
theorem MarketSimulator.consistent_received {rng : Rng} {cfg : SimConfig} (hcfg : cfg.Valid)
    {n : Nat} {sim : MarketSimulator rng} {ms : List GeneratedMessage}
    (h : emit rng cfg n = .ok (sim, ms)) (bytes : List UInt8) :
    Loopback.Consistent ⟨sim, { FeedHandler.received ms with residual := bytes }⟩ := by
  obtain ⟨R, hsim, hleads, hlen⟩ := leads_of_emit hcfg h
  have hstep : Loopback.InStep cfg ⟨sim, FeedHandler.received ms⟩ :=
    ⟨R, hsim, hlen ▸ hleads.reconstructs⟩
  have hsame := hstep.consistent
  exact ⟨hsame.forwarded, hsame.dropped, hsame.malformed, hsame.badFrames, hsame.rejected,
    hsame.orders, hsame.levels, hsame.uncrossed⟩

/-! ## Cut streams -/

namespace Message

theorem length_bytes_pos (m : Message) : 0 < m.bytes.length := by
  rw [bytes, ← encodedFrame_bytes, RawFrame.length_bytes]
  exact Nat.add_pos_left (by decide) _

theorem length_bytes_le (m : Message) : m.bytes.length ≤ kMaxMessageSize := by
  rw [bytes, ← encodedFrame_bytes, RawFrame.length_bytes]
  refine Nat.add_le_add_left ?_ _
  cases hbody : m.body <;> simp [encodedFrame, encodedHeader, msgTypeOf, bodySizeFor] <;> decide

theorem frameLook_prefix {m : Message} {tail : List UInt8} (h : tail <+: m.bytes)
    (hlt : tail.length < m.bytes.length) : frameLook tail = .wait := by
  refine frameLook_cutOff ⟨encodedFrame m.seq m.ts m.body, ?_, ?_⟩
  · rwa [encodedFrame_bytes]
  · rintro rfl
    rw [encodedFrame_bytes] at hlt
    exact absurd hlt (lt_irrefl _)

theorem take_append_drop_bytes (ms : List Message) (k : Nat) :
    (ms.take k).flatMap bytes ++ (ms.drop k).flatMap bytes = ms.flatMap bytes := by
  rw [← List.flatMap_append, List.take_append_drop]

/-- The scan of a stream that is cut off inside a frame. -/
theorem scan_stream (ms : List Message) {tail : List UInt8} (hwait : frameLook tail = .wait) :
    frameScanner.scan (ms.flatMap bytes ++ tail) =
      ⟨Scanner.positions 0 ((ms.map item).map StreamItem.unit), tail, false⟩ := by
  have hscan := scan_items (ms.map item) tail hwait
  rwa [List.flatMap_map] at hscan

/-- The beginning of a stream has ended: behind `k` messages and with `tail` of the next. -/
structure CutAt (ms : List Message) (k : Nat) (tail : List UInt8) : Prop where
  le : k ≤ ms.length
  begins : tail <+: (ms.drop k).flatMap bytes
  short : ∀ m, ms[k]? = some m → tail.length < m.bytes.length

variable {ms : List Message} {k : Nat} {tail : List UInt8}

theorem CutAt.eq_nil (h : CutAt ms ms.length tail) : tail = [] := by
  have htail := h.begins
  rw [List.drop_length] at htail
  exact List.prefix_nil.mp htail

theorem CutAt.wait (h : CutAt ms k tail) : frameLook tail = .wait := by
  cases hm : ms[k]? with
  | none =>
    obtain rfl : k = ms.length := Nat.le_antisymm h.le (List.getElem?_eq_none_iff.mp hm)
    rw [h.eq_nil]
    exact frameLook_wait_iff.mpr (.inl (by decide))
  | some m =>
    have hlt := h.short m hm
    have htail := h.begins
    obtain ⟨hk, rfl⟩ := List.getElem?_eq_some_iff.mp hm
    rw [List.drop_eq_getElem_cons hk, List.flatMap_cons] at htail
    exact frameLook_prefix (List.prefix_of_prefix_length_le htail (List.prefix_append _ _) hlt.le) hlt

/-- More messages behind the stream leave the place of a cut as it is. -/
theorem CutAt.append (h : CutAt ms k tail) (ms' : List Message) : CutAt (ms ++ ms') k tail := by
  refine ⟨h.le.trans (by simp), ?_, ?_⟩
  · rw [List.drop_append_of_le_length h.le, List.flatMap_append]
    exact h.begins.trans (List.prefix_append _ _)
  · intro m hm
    rcases Nat.lt_or_eq_of_le h.le with hlt | rfl
    · exact h.short m (by rwa [List.getElem?_append_left hlt] at hm)
    · rw [h.eq_nil]
      exact m.length_bytes_pos

/-- Every beginning of a stream is some whole messages and a part of the next. -/
theorem exists_cut (ms : List Message) {p : List UInt8} (h : p <+: ms.flatMap bytes) :
    ∃ k tail, p = (ms.take k).flatMap bytes ++ tail ∧ CutAt ms k tail := by
  induction ms generalizing p with
  | nil =>
    obtain rfl := List.prefix_nil.mp h
    exact ⟨0, [], rfl, le_rfl, List.prefix_rfl, by simp⟩
  | cons m ms ih =>
    by_cases hlt : p.length < m.bytes.length
    · refine ⟨0, p, rfl, Nat.zero_le _, h, ?_⟩
      rintro _ ⟨⟩
      exact hlt
    · rw [List.flatMap_cons] at h
      obtain ⟨q, rfl⟩ := List.prefix_of_prefix_length_le (List.prefix_append m.bytes _) h (by omega)
      obtain ⟨k, tail, rfl, hcut⟩ := ih ((List.prefix_append_right_inj m.bytes).mp h)
      refine ⟨k + 1, tail, by simp, by simpa using hcut.le, hcut.begins, ?_⟩
      intro m' hm'
      exact hcut.short m' hm'

end Message

namespace FeedHandler

variable {δ : Type} {D : HandlerLike δ} {ms : List Message}

/-- A chunk that ends inside a frame: the whole messages are received, the rest is kept. -/
theorem consume_cut {fh : FeedHandler δ} {chunk tail : List UInt8}
    (hbytes : fh.residual ++ chunk = ms.flatMap Message.bytes ++ tail)
    (hwait : frameLook tail = .wait) :
    (consume D chunk fh).1 = { ms.foldl (receive D) fh with residual := tail } := by
  have hwhole := afterScan_messages D ms fh
  rw [Message.scan_bytes] at hwhole
  have hconsume := consume_eq D chunk fh
  rw [hbytes, Message.scan_stream ms hwait] at hconsume
  rw [hconsume, ← hwhole]
  -- The rest of a scan has no part in what it calls.
  rfl

/-- The state behind the bytes `p` of a stream of messages that began at `fh₀`. -/
def HasRead (D : HandlerLike δ) (ms : List Message) (fh₀ : FeedHandler δ) (p : List UInt8)
    (fh : FeedHandler δ) : Prop :=
  ∃ k tail, p = (ms.take k).flatMap Message.bytes ++ tail ∧ Message.CutAt ms k tail ∧
    fh = { (ms.take k).foldl (receive D) fh₀ with residual := tail }

variable {fh₀ fh : FeedHandler δ} {p : List UInt8}

theorem hasRead_nil (ms : List Message) (hres : fh₀.residual = []) : HasRead D ms fh₀ [] fh₀ := by
  refine ⟨0, [], rfl, ⟨Nat.zero_le _, List.nil_prefix, fun m _ => m.length_bytes_pos⟩, ?_⟩
  rw [← hres]
  rfl

theorem HasRead.append (h : HasRead D ms fh₀ p fh) (ms' : List Message) :
    HasRead D (ms ++ ms') fh₀ p fh := by
  obtain ⟨k, tail, hp, hcut, hfh⟩ := h
  refine ⟨k, tail, ?_, hcut.append ms', ?_⟩
  · rwa [List.take_append_of_le_length hcut.le]
  · rwa [List.take_append_of_le_length hcut.le]

/-- One more chunk is read, wherever it begins and ends. -/
theorem HasRead.consume (h : HasRead D ms fh₀ p fh) {chunk : List UInt8}
    (hpart : p ++ chunk <+: ms.flatMap Message.bytes) :
    HasRead D ms fh₀ (p ++ chunk) (consume D chunk fh).1 := by
  obtain ⟨k, tail, rfl, hcut, rfl⟩ := h
  have hsplit := Message.take_append_drop_bytes ms k
  have hrest : tail ++ chunk <+: (ms.drop k).flatMap Message.bytes := by
    rw [← hsplit, List.append_assoc] at hpart
    exact (List.prefix_append_right_inj _).mp hpart
  obtain ⟨j, tail', hchunk, hcut'⟩ := Message.exists_cut (ms.drop k) hrest
  refine ⟨k + j, tail', ?_, ?_, ?_⟩
  · rw [List.append_assoc, hchunk, List.take_add, List.flatMap_append, List.append_assoc]
  · refine ⟨?_, ?_, ?_⟩
    · have hle := hcut'.le
      rw [List.length_drop] at hle
      have hle' := hcut.le
      omega
    · rw [← List.drop_drop]
      exact hcut'.begins
    · intro m hm
      exact hcut'.short m (by rwa [List.getElem?_drop])
  · rw [consume_cut hchunk hcut'.wait, foldl_receive_residual, ← List.foldl_append,
      ← List.take_add]

/-- At the end of the stream nothing is kept. -/
theorem HasRead.whole (h : HasRead D ms fh₀ (ms.flatMap Message.bytes) fh) :
    fh = { ms.foldl (receive D) fh₀ with residual := [] } := by
  obtain ⟨k, tail, hp, hcut, rfl⟩ := h
  have htail : tail = (ms.drop k).flatMap Message.bytes := by
    have hsplit := Message.take_append_drop_bytes ms k
    exact List.append_cancel_left (hp.symm.trans hsplit.symm)
  obtain rfl : k = ms.length := by
    rcases Nat.lt_or_eq_of_le hcut.le with hlt | heq
    · have hshort := hcut.short ms[k] (List.getElem?_eq_getElem hlt)
      rw [htail, List.drop_eq_getElem_cons hlt, List.flatMap_cons, List.length_append] at hshort
      omega
    · exact heq
  rw [hcut.eq_nil, List.take_length]

end FeedHandler

end Mdfh
