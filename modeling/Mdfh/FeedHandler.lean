import Mdfh.Framing
import Mdfh.SequenceTracker

/-!
# The feed handler

Reassembles frames from a byte stream or from datagrams, validates sequence numbers and
forwards accepted events downstream. It is itself a handler, so the parser calls back
into it.

## Main definitions

* `FeedHandler` — the state, with the downstream sink's state inside.
* `FeedHandler.consume`, `FeedHandler.consumeDatagram` — the two entry points.

## Main results

* `consume_eq`, `consumeDatagram_eq` — both in terms of one scan.
-/

namespace Mdfh

open Library

structure FeedHandler (δ : Type) where
  down : δ
  seq : SequenceTracker := {}
  residual : List UInt8 := []
  forwarded : UInt64 := 0
  dropped : UInt64 := 0
  malformed : UInt64 := 0
  deriving DecidableEq

namespace FeedHandler

variable {δ : Type}

def accept (seq : Sequence) (fh : FeedHandler δ) : FeedHandler δ × Bool :=
  let (tracker, status) := fh.seq.observe seq
  let fh := { fh with seq := tracker }
  match status with
  | .inOrder | .gap => ({ fh with forwarded := fh.forwarded + 1 }, true)
  | .duplicate | .outOfOrder => ({ fh with dropped := fh.dropped + 1 }, false)

/-- The body shared by the six `on_*` callbacks: forward if the sequence is accepted. -/
def forwardIf (seq : Sequence) (call : δ → δ) (fh : FeedHandler δ) : FeedHandler δ :=
  let (fh, ok) := fh.accept seq
  if ok then { fh with down := call fh.down } else fh

variable (D : HandlerLike δ)

/-- The interface invoked by the internal parser. -/
def handler : HandlerLike (FeedHandler δ) where
  onAddOrder h m := forwardIf h.sequence (D.onAddOrder h m)
  onCancelOrder h m := forwardIf h.sequence (D.onCancelOrder h m)
  onModifyOrder h m := forwardIf h.sequence (D.onModifyOrder h m)
  onTrade h m := forwardIf h.sequence (D.onTrade h m)
  onSnapshot h m := forwardIf h.sequence (D.onSnapshot h m)
  onHeartbeat h := forwardIf h.sequence (D.onHeartbeat h)
  onMalformed off fh := { fh with down := D.onMalformed off fh.down }

def accumulate (r : ParseResult) (fh : FeedHandler δ) : FeedHandler δ :=
  { fh with malformed := fh.malformed + UInt64.ofNat r.malformed }

/-- Stream entry point. A trailing partial message is kept for the next call. -/
def consume (bytes : List UInt8) (fh : FeedHandler δ) : FeedHandler δ × ParseResult :=
  if fh.residual.isEmpty then
    let (fh, r) := BinaryParser.parse (handler D) fh bytes
    let fh := if r.bytesConsumed < bytes.length then
        { fh with residual := bytes.drop r.bytesConsumed }
      else fh
    (fh.accumulate r, r)
  else
    let fh := { fh with residual := fh.residual ++ bytes }
    let (fh, r) := BinaryParser.parse (handler D) fh fh.residual
    let fh := { fh with residual := fh.residual.drop r.bytesConsumed }
    (fh.accumulate r, r)

/-- Datagram entry point: nothing is carried across calls. -/
def consumeDatagram (bytes : List UInt8) (fh : FeedHandler δ) : FeedHandler δ × ParseResult :=
  let (fh, r) := BinaryParser.parse (handler D) fh bytes
  (fh.accumulate r, r)

/-! ## Calls into the handler -/

/-- What the handler does with a message of sequence number `seq`. -/
theorem forwardIf_eq (seq : Sequence) (call : δ → δ) (fh : FeedHandler δ) :
    forwardIf seq call fh =
      if (fh.seq.observe seq).2.forwards then
        { fh with seq := (fh.seq.observe seq).1, forwarded := fh.forwarded + 1, down := call fh.down }
      else { fh with seq := (fh.seq.observe seq).1, dropped := fh.dropped + 1 } := by
  cases hst : (fh.seq.observe seq).2 <;> simp [forwardIf, accept, hst, SeqStatus.forwards]

theorem deliver_message (hdr : MessageHeader) (body : Body) (fh : FeedHandler δ) :
    (handler D).deliver (.message hdr body) fh =
      forwardIf hdr.sequence (D.onMessage hdr body) fh := by
  cases body <;> rfl

@[simp] theorem deliver_malformed (off : Nat) (fh : FeedHandler δ) :
    (handler D).deliver (.malformed off) fh = { fh with down := D.onMalformed off fh.down } := rfl

/-- Callbacks neither read nor write the residual and the count of malformed frames. -/
theorem deliver_frame (c : Callback) (fh : FeedHandler δ) (bytes : List UInt8) (n : UInt64) :
    (handler D).deliver c { fh with residual := bytes, malformed := n } =
      { (handler D).deliver c fh with residual := bytes, malformed := n } := by
  cases c with
  | malformed off => rfl
  | message hdr body =>
    rw [deliver_message, deliver_message, forwardIf_eq, forwardIf_eq]
    split <;> rfl

theorem deliverAll_frame (cs : List Callback) (fh : FeedHandler δ) (bytes : List UInt8)
    (n : UInt64) :
    (handler D).deliverAll { fh with residual := bytes, malformed := n } cs =
      { (handler D).deliverAll fh cs with residual := bytes, malformed := n } := by
  induction cs generalizing fh with
  | nil => rfl
  | cons c cs ih =>
    rw [HandlerLike.deliverAll_cons, deliver_frame, ih, HandlerLike.deliverAll_cons]

@[simp] theorem deliverAll_residual (cs : List Callback) (fh : FeedHandler δ) :
    ((handler D).deliverAll fh cs).residual = fh.residual :=
  congrArg (·.residual) (deliverAll_frame D cs fh fh.residual fh.malformed)

@[simp] theorem deliverAll_malformed (cs : List Callback) (fh : FeedHandler δ) :
    ((handler D).deliverAll fh cs).malformed = fh.malformed :=
  congrArg (·.malformed) (deliverAll_frame D cs fh fh.residual fh.malformed)

/-! ## The entry points as one scan -/

/-- The state after the callbacks of a scan: `accumulate` counts the malformed frames. -/
def afterScan (s : FrameScan) (fh : FeedHandler δ) : FeedHandler δ :=
  let fh := (handler D).deliverAll fh (callbacks s)
  { fh with malformed := fh.malformed + UInt64.ofNat (countMalformed s) }

theorem consumeDatagram_eq (bytes : List UInt8) (fh : FeedHandler δ) :
    consumeDatagram D bytes fh =
      (afterScan D (frameScanner.scan bytes) fh,
        resultOf bytes.length (frameScanner.scan bytes)) := by
  rw [consumeDatagram, BinaryParser.parse_eq]
  rfl

theorem drop_bytesConsumed (bytes : List UInt8) :
    bytes.drop (resultOf bytes.length (frameScanner.scan bytes)).bytesConsumed =
      (frameScanner.scan bytes).rest := by
  obtain ⟨front, hfront⟩ := frameScanner.rest_suffix 0 bytes
  have hlen := congrArg List.length hfront
  rw [List.length_append] at hlen
  have hconsumed : bytes.length - (frameScanner.scan bytes).rest.length = front.length := by
    rw [Scanner.scan]
    omega
  calc bytes.drop (bytes.length - (frameScanner.scan bytes).rest.length)
      = (front ++ (frameScanner.scan bytes).rest).drop front.length := by
        rw [hconsumed]
        exact congrArg (List.drop front.length) hfront.symm
    _ = (frameScanner.scan bytes).rest := List.drop_left

/-- Both paths of `consume` scan the residual with the chunk behind it and keep the rest. -/
theorem consume_eq (bytes : List UInt8) (fh : FeedHandler δ) :
    let s := frameScanner.scan (fh.residual ++ bytes)
    consume D bytes fh =
      ({ afterScan D s fh with residual := s.rest },
        resultOf (fh.residual ++ bytes).length s) := by
  intro s
  unfold consume
  by_cases hres : fh.residual.isEmpty
  · have hnil : fh.residual = [] := List.isEmpty_iff.mp hres
    have hs : frameScanner.scan bytes = s := by simp only [s, hnil, List.nil_append]
    have hdrop := drop_bytesConsumed bytes
    rw [hs] at hdrop
    rw [if_pos hres, BinaryParser.parse_eq, hs, hnil, List.nil_append]
    by_cases hlt : (resultOf bytes.length s).bytesConsumed < bytes.length
    · simp only [if_pos hlt, hdrop]
      rfl
    · -- Everything was consumed, so the residual stays empty.
      have hrest : s.rest = [] := by
        rw [← hdrop]
        exact List.drop_eq_nil_of_le (by omega)
      have hkeep : ((handler D).deliverAll fh (callbacks s)).residual = [] := by
        rw [deliverAll_residual, hnil]
      simp only [if_neg hlt, hrest]
      rw [← hkeep]
      rfl
  · have hdrop : (fh.residual ++ bytes).drop
        (resultOf (fh.residual ++ bytes).length s).bytesConsumed = s.rest :=
      drop_bytesConsumed (fh.residual ++ bytes)
    have hscan : frameScanner.scan (fh.residual ++ bytes) = s := rfl
    have hframe := deliverAll_frame D (callbacks s) fh (fh.residual ++ bytes) fh.malformed
    rw [if_neg hres]
    simp only [BinaryParser.parse_eq, hscan, hframe, hdrop]
    simp only [afterScan, accumulate, deliverAll_malformed]
    rfl

end FeedHandler

end Mdfh
