import Mdfh.BookBuilder
import Mdfh.Reassembly

/-!
# Walking frames one at a time

The replay driver and the pipeline cut frames off a buffer themselves and hand them to
the feed handler one by one. Bad frames change nothing but counts of malformed input, so
all that matters of a walk is the list of messages it delivers.

## Main definitions

* `messagesOf` — the well-formed messages of a scan.
* `FeedHandler.forget` — the state without residual and malformed counts.

## Main results

* `forget_applyFrames` — frames act as the messages among them.
* `forget_consume`, `forget_consumeDatagram` — so does a call of either entry point.
-/

namespace Mdfh

open Library

def messagesOf (s : FrameScan) : List (MessageHeader × Body) := s.outs.reduceOption

theorem messagesOf_cons (off : Nat) (out : Option (MessageHeader × Body))
    (us : List (Nat × Option (MessageHeader × Body))) (rest : List UInt8) (stopped : Bool) :
    messagesOf ⟨(off, out) :: us, rest, stopped⟩ = out.toList ++ messagesOf ⟨us, rest, stopped⟩ := by
  cases out <;> rfl

theorem countMessages_eq (s : FrameScan) : countMessages s = (messagesOf s).length := by
  obtain ⟨units, rest, stopped⟩ := s
  induction units with
  | nil => rfl
  | cons u us ih =>
    obtain ⟨off, out⟩ := u
    rw [messagesOf_cons, List.length_append, ← ih]
    cases out <;> simp [countMessages, Nat.add_comm]

/-- The builder with its count of malformed frames set to zero. -/
def BookBuilder.forget (b : BookBuilder) : BookBuilder := { b with stats.malformed := 0 }

theorem builderHandler_offsetBlind : builderHandler.OffsetBlind := fun _ _ _ => rfl

theorem BookBuilder.forget_onMessage (hdr : MessageHeader) (body : Body) (b : BookBuilder) :
    (builderHandler.onMessage hdr body b).forget = builderHandler.onMessage hdr body b.forget := by
  have htally (st : BookStats) (ok : Bool) :
      { st.tally body ok with malformed := 0 } = { st with malformed := 0 }.tally body ok := by
    cases ok <;> cases body <;> rfl
  rw [onMessage_eq, onMessage_eq]
  exact congrArg (BookBuilder.mk _) (htally _ _)

namespace FeedHandler

/-- The state without the residual and without the counts of malformed frames. -/
def forget (fh : FeedHandler BookBuilder) : FeedHandler BookBuilder :=
  { fh with residual := [], malformed := 0, down := fh.down.forget }

/-- The effect of one well-formed message. -/
def applyMessage (fh : FeedHandler BookBuilder) (m : MessageHeader × Body) :
    FeedHandler BookBuilder :=
  applyFrame builderHandler fh (some m)

theorem forget_applyFrame (fh : FeedHandler BookBuilder) (out : Option (MessageHeader × Body)) :
    (applyFrame builderHandler fh out).forget = out.toList.foldl applyMessage fh.forget := by
  cases out with
  | none => rfl
  | some m =>
    change (forwardIf _ _ fh).forget = forwardIf _ _ fh.forget
    rw [forwardIf_eq, forwardIf_eq]
    have hdown := BookBuilder.forget_onMessage m.1 m.2 fh.down
    simp only [forget, ← hdown]
    split <;> rfl

theorem forget_applyFrames (outs : List (Option (MessageHeader × Body)))
    (fh : FeedHandler BookBuilder) :
    (applyFrames builderHandler outs fh).forget = outs.reduceOption.foldl applyMessage fh.forget := by
  induction outs generalizing fh with
  | nil => rfl
  | cons out outs ih =>
    rw [applyFrames_cons, ih, forget_applyFrame, ← List.foldl_append]
    cases out <;> rfl

theorem forget_setResidual (fh : FeedHandler BookBuilder) (bytes : List UInt8) :
    forget { fh with residual := bytes } = fh.forget := rfl

/-- A call of `consume` on the builder: its frames are applied, and its result is counted
off the scan. -/
theorem consume_builder (bytes : List UInt8) (fh : FeedHandler BookBuilder) :
    let s := frameScanner.scan (fh.residual ++ bytes)
    consume builderHandler bytes fh =
      ({ applyFrames builderHandler s.outs fh with residual := s.rest },
        resultOf (fh.residual ++ bytes).length s) := by
  rw [consume_eq, afterScan_eq builderHandler_offsetBlind]

theorem consumeDatagram_builder (bytes : List UInt8) (fh : FeedHandler BookBuilder) :
    let s := frameScanner.scan bytes
    consumeDatagram builderHandler bytes fh =
      (applyFrames builderHandler s.outs fh, resultOf bytes.length s) := by
  rw [consumeDatagram_eq, afterScan_eq builderHandler_offsetBlind]

/-- One call on a whole buffer delivers the messages of its scan. -/
theorem forget_consume (buf : List UInt8) (fh : FeedHandler BookBuilder) (hres : fh.residual = []) :
    (consume builderHandler buf fh).1.forget =
      (messagesOf (frameScanner.scan buf)).foldl applyMessage fh.forget := by
  rw [consume_builder, hres, List.nil_append, forget_setResidual, forget_applyFrames]
  rfl

theorem forget_consumeDatagram (bytes : List UInt8) (fh : FeedHandler BookBuilder) :
    (consumeDatagram builderHandler bytes fh).1.forget =
      (messagesOf (frameScanner.scan bytes)).foldl applyMessage fh.forget := by
  rw [consumeDatagram_builder, forget_applyFrames]
  rfl

/-- What a call counts as messages. -/
theorem consume_messages (bytes : List UInt8) (fh : FeedHandler BookBuilder)
    (hres : fh.residual = []) :
    (consume builderHandler bytes fh).2.messages = (messagesOf (frameScanner.scan bytes)).length := by
  rw [consume_builder, hres, List.nil_append, ← countMessages_eq]
  rfl

theorem consumeDatagram_messages_length (bytes : List UInt8) (fh : FeedHandler BookBuilder) :
    (consumeDatagram builderHandler bytes fh).2.messages =
      (messagesOf (frameScanner.scan bytes)).length := by
  rw [consumeDatagram_builder, ← countMessages_eq]
  rfl

theorem consume_residual (bytes : List UInt8) (fh : FeedHandler BookBuilder)
    (hres : fh.residual = []) :
    (consume builderHandler bytes fh).1.residual = (frameScanner.scan bytes).rest := by
  rw [consume_builder, hres, List.nil_append]

end FeedHandler

end Mdfh
