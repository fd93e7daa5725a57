import Mdfh.Serialization

/-!
# The streaming binary parser

`parse` consumes as many complete frames as it can from the front of a buffer and
calls the handler once per frame. Handlers are state transformers, so the parser is
generic in its sink like the source's template.

## Main definitions

* `HandlerLike` — the seven callbacks of an event sink with state `σ`.
* `BinaryParser.parse` — the framing loop.
* `recorder` — the sink that logs its callbacks.
-/

namespace Mdfh

/-- The `HandlerLike` concept: one state transformer for each callback. -/
structure HandlerLike (σ : Type) where
  onAddOrder : MessageHeader → AddOrder → σ → σ
  onCancelOrder : MessageHeader → CancelOrder → σ → σ
  onModifyOrder : MessageHeader → ModifyOrder → σ → σ
  onTrade : MessageHeader → Trade → σ → σ
  onSnapshot : MessageHeader → BookSnapshot → σ → σ
  onHeartbeat : MessageHeader → σ → σ
  onMalformed : Nat → σ → σ

/-- The callback for a decoded body of any type. -/
def HandlerLike.onMessage {σ : Type} (H : HandlerLike σ) (hdr : MessageHeader) : Body → σ → σ
  | .addOrder m => H.onAddOrder hdr m
  | .cancelOrder m => H.onCancelOrder hdr m
  | .modifyOrder m => H.onModifyOrder hdr m
  | .trade m => H.onTrade hdr m
  | .bookSnapshot m => H.onSnapshot hdr m
  | .heartbeat => H.onHeartbeat hdr

structure ParseResult where
  bytesConsumed : Nat := 0
  messages : Nat := 0
  malformed : Nat := 0
  needsMore : Bool := false
  deriving DecidableEq, Repr

namespace BinaryParser

variable {σ : Type} (H : HandlerLike σ)

/-- The six branches of the source differ only in the decoder and the callback. -/
def dispatch (hdr : MessageHeader) (body : List UInt8) (off : Nat) (s : σ) (r : ParseResult) :
    σ × ParseResult :=
  match decodeBody hdr.type body with
  | some m => (H.onMessage hdr m s, { r with messages := r.messages + 1 })
  | none => (H.onMalformed off s, { r with malformed := r.malformed + 1 })

/-- The `while` loop, from offset `off` with the result accumulated so far. -/
def parseLoop (buf : List UInt8) (off : Nat) (s : σ) (r : ParseResult) : σ × ParseResult :=
  if hoff : off + kHeaderWireSize ≤ buf.length then
    match decodeHeader (subspan buf off kHeaderWireSize hoff) with
    | none =>
      -- Framing cannot be trusted beyond this point: skip the bad header and stop.
      (H.onMalformed off s,
        { r with malformed := r.malformed + 1, bytesConsumed := off + kHeaderWireSize })
    | some hdr =>
      let expectedBody := bodySizeFor hdr.type
      let frame := kHeaderWireSize + hdr.bodySize.toNat
      if hframe : off + frame > buf.length then
        (s, { r with needsMore := true, bytesConsumed := off })
      else if hbad : hdr.bodySize.toNat ≠ expectedBody ∨ hdr.version ≠ kProtocolVersion then
        parseLoop buf (off + frame) (H.onMalformed off s) { r with malformed := r.malformed + 1 }
      else
        let body := subspan buf (off + kHeaderWireSize) expectedBody (by grind)
        let sr := dispatch H hdr body off s r
        parseLoop buf (off + frame) sr.1 sr.2
  else (s, { r with bytesConsumed := off })
termination_by buf.length - off
decreasing_by all_goals simp only [kHeaderWireSize] at *; omega

def parse (s : σ) (buf : List UInt8) : σ × ParseResult := parseLoop H buf 0 s {}

end BinaryParser

/-! ## Callbacks as data -/

/-- One call of the parser into its handler. -/
inductive Callback where
  | message (hdr : MessageHeader) (body : Body)
  | malformed (off : Nat)
  deriving DecidableEq, Repr

def HandlerLike.deliver {σ : Type} (H : HandlerLike σ) : Callback → σ → σ
  | .message hdr body => H.onMessage hdr body
  | .malformed off => H.onMalformed off

def HandlerLike.deliverAll {σ : Type} (H : HandlerLike σ) (s : σ) (cs : List Callback) : σ :=
  cs.foldl (fun s c => H.deliver c s) s

@[simp] theorem HandlerLike.deliverAll_nil {σ : Type} (H : HandlerLike σ) (s : σ) :
    H.deliverAll s [] = s := rfl

@[simp] theorem HandlerLike.deliverAll_cons {σ : Type} (H : HandlerLike σ) (s : σ) (c : Callback)
    (cs : List Callback) : H.deliverAll s (c :: cs) = H.deliverAll (H.deliver c s) cs := rfl

/-- The sink that logs every callback it receives, in order. -/
def recorder : HandlerLike (List Callback) where
  onAddOrder hdr m log := log ++ [.message hdr (.addOrder m)]
  onCancelOrder hdr m log := log ++ [.message hdr (.cancelOrder m)]
  onModifyOrder hdr m log := log ++ [.message hdr (.modifyOrder m)]
  onTrade hdr m log := log ++ [.message hdr (.trade m)]
  onSnapshot hdr m log := log ++ [.message hdr (.bookSnapshot m)]
  onHeartbeat hdr log := log ++ [.message hdr .heartbeat]
  onMalformed off log := log ++ [.malformed off]

@[simp] theorem recorder_deliver (c : Callback) (log : List Callback) :
    recorder.deliver c log = log ++ [c] := by
  cases c with
  | message hdr body => cases body <;> rfl
  | malformed off => rfl

theorem recorder_deliverAll (log cs : List Callback) : recorder.deliverAll log cs = log ++ cs := by
  induction cs generalizing log with
  | nil => exact (List.append_nil log).symm
  | cons c cs ih => rw [HandlerLike.deliverAll_cons, recorder_deliver, ih, List.append_assoc,
      List.singleton_append]

end Mdfh
