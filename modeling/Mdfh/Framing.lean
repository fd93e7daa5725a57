import Mdfh.Codec
import Mdfh.Parser
import Mdfh.Library.Scanner

/-!
# Framing as a scanner

The parser's loop is a scan of its buffer by `frameScanner`, whose units are frames:
the callbacks are the verdicts on the units, in order, at their offsets.

## Main results

* `parse_eq` — `BinaryParser.parse` in terms of the scan.
-/

namespace Mdfh

open Library

/-- What the parser does with a complete frame: dispatch a message, or `none` to report it. -/
def verdict (hdr : MessageHeader) (body : List UInt8) : Option (MessageHeader × Body) :=
  if hdr.bodySize.toNat ≠ bodySizeFor hdr.type ∨ hdr.version ≠ kProtocolVersion then none
  else (decodeBody hdr.type body).map (hdr, ·)

def frameLook (xs : List UInt8) : Look (Option (MessageHeader × Body)) :=
  if xs.length < kHeaderWireSize then .wait
  else match decodeHeader (xs.take kHeaderWireSize) with
    | none => .stop none kHeaderWireSize
    | some hdr =>
      if xs.length < kHeaderWireSize + hdr.bodySize.toNat then .wait
      else .unit (verdict hdr ((xs.drop kHeaderWireSize).take hdr.bodySize.toNat))
        (kHeaderWireSize + hdr.bodySize.toNat)

theorem frameLook_unit_iff {xs : List UInt8} {o : Option (MessageHeader × Body)} {n : Nat} :
    frameLook xs = .unit o n ↔ ∃ hdr, decodeHeader (xs.take kHeaderWireSize) = some hdr ∧
      n = kHeaderWireSize + hdr.bodySize.toNat ∧ n ≤ xs.length ∧
      o = verdict hdr ((xs.drop kHeaderWireSize).take hdr.bodySize.toNat) := by
  unfold frameLook
  split
  · grind
  · split <;> grind

theorem frameLook_stop_iff {xs : List UInt8} {o : Option (MessageHeader × Body)} {n : Nat} :
    frameLook xs = .stop o n ↔ decodeHeader (xs.take kHeaderWireSize) = none ∧
      n = kHeaderWireSize ∧ n ≤ xs.length ∧ o = none := by
  unfold frameLook
  split
  · grind
  · split <;> grind

theorem frameLook_wait_iff {xs : List UInt8} :
    frameLook xs = .wait ↔ xs.length < kHeaderWireSize ∨
      ∃ hdr, decodeHeader (xs.take kHeaderWireSize) = some hdr ∧
        xs.length < kHeaderWireSize + hdr.bodySize.toNat := by
  unfold frameLook
  split
  · grind
  · split <;> grind

/-- Frames as the units of a scanner. -/
def frameScanner : Scanner UInt8 (Option (MessageHeader × Body)) where
  look := frameLook
  unit_pos h := by
    obtain ⟨hdr, -, rfl, -⟩ := frameLook_unit_iff.mp h
    exact Nat.add_pos_left (by decide) _
  unit_take {xs o n} h := by
    obtain ⟨hdr, hdec, hn, hle, ho⟩ := frameLook_unit_iff.mp h
    refine ⟨hle, fun ys => frameLook_unit_iff.mpr ⟨hdr, ?_, hn, ?_, ?_⟩⟩
    · rwa [List.take_append_of_le_length (by simp; omega), List.take_take, min_eq_left (by omega)]
    · simp; omega
    · rw [ho, List.drop_append_of_le_length (by simp; omega), List.drop_take,
        List.take_append_of_le_length (by simp; omega), List.take_take, min_eq_left (by omega)]
  stop_take {xs o n} h := by
    obtain ⟨hdec, rfl, hle, ho⟩ := frameLook_stop_iff.mp h
    refine ⟨hle, fun ys => frameLook_stop_iff.mpr ⟨?_, rfl, ?_, ho⟩⟩
    · rwa [List.take_append_of_le_length (by simp; omega), List.take_take, min_self]
    · simp; omega

/-! ## What a loop over a buffer sees at an offset -/

section
variable {buf : List UInt8} {off : Nat} {hdr : MessageHeader}

theorem look_short (hin : ¬off + kHeaderWireSize ≤ buf.length) :
    frameScanner.look (buf.drop off) = .wait := by
  have hpos : 0 < kHeaderWireSize := by decide
  refine frameLook_wait_iff.mpr (.inl ?_)
  rw [List.length_drop]
  omega

theorem look_invalid (hin : off + kHeaderWireSize ≤ buf.length)
    (hdec : decodeHeader (subspan buf off kHeaderWireSize hin) = none) :
    frameScanner.look (buf.drop off) = .stop none kHeaderWireSize := by
  refine frameLook_stop_iff.mpr ⟨hdec, rfl, ?_, rfl⟩
  rw [List.length_drop]
  omega

variable (hin : off + kHeaderWireSize ≤ buf.length)
  (hdec : decodeHeader (subspan buf off kHeaderWireSize hin) = some hdr)
include hdec

theorem look_cutOff (hframe : off + (kHeaderWireSize + hdr.bodySize.toNat) > buf.length) :
    frameScanner.look (buf.drop off) = .wait := by
  refine frameLook_wait_iff.mpr (.inr ⟨hdr, hdec, ?_⟩)
  rw [List.length_drop]
  omega

theorem look_frame (hframe : ¬off + (kHeaderWireSize + hdr.bodySize.toNat) > buf.length) :
    frameScanner.look (buf.drop off) =
      .unit (verdict hdr (((buf.drop off).drop kHeaderWireSize).take hdr.bodySize.toNat))
        (kHeaderWireSize + hdr.bodySize.toNat) := by
  refine frameLook_unit_iff.mpr ⟨hdr, hdec, rfl, ?_, rfl⟩
  rw [List.length_drop]
  omega

/-- A frame cut off the buffer is a scan of its own with one unit. -/
theorem exists_look_frame (hframe : ¬off + (kHeaderWireSize + hdr.bodySize.toNat) > buf.length) :
    ∃ out, frameScanner.look (buf.drop off) = .unit out (kHeaderWireSize + hdr.bodySize.toNat) ∧
      ∀ hfits, frameScanner.scan (subspan buf off (kHeaderWireSize + hdr.bodySize.toNat) hfits) =
        ⟨[(0, out)], [], false⟩ := by
  have hlook := look_frame hin hdec hframe
  exact ⟨_, hlook, fun _ => Scanner.scan_take rfl hlook⟩

end

/-! ## The parser -/

/-- The call made for a unit at a given offset. -/
def callbackOf : Nat × Option (MessageHeader × Body) → Callback
  | (_, some (hdr, body)) => .message hdr body
  | (off, none) => .malformed off

abbrev FrameScan := Scan UInt8 (Option (MessageHeader × Body))

def callbacks (s : FrameScan) : List Callback := s.units.map callbackOf

def countMessages (s : FrameScan) : Nat := s.units.countP (·.2.isSome)

def countMalformed (s : FrameScan) : Nat := s.units.countP (·.2.isNone)

/-- The result the parser returns for a scan of a buffer of length `len`. -/
def resultOf (len : Nat) (s : FrameScan) : ParseResult where
  bytesConsumed := len - s.rest.length
  messages := countMessages s
  malformed := countMalformed s
  needsMore := !s.stopped && decide (kHeaderWireSize ≤ s.rest.length)

/-- The result accumulated before a scan, combined with that of the scan. -/
def ParseResult.join (r t : ParseResult) : ParseResult where
  bytesConsumed := t.bytesConsumed
  messages := r.messages + t.messages
  malformed := r.malformed + t.malformed
  needsMore := t.needsMore

section
variable (len off : Nat) (r : ParseResult) (us : List (Nat × Option (MessageHeader × Body)))
  (rest : List UInt8) (stopped : Bool)

theorem join_malformed :
    r.join (resultOf len ⟨(off, none) :: us, rest, stopped⟩) =
      { r with malformed := r.malformed + 1 }.join (resultOf len ⟨us, rest, stopped⟩) := by
  simp [ParseResult.join, resultOf, countMessages, countMalformed]
  omega

theorem join_message (m : MessageHeader × Body) :
    r.join (resultOf len ⟨(off, some m) :: us, rest, stopped⟩) =
      { r with messages := r.messages + 1 }.join (resultOf len ⟨us, rest, stopped⟩) := by
  simp [ParseResult.join, resultOf, countMessages, countMalformed]
  omega

end

namespace BinaryParser

variable {σ : Type} (H : HandlerLike σ)

/-- The loop from offset `off` is the scan of what lies behind `off`. -/
theorem parseLoop_eq (buf : List UInt8) (off : Nat) (s : σ) (r : ParseResult)
    (hoff : off ≤ buf.length) (hr : r.needsMore = false) :
    parseLoop H buf off s r =
      (H.deliverAll s (callbacks (frameScanner.scanFrom off (buf.drop off))),
        r.join (resultOf buf.length (frameScanner.scanFrom off (buf.drop off)))) := by
  fun_induction parseLoop H buf off s r with
  | case1 off s r hin hdec =>
    rw [Scanner.scanFrom_stop off (look_invalid hin hdec)]
    simp [callbacks, callbackOf, HandlerLike.deliver, ParseResult.join, resultOf, countMessages,
      countMalformed, hr]
    omega
  | case2 off s r hin hdr hdec frame hframe =>
    rw [Scanner.scanFrom_wait off (look_cutOff hin hdec hframe)]
    simp [callbacks, ParseResult.join, resultOf, countMessages, countMalformed]
    omega
  | case3 off s r hin hdr hdec expectedBody frame hframe hbad ih =>
    have hlook := look_frame hin hdec hframe
    rw [verdict, if_pos hbad] at hlook
    rw [ih (by omega) hr, Scanner.scanFrom_unit off hlook, join_malformed, List.drop_drop]
    rfl
  | case4 off s r hin hdr hdec expectedBody frame hframe hbad body sr ih =>
    obtain ⟨hsize, hversion⟩ := not_or.mp hbad
    have hbody : ((buf.drop off).drop kHeaderWireSize).take hdr.bodySize.toNat = body := by
      simp [body, subspan, not_not.mp hsize]
    have hlook := look_frame hin hdec hframe
    rw [hbody, verdict, if_neg hbad] at hlook
    rw [Scanner.scanFrom_unit off hlook, List.drop_drop]
    cases hdecode : decodeBody hdr.type body with
    | some m =>
      have hsr : sr = (H.onMessage hdr m s, { r with messages := r.messages + 1 }) := by
        simp [sr, dispatch, hdecode]
      rw [ih (by omega) (by rw [hsr]; exact hr), Option.map_some, join_message, hsr]
      rfl
    | none =>
      have hsr : sr = (H.onMalformed off s, { r with malformed := r.malformed + 1 }) := by
        simp [sr, dispatch, hdecode]
      rw [ih (by omega) (by rw [hsr]; exact hr), Option.map_none, join_malformed, hsr]
      rfl
  | case5 off s r hin =>
    rw [Scanner.scanFrom_wait off (look_short hin)]
    simp [callbacks, ParseResult.join, resultOf, countMessages, countMalformed, hr]
    omega

theorem parse_eq (s : σ) (buf : List UInt8) :
    parse H s buf = (H.deliverAll s (callbacks (frameScanner.scan buf)),
      resultOf buf.length (frameScanner.scan buf)) := by
  rw [parse, parseLoop_eq H buf 0 s {} (Nat.zero_le _) rfl]
  simp only [ParseResult.join, Nat.zero_add]
  rfl

end BinaryParser

end Mdfh
