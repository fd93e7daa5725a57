import Mdfh.Library.Stdio
import Mdfh.Delivery

/-!
# Capture files

A capture is a header with a message count and then the encoded messages. The writer
appends messages and patches the count when it closes the file; the reader loads the whole
message region. One writer may write many files, or the same one again.

## Main definitions

* `CaptureWriter`, `CaptureReader` — the two classes, over files as byte arrays.
* `CaptureWriter.perform` — a list of calls, each of which succeeds.
* `Session` — the calls between an `open` and its end.

## Main results

* `Writing.write`, `Writing.close` — what the calls of a session do to its file.
* `exists_perform` — sessions run to their end as long as there is room.
* `reads_session` — what a reader finds in a file after the session that wrote it last.
-/

namespace Mdfh

open Library Library.Stdio Library.LittleEndian

def kCaptureMagic : List UInt8 := ['M', 'D', 'F', 'H', 'C', 'A', 'P', '1'].map (·.toUInt8)

def kCaptureVersion : UInt32 := 1

def kCaptureHeaderSize : Nat := 24

def encodeCaptureHeader (p : List UInt8) (count : UInt64) : List UInt8 :=
  (Cursor.mk (overwrite p 0 kCaptureMagic) 8
    |>.storeLe kCaptureVersion
    |>.storeLe (0 : UInt32)
    |>.storeLe count).buf

/-! ## The writer -/

structure CaptureWriter where
  file : Option Stream := none
  count : UInt64 := 0

namespace CaptureWriter

def close (d : Disk) (w : CaptureWriter) : Disk × CaptureWriter :=
  match w.file with
  | none => (d, w)
  | some f =>
    let hdr := encodeCaptureHeader (List.replicate kCaptureHeaderSize 0) w.count
    -- The flush in front of the seek has no effect on a byte array.
    let (f, status) := fseek d f 0 .set
    let d := if status = 0 then (fwrite d f hdr).1 else d
    (d, { w with file := none })

/-- The source's `open`. -/
def openFile (d : Disk) (w : CaptureWriter) (path : Path) : Disk × CaptureWriter × Bool :=
  let (d, w) := close d w
  match fopen d path .wb with
  | (d, none) => (d, { w with file := none }, false)
  | (d, some f) =>
    let hdr := encodeCaptureHeader (List.replicate kCaptureHeaderSize 0) 0
    let (d, f, n) := fwrite d f hdr
    (d, { file := some f, count := 0 }, n = hdr.length)

def writeRaw (d : Disk) (f : Stream) (p : List UInt8) : Disk × Stream × Bool :=
  let (d, f, n) := fwrite d f p
  (d, f, n = p.length)

/-- Encode and append one framed message. Writing to a null stream is undefined behaviour. -/
def write (d : Disk) (w : CaptureWriter) (seq : Sequence) (ts : TimestampNs) (body : Body) :
    Option (Disk × CaptureWriter × Bool) :=
  let (n, buf) := encodeMessage (List.replicate kMaxMessageSize 0) seq ts body
  if n = 0 then some (d, w, false)
  else do
    let f ← w.file
    let (d, f, ok) := writeRaw d f (buf.take n)
    if ok then return (d, { file := some f, count := w.count + 1 }, true)
    else return (d, { w with file := some f }, false)

end CaptureWriter

/-! ## The reader -/

/-- The message region is stored without the header. -/
structure CaptureReader where
  bytes : List UInt8 := []
  count : UInt64 := 0
  valid : Bool := false
  error : String := ""

namespace CaptureReader

/-- `bytes_.resize(n)`. -/
def resize (bytes : List UInt8) (n : Nat) : List UInt8 :=
  (bytes ++ List.replicate (n - bytes.length) 0).take n

/-- The source's `open`. -/
def openFile (d : Disk) (r : CaptureReader) (path : Path) : CaptureReader × Bool :=
  let r := { r with valid := false, error := "" }
  match (fopen d path .rb).2 with
  | none => ({ r with error := "cannot open file" }, false)
  | some f =>
    let (f, hdr) := fread d f kCaptureHeaderSize
    if hlen : hdr.length ≠ kCaptureHeaderSize then
      ({ r with error := "file smaller than header" }, false)
    else if hdr.take kCaptureMagic.length ≠ kCaptureMagic then ({ r with error := "bad magic" }, false)
    else
      let r := { r with count := loadLe UInt64 hdr 16 (not_not.mp hlen).ge }
      let (f, status) := fseek d f 0 .fromEnd
      if status ≠ 0 then ({ r with error := "seek failed" }, false)
      else
        let fileEnd := ftell f
        if fileEnd < kCaptureHeaderSize then ({ r with error := "truncated" }, false)
        else
          let body := fileEnd.toNat - kCaptureHeaderSize
          let (f, _) := fseek d f kCaptureHeaderSize .set
          let (_, got) := fread d f body
          let r := { r with bytes := overwrite (resize r.bytes body) 0 got }
          if got.length ≠ body then ({ r with error := "short read" }, false)
          else ({ r with valid := true }, true)

def messages (r : CaptureReader) : List UInt8 := r.bytes

def messageCount (r : CaptureReader) : UInt64 := r.count

end CaptureReader

/-! ## Sessions -/

namespace CaptureWriter

inductive Call where
  | openFile (path : Path)
  | write (m : Message)
  | close

/-- One call, if it is defined and succeeds. -/
def call (s : Disk × CaptureWriter) : Call → Option (Disk × CaptureWriter)
  | .openFile path =>
    match openFile s.1 s.2 path with
    | (d, w, ok) => if ok then some (d, w) else none
  | .write m => do
    let (d, w, ok) ← write s.1 s.2 m.seq m.ts m.body
    if ok then return (d, w) else none
  | .close => some (close s.1 s.2)

/-- A list of calls, each of which succeeds. -/
def perform (s : Disk × CaptureWriter) : List Call → Option (Disk × CaptureWriter)
  | [] => some s
  | c :: cs => (call s c).bind fun s' => perform s' cs

end CaptureWriter

/-- An `open`, the writes that follow it, and `close` unless the next `open` ends them. -/
structure Session where
  path : Path
  messages : List Message
  closed : Bool := true

open CaptureWriter in
def Session.calls (s : Session) : List Call :=
  .openFile s.path :: s.messages.map .write ++ if s.closed then [.close] else []

/-! ## The header -/

def captureHeader (count : UInt64) : List UInt8 :=
  kCaptureMagic ++ (wire kCaptureVersion ++ (wire (0 : UInt32) ++ wire count))

@[simp] theorem length_captureHeader (count : UInt64) :
    (captureHeader count).length = kCaptureHeaderSize := by
  simp [captureHeader, kCaptureMagic, kCaptureHeaderSize, size]

theorem encodeCaptureHeader_eq (count : UInt64) :
    encodeCaptureHeader (List.replicate kCaptureHeaderSize 0) count = captureHeader count := by
  have hmagic : Cursor.mk (overwrite (List.replicate kCaptureHeaderSize 0) 0 kCaptureMagic) 8 =
      (Cursor.mk (List.replicate kCaptureHeaderSize 0) 0).write kCaptureMagic := rfl
  have hlen := length_captureHeader count
  rw [encodeCaptureHeader, hmagic]
  simp only [Cursor.storeLe_eq, Cursor.write_write, List.append_assoc]
  change overwrite (List.replicate kCaptureHeaderSize 0) 0 (captureHeader count) = _
  rw [overwrite_eq (by simp [hlen])]
  simp [hlen]

/-! ## The writer's calls -/

theorem Message.header_le_length (m : Message) : kHeaderWireSize ≤ m.bytes.length := by
  rw [Message.bytes, encodeFrame_eq, length_frameBytes]
  exact Nat.le_add_right _ _

/-- What a file holds: the count that stands in its header, and messages. -/
def captureOf (count : UInt64) (ms : List Message) : List UInt8 :=
  captureHeader count ++ ms.flatMap Message.bytes

theorem captureOf_concat (count : UInt64) (ms : List Message) (m : Message) :
    captureOf count (ms ++ [m]) = captureOf count ms ++ m.bytes := by
  simp [captureOf]

namespace CaptureWriter

variable {d d' : Disk} {w w' : CaptureWriter} {path : Path} {ms : List Message}

/-- The writer is in a session on `path` and has written `ms`. -/
structure Writing (d : Disk) (w : CaptureWriter) (path : Path) (ms : List Message) : Prop where
  file : w.file = some ⟨path, (captureOf 0 ms).length⟩
  count : w.count = UInt64.ofNat ms.length
  contents : d path = some (captureOf 0 ms)
  room : (captureOf 0 ms).length ≤ maxOffset

/-- The writer is not in a session on `path`. -/
def Elsewhere (w : CaptureWriter) (path : Path) : Prop := ∀ f, w.file = some f → f.path ≠ path

theorem close_none (h : w.file = none) : close d w = (d, w) := by
  unfold close
  rw [h]

theorem close_some {f : Stream} (h : w.file = some f) :
    close d w = ((fwrite d { f with pos := 0 } (captureHeader w.count)).1, { w with file := none }) := by
  rw [← encodeCaptureHeader_eq]
  unfold close
  rw [h]
  rfl

@[simp] theorem close_file : (close d w).2.file = none := by
  cases hf : w.file with
  | none => rw [close_none hf, hf]
  | some f => rw [close_some hf]

theorem close_other (h : w.Elsewhere path) : (close d w).1 path = d path := by
  cases hf : w.file with
  | none => rw [close_none hf]
  | some f =>
    rw [close_some hf]
    dsimp only
    exact fwrite_other (h f hf)

/-- Closing patches the count into the header and leaves the rest of the file alone. -/
theorem Writing.close (h : Writing d w path ms) :
    (close d w).1 path = some (captureOf (UInt64.ofNat ms.length) ms) := by
  have hroom : (captureHeader w.count).length ≤ maxOffset := by
    rw [length_captureHeader]
    decide
  rw [close_some h.file, fwrite_front rfl hroom, Function.update_self, h.count, Stdio.contents,
    h.contents, Option.getD_some, captureOf, captureOf,
    List.drop_left' (by rw [length_captureHeader, length_captureHeader])]

/-- Opening ends the session before and begins one on a file with nothing but a header. -/
theorem openFile_eq (d : Disk) (w : CaptureWriter) (path : Path) :
    openFile d w path = (Function.update (close d w).1 path (some (captureHeader 0)),
      { file := some ⟨path, kCaptureHeaderSize⟩, count := 0 }, true) := by
  have hempty : Stdio.contents (Function.update (CaptureWriter.close d w).1 path (some []))
      ⟨path, 0⟩ = [] := by simp [Stdio.contents]
  have hroom : 0 + (captureHeader 0).length ≤ maxOffset := by
    rw [length_captureHeader]
    decide
  have hwrite := fwrite_append (f := ⟨path, 0⟩) (congrArg List.length hempty).symm hroom
  simp only [hempty, List.nil_append, length_captureHeader, Function.update_idem, Nat.zero_add]
    at hwrite
  simp only [openFile, fopen, encodeCaptureHeader_eq, hwrite, length_captureHeader, decide_true]

theorem Writing.openFile {w : CaptureWriter} (h : call (d, w) (.openFile path) = some (d', w')) :
    Writing d' w' path [] := by
  simp only [call, openFile_eq, if_true, Option.some.injEq, Prod.mk.injEq] at h
  obtain ⟨rfl, rfl⟩ := h
  have hcapture : captureOf 0 [] = captureHeader 0 := List.append_nil _
  refine ⟨?_, rfl, ?_, ?_⟩
  · rw [hcapture, length_captureHeader]
  · rw [hcapture, Function.update_self]
  · rw [hcapture, length_captureHeader]
    decide

/-- A write hands the bytes of the frame to the stream, and counts them if all are taken. -/
theorem write_eq (d : Disk) (w : CaptureWriter) (m : Message) :
    write d w m.seq m.ts m.body = w.file.bind fun f =>
      let (d', f', n) := fwrite d f m.bytes
      if n = m.bytes.length then some (d', { file := some f', count := w.count + 1 }, true)
      else some (d', { w with file := some f' }, false) := by
  have hfit : kHeaderWireSize + bodySizeFor (msgTypeOf m.body) ≤
      (List.replicate kMaxMessageSize (0 : UInt8)).length := by
    have := bodySizeFor_le (msgTypeOf m.body)
    simp only [List.length_replicate, kMaxMessageSize]
    omega
  have hencode := encodeMessage_eq m.seq m.ts m.body hfit
  have hbytes : m.bytes = frameBytes m.seq m.ts m.body := encodeFrame_eq m.seq m.ts m.body
  have hlen := length_frameBytes m.seq m.ts m.body
  have hne : kHeaderWireSize + bodySizeFor (msgTypeOf m.body) ≠ 0 := by
    simp [kHeaderWireSize]
  unfold write writeRaw
  simp only [hencode, if_neg hne, List.take_left' hlen, hbytes, Option.bind_eq_bind,
    decide_eq_true_eq]
  rfl

/-- What a successful write does. -/
theorem call_write {m : Message} (hcall : call (d, w) (.write m) = some (d', w')) :
    ∃ f, w.file = some f ∧ f.pos + m.bytes.length ≤ maxOffset ∧ d' = (fwrite d f m.bytes).1 ∧
      w' = { file := some (fwrite d f m.bytes).2.1, count := w.count + 1 } := by
  have hne : m.bytes ≠ [] := by
    have hpos := m.header_le_length
    rintro hnil
    simp [hnil, kHeaderWireSize] at hpos
  simp only [call, write_eq] at hcall
  cases hf : w.file with
  | none => simp [hf] at hcall
  | some f =>
    simp only [hf, Option.bind_some] at hcall
    split_ifs at hcall with hall
    · simp only [Option.bind_eq_bind, Option.bind_some, if_true, Option.pure_def,
        Option.some.injEq, Prod.mk.injEq] at hcall
      exact ⟨f, rfl, room_of_fwrite hne hall, hcall.1.symm, hcall.2.symm⟩
    · simp at hcall

/-- The next write of a session is at the end of its file. -/
theorem Writing.pos_eq (h : Writing d w path ms) :
    (⟨path, (captureOf 0 ms).length⟩ : Stream).pos =
      (Stdio.contents d ⟨path, (captureOf 0 ms).length⟩).length := by
  simp [Stdio.contents, h.contents]

theorem Writing.write (h : Writing d w path ms) {m : Message}
    (hcall : call (d, w) (.write m) = some (d', w')) : Writing d' w' path (ms ++ [m]) := by
  obtain ⟨f, hf, hroom, rfl, rfl⟩ := call_write hcall
  obtain rfl := Option.some.inj (h.file.symm.trans hf)
  rw [fwrite_append h.pos_eq hroom]
  refine ⟨?_, ?_, ?_, ?_⟩
  · rw [captureOf_concat, List.length_append]
  · simp [h.count, UInt64.ofNat_add]
  · simp [captureOf_concat, Stdio.contents, h.contents]
  · rw [captureOf_concat, List.length_append]
    exact hroom

/-- A write for which there is room succeeds and leaves the other files alone. -/
theorem Writing.write_of_room (h : Writing d w path ms) {m : Message}
    (hroom : (captureOf 0 (ms ++ [m])).length ≤ maxOffset) :
    ∃ d' w', CaptureWriter.write d w m.seq m.ts m.body = some (d', w', true) ∧
      Writing d' w' path (ms ++ [m]) ∧ ∀ q ≠ path, d' q = d q := by
  rw [captureOf_concat, List.length_append] at hroom
  have hfits := fwrite_append h.pos_eq hroom
  have hwrite : CaptureWriter.write d w m.seq m.ts m.body =
      some ((fwrite d ⟨path, (captureOf 0 ms).length⟩ m.bytes).1,
        { file := some (fwrite d ⟨path, (captureOf 0 ms).length⟩ m.bytes).2.1
          count := w.count + 1 }, true) := by
    simp only [write_eq, h.file, Option.bind_some, hfits, if_true]
  refine ⟨_, _, hwrite, h.write ?_, ?_⟩
  · simp only [call, hwrite]
    rfl
  · intro q hq
    exact fwrite_other (Ne.symm hq)

/-! ## Runs of calls -/

theorem perform_append (s : Disk × CaptureWriter) (cs cs' : List Call) :
    perform s (cs ++ cs') = (perform s cs).bind fun s' => perform s' cs' := by
  induction cs generalizing s with
  | nil => rfl
  | cons c cs ih => simp only [List.cons_append, perform, ih, Option.bind_assoc]

/-- The writes of a session. -/
theorem Writing.writes (h : Writing d w path ms) {more : List Message}
    (hrun : perform (d, w) (more.map .write) = some (d', w')) :
    Writing d' w' path (ms ++ more) := by
  induction more generalizing d w ms with
  | nil =>
    obtain ⟨rfl, rfl⟩ := Prod.mk.inj (Option.some.inj hrun)
    rwa [List.append_nil]
  | cons m more ih =>
    obtain ⟨⟨d₁, w₁⟩, hwrite, hrest⟩ := Option.bind_eq_some_iff.mp hrun
    have hnext := ih (h.write hwrite) hrest
    rwa [List.append_assoc] at hnext

/-- As many writes as there is room for succeed. -/
theorem Writing.exists_writes (h : Writing d w path ms) {more : List Message}
    (hroom : (captureOf 0 (ms ++ more)).length ≤ maxOffset) :
    ∃ d' w', perform (d, w) (more.map .write) = some (d', w') := by
  induction more generalizing d w ms with
  | nil => exact ⟨d, w, rfl⟩
  | cons m more ih =>
    rw [List.append_cons] at hroom
    have hone : (captureOf 0 (ms ++ [m])).length ≤ maxOffset := by
      refine Nat.le_trans ?_ hroom
      simp only [captureOf, List.flatMap_append, List.length_append]
      omega
    obtain ⟨d₁, w₁, hwrite, h₁, -⟩ := h.write_of_room hone
    obtain ⟨d', w', hrest⟩ := ih h₁ hroom
    refine ⟨d', w', ?_⟩
    simp only [List.map_cons, perform, call, hwrite]
    exact hrest

/-- The call that ends a session completes its file. -/
theorem Writing.finish (h : Writing d w path ms) {c : Call}
    (hc : c = .close ∨ ∃ q, q ≠ path ∧ c = .openFile q) (hcall : call (d, w) c = some (d', w')) :
    w'.Elsewhere path ∧ d' path = some (captureOf (UInt64.ofNat ms.length) ms) := by
  rw [← h.close]
  rcases hc with rfl | ⟨q, hq, rfl⟩
  · have hclose : CaptureWriter.close d w = (d', w') := Option.some.inj hcall
    have hnone : (CaptureWriter.close d w).2.file = none := close_file
    rw [hclose] at hnone ⊢
    exact ⟨fun f hf => (nomatch hnone ▸ hf), rfl⟩
  · simp only [call, openFile_eq, if_true, Option.some.injEq, Prod.mk.injEq] at hcall
    obtain ⟨rfl, rfl⟩ := hcall
    refine ⟨?_, Function.update_of_ne hq.symm _ _⟩
    rintro f ⟨⟩
    exact hq

/-- Calls that do not open `path` leave its file alone once the writer is elsewhere. -/
theorem Elsewhere.call (h : w.Elsewhere path) {c : Call} (hc : c ≠ .openFile path)
    (hcall : call (d, w) c = some (d', w')) : w'.Elsewhere path ∧ d' path = d path := by
  cases c with
  | openFile q =>
    have hq : q ≠ path := fun heq => hc (congrArg Call.openFile heq)
    simp only [CaptureWriter.call, openFile_eq, if_true, Option.some.injEq, Prod.mk.injEq] at hcall
    obtain ⟨rfl, rfl⟩ := hcall
    refine ⟨?_, ?_⟩
    · rintro f ⟨⟩
      exact hq
    · rw [Function.update_of_ne hq.symm]
      exact close_other h
  | write m =>
    obtain ⟨f, hf, -, rfl, rfl⟩ := call_write hcall
    refine ⟨?_, fwrite_other (h f hf)⟩
    intro g hg
    obtain rfl := Option.some.inj hg
    rw [fwrite_path]
    exact h f hf
  | close =>
    have hclose : CaptureWriter.close d w = (d', w') := Option.some.inj hcall
    refine ⟨?_, ?_⟩
    · intro f hf
      have hnone : w'.file = none := by rw [← close_file (d := d) (w := w), hclose]
      exact nomatch hnone ▸ hf
    · have hkeep : (CaptureWriter.close d w).1 path = d path := close_other h
      rwa [hclose] at hkeep

theorem Elsewhere.perform (h : w.Elsewhere path) {cs : List Call} (hcs : .openFile path ∉ cs)
    (hrun : perform (d, w) cs = some (d', w')) : d' path = d path := by
  induction cs generalizing d w with
  | nil =>
    obtain ⟨rfl, rfl⟩ := Prod.mk.inj (Option.some.inj hrun)
    rfl
  | cons c cs ih =>
    obtain ⟨⟨d₁, w₁⟩, hcall, hrest⟩ := Option.bind_eq_some_iff.mp hrun
    obtain ⟨hc, hcs⟩ := not_or.mp (mt List.mem_cons.mpr hcs)
    obtain ⟨hnext, hkeep⟩ := h.call (Ne.symm hc) hcall
    rw [ih hnext hcs hrest, hkeep]

end CaptureWriter

/-! ## The reader's call -/

namespace CaptureReader

theorem length_resize (bytes : List UInt8) (n : Nat) : (resize bytes n).length = n := by
  simp only [resize, List.length_take, List.length_append, List.length_replicate]
  omega

/-- A file that begins like a capture is opened, whatever the rest of it is and whatever the
reader has read before. -/
theorem openFile_of_magic (r : CaptureReader) {d : Disk} {path : Path} {content : List UInt8}
    (h : d path = some content) (hmagic : content.take kCaptureMagic.length = kCaptureMagic)
    (hfit : 16 + size UInt64 ≤ (content.take kCaptureHeaderSize).length) :
    r.openFile d path =
      ({ bytes := content.drop kCaptureHeaderSize
         count := loadLe UInt64 (content.take kCaptureHeaderSize) 16 hfit
         valid := true
         error := "" }, true) := by
  have hfile (pos : Nat) : Stdio.contents d ⟨path, pos⟩ = content := by
    simp [Stdio.contents, h]
  have hlen : kCaptureHeaderSize ≤ content.length := hfit.trans (List.length_take_le' _ _)
  have hheader : (content.take kCaptureHeaderSize).length = kCaptureHeaderSize :=
    List.length_take_of_le hlen
  have hbegin : (content.take kCaptureHeaderSize).take kCaptureMagic.length = kCaptureMagic := by
    rw [List.take_take, min_eq_left (by decide), hmagic]
  have hbody : (content.drop kCaptureHeaderSize).length = content.length - kCaptureHeaderSize :=
    List.length_drop
  have hfill : overwrite (resize r.bytes (content.length - kCaptureHeaderSize)) 0
      (content.drop kCaptureHeaderSize) = content.drop kCaptureHeaderSize := by
    rw [overwrite_eq (by rw [length_resize, Nat.zero_add, hbody])]
    simp [length_resize]
  have hall : (content.drop kCaptureHeaderSize).take (content.length - kCaptureHeaderSize) =
      content.drop kCaptureHeaderSize := List.take_of_length_le hbody.le
  have hend : ¬(content.length : Int) < (kCaptureHeaderSize : Int) := by
    omega
  simp only [openFile, fopen, h, Option.map_some, fread, hfile, List.drop_zero, hheader, ne_eq,
    not_true_eq_false, dite_false, hbegin, if_false, fseek, ftell, Nat.add_zero, hend,
    Int.toNat_natCast, hall, hbody, hfill]

/-- A reader opens what a writer has closed. -/
theorem openFile_capture (r : CaptureReader) {d : Disk} {path : Path} {count : UInt64}
    {ms : List Message} (h : d path = some (captureOf count ms)) :
    r.openFile d path =
      ({ bytes := ms.flatMap Message.bytes, count, valid := true, error := "" }, true) := by
  have hheader : (captureOf count ms).take kCaptureHeaderSize = captureHeader count :=
    List.take_left' (length_captureHeader count)
  have hbody : (captureOf count ms).drop kCaptureHeaderSize = ms.flatMap Message.bytes :=
    List.drop_left' (length_captureHeader count)
  have hmagic : (captureOf count ms).take kCaptureMagic.length = kCaptureMagic := by
    rw [captureOf, captureHeader, List.append_assoc]
    exact List.take_left
  have hfit : 16 + size UInt64 ≤ ((captureOf count ms).take kCaptureHeaderSize).length := by
    rw [hheader, length_captureHeader]
    decide
  have hcount : loadLe UInt64 ((captureOf count ms).take kCaptureHeaderSize) 16 hfit = count := by
    have hsrc : ((captureOf count ms).take kCaptureHeaderSize).drop 16 = wire count ++ [] := by
      rw [hheader]
      exact (List.append_nil _).symm
    exact loadLe_of_drop hfit hsrc
  rw [r.openFile_of_magic h hmagic hfit, hcount, hbody]

end CaptureReader

/-! ## Round trip -/

/-- Parsing whole encoded frames dispatches them all. -/
theorem parse_bytes {σ : Type} (H : HandlerLike σ) (s : σ) (ms : List Message) :
    BinaryParser.parse H s (ms.flatMap Message.bytes) =
      (H.deliverAll s (ms.map Message.callback),
        { bytesConsumed := (ms.flatMap Message.bytes).length
          messages := ms.length
          malformed := 0
          needsMore := false }) := by
  have hmessages : ms.countP (fun m => m.item.verdict.isSome) = ms.length :=
    List.countP_eq_length.mpr fun m _ => rfl
  have hmalformed : ms.countP (fun m => m.item.verdict.isNone) = 0 :=
    List.countP_eq_zero.mpr fun m _ => Bool.false_ne_true
  rw [BinaryParser.parse_eq, Message.scan_bytes]
  simp only [callbacks, StreamItem.callbackOf_positions, Message.callbacksFrom_items, resultOf,
    countMessages, countMalformed, StreamItem.countP_positions 0 _ Option.isSome,
    StreamItem.countP_positions 0 _ Option.isNone, List.countP_map, Function.comp_def, hmessages,
    hmalformed]
  rfl

theorem length_le_captureOf (count : UInt64) (ms : List Message) :
    ms.length ≤ (captureOf count ms).length := by
  have hflat : ms.length ≤ (ms.flatMap Message.bytes).length := by
    induction ms with
    | nil => exact Nat.le_refl 0
    | cons m ms ih =>
      have hpos := m.header_le_length
      simp only [kHeaderWireSize, List.flatMap_cons, List.length_append, List.length_cons] at *
      omega
  rw [captureOf, List.length_append]
  omega

open CaptureWriter in
theorem Session.openFile_notMem {path : Path} {after : List Session}
    (hlast : ∀ t ∈ after, t.path ≠ path) : Call.openFile path ∉ after.flatMap Session.calls := by
  intro hmem
  obtain ⟨t, ht, hmem⟩ := List.mem_flatMap.mp hmem
  have hne := hlast t ht
  grind [Session.calls]

open CaptureWriter in
/-- A session for whose file there is room runs to its end, whatever the writer has done before. -/
theorem Session.exists_perform (s : Session)
    (hroom : (captureOf 0 s.messages).length ≤ maxOffset) (d : Disk) (w : CaptureWriter) :
    ∃ d' w', perform (d, w) s.calls = some (d', w') := by
  obtain ⟨⟨d₁, w₁⟩, hopen⟩ : ∃ r, call (d, w) (.openFile s.path) = some r := by
    simp only [call, openFile_eq, if_true]
    exact ⟨_, rfl⟩
  obtain ⟨d₂, w₂, hwrites⟩ := (Writing.openFile hopen).exists_writes hroom
  have hrun : perform (d, w) (.openFile s.path :: s.messages.map .write) = some (d₂, w₂) := by
    rw [perform, hopen]
    exact hwrites
  rw [Session.calls, perform_append, hrun]
  cases s.closed with
  | false => exact ⟨d₂, w₂, rfl⟩
  | true => exact ⟨(close d₂ w₂).1, (close d₂ w₂).2, rfl⟩

open CaptureWriter in
theorem exists_perform {sessions : List Session}
    (hroom : ∀ t ∈ sessions, (captureOf 0 t.messages).length ≤ maxOffset) (d : Disk)
    (w : CaptureWriter) : ∃ d' w', perform (d, w) (sessions.flatMap Session.calls) = some (d', w') := by
  induction sessions generalizing d w with
  | nil => exact ⟨d, w, rfl⟩
  | cons t ts ih =>
    obtain ⟨ht, hts⟩ := List.forall_mem_cons.mp hroom
    obtain ⟨d₁, w₁, hfirst⟩ := t.exists_perform ht d w
    obtain ⟨d', w', hrest⟩ := ih hts d₁ w₁
    refine ⟨d', w', ?_⟩
    rw [List.flatMap_cons, perform_append, hfirst]
    exact hrest

open CaptureWriter in
/-- The session that was the last to write a file leaves the header with its count and its
messages there. -/
theorem Session.file_of_perform {before after : List Session} {s : Session}
    (hended : s.closed = true ∨ after ≠ []) (hlast : ∀ t ∈ after, t.path ≠ s.path)
    {d d' : Disk} {w w' : CaptureWriter}
    (hrun : perform (d, w) ((before ++ s :: after).flatMap Session.calls) = some (d', w')) :
    d' s.path = some (captureOf (UInt64.ofNat s.messages.length) s.messages) := by
  have hsplit : (before ++ s :: after).flatMap Session.calls = before.flatMap Session.calls ++
      (.openFile s.path :: s.messages.map Call.write ++
        ((if s.closed then [.close] else []) ++ after.flatMap Session.calls)) := by
    simp [Session.calls]
  rw [hsplit, perform_append, Option.bind_eq_some_iff] at hrun
  obtain ⟨⟨d₁, w₁⟩, -, hrun⟩ := hrun
  rw [perform_append, Option.bind_eq_some_iff] at hrun
  obtain ⟨⟨d₂, w₂⟩, hsession, hrest⟩ := hrun
  obtain ⟨⟨d₃, w₃⟩, hopen, hwrites⟩ := Option.bind_eq_some_iff.mp hsession
  have hwriting : Writing d₂ w₂ s.path s.messages := (Writing.openFile hopen).writes hwrites
  have hnever := Session.openFile_notMem hlast
  -- The first of the remaining calls ends the session, and the others leave its file alone.
  obtain ⟨c, cs, hcalls, hc, hcs⟩ : ∃ c cs,
      (if s.closed then [.close] else []) ++ after.flatMap Session.calls = c :: cs ∧
        (c = .close ∨ ∃ q, q ≠ s.path ∧ c = .openFile q) ∧ .openFile s.path ∉ cs := by
    cases hclosed : s.closed with
    | true => exact ⟨.close, _, rfl, .inl rfl, hnever⟩
    | false =>
      cases after with
      | nil => simp [hclosed] at hended
      | cons t ts =>
        refine ⟨.openFile t.path, _, rfl, .inr ⟨t.path, hlast t List.mem_cons_self, rfl⟩, ?_⟩
        exact fun hmem => hnever (List.mem_cons_of_mem _ hmem)
  rw [hcalls] at hrest
  obtain ⟨⟨d₄, w₄⟩, hcall, hothers⟩ := Option.bind_eq_some_iff.mp hrest
  obtain ⟨helsewhere, hdone⟩ := hwriting.finish hc hcall
  rw [helsewhere.perform hcs hothers, hdone]

open CaptureWriter in
/-- One writer runs a list of sessions, and no file grows beyond the range of file offsets.
Then every call succeeds, and a reader, old or new, opens the file that the session `s` was the
last to write, counts its messages, and holds their frames; the parser dispatches these and
nothing else. -/
theorem reads_session (before after : List Session) (s : Session)
    (hended : s.closed = true ∨ after ≠ []) (hlast : ∀ t ∈ after, t.path ≠ s.path)
    (hroom : ∀ t ∈ before ++ s :: after, (captureOf 0 t.messages).length ≤ maxOffset) (d : Disk) :
    ∃ d' w', perform (d, {}) ((before ++ s :: after).flatMap Session.calls) = some (d', w') ∧
      ∀ (r : CaptureReader) (σ : Type) (H : HandlerLike σ) (x : σ),
        let out := r.openFile d' s.path
        out.2 = true ∧ out.1.messageCount.toNat = s.messages.length ∧
          out.1.messages = s.messages.flatMap Message.bytes ∧
          BinaryParser.parse H x out.1.messages =
            (H.deliverAll x (s.messages.map Message.callback),
              { bytesConsumed := out.1.messages.length
                messages := s.messages.length
                malformed := 0
                needsMore := false }) := by
  obtain ⟨d', w', hrun⟩ := exists_perform hroom d {}
  have hfile := Session.file_of_perform hended hlast hrun
  have hfew : s.messages.length < 2 ^ 64 := by
    have hle := length_le_captureOf 0 s.messages
    have hfits := hroom s (List.mem_append_right _ List.mem_cons_self)
    simp only [maxOffset] at hfits
    omega
  refine ⟨d', w', hrun, ?_⟩
  intro r σ H x out
  have hout : out = _ := CaptureReader.openFile_capture r hfile
  rw [hout]
  refine ⟨rfl, ?_, rfl, parse_bytes H x s.messages⟩
  rw [CaptureReader.messageCount, UInt64.toNat_ofNat', Nat.mod_eq_of_lt hfew]

/-- Three sessions: two on one file, each ended by the next open, and one on another file. -/
def reusingSessions : List Session :=
  [{ path := "a", messages := [⟨9, 900, .heartbeat⟩], closed := false },
    { path := "a", closed := false, messages :=
      [⟨1, 100, .addOrder { symbol := 7, orderId := 1, price := 100, quantity := 5 }⟩,
        ⟨2, 200, .cancelOrder { symbol := 7, orderId := 1 }⟩] },
    { path := "b", messages := [] }]

theorem reads_session_reusing : ∃ d' w',
    CaptureWriter.perform (fun _ => none, {}) (reusingSessions.flatMap Session.calls) =
        some (d', w') ∧
      (CaptureReader.openFile d' {} "a").2 = true ∧
      (CaptureReader.openFile d' {} "a").1.messageCount.toNat = 2 := by
  have hroom : ∀ t ∈ reusingSessions, (captureOf 0 t.messages).length ≤ maxOffset := by
    decide +kernel
  obtain ⟨d', w', hrun, hreads⟩ := reads_session [reusingSessions[0]] [reusingSessions[2]]
    reusingSessions[1] (.inr (List.cons_ne_nil _ _)) (by decide) hroom fun _ => none
  obtain ⟨hopen, hcount, -⟩ := hreads {} _ recorder []
  exact ⟨d', w', hrun, hopen, hcount⟩

end Mdfh
