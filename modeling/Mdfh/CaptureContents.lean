import Mdfh.Capture
import Mdfh.UntrustedBytes

/-!
# Which files the reader accepts

A capture is a header with the magic, the version and a message count, and behind it as many
framed messages as the count says. The reader looks at the size and the magic only, so it
opens every file that begins like a capture.

## Main definitions

* `Covers` — a number of complete frames that end exactly at the end of a region.
* `CaptureReader.Consistent` — the files that are captures.

## Main results

* `openFile_iff` — what the reader checks.
* `openFile_consistent_iff` — when it opens nothing but captures.
-/

namespace Mdfh

open Library.Stdio

/-- From an offset, `n` complete frames lead to the end of the buffer. -/
inductive Covers (buf : List UInt8) : (off n : Nat) → Prop
  | done : Covers buf buf.length 0
  | frame {off n : Nat} {hdr : MessageHeader} : FrameAt buf off hdr →
      Covers buf (off + (kHeaderWireSize + hdr.bodySize.toNat)) n → Covers buf off (n + 1)

theorem Covers.off_of_zero {buf : List UInt8} {off : Nat} (h : Covers buf off 0) :
    off = buf.length := by
  cases h
  rfl

namespace CaptureReader

/-- A capture: the magic, the version, and as many frames as the count says. -/
structure Consistent (content : List UInt8) : Prop where
  magic : content.take kCaptureMagic.length = kCaptureMagic
  version : (content.drop 8).take (size UInt32) = wire kCaptureVersion
  counted : ∃ count : UInt64, (content.drop 16).take (size UInt64) = wire count ∧
    Covers (content.drop kCaptureHeaderSize) 0 count.toNat

section
variable {r : CaptureReader} {d : Disk} {path : Path} {content : List UInt8}

theorem wire_injective {T : Type} [Scalar T] {v w : T} (h : wire v = wire w) : v = w := by
  have hfit : 0 + size T ≤ (wire w).length := by rw [length_wire, Nat.zero_add]
  have hv : (wire w).drop 0 = wire v ++ [] := by rw [List.drop_zero, List.append_nil, h]
  have hw : (wire w).drop 0 = wire w ++ [] := by rw [List.drop_zero, List.append_nil]
  exact (loadLe_of_drop hfit hv).symm.trans (loadLe_of_drop hfit hw)

/-- The reader opens exactly the files that have a whole header and begin with the magic. -/
theorem openFile_iff (h : d path = some content) : (r.openFile d path).2 = true ↔
    kCaptureHeaderSize ≤ content.length ∧ content.take kCaptureMagic.length = kCaptureMagic := by
  have hread : (fread d ⟨path, 0⟩ kCaptureHeaderSize).2 = content.take kCaptureHeaderSize := by
    simp [fread, contents, h]
  have hbegin : (content.take kCaptureHeaderSize).take kCaptureMagic.length =
      content.take kCaptureMagic.length := by
    rw [List.take_take, min_eq_left (by decide)]
  constructor
  · intro hopen
    have hlen : (content.take kCaptureHeaderSize).length = kCaptureHeaderSize := by
      by_contra hshort
      simp only [openFile, fopen, h, Option.map_some, hread, ne_eq, hshort, not_false_eq_true,
        dite_true, Bool.false_eq_true] at hopen
    refine ⟨hlen.symm.trans_le (List.length_take_le' _ _), ?_⟩
    by_contra hbad
    simp only [openFile, fopen, h, Option.map_some, hread, ne_eq, hlen, not_true_eq_false,
      dite_false, hbegin, hbad, not_false_eq_true, if_true, Bool.false_eq_true] at hopen
  · rintro ⟨hlen, hmagic⟩
    have hfit : 16 + size UInt64 ≤ (content.take kCaptureHeaderSize).length := by
      rw [List.length_take_of_le hlen]
      decide
    rw [r.openFile_of_magic h hmagic hfit]

/-- What the reader shows of a file that it opened. -/
theorem openFile_shows (h : d path = some content) (hopen : (r.openFile d path).2 = true) :
    (r.openFile d path).1.messages = content.drop kCaptureHeaderSize ∧
      wire (r.openFile d path).1.messageCount = (content.drop 16).take (size UInt64) := by
  obtain ⟨hlen, hmagic⟩ := (openFile_iff h).mp hopen
  have hfit : 16 + size UInt64 ≤ (content.take kCaptureHeaderSize).length := by
    rw [List.length_take_of_le hlen]
    decide
  rw [r.openFile_of_magic h hmagic hfit]
  refine ⟨rfl, (wire_loadLe hfit).trans ?_⟩
  rw [List.drop_take, List.take_take]
  rfl

/-- For every file content and whatever the reader has read before: that the reader opens the
file only as a capture is true if and only if the file is shorter than a header, does not
begin with the magic, or is a capture. -/
theorem openFile_consistent_iff (r : CaptureReader) {d : Disk} {path : Path}
    {content : List UInt8} (h : d path = some content) :
    let out := r.openFile d path
    (out.2 = true → content.take kCaptureMagic.length = kCaptureMagic ∧
        (content.drop 8).take (size UInt32) = wire kCaptureVersion ∧
        Covers out.1.messages 0 out.1.messageCount.toNat) ↔
      content.length < kCaptureHeaderSize ∨ content.take kCaptureMagic.length ≠ kCaptureMagic ∨
        Consistent content := by
  intro out
  constructor
  · intro hshows
    by_cases hopen : out.2 = true
    · obtain ⟨hmessages, hcount⟩ := openFile_shows h hopen
      obtain ⟨hmagic, hversion, hcovers⟩ := hshows hopen
      rw [hmessages] at hcovers
      exact .inr (.inr ⟨hmagic, hversion, _, hcount.symm, hcovers⟩)
    · rw [openFile_iff h, not_and_or, not_le] at hopen
      exact hopen.imp id .inl
  · rintro hcases hopen
    obtain ⟨hlen, hmagic⟩ := (openFile_iff h).mp hopen
    obtain ⟨hmessages, hcount⟩ := openFile_shows h hopen
    rcases hcases with hshort | hbad | hconsistent
    · exact absurd hlen (not_le.mpr hshort)
    · exact absurd hmagic hbad
    · obtain ⟨count, hcount', hcovers⟩ := hconsistent.counted
      obtain rfl : count = out.1.messageCount := wire_injective (hcount'.symm.trans hcount.symm)
      rw [hmessages]
      exact ⟨hmagic, hconsistent.version, hcovers⟩

end

/-- A capture with one heartbeat. -/
def heartbeatCapture : List UInt8 := captureOf 1 [⟨1, 0, .heartbeat⟩]

theorem openFile_consistent_heartbeat :
    let out := CaptureReader.openFile (fun _ => some heartbeatCapture) {} "a"
    (out.2 = true → heartbeatCapture.take kCaptureMagic.length = kCaptureMagic ∧
        (heartbeatCapture.drop 8).take (size UInt32) = wire kCaptureVersion ∧
        Covers out.1.messages 0 out.1.messageCount.toNat) ↔
      heartbeatCapture.length < kCaptureHeaderSize ∨
        heartbeatCapture.take kCaptureMagic.length ≠ kCaptureMagic ∨
        Consistent heartbeatCapture :=
  openFile_consistent_iff (d := fun _ => some heartbeatCapture) {} rfl

/-- The same file before the count is patched. -/
def unpatchedCapture : List UInt8 := captureOf 0 [⟨1, 0, .heartbeat⟩]

/-- An empty capture of another version. -/
def nextVersionCapture : List UInt8 := kCaptureMagic ++ wire (2 : UInt32) ++ List.replicate 12 0

/-- The reader opens both. -/
theorem openFile_inconsistent :
    let out := CaptureReader.openFile (fun _ => some unpatchedCapture) {} "a"
    let out' := CaptureReader.openFile (fun _ => some nextVersionCapture) {} "a"
    out.2 = true ∧ ¬Covers out.1.messages 0 out.1.messageCount.toNat ∧
      out'.2 = true ∧ (nextVersionCapture.drop 8).take (size UInt32) ≠ wire kCaptureVersion := by
  intro out out'
  have hcount : out.1.messageCount.toNat = 0 := by decide +kernel
  have hlength : out.1.messages.length = 16 := by decide +kernel
  refine ⟨by decide +kernel, ?_, by decide +kernel, by decide +kernel⟩
  rw [hcount]
  intro hcovers
  exact nomatch hcovers.off_of_zero.trans hlength

end CaptureReader

end Mdfh
