import Mdfh.Replay

/-!
# Pacing

The timed modes schedule each frame by the distance of its timestamp from that of the first
frame. The distance is an unsigned word that is cast to a signed count of nanoseconds, so a
frame stamped before the first one is scheduled by a wrapped distance.

## Main definitions

* `ReplayDriver.paces` — the pairs of timestamps that the walk subtracts.
* `ReplayDriver.offset` — the offset of a frame, with exact conversions.

## Main results

* `timedLoop_sleeps` — the walk sleeps for the deadlines of these pairs.
* `replay_offsets_iff` — when all offsets are right.
-/

namespace Mdfh

namespace ReplayDriver

/-! ## The timestamps of a walk -/

/-- For each frame of the timed walk from `off`: the timestamp of the first frame and its own. -/
def pacesFrom (messages : List UInt8) (off : Nat) (firstTs : Option TimestampNs) :
    List (TimestampNs × TimestampNs) :=
  if hoff : off + kHeaderWireSize ≤ messages.length then
    match decodeHeader (subspan messages off kHeaderWireSize hoff) with
    | none => []
    | some hdr =>
      let frame := kHeaderWireSize + hdr.bodySize.toNat
      if off + frame > messages.length then []
      else
        let first := firstTs.getD hdr.timestamp
        (first, hdr.timestamp) :: pacesFrom messages (off + frame) (some first)
  else []
termination_by messages.length - off
decreasing_by
  simp only [kHeaderWireSize] at *
  omega

def paces (messages : List UInt8) : List (TimestampNs × TimestampNs) := pacesFrom messages 0 none

/-- The walk sleeps once for each pair, whatever the frames do to the books. -/
theorem timedLoop_sleeps (cfg : ReplayConfig) (messages : List UInt8) (off : Nat)
    (firstTs : Option TimestampNs) (feed : FeedHandler BookBuilder) (res : ReplayResult) :
    (timedLoop cfg messages off firstTs feed res).2.sleeps =
      res.sleeps ++ (pacesFrom messages off firstTs).map fun p => deadline cfg p.1 p.2 := by
  fun_induction timedLoop cfg messages off firstTs feed res with
  | case1 off firstTs feed res hin hdec =>
    rw [pacesFrom, dif_pos hin]
    simp [hdec]
  | case2 off firstTs feed res hin hdr hdec frame hframe =>
    rw [pacesFrom, dif_pos hin]
    simp [hdec, show off + (kHeaderWireSize + hdr.bodySize.toNat) > messages.length from hframe]
  | case3 off firstTs feed res hin hdr hdec frame hframe first sleeps fr ih =>
    have hnext : pacesFrom messages off firstTs =
        (first, hdr.timestamp) :: pacesFrom messages (off + frame) (some first) := by
      rw [pacesFrom, dif_pos hin]
      simp only [hdec]
      exact if_neg hframe
    rw [ih, hnext, List.map_cons]
    simp [sleeps]
  | case4 off firstTs feed res hin =>
    rw [pacesFrom, dif_neg hin]
    simp

theorem replay_sleeps (driver : ReplayDriver) (messages : List UInt8) (cfg : ReplayConfig)
    (hmode : cfg.mode ≠ .maxSpeed) :
    (driver.replay messages cfg).2.sleeps =
      (paces messages).map fun p => deadline cfg p.1 p.2 := by
  simp only [replay, if_neg hmode, timedLoop_sleeps]
  rfl

/-! ## Offsets -/

/-- What `deadline` computes at scale 1 when the conversion to a `double` and the division are
exact: the unsigned distance, cast to a signed count, which is undefined out of range as there. -/
def offset (firstTs ts : TimestampNs) : Option Int64 :=
  let distance := ts - firstTs
  if distance.toNat < 2 ^ 63 then some (Int64.ofNat distance.toNat) else none

/-- The offset is defined, is the signed distance when that is not negative, and does not
delay a frame stamped before the first one. -/
def OnTime (firstTs ts : TimestampNs) : Prop :=
  ∃ d, offset firstTs ts = some d ∧
    (0 ≤ (ts.toNat : Int) - firstTs.toNat → d.toInt = (ts.toNat : Int) - firstTs.toNat) ∧
    (ts < firstTs → d ≤ 0)

/-- Two timestamps less than half of the range apart. -/
def Near (firstTs ts : TimestampNs) : Prop :=
  |(ts.toNat : Int) - firstTs.toNat| ≤ 2 ^ 63 - 1

section
variable {firstTs ts : TimestampNs}

theorem offset_ahead (hnear : Near firstTs ts) (hle : firstTs ≤ ts) :
    ∃ d, offset firstTs ts = some d ∧ d.toInt = (ts.toNat : Int) - firstTs.toNat := by
  have hdistance : (ts - firstTs).toNat = ts.toNat - firstTs.toNat :=
    UInt64.toNat_sub_of_le _ _ hle
  have hle := UInt64.le_iff_toNat_le.mp hle
  have hfits : ts.toNat - firstTs.toNat < 2 ^ 63 := by
    have := (abs_le.mp hnear).2
    omega
  refine ⟨Int64.ofNat (ts.toNat - firstTs.toNat), ?_, ?_⟩
  · simp only [offset, hdistance, if_pos hfits]
  · rw [Int64.toInt_ofNat_of_lt hfits]
    omega

/-- Behind the first frame the distance wraps to at least `2 ^ 63`. -/
theorem offset_behind (hnear : Near firstTs ts) (hlt : ts < firstTs) : offset firstTs ts = none := by
  have hlt := UInt64.lt_iff_toNat_lt.mp hlt
  have hfirst := firstTs.toNat_lt
  have hdistance : (ts - firstTs).toNat = 2 ^ 64 - (firstTs.toNat - ts.toNat) := by
    rw [UInt64.toNat_sub]
    omega
  have hlow := (abs_le.mp hnear).1
  refine if_neg ?_
  omega

theorem onTime_iff (hnear : Near firstTs ts) : OnTime firstTs ts ↔ firstTs ≤ ts := by
  constructor
  · rintro ⟨d, hd, -⟩
    by_contra hlt
    rw [offset_behind hnear (UInt64.not_le.mp hlt)] at hd
    exact nomatch hd
  · intro hle
    obtain ⟨d, hd, hexact⟩ := offset_ahead hnear hle
    exact ⟨d, hd, fun _ => hexact, fun hlt => absurd hle (UInt64.not_le.mpr hlt)⟩

end

/-- A replay in real time sleeps for one deadline for each pair. For every buffer whose frames
are stamped less than half of the range from the first one, in any order: all their offsets
are right if and only if no frame is stamped before the first one. -/
theorem replay_offsets_iff (driver : ReplayDriver) (messages : List UInt8)
    (hnear : ∀ p ∈ paces messages, Near p.1 p.2) :
    (driver.replay messages { mode := .realtime }).2.sleeps =
        (paces messages).map (fun p => deadline { mode := .realtime } p.1 p.2) ∧
      ((∀ p ∈ paces messages, OnTime p.1 p.2) ↔ ∀ p ∈ paces messages, p.1 ≤ p.2) :=
  ⟨replay_sleeps driver messages _ nofun, forall₂_congr fun p hp => onTime_iff (hnear p hp)⟩

/-- Two heartbeats, the second one stamped five nanoseconds before the first. -/
def reorderedCapture : List UInt8 := encodeFrame 2 105 .heartbeat ++ encodeFrame 1 100 .heartbeat

theorem paces_reordered : paces reorderedCapture = [(105, 105), (105, 100)] := by decide +kernel

theorem near_reordered : ∀ p ∈ paces reorderedCapture, Near p.1 p.2 := by
  rw [paces_reordered]
  simp [Near, abs_le]

/-- The offset of the second frame is undefined. -/
theorem replay_offsets_reordered : (∀ p ∈ paces reorderedCapture, Near p.1 p.2) ∧
    (105, 100) ∈ paces reorderedCapture ∧ offset 105 100 = none ∧
      ¬∀ p ∈ paces reorderedCapture, OnTime p.1 p.2 := by
  have hmem : (105, 100) ∈ paces reorderedCapture := by
    rw [paces_reordered]
    decide
  have hnone : offset 105 100 = none := by decide
  refine ⟨near_reordered, hmem, hnone, fun hall => ?_⟩
  obtain ⟨d, hd, -⟩ := hall _ hmem
  exact nomatch hnone.symm.trans hd

theorem replay_offsets_iff_reordered :
    let driver : ReplayDriver := { feed := { down := {} } }
    (driver.replay reorderedCapture { mode := .realtime }).2.sleeps =
        (paces reorderedCapture).map (fun p => deadline { mode := .realtime } p.1 p.2) ∧
      ((∀ p ∈ paces reorderedCapture, OnTime p.1 p.2) ↔ ∀ p ∈ paces reorderedCapture, p.1 ≤ p.2) :=
  replay_offsets_iff { feed := { down := {} } } reorderedCapture near_reordered

end ReplayDriver

end Mdfh
