import Mathlib.Data.List.Basic
import Mathlib.Tactic

/-!
# Incremental scanners

A scanner looks at the front of its input and sees a complete unit, an unfinished
one, or input it cannot frame. Its verdict depends only on the cells it consumes,
so scanning does not depend on how the input was cut into chunks.

## Main definitions

* `Scanner` — the front-of-input verdict with its locality laws.
* `Scanner.scanFrom` — cut off units until the scanner waits or stops.
* `Scanner.feeds` — scan a sequence of chunks, carrying the unfinished rest along.

## Main results

* `Scanner.scanFrom_append` — scanning resumes from the unfinished rest.
* `Scanner.feeds_eq` — feeding chunks is scanning their concatenation.
-/

namespace Mdfh.Library

/-- What one look at the front of the input shows. -/
inductive Look (ο : Type*) where
  | wait
  | unit (out : ο) (size : Nat)
  | stop (out : ο) (size : Nat)

structure Scanner (β ο : Type*) where
  look : List β → Look ο
  unit_pos {xs : List β} {o : ο} {n : Nat} : look xs = .unit o n → 0 < n
  unit_take {xs : List β} {o : ο} {n : Nat} : look xs = .unit o n →
    n ≤ xs.length ∧ ∀ ys, look (xs.take n ++ ys) = .unit o n
  stop_take {xs : List β} {o : ο} {n : Nat} : look xs = .stop o n →
    n ≤ xs.length ∧ ∀ ys, look (xs.take n ++ ys) = .stop o n

/-- The units cut off with their positions, what is left, and whether framing was lost. -/
structure Scan (β ο : Type*) where
  units : List (Nat × ο)
  rest : List β
  stopped : Bool

def Scan.outs {β ο : Type*} (s : Scan β ο) : List ο := s.units.map Prod.snd

namespace Scanner

variable {β ο : Type*} (S : Scanner β ο)

def scanFrom (off : Nat) (xs : List β) : Scan β ο :=
  match _hlook : S.look xs with
  | .wait => ⟨[], xs, false⟩
  | .stop o n => ⟨[(off, o)], xs.drop n, true⟩
  | .unit o n =>
    let r := scanFrom (off + n) (xs.drop n)
    ⟨(off, o) :: r.units, r.rest, r.stopped⟩
termination_by xs.length
decreasing_by
  have hpos := S.unit_pos _hlook
  have hle := (S.unit_take _hlook).1
  simp only [List.length_drop]
  omega

def scan (xs : List β) : Scan β ο := S.scanFrom 0 xs

variable {S} {xs : List β} {o : ο} {n : Nat}

theorem scanFrom_wait (off : Nat) (h : S.look xs = .wait) : S.scanFrom off xs = ⟨[], xs, false⟩ := by
  rw [scanFrom]
  split <;> simp_all

theorem scanFrom_stop (off : Nat) (h : S.look xs = .stop o n) :
    S.scanFrom off xs = ⟨[(off, o)], xs.drop n, true⟩ := by
  rw [scanFrom]
  split <;> simp_all

theorem scanFrom_unit (off : Nat) (h : S.look xs = .unit o n) :
    S.scanFrom off xs = ⟨(off, o) :: (S.scanFrom (off + n) (xs.drop n)).units,
      (S.scanFrom (off + n) (xs.drop n)).rest, (S.scanFrom (off + n) (xs.drop n)).stopped⟩ := by
  rw [scanFrom]
  split <;> simp_all

theorem look_append_unit (h : S.look xs = .unit o n) (ys : List β) :
    S.look (xs ++ ys) = .unit o n := by
  have := (S.unit_take h).2 (xs.drop n ++ ys)
  rwa [← List.append_assoc, List.take_append_drop] at this

theorem look_append_stop (h : S.look xs = .stop o n) (ys : List β) :
    S.look (xs ++ ys) = .stop o n := by
  have := (S.stop_take h).2 (xs.drop n ++ ys)
  rwa [← List.append_assoc, List.take_append_drop] at this

variable (S)

/-- Positions aside, a scan does not depend on where it is said to start. -/
theorem scanFrom_off (off off' : Nat) (xs : List β) :
    (S.scanFrom off xs).outs = (S.scanFrom off' xs).outs ∧
      (S.scanFrom off xs).rest = (S.scanFrom off' xs).rest ∧
      (S.scanFrom off xs).stopped = (S.scanFrom off' xs).stopped := by
  fun_induction scanFrom S off xs generalizing off' with
  | case1 off xs h => simp [scanFrom_wait off' h, Scan.outs]
  | case2 off xs o n h => simp [scanFrom_stop off' h, Scan.outs]
  | case3 off xs o n h r ih =>
    obtain ⟨houts, hrest, hstopped⟩ := ih (off' + n)
    rw [scanFrom_unit off' h]
    refine ⟨?_, hrest, hstopped⟩
    simpa [Scan.outs, r] using houts

theorem rest_suffix (off : Nat) (xs : List β) : (S.scanFrom off xs).rest <:+ xs := by
  fun_induction scanFrom S off xs with
  | case1 off xs h => exact List.suffix_rfl
  | case2 off xs o n h => exact List.drop_suffix n xs
  | case3 off xs o n h r ih => exact ih.trans (List.drop_suffix n xs)

/-- Each unit is what a look at its position shows. -/
theorem look_of_mem_units {off pos : Nat} {xs : List β} {o : ο}
    (h : (pos, o) ∈ (S.scanFrom off xs).units) :
    off ≤ pos ∧ ((∃ n, S.look (xs.drop (pos - off)) = .unit o n) ∨
      ∃ n, S.look (xs.drop (pos - off)) = .stop o n) := by
  fun_induction scanFrom S off xs with
  | case1 off xs hw => cases h
  | case2 off xs o' n hs =>
    obtain ⟨rfl, rfl⟩ := Prod.mk.inj (List.mem_singleton.mp h)
    exact ⟨Nat.le_refl _, .inr ⟨n, by rwa [Nat.sub_self]⟩⟩
  | case3 off xs o' n hu r ih =>
    rcases List.mem_cons.mp h with heq | h
    · obtain ⟨rfl, rfl⟩ := Prod.mk.inj heq
      exact ⟨Nat.le_refl _, .inl ⟨n, by rwa [Nat.sub_self]⟩⟩
    · obtain ⟨hle, hlook⟩ := ih h
      rw [List.drop_drop, show n + (pos - (off + n)) = pos - off by omega] at hlook
      exact ⟨by omega, hlook⟩

/-- The positions of the units ascend. -/
theorem units_ascending (off : Nat) (xs : List β) :
    (S.scanFrom off xs).units.Pairwise (·.1 < ·.1) := by
  fun_induction scanFrom S off xs with
  | case1 off xs hw => exact .nil
  | case2 off xs o n hs => exact List.pairwise_singleton _ _
  | case3 off xs o n hu r ih =>
    refine List.pairwise_cons.mpr ⟨?_, ih⟩
    rintro ⟨pos, o'⟩ hmem
    have hpos := S.unit_pos hu
    have hle := (S.look_of_mem_units hmem).1
    show off < pos
    omega

/-- A unit at which the scan loses the framing is the last one. -/
theorem units_of_stop {off pos : Nat} {xs : List β} {o o' : ο} {n : Nat}
    (h : (pos, o) ∈ (S.scanFrom off xs).units) (hstop : S.look (xs.drop (pos - off)) = .stop o' n) :
    (∃ front, (S.scanFrom off xs).units = front ++ [(pos, o)]) ∧
      (S.scanFrom off xs).rest = xs.drop (pos - off + n) := by
  fun_induction scanFrom S off xs with
  | case1 off xs hw => cases h
  | case2 off xs o₁ n₁ hs =>
    obtain ⟨rfl, rfl⟩ := Prod.mk.inj (List.mem_singleton.mp h)
    rw [Nat.sub_self, List.drop_zero, hs] at hstop
    cases hstop
    exact ⟨⟨[], rfl⟩, by simp⟩
  | case3 off xs o₁ n₁ hu r ih =>
    rcases List.mem_cons.mp h with heq | h
    · obtain ⟨rfl, rfl⟩ := Prod.mk.inj heq
      rw [Nat.sub_self, List.drop_zero, hu] at hstop
      cases hstop
    · have hle := (S.look_of_mem_units h).1
      have hpos : n₁ + (pos - (off + n₁)) = pos - off := by omega
      obtain ⟨⟨front, hfront⟩, hrest⟩ := ih h (by rwa [List.drop_drop, hpos])
      refine ⟨⟨(off, o₁) :: front, congrArg _ hfront⟩, hrest.trans ?_⟩
      rw [List.drop_drop, ← Nat.add_assoc, hpos]

theorem length_rest_le (off : Nat) (xs : List β) : (S.scanFrom off xs).rest.length ≤ xs.length :=
  (S.rest_suffix off xs).length_le

/-- A scan that did not lose the framing ends in front of an unfinished unit. -/
theorem look_rest (off : Nat) (xs : List β) (h : (S.scanFrom off xs).stopped = false) :
    S.look (S.scanFrom off xs).rest = .wait := by
  fun_induction scanFrom S off xs with
  | case1 off xs hw => exact hw
  | case2 off xs o n hs => simp at h
  | case3 off xs o n hu r ih => exact ih h

/-- More input behind an unfinished rest: the scan resumes from that rest. -/
theorem scanFrom_append (off : Nat) (xs ys : List β) (h : (S.scanFrom off xs).stopped = false) :
    let r := S.scanFrom off xs
    let r' := S.scanFrom (off + (xs.length - r.rest.length)) (r.rest ++ ys)
    S.scanFrom off (xs ++ ys) = ⟨r.units ++ r'.units, r'.rest, r'.stopped⟩ := by
  fun_induction scanFrom S off xs with
  | case1 off xs hw => simp
  | case2 off xs o n hs => simp at h
  | case3 off xs o n hu r ih =>
    have hle := (S.unit_take hu).1
    have hrest : r.rest.length ≤ (xs.drop n).length := S.length_rest_le (off + n) (xs.drop n)
    have hoff : off + n + ((xs.drop n).length - r.rest.length) =
        off + (xs.length - r.rest.length) := by
      simp only [List.length_drop] at hrest ⊢
      omega
    have hdrop : (xs ++ ys).drop n = xs.drop n ++ ys := List.drop_append_of_le_length hle
    have hnext := ih h
    simp only [show S.scanFrom (off + n) (xs.drop n) = r from rfl, hoff] at hnext
    rw [scanFrom_unit off (look_append_unit hu ys), hdrop, hnext]
    rfl

/-- Once framing is lost, more input changes nothing but the rest. -/
theorem scanFrom_append_stopped (off : Nat) (xs ys : List β)
    (h : (S.scanFrom off xs).stopped = true) :
    S.scanFrom off (xs ++ ys) =
      ⟨(S.scanFrom off xs).units, (S.scanFrom off xs).rest ++ ys, true⟩ := by
  fun_induction scanFrom S off xs with
  | case1 off xs hw => simp at h
  | case2 off xs o n hs =>
    rw [scanFrom_stop off (look_append_stop hs ys),
      List.drop_append_of_le_length (S.stop_take hs).1]
  | case3 off xs o n hu r ih =>
    rw [scanFrom_unit off (look_append_unit hu ys),
      List.drop_append_of_le_length (S.unit_take hu).1, ih h]

/-! ## Whole units -/

/-- A list of cells that is exactly one unit. -/
def IsUnit (u : List β) (o : ο) : Prop := S.look u = .unit o u.length

/-- Consecutive units with their positions. -/
def positions (off : Nat) : List (List β × ο) → List (Nat × ο)
  | [] => []
  | (u, o) :: us => (off, o) :: positions (off + u.length) us

/-- Whole units in front are cut off one by one. -/
theorem scanFrom_units (off : Nat) (us : List (List β × ο)) (tail : List β)
    (h : ∀ u ∈ us, S.IsUnit u.1 u.2) :
    let r := S.scanFrom (off + (us.flatMap Prod.fst).length) tail
    S.scanFrom off (us.flatMap Prod.fst ++ tail) = ⟨positions off us ++ r.units, r.rest, r.stopped⟩ := by
  induction us generalizing off with
  | nil => simp [positions]
  | cons u us ih =>
    obtain ⟨u, o⟩ := u
    have hu : S.look u = .unit o u.length := h (u, o) (by simp)
    have hlook := look_append_unit hu (us.flatMap Prod.fst ++ tail)
    have hnext := ih (off + u.length) (fun v hv => h v (by simp [hv]))
    simp only [Nat.add_assoc] at hnext
    simp only [List.flatMap_cons, List.append_assoc, List.length_append]
    rw [scanFrom_unit off hlook, List.drop_left, hnext]
    simp [positions]

variable {S} in
/-- A unit cut out of the input is scanned as itself. -/
theorem scan_take (hnil : S.look [] = .wait) (h : S.look xs = .unit o n) :
    S.scan (xs.take n) = ⟨[(0, o)], [], false⟩ := by
  obtain ⟨hle, hlook⟩ := S.unit_take h
  have hunit := hlook []
  rw [List.append_nil] at hunit
  have hend : (xs.take n).drop n = [] := List.drop_eq_nil_of_le (by simp)
  rw [scan, scanFrom_unit 0 hunit, hend, scanFrom_wait _ hnil]

/-- An input on which framing is not lost is a sequence of units and an unfinished rest. -/
theorem exists_units (off : Nat) (xs : List β) (h : (S.scanFrom off xs).stopped = false) :
    ∃ us : List (List β × ο), (∀ u ∈ us, S.IsUnit u.1 u.2) ∧
      xs = us.flatMap Prod.fst ++ (S.scanFrom off xs).rest ∧
      (S.scanFrom off xs).outs = us.map Prod.snd := by
  fun_induction scanFrom S off xs with
  | case1 off xs hw => exact ⟨[], by simp [Scan.outs]⟩
  | case2 off xs o n hs => simp at h
  | case3 off xs o n hu r ih =>
    obtain ⟨us, hus, hxs, houts⟩ := ih h
    obtain ⟨hle, hlook⟩ := S.unit_take hu
    have hunit : S.IsUnit (xs.take n) o := by
      have hnil := hlook []
      rw [List.append_nil] at hnil
      rw [IsUnit, List.length_take_of_le hle]
      exact hnil
    refine ⟨(xs.take n, o) :: us, ?_, ?_, ?_⟩
    · exact List.forall_mem_cons.mpr ⟨hunit, hus⟩
    · calc xs = xs.take n ++ xs.drop n := (List.take_append_drop n xs).symm
        _ = xs.take n ++ (us.flatMap Prod.fst ++ r.rest) := by rw [← hxs]
        _ = _ := by simp
    · simpa [Scan.outs, r] using houts

/-! ## Feeding chunks -/

/-- Scan chunk after chunk; the rest of each scan is put in front of the next chunk. -/
def feeds (pending : List β) : List (List β) → List ο × List β
  | [] => ([], pending)
  | c :: cs =>
    let r := S.scan (pending ++ c)
    let t := feeds r.rest cs
    (r.outs ++ t.1, t.2)

/-- Feeding chunks is scanning their concatenation, however the input was cut. -/
theorem feeds_eq (pending : List β) (cs : List (List β)) (hwait : S.look pending = .wait)
    (h : (S.scan (pending ++ cs.flatten)).stopped = false) :
    S.feeds pending cs =
      ((S.scan (pending ++ cs.flatten)).outs, (S.scan (pending ++ cs.flatten)).rest) := by
  induction cs generalizing pending with
  | nil => simp [feeds, scan, scanFrom_wait 0 hwait, Scan.outs]
  | cons c cs ih =>
    rw [List.flatten_cons, ← List.append_assoc] at h ⊢
    have hc : (S.scan (pending ++ c)).stopped = false := by
      by_contra hstop
      have := S.scanFrom_append_stopped 0 (pending ++ c) cs.flatten (by simpa [scan] using hstop)
      rw [scan, this] at h
      exact Bool.noConfusion h
    have hsplit := S.scanFrom_append 0 (pending ++ c) cs.flatten hc
    set r := S.scan (pending ++ c) with hr
    simp only [Nat.zero_add, show S.scanFrom 0 (pending ++ c) = r from rfl] at hsplit
    obtain ⟨houts, hrest, hstopped⟩ :=
      S.scanFrom_off ((pending ++ c).length - r.rest.length) 0 (r.rest ++ cs.flatten)
    have hnext := ih r.rest (S.look_rest 0 _ hc) (by
      have := h
      rw [scan, hsplit, hstopped] at this
      exact this)
    rw [feeds, ← hr, hnext, scan, scan, hsplit]
    simp only [Scan.outs] at houts ⊢
    rw [List.map_append, houts, hrest]

end Scanner

end Mdfh.Library
