import Mathlib.Tactic
import Mathlib.Data.Nat.Bitwise

/-!
# The single-producer single-consumer queue

A bounded ring with one index written by the producer and one written by the consumer.
Every call is cut into its atomic steps: each load or store of an index and each copy of
a slot is one step, so calls of the two sides can interleave between any two of them.

## Main definitions

* `RoundsTo` — the constructor's rounding loop ends with a given power of two.
* `SPSCQueue` — the ring; indices are in range by their type.
* `PushPc`, `PopPc`, `EmptyPc` — a call in progress, with one step function each.

## Main results

* `sized_iff` — which requested capacities the constructor can round.
-/

namespace Mdfh

/-! ## The constructor -/

/-- The loop of `round_up_pow2` on 64-bit words, cut off after `fuel` rounds. -/
def roundUpLoop (v : UInt64) : (fuel : Nat) → (p : UInt64) → Option UInt64
  | 0, _ => none
  | fuel + 1, p => if p < v then roundUpLoop v fuel (p <<< 1) else some p

/-- The rounding of a requested capacity terminates with `p`. -/
def RoundsTo (capacity p : UInt64) : Prop :=
  ∃ fuel, roundUpLoop (if capacity < 2 then 2 else capacity) fuel 1 = some p

theorem roundUpLoop_zero {v : UInt64} (hv : 0 < v) (fuel : Nat) : roundUpLoop v fuel 0 = none := by
  induction fuel with
  | zero => rfl
  | succ fuel ih =>
    rw [roundUpLoop, if_pos hv]
    exact ih

theorem shiftLeft_one_toNat (p : UInt64) : (p <<< 1).toNat = 2 * p.toNat % 2 ^ 64 := by
  rw [UInt64.toNat_shiftLeft]
  simp [Nat.shiftLeft_eq, Nat.mul_comm]

theorem roundUpLoop_pow {v p r : UInt64} {k fuel : Nat} (hv : 0 < v) (hp : p.toNat = 2 ^ k)
    (hk : k < 64) (h : roundUpLoop v fuel p = some r) :
    (∃ j, k ≤ j ∧ r.toNat = 2 ^ j) ∧ v ≤ r := by
  induction fuel generalizing p k with
  | zero => simp [roundUpLoop] at h
  | succ fuel ih =>
    rw [roundUpLoop] at h
    split_ifs at h with hlt
    · have hnext := shiftLeft_one_toNat p
      rw [hp, ← Nat.pow_succ'] at hnext
      by_cases hlast : k = 63
      · -- The shift drops the only bit, and the loop then runs forever.
        have hzero : p <<< 1 = 0 := by
          rw [← UInt64.toNat_inj, hnext, hlast]
          rfl
        rw [hzero, roundUpLoop_zero hv] at h
        exact absurd h (by simp)
      · rw [Nat.mod_eq_of_lt (Nat.pow_lt_pow_right (by decide) (by omega))] at hnext
        obtain ⟨⟨j, hj, hr⟩, hle⟩ := ih hnext (by omega) h
        exact ⟨⟨j, by omega, hr⟩, hle⟩
    · obtain rfl := Option.some.inj h
      exact ⟨⟨k, le_rfl, hp⟩, UInt64.not_lt.mp hlt⟩

/-- The rounded capacity is a power of two, at least 2 and at least what was asked for. -/
theorem RoundsTo.pow {capacity p : UInt64} (h : RoundsTo capacity p) :
    (∃ k, p.toNat = 2 ^ k) ∧ 2 ≤ p.toNat ∧ capacity ≤ p := by
  obtain ⟨fuel, hfuel⟩ := h
  split_ifs at hfuel with hsmall
  · obtain ⟨⟨j, -, hj⟩, hle⟩ := roundUpLoop_pow (k := 0) (by decide) rfl (by decide) hfuel
    have htwo := UInt64.le_iff_toNat_le.mp hle
    have hlt := UInt64.lt_iff_toNat_lt.mp hsmall
    refine ⟨⟨j, hj⟩, htwo, UInt64.le_iff_toNat_le.mpr ?_⟩
    exact hlt.le.trans htwo
  · have hge := UInt64.le_iff_toNat_le.mp (UInt64.not_lt.mp hsmall)
    have hpos : 0 < capacity := UInt64.lt_iff_toNat_lt.mpr (by
      change 0 < capacity.toNat
      change 2 ≤ capacity.toNat at hge
      omega)
    obtain ⟨⟨j, -, hj⟩, hle⟩ := roundUpLoop_pow (k := 0) hpos rfl (by decide) hfuel
    exact ⟨⟨j, hj⟩, hge.trans (UInt64.le_iff_toNat_le.mp hle), hle⟩

/-! ## Sizing -/

/-- From a power of two below the least one that is enough, the loop doubles up to that one. -/
theorem roundUpLoop_clog {v p : UInt64} {j : Nat} (n : Nat) (hp : p.toNat = 2 ^ j)
    (hn : Nat.clog 2 v.toNat = j + n) (hlast : j + n < 64) :
    ∃ r, roundUpLoop v (n + 1) p = some r ∧ r.toNat = 2 ^ Nat.clog 2 v.toNat := by
  induction n generalizing p j with
  | zero =>
    have hle : v ≤ p := by
      rw [UInt64.le_iff_toNat_le, hp]
      exact (Nat.clog_le_iff_le_pow (by decide)).mp hn.le
    exact ⟨p, if_neg (UInt64.not_lt.mpr hle), by rw [hp, hn, Nat.add_zero]⟩
  | succ n ih =>
    have hlt : p < v := by
      rw [UInt64.lt_iff_toNat_lt, hp]
      exact (Nat.lt_clog_iff_pow_lt (by decide)).mp (by omega)
    have hnext := shiftLeft_one_toNat p
    rw [hp, ← Nat.pow_succ', Nat.mod_eq_of_lt (Nat.pow_lt_pow_right (by decide) (by omega))] at hnext
    obtain ⟨r, hr, hpow⟩ := ih hnext (by omega) (by omega)
    exact ⟨r, (if_pos hlt).trans hr, hpow⟩

/-- A request up to `2 ^ 63` is rounded to the least power of two that is enough. -/
theorem exists_roundsTo {capacity : UInt64} (h : capacity.toNat ≤ 2 ^ 63) :
    ∃ p, RoundsTo capacity p ∧ p.toNat = 2 ^ Nat.clog 2 (max capacity.toNat 2) := by
  have hmax : (if capacity < 2 then 2 else capacity).toNat = max capacity.toNat 2 := by
    split_ifs with hsmall
    · have := UInt64.lt_iff_toNat_lt.mp hsmall
      simp at this ⊢
      omega
    · have := UInt64.le_iff_toNat_le.mp (UInt64.not_lt.mp hsmall)
      simp at this ⊢
      omega
  have hclog : Nat.clog 2 (max capacity.toNat 2) ≤ 63 :=
    Nat.clog_le_of_le_pow (max_le h (by decide))
  obtain ⟨p, hp, hpow⟩ := roundUpLoop_clog (p := 1) (j := 0)
    (v := if capacity < 2 then 2 else capacity) (Nat.clog 2 (max capacity.toNat 2)) rfl
    (by rw [hmax, Nat.zero_add]) (by omega)
  exact ⟨p, ⟨_, hp⟩, by rw [hpow, hmax]⟩

theorem RoundsTo.le_largest {capacity p : UInt64} (h : RoundsTo capacity p) : p.toNat ≤ 2 ^ 63 := by
  obtain ⟨⟨k, hk⟩, -⟩ := h.pow
  have hlt : 2 ^ k < 2 ^ 64 := hk ▸ p.toNat_lt
  rw [hk]
  exact Nat.pow_le_pow_right (by decide)
    (Nat.le_of_lt_succ ((Nat.pow_lt_pow_iff_right (by decide)).mp hlt))

/-- The mask of a power of two takes remainders. -/
theorem and_mask {p : UInt64} {k : Nat} (hp : p.toNat = 2 ^ k) (i : UInt64) :
    i &&& (p - 1) = i % p := by
  have hone : (1 : UInt64) ≤ p := by
    rw [UInt64.le_iff_toNat_le, hp]
    exact Nat.one_le_two_pow
  rw [← UInt64.toNat_inj, UInt64.toNat_and, UInt64.toNat_sub_of_le _ _ hone, UInt64.toNat_mod, hp]
  exact Nat.and_two_pow_sub_one_eq_mod _ _

/-- What the constructor needs of the rounded capacity. -/
structure Sized (capacity p : UInt64) : Prop where
  rounds : RoundsTo capacity p
  pow : ∃ k, p.toNat = 2 ^ k
  enough : max capacity.toNat 2 ≤ p.toNat
  least : ∀ k, max capacity.toNat 2 ≤ 2 ^ k → p.toNat ≤ 2 ^ k
  mask : ∀ i, i &&& (p - 1) = i % p
  usable : 1 ≤ p - 1

/-- For every requested capacity: the rounding terminates and the queue is sized right if and
only if the request is at most the largest power of two of the type. -/
theorem sized_iff (capacity : UInt64) : (∃ p, Sized capacity p) ↔ capacity.toNat ≤ 2 ^ 63 := by
  constructor
  · rintro ⟨p, hsized⟩
    have hle := UInt64.le_iff_toNat_le.mp hsized.rounds.pow.2.2
    exact hle.trans hsized.rounds.le_largest
  · intro h
    obtain ⟨p, hrounds, hpow⟩ := exists_roundsTo h
    have hclog := Nat.le_pow_clog (b := 2) (by decide) (max capacity.toNat 2)
    have htwo := hrounds.pow.2.1
    refine ⟨p, hrounds, ⟨_, hpow⟩, hpow ▸ hclog, fun k hk => ?_, and_mask hpow, ?_⟩
    · rw [hpow]
      exact Nat.pow_le_pow_right (by decide) (Nat.clog_le_of_le_pow hk)
    · have hone : (1 : UInt64) ≤ p := UInt64.le_iff_toNat_le.mpr (Nat.le_of_succ_le htwo)
      rw [UInt64.le_iff_toNat_le, UInt64.toNat_sub_of_le _ _ hone]
      exact Nat.le_sub_one_of_lt htwo

/-- One more than `2 ^ 63` is asked for, and the loop never ends. -/
theorem not_roundsTo_large : ¬∃ p, RoundsTo 9223372036854775809 p := by
  rintro ⟨p, hp⟩
  have hgt : 9223372036854775809 ≤ p.toNat := UInt64.le_iff_toNat_le.mp hp.pow.2.2
  have hle := hp.le_largest
  omega

/-! ## The ring -/

/-- The shared part of the queue; `cap` is the rounded capacity, and one slot stays free. -/
structure SPSCQueue (T : Type) (cap : Nat) where
  buffer : Vector T cap
  head : Fin cap
  tail : Fin cap

namespace SPSCQueue

variable {T : Type} {cap : Nat}

def new [Inhabited T] (hcap : 0 < cap) : SPSCQueue T cap where
  buffer := Vector.replicate cap default
  head := ⟨0, hcap⟩
  tail := ⟨0, hcap⟩

/-- `(i + 1) & mask_`. -/
def bump (i : Fin cap) : Fin cap :=
  ⟨(i.val + 1) &&& (cap - 1), Nat.lt_of_le_of_lt Nat.and_le_right (Nat.sub_lt i.pos Nat.one_pos)⟩

def capacity (_q : SPSCQueue T cap) : Nat := cap - 1

/-- The slot of the `i`-th item since the queue was built. -/
def slot (q : SPSCQueue T cap) (i : Nat) : Fin cap := ⟨i % cap, Nat.mod_lt _ q.tail.pos⟩

/-- The items from `tail_` up to `head_`. -/
def contents (q : SPSCQueue T cap) : List T :=
  (List.range ((q.head.val + cap - q.tail.val) % cap)).map fun i =>
    q.buffer[q.slot (q.tail.val + i)]

theorem bump_val {k : Nat} (hcap : cap = 2 ^ k) (i : Fin cap) :
    (bump i).val = (i.val + 1) % cap := by
  subst hcap
  exact Nat.and_two_pow_sub_one_eq_mod _ _

end SPSCQueue

/-! ## Calls in progress -/

open SPSCQueue

/-- Inside `try_push(item)`: the next atomic step, with the locals already read. -/
inductive PushPc (T : Type) (cap : Nat) where
  | loadHead (item : T)
  | loadTail (item : T) (head : Fin cap)
  | copy (item : T) (head : Fin cap)
  | storeHead (item : T) (head : Fin cap)
  deriving DecidableEq

/-- Inside `try_pop(out)`. -/
inductive PopPc (T : Type) (cap : Nat) where
  | loadTail
  | loadHead (tail : Fin cap)
  | copy (tail : Fin cap)
  | storeTail (tail : Fin cap) (out : T)
  deriving DecidableEq

/-- Inside `empty()`. The order of its two loads is unspecified, so both occur. -/
inductive EmptyPc (cap : Nat) where
  | first (headFirst : Bool)
  | second (headFirst : Bool) (seen : Fin cap)
  deriving DecidableEq

variable {T : Type} {cap : Nat}

def PushPc.item : PushPc T cap → T
  | loadHead item | loadTail item _ | copy item _ | storeHead item _ => item

/-- One step of `try_push`: the next point of the call, or its result. -/
def PushPc.step (q : SPSCQueue T cap) : PushPc T cap → SPSCQueue T cap × (PushPc T cap ⊕ Bool)
  | loadHead item => (q, .inl (.loadTail item q.head))
  | loadTail item head =>
    if bump head = q.tail then (q, .inr false) else (q, .inl (.copy item head))
  | copy item head => ({ q with buffer := q.buffer.set head item }, .inl (.storeHead item head))
  | storeHead _ head => ({ q with head := bump head }, .inr true)

/-- One step of `try_pop`; the result is the popped item, if any. -/
def PopPc.step (q : SPSCQueue T cap) : PopPc T cap → SPSCQueue T cap × (PopPc T cap ⊕ Option T)
  | loadTail => (q, .inl (.loadHead q.tail))
  | loadHead tail => if tail = q.head then (q, .inr none) else (q, .inl (.copy tail))
  | copy tail => (q, .inl (.storeTail tail q.buffer[tail]))
  | storeTail tail out => ({ q with tail := bump tail }, .inr (some out))

def EmptyPc.step (q : SPSCQueue T cap) : EmptyPc cap → EmptyPc cap ⊕ Bool
  | first true => .inl (.second true q.head)
  | first false => .inl (.second false q.tail)
  | second true seen => .inr (seen = q.tail)
  | second false seen => .inr (q.head = seen)

end Mdfh
