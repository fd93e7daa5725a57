import Mdfh.OrderHistory

/-!
# What a receiver knows about losses

Messages with ascending numbers arrive in any order, several times or never. Those that are
forwarded are some of them, each once and in order, and the counters of the feed handler and
of the sequence tracker tell how many up to the last of them are not among these.

## Main definitions

* `SequenceTracker.highWater` — the last number that was accepted.
* `FeedHandler.Knows` — the invariant of the counters and the messages forwarded.

## Main results

* `Knows.receives` — whatever arrives.
* `Knows.sublist`, `Knows.eq_take` — what follows for numbers without a break.
-/

namespace Mdfh

open Std Library MarketSimulator

/-- The last number that was accepted; before the first message it is 0. -/
def SequenceTracker.highWater (t : SequenceTracker) : Nat :=
  if t.initialized then t.nextExpected.toNat - 1 else 0

namespace FeedHandler

/-- The builder has got `fw`, which are some of the messages sent, in their order. -/
structure Knows (sent : List Message) (fh : FeedHandler BookBuilder) (fw : List Message) :
    Prop where
  down : fh.down = BookBuilder.buildFrom fw {}
  subset : fw ⊆ sent
  ascending : fw.Pairwise (·.seq.toNat < ·.seq.toNat)
  tracks : Tracks fh.seq (fw.map (·.seq.toNat))
  forwarded : fh.forwarded = UInt64.ofNat fw.length
  malformed : fh.malformed = 0

variable {sent fw : List Message} {fh : FeedHandler BookBuilder} {m : Message}

theorem Knows.start (sent : List Message) : Knows sent { down := {} } [] :=
  ⟨rfl, List.nil_subset _, .nil, .idle rfl rfl, rfl, rfl⟩

theorem Knows.receive (h : Knows sent fh fw) (hm : m ∈ sent) (hbound : m.seq.toNat < 2 ^ 32 - 1) :
    ∃ fw', Knows sent (receive builderHandler fh m) fw' := by
  have hseqs : (fw.map (·.seq.toNat)).Pairwise (· < ·) := List.pairwise_map.mpr h.ascending
  rcases h.tracks.observe hseqs m.seq hbound with ⟨hforward, habove, htracks⟩ | ⟨hdrop, htracks⟩
  · refine ⟨fw ++ [m], ?_⟩
    rw [FeedHandler.receive, forwardIf_eq, if_pos hforward]
    constructor
    · simp only [h.down, BookBuilder.buildFrom, List.foldl_append, List.foldl_cons, List.foldl_nil]
    · exact List.append_subset.mpr ⟨h.subset, by simpa using hm⟩
    · refine List.pairwise_append.mpr ⟨h.ascending, List.pairwise_singleton _ _, ?_⟩
      intro m' hm' m'' hm''
      rw [List.mem_singleton.mp hm'']
      exact habove _ (List.mem_map_of_mem hm')
    · simpa using htracks
    · simp [h.forwarded]
    · exact h.malformed
  · refine ⟨fw, ?_⟩
    rw [FeedHandler.receive, forwardIf_eq, if_neg (by simp [hdrop])]
    exact ⟨h.down, h.subset, h.ascending, htracks, h.forwarded, h.malformed⟩

theorem Knows.receives (hbound : ∀ m ∈ sent, m.seq.toNat < 2 ^ 32 - 1) {arrived : List Message}
    (harrived : arrived ⊆ sent) :
    ∃ fw, Knows sent (arrived.foldl (FeedHandler.receive builderHandler) { down := {} }) fw := by
  suffices hall : ∀ (fh : FeedHandler BookBuilder) (fw : List Message), Knows sent fh fw →
      ∃ fw', Knows sent (arrived.foldl (FeedHandler.receive builderHandler) fh) fw' from
    hall _ _ (.start sent)
  induction arrived with
  | nil => exact fun fh fw h => ⟨fw, h⟩
  | cons m arrived ih =>
    intro fh fw h
    obtain ⟨hm, hrest⟩ := List.cons_subset.mp harrived
    obtain ⟨fw', h'⟩ := h.receive hm (hbound m hm)
    exact ih hrest _ fw' h'

/-- All numbers that were accepted are accounted for. -/
theorem Knows.counts (h : Knows sent fh fw) :
    (∀ m ∈ fw, m.seq.toNat ≤ fh.seq.highWater) ∧
      (∀ m ∈ fw.head?, fw.length + fh.seq.stats.missing.toNat + m.seq.toNat =
        fh.seq.highWater + 1) ∧
      (fh.seq.highWater = 0 ∨ ∃ m ∈ fw, m.seq.toNat = fh.seq.highWater) := by
  have hseqs : (fw.map (·.seq.toNat)).Pairwise (· < ·) := List.pairwise_map.mpr h.ascending
  generalize hnumbers : fw.map (·.seq.toNat) = numbers at hseqs
  have htracks := h.tracks
  rw [hnumbers] at htracks
  cases htracks with
  | idle hinit hmissing =>
    obtain rfl := List.map_eq_nil_iff.mp hnumbers
    simp [SequenceTracker.highWater, hinit]
  | @running a b _ ha hb hinit hnext hcount =>
    have hwater : fh.seq.highWater = b := by simp [SequenceTracker.highWater, hinit, hnext]
    have hlen : fw.length = numbers.length := by rw [← hnumbers, List.length_map]
    refine ⟨?_, ?_, ?_⟩
    · intro m hm
      rw [hwater]
      exact le_getLast hseqs hb _ (hnumbers ▸ List.mem_map_of_mem hm)
    · intro m hm
      rw [← hnumbers, List.head?_map, Option.mem_def.mp hm] at ha
      have ha : m.seq.toNat = a := Option.some.inj ha
      omega
    · have hlast := List.mem_of_getLast? hb
      rw [← hnumbers] at hlast
      rw [hwater]
      exact .inr (List.mem_map.mp hlast)

theorem Knows.nodup (h : Knows sent fh fw) : fw.Nodup :=
  h.ascending.imp fun hlt heq => by simp [heq] at hlt

/-- What was forwarded lies in front of the last number, and is all of that if the count of
messages forwarded says so. -/
theorem Knows.sublist (h : Knows sent fh fw)
    (hseqs : sent.map (·.seq.toNat) = List.range' 1 sent.length) :
    fh.seq.highWater ≤ sent.length ∧ fw.Sublist (sent.take fh.seq.highWater) := by
  obtain ⟨hbelow, -, hlast⟩ := h.counts
  have hsorted : sent.Pairwise (·.seq.toNat < ·.seq.toNat) :=
    List.pairwise_map.mp (hseqs ▸ List.pairwise_lt_range')
  have hnumber (i : Nat) (hi : i < sent.length) : sent[i].seq.toNat = 1 + i := by
    have hget : (sent.map (·.seq.toNat))[i]? = (List.range' 1 sent.length)[i]? := by rw [hseqs]
    simpa [hi] using hget
  have hsub : fw ⊆ sent.take fh.seq.highWater := by
    intro m hm
    obtain ⟨i, hi, rfl⟩ := List.getElem_of_mem (h.subset hm)
    have hle := hbelow _ hm
    rw [hnumber i hi] at hle
    exact List.mem_take_iff_getElem.mpr ⟨i, by omega, rfl⟩
  have hanti : Std.Antisymm fun m m' : Message => m.seq.toNat < m'.seq.toNat :=
    ⟨fun _ _ hlt hgt => absurd hlt (Nat.lt_asymm hgt)⟩
  constructor
  · rcases hlast with hzero | ⟨m, hm, hlast⟩
    · omega
    · obtain ⟨i, hi, rfl⟩ := List.getElem_of_mem (h.subset hm)
      have hplace := hnumber i hi
      omega
  · exact List.sublist_of_subperm_of_pairwise (List.subperm_of_subset h.nodup hsub) h.ascending
      (hsorted.sublist (List.take_sublist _ _))

theorem Knows.length_le (h : Knows sent fh fw) : fw.length ≤ sent.length :=
  (List.subperm_of_subset h.nodup h.subset).length_le

/-- As many messages as the last number says are all messages up to it. -/
theorem Knows.eq_take (h : Knows sent fh fw)
    (hseqs : sent.map (·.seq.toNat) = List.range' 1 sent.length)
    (hall : fw.length = fh.seq.highWater) : fw = sent.take fh.seq.highWater := by
  obtain ⟨hle, hsub⟩ := h.sublist hseqs
  refine hsub.eq_of_length ?_
  rw [List.length_take, hall, Nat.min_eq_left hle]

end FeedHandler

end Mdfh
