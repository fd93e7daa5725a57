import Mdfh.SimulatorPrices
import Mdfh.BookBuilder

/-!
# Every generated message is an operation the flat list accepts

The simulator keeps its live orders in its own tables, the receiver in a book. Both are
compared with one flat list: a message carries an operation that the list accepts, and the
simulator's tables are afterwards those of the list after the operation.

## Main definitions

* `Simulates`, `Emits` — the invariant of a symbol, and what a message is about.

## Main results

* `fillAdd_ensures`, `fillCancel_ensures`, `fillModify_ensures`, `fillTrade_ensures`.
* `fill_ensures` — whichever of them is taken.
-/

namespace Mdfh

open Std Library Library.Keyed Library.OrdMap

/-! ## Operations the list accepts -/

namespace Reference

variable {R : Reference} {e : Entry}

theorem add_of_fresh (e : Entry) (hfresh : ∀ e' ∈ R, e'.id ≠ e.id) (hq : e.qty ≠ 0) :
    R.add e.id e.side e.price e.qty = (R ++ [e], true) :=
  if_pos ⟨hq, lookup_eq_none_iff.mpr hfresh⟩

theorem cancel_of_mem (h : Unique Entry.id R) (he : e ∈ R) :
    R.cancel e.id = (remove Entry.id e.id R, true) := by
  rw [cancel, h.lookup_of_mem he]

/-- A modification to a positive quantity, up to the order of the list. -/
theorem modify_of_mem (h : Unique Entry.id R) (he : e ∈ R) (p : Price) {q : Quantity}
    (hq : q ≠ 0) :
    ∃ R' : Reference, R.modify e.id p q = (R', true) ∧
      R'.Perm (remove Entry.id e.id R ++ [⟨e.id, e.side, p, q⟩]) := by
  rw [modify, h.lookup_of_mem he]
  simp only [if_neg hq]
  split_ifs with hkeep
  · refine ⟨_, rfl, ?_⟩
    rw [hkeep.1]
    exact h.perm_update he fun _ => rfl
  · exact ⟨_, rfl, .refl _⟩

/-- A partial fill, up to the order of the list. -/
theorem execute_partial (h : Unique Entry.id R) (he : e ∈ R) {q : Quantity} (hlt : q < e.qty) :
    ∃ R' : Reference, R.execute e.id q = (R', true) ∧
      R'.Perm (remove Entry.id e.id R ++ [e.setQty (e.qty - q)]) := by
  have hmin : min q e.qty = q := if_pos (UInt32.le_of_lt hlt)
  have hne : e.qty - q ≠ 0 := by
    have hlt' := UInt32.lt_iff_toNat_lt.mp hlt
    rw [Ne, ← UInt32.toNat_inj, UInt32.toNat_sub_of_le _ _ (UInt32.le_of_lt hlt)]
    exact (Nat.sub_pos_of_lt hlt').ne'
  rw [execute, h.lookup_of_mem he]
  simp only [hmin, if_neg hne]
  exact ⟨_, rfl, h.perm_update he fun _ => rfl⟩

theorem execute_all (h : Unique Entry.id R) (he : e ∈ R) {q : Quantity} (hle : e.qty ≤ q) :
    R.execute e.id q = (remove Entry.id e.id R, true) := by
  have hmin : e.qty - min q e.qty = 0 := by
    by_cases hq : q ≤ e.qty
    · rw [show min q e.qty = q from if_pos hq, UInt32.le_antisymm hq hle]
      exact UInt32.sub_self _
    · rw [show min q e.qty = e.qty from if_neg hq]
      exact UInt32.sub_self _
  rw [execute, h.lookup_of_mem he]
  simp only [hmin, if_true]

end Reference

/-! ## The invariant of a symbol -/

/-- One symbol of the simulator after `n` messages, with ids handed out below `next`. -/
structure Simulates (cfg : SimConfig) (n : Nat) (next : OrderId) (s : SymbolState)
    (R : Reference) : Prop where
  models : s.Models R
  quoted : R.Quoted cfg
  refMid : cfg.tick.toInt ≤ s.refMid.toInt
  length_le : R.length ≤ n
  fresh : ∀ e ∈ R, e.id.toNat < next.toNat

/-- The message asks for an operation on `sym` that takes `R` to `R'`, or for none. -/
def Emits (sym : SymbolId) (R : Reference) (m : GeneratedMessage) (R' : Reference) : Prop :=
  match m.dispatch.body.op with
  | none => R' = R
  | some (sym', op) => sym' = sym ∧ R.apply op = (R', true)

/-- The outcome of filling a message of symbol `sym`, the one after `n` others. -/
structure Filled {rng : Rng} (cfg : SimConfig) (n : Nat) (sym : SymbolId) (R : Reference)
    (d d' : Draft rng) (R' : Reference) : Prop where
  emits : Emits sym R d'.out R'
  simulates : Simulates cfg (n + 1) d'.nextOrderId d'.s R'
  seq : d'.out.seq = d.out.seq
  next_ge : d.nextOrderId.toNat ≤ d'.nextOrderId.toNat
  next_le : d'.nextOrderId.toNat ≤ d.nextOrderId.toNat + 1

/-- Draws made before are forgotten. -/
theorem Filled.of_state {rng : Rng} {cfg : SimConfig} {n : Nat} {sym : SymbolId}
    {R R' : Reference} {d d' : Draft rng} {g : rng.State}
    (h : Filled cfg n sym R { d with g } d' R') : Filled cfg n sym R d d' R' :=
  ⟨h.emits, h.simulates, h.seq, h.next_ge, h.next_le⟩

namespace Simulates

variable {rng : Rng} {cfg : SimConfig} {n n' : Nat} {next next' : OrderId} {s : SymbolState}
  {R R' : Reference} {e : Entry}

theorem bands (h : Simulates cfg n next s R) : Bands cfg s R :=
  ⟨h.models.depths, h.quoted, h.refMid⟩

theorem mono (h : Simulates cfg n next s R) (hn : n ≤ n') (hnext : next.toNat ≤ next'.toNat) :
    Simulates cfg n' next' s R :=
  ⟨h.models, h.quoted, h.refMid, h.length_le.trans hn, fun e he => (h.fresh e he).trans_le hnext⟩

theorem perm (h : Simulates cfg n next s R) (hperm : R.Perm R') : Simulates cfg n next s R' where
  models := h.models.perm hperm
  quoted := h.quoted.perm hperm
  refMid := h.refMid
  length_le := hperm.length_eq ▸ h.length_le
  fresh e he := h.fresh e (hperm.mem_iff.mpr he)

/-- There is room for one more order of any quantity: the sum of all does not wrap. -/
theorem room (h : Simulates cfg n next s R) (hcfg : cfg.Valid) (hn : n < cfg.numMessages.toNat)
    (hsub : R' ⊆ R) (hlen : R'.length ≤ R.length) (bids : Bool) (p : Price) {q : Quantity}
    (hq : q.toNat ≤ cfg.maxQty.toNat) : depth bids R' p + q.toNat < 2 ^ 32 := by
  have hdepth := (h.quoted.subset hsub).depth_le bids p
  have hlen' := Nat.mul_le_mul_right cfg.maxQty.toNat (hlen.trans h.length_le)
  have hnext := Nat.mul_le_mul_right cfg.maxQty.toNat (Nat.succ_le_of_lt hn)
  have htotal := hcfg.total
  rw [Nat.succ_mul] at hnext
  omega

end Simulates

/-! ## Random choices -/

section
variable {rng : Rng} {cfg : SimConfig} {s : SymbolState} {R : Reference}

/-- A random live id is the id of an order. -/
theorem randomLive_ensures (h : s.Models R) (hne : s.liveIds ≠ []) (g : rng.State) :
    Ensures Overflows (randomLive rng s g) fun r => ∃ e ∈ R, e.id = r.1 := by
  refine (h.registered.randomLive_ensures hne g).mono fun r ⟨o, ho⟩ => ?_
  obtain ⟨e, he, hid, -⟩ := (h.orders r.1 o).mp ho
  exact ⟨e, he, hid⟩

end

/-! ## The fills -/

section
variable {rng : Rng} {cfg : SimConfig} {n : Nat} {sym : SymbolId} {R : Reference} {d : Draft rng}

/-- What the fills of the `n`-th message start from. -/
structure Drafted (cfg : SimConfig) (n : Nat) (R : Reference) (d : Draft rng) : Prop where
  valid : cfg.Valid
  more : n < cfg.numMessages.toNat
  ids : d.nextOrderId.toNat ≤ n + 1
  simulates : Simulates cfg n d.nextOrderId d.s R

/-- The number of messages is a 32-bit number. -/
theorem numMessages_lt (hcfg : cfg.Valid) : cfg.numMessages.toNat < 2 ^ 32 := by
  have hpos := UInt32.le_iff_toNat_le.mp (UInt32.le_trans hcfg.qty_pos hcfg.qty_le)
  exact (Nat.le_mul_of_pos_right _ hpos).trans_lt hcfg.total

theorem fillAdd_ensures (h : Drafted cfg n R d) :
    Ensures Overflows (fillAdd cfg sym d) fun d' => ∃ R', Filled cfg n sym R d d' R' := by
  have hsim := h.simulates
  refine (uniform_ensures (Nat.zero_le 1) d.g).bind ?_
  rintro ⟨coin, g⟩ _
  let side : Side := if coin = 0 then .buy else .sell
  refine (hsim.bands.choosePrice_ensures h.valid side g).bind ?_
  rintro ⟨price, g⟩ hfits
  refine (randomQty_ensures h.valid.admitted g).bind ?_
  rintro ⟨qty, g⟩ hqty
  let e : Entry := ⟨d.nextOrderId, side, price, qty⟩
  have hfresh : ∀ e' ∈ R, e'.id ≠ e.id := by
    intro e' he' hid
    have hlt := hsim.fresh e' he'
    rw [hid] at hlt
    exact Nat.lt_irrefl _ hlt
  have hroom : depth e.onBids R e.price + e.qty.toNat < 2 ^ 32 :=
    hsim.room h.valid h.more (List.Subset.refl R) le_rfl _ _ hqty.2
  have hnext : (d.nextOrderId + 1).toNat = d.nextOrderId.toNat + 1 := by
    have hids := h.ids
    have hmore := h.more
    have hbound := numMessages_lt h.valid
    rw [UInt64.toNat_add, UInt64.toNat_one]
    omega
  obtain ⟨hmodels, hmid⟩ := hsim.models.registerOrder e hfresh hqty.1 hroom
  refine ⟨R ++ [e], ⟨rfl, ?_⟩, ⟨hmodels, ?_, ?_, ?_, ?_⟩, rfl, ?_, hnext.le⟩
  · exact Reference.add_of_fresh e hfresh fun hzero => hqty.1.ne' (congrArg UInt32.toNat hzero)
  · exact hsim.quoted.append hqty hfits
  · exact hmid ▸ hsim.refMid
  · rw [List.length_append]
    exact Nat.succ_le_succ hsim.length_le
  · intro e' he'
    change e'.id.toNat < (d.nextOrderId + 1).toNat
    rw [hnext]
    rcases List.mem_append.mp he' with he' | he'
    · exact (hsim.fresh e' he').trans (Nat.lt_succ_self _)
    · rw [List.mem_singleton.mp he']
      exact Nat.lt_succ_self _
  · exact (Nat.le_succ _).trans_eq hnext.symm

/-- The table after an order is unregistered. -/
theorem unregisterOrder_ensures (h : Drafted cfg n R d) {e : Entry} (he : e ∈ R) :
    Ensures Overflows (d.s.unregisterOrder e.id) fun s =>
      Simulates cfg (n + 1) d.nextOrderId s (remove Entry.id e.id R) := by
  have hsim := h.simulates
  obtain ⟨s, heq, hmodels, hmid⟩ := hsim.models.unregisterOrder he (hsim.quoted.qty e he).1
  refine Ensures.of_eq_ok heq ⟨hmodels, hsim.quoted.remove e.id, hmid ▸ hsim.refMid, ?_, ?_⟩
  · exact (List.length_filter_le _ _).trans (hsim.length_le.trans (Nat.le_succ n))
  · exact fun e' he' => hsim.fresh e' (mem_remove.mp he').1

/-- The three fills that need a live order: `none` is only returned when there is none. -/
theorem fillCancel_ensures (h : Drafted cfg n R d) :
    Ensures Overflows (fillCancel sym d) fun r =>
      ∀ d', r = some d' → ∃ R', Filled cfg n sym R d d' R' := by
  unfold fillCancel
  split_ifs with hempty
  · exact nofun
  refine (randomLive_ensures h.simulates.models (by simpa using hempty) d.g).bind
    fun ⟨id, g⟩ ⟨e, he, hid⟩ => ?_
  obtain rfl : e.id = id := hid
  refine (unregisterOrder_ensures h he).bind ?_
  intro s hs
  rintro d' ⟨⟩
  refine ⟨remove Entry.id e.id R, ⟨rfl, ?_⟩, hs, rfl, le_rfl, Nat.le_succ _⟩
  exact Reference.cancel_of_mem h.simulates.models.unique he

theorem length_replace {e e' : Entry} (h : Unique Entry.id R) (he : e ∈ R) :
    (remove Entry.id e.id R ++ [e']).length = R.length := by
  rw [(h.perm_cons_remove he).length_eq, List.length_append, List.length_singleton,
    List.length_cons]

/-- One order replaced by another of the same id and side. -/
theorem Drafted.replace (h : Drafted cfg n R d) {e : Entry} (he : e ∈ R) (e' : Entry)
    (hid : e'.id = e.id) {s : SymbolState}
    (hmodels : s.Models (remove Entry.id e.id R ++ [e'])) (hmid : s.refMid = d.s.refMid)
    (hqty : 0 < e'.qty.toNat ∧ e'.qty.toNat ≤ cfg.maxQty.toNat)
    (hfits : Reference.Fits cfg (remove Entry.id e.id R) e'.onBids e'.price) :
    Simulates cfg (n + 1) d.nextOrderId s (remove Entry.id e.id R ++ [e']) where
  models := hmodels
  quoted := (h.simulates.quoted.remove e.id).append hqty hfits
  refMid := hmid ▸ h.simulates.refMid
  length_le := by
    rw [length_replace h.simulates.models.unique he]
    exact h.simulates.length_le.trans (Nat.le_succ n)
  fresh e₁ he₁ := by
    rcases List.mem_append.mp he₁ with he₁ | he₁
    · exact h.simulates.fresh e₁ (mem_remove.mp he₁).1
    · rw [List.mem_singleton.mp he₁, hid]
      exact h.simulates.fresh e he

theorem fillModify_ensures (h : Drafted cfg n R d) :
    Ensures Overflows (fillModify cfg sym d) fun r =>
      ∀ d', r = some d' → ∃ R', Filled cfg n sym R d d' R' := by
  have hsim := h.simulates
  unfold fillModify
  split_ifs with hempty
  · exact nofun
  refine (randomLive_ensures hsim.models (by simpa using hempty) d.g).bind
    fun ⟨id, g⟩ ⟨e, he, hid⟩ => ?_
  obtain rfl : e.id = id := hid
  refine (access_ensures (hsim.models.orders_of_mem he)).bind ?_
  intro o ho
  obtain rfl : o = e.live := ho
  -- The price is chosen with the order's own quantity already taken off the depth.
  obtain ⟨bidQty, askQty, heq, hdepths⟩ := hsim.models.removeDepth he (hsim.quoted.qty e he).1
  rw [show d.s.removeDepth e.live.side e.live.price e.live.qty = _ from heq]
  have hbands : Bands cfg { d.s with bidQty, askQty } (remove Entry.id e.id R) :=
    ⟨hdepths, hsim.quoted.remove e.id, hsim.refMid⟩
  refine (hbands.choosePrice_ensures h.valid e.side g).bind ?_
  rintro ⟨newPrice, g⟩ hfits
  refine (randomQty_ensures h.valid.admitted g).bind ?_
  rintro ⟨newQty, g⟩ hqty
  have hroom : depth e.onBids (remove Entry.id e.id R) newPrice + newQty.toNat < 2 ^ 32 :=
    hsim.room h.valid h.more List.filter_sublist.subset (List.length_filter_le _ _) _ _ hqty.2
  obtain ⟨hmodels, hmid⟩ := hsim.models.reprice he hdepths hqty.1 hroom
  have hne : newQty ≠ 0 := fun hzero => hqty.1.ne' (congrArg UInt32.toNat hzero)
  obtain ⟨R', hmodify, hperm⟩ := Reference.modify_of_mem hsim.models.unique he newPrice hne
  rintro d' ⟨⟩
  refine ⟨R', ⟨rfl, hmodify⟩, ?_, rfl, le_rfl, Nat.le_succ _⟩
  exact (h.replace he ⟨e.id, e.side, newPrice, newQty⟩ rfl hmodels hmid hqty hfits).perm hperm.symm

theorem fillTrade_ensures (h : Drafted cfg n R d) :
    Ensures Overflows (fillTrade sym d) fun r =>
      ∀ d', r = some d' → ∃ R', Filled cfg n sym R d d' R' := by
  have hsim := h.simulates
  unfold fillTrade
  split_ifs with hempty
  · exact nofun
  refine (randomLive_ensures hsim.models (by simpa using hempty) d.g).bind
    fun ⟨id, g⟩ ⟨e, he, hid⟩ => ?_
  obtain rfl : e.id = id := hid
  refine (access_ensures (hsim.models.orders_of_mem he)).bind ?_
  intro o ho
  obtain rfl : o = e.live := ho
  obtain ⟨hpos, hmax⟩ := hsim.quoted.qty e he
  refine (uniform_ensures (Nat.succ_le_of_lt hpos) g).bind ?_
  rintro ⟨fill, g⟩ hfill
  have hvalue : (UInt32.ofNat fill).toNat = fill :=
    UInt32.toNat_ofNat_of_lt' (hfill.2.trans_lt e.qty.toNat_lt)
  by_cases hall : UInt32.ofNat fill ≥ e.live.qty
  · simp only [hall, if_true]
    refine (unregisterOrder_ensures h he).bind ?_
    intro s hs
    rintro d' ⟨⟩
    refine ⟨remove Entry.id e.id R, ⟨rfl, ?_⟩, hs, rfl, le_rfl, Nat.le_succ _⟩
    exact Reference.execute_all hsim.models.unique he hall
  · simp only [hall, if_false]
    have hlt : UInt32.ofNat fill < e.qty := UInt32.not_le.mp hall
    have hlt' := UInt32.lt_iff_toNat_lt.mp hlt
    have hrest : (e.qty - UInt32.ofNat fill).toNat = e.qty.toNat - (UInt32.ofNat fill).toNat :=
      UInt32.toNat_sub_of_le _ _ (UInt32.le_of_lt hlt)
    obtain ⟨bidQty, askQty, heq, hmodels⟩ :=
      hsim.models.partialFill he (Nat.lt_of_lt_of_eq hfill.1 hvalue.symm) hlt
    obtain ⟨R', hexecute, hperm⟩ := Reference.execute_partial hsim.models.unique he hlt
    rintro d' ⟨⟩
    refine ⟨R', ⟨rfl, hexecute⟩, ?_, rfl, le_rfl, Nat.le_succ _⟩
    rw [show d.s.removeDepth e.live.side e.live.price (UInt32.ofNat fill) = _ from heq]
    refine Simulates.perm ?_ hperm.symm
    refine h.replace he (e.setQty (e.qty - UInt32.ofNat fill)) rfl hmodels rfl ⟨?_, ?_⟩
      (hsim.quoted.fits_self he)
    · exact hrest ▸ Nat.sub_pos_of_lt hlt'
    · exact hrest ▸ (Nat.sub_le _ _).trans hmax

theorem fillMix_ensures (h : Drafted cfg n R d) (r : Int32) :
    Ensures Overflows (MarketSimulator.fillMix cfg r sym d) fun done =>
      ∀ d', done = some d' → ∃ R', Filled cfg n sym R d d' R' := by
  unfold MarketSimulator.fillMix
  split_ifs
  · refine Ensures.map ((fillAdd_ensures h).mono fun d' hd' => ?_)
    rintro _ ⟨⟩
    exact hd'
  · exact fillCancel_ensures h
  · exact fillModify_ensures h
  · exact fillTrade_ensures h

/-- Whatever is drawn and whatever the weights, whose sums wrap, a message is filled. -/
theorem fill_ensures (h : Drafted cfg n R d) (idx : UInt64) :
    Ensures Overflows (MarketSimulator.fill cfg idx sym d) fun d' =>
      ∃ R', Filled cfg n sym R d d' R' := by
  unfold MarketSimulator.fill
  have hkeep := h.simulates.mono (Nat.le_succ n) (Nat.le_refl d.nextOrderId.toNat)
  split_ifs
  · exact ⟨R, rfl, hkeep, rfl, le_rfl, Nat.le_succ _⟩
  · exact ⟨R, rfl, hkeep, rfl, le_rfl, Nat.le_succ _⟩
  refine (uniform_ensures (Nat.zero_le 99) d.g).bind ?_
  rintro ⟨r, g⟩ _
  have hd : Drafted cfg n R { d with g } := ⟨h.valid, h.more, h.ids, h.simulates⟩
  refine (fillMix_ensures hd (Int32.ofNat r)).bind ?_
  intro done hfilled
  cases done with
  | some d' =>
    obtain ⟨R', hR'⟩ := hfilled d' rfl
    exact ⟨R', hR'.of_state⟩
  | none => exact (fillAdd_ensures hd).mono fun d' ⟨R', hR'⟩ => ⟨R', hR'.of_state⟩

end

end Mdfh
