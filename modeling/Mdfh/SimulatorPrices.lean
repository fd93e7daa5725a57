import Mdfh.SimulatorState
import Mdfh.Library.Outcome

/-!
# The simulator's prices do not cross

What holds of all orders the simulator has live: quantities are in range, bids are at least
one tick and asks at least two, and every bid is below every ask. A price chosen for one
side keeps this whatever is drawn. The lower bound on asks is what keeps a bid that was
clamped to one tick below them.

## Main definitions

* `SimConfig.Valid` — the configurations considered.
* `Reference.Quoted` — the invariant of the live orders.

## Main results

* `choosePrice_ensures` — a chosen price fits the orders of the other side.
-/

namespace Mdfh

open Std Library Library.Keyed Library.OrdMap

structure SimConfig.Valid (cfg : SimConfig) : Prop where
  symbols : 1 ≤ cfg.numSymbols
  bands : 1 ≤ cfg.bandLevels
  tick_pos : 0 < cfg.tick
  tick_le : cfg.tick ≤ cfg.startPrice
  step_nonneg : 0 ≤ cfg.symbolPriceStep
  qty_pos : 1 ≤ cfg.minQty
  qty_le : cfg.minQty ≤ cfg.maxQty
  total : cfg.numMessages.toNat * cfg.maxQty.toNat < 2 ^ 32

theorem SimConfig.Valid.admitted {cfg : SimConfig} (h : cfg.Valid) : cfg.Admitted :=
  ⟨h.symbols, h.qty_pos, h.qty_le⟩

/-! ## The invariant of the live orders -/

namespace Reference

structure Quoted (cfg : SimConfig) (R : Reference) : Prop where
  qty : ∀ e ∈ R, 0 < e.qty.toNat ∧ e.qty.toNat ≤ cfg.maxQty.toNat
  bids : ∀ e ∈ R, e.onBids = true → cfg.tick.toInt ≤ e.price.toInt
  asks : ∀ e ∈ R, e.onBids = false → 2 * cfg.tick.toInt ≤ e.price.toInt
  uncrossed : ∀ b ∈ R, ∀ a ∈ R, b.onBids = true → a.onBids = false →
    b.price.toInt < a.price.toInt

/-- An order may be added at the price `p`. -/
def Fits (cfg : SimConfig) (R : Reference) (bids : Bool) (p : Price) : Prop :=
  match bids with
  | true => cfg.tick.toInt ≤ p.toInt ∧ ∀ a ∈ R, a.onBids = false → p.toInt < a.price.toInt
  | false => 2 * cfg.tick.toInt ≤ p.toInt ∧ ∀ b ∈ R, b.onBids = true → b.price.toInt < p.toInt

namespace Quoted

variable {cfg : SimConfig} {R R' : Reference} {e : Entry}

theorem nil (cfg : SimConfig) : Quoted cfg [] := ⟨by simp, by simp, by simp, by simp⟩

theorem subset (h : R.Quoted cfg) (hsub : R' ⊆ R) : R'.Quoted cfg where
  qty e he := h.qty e (hsub he)
  bids e he := h.bids e (hsub he)
  asks e he := h.asks e (hsub he)
  uncrossed b hb a ha := h.uncrossed b (hsub hb) a (hsub ha)

theorem remove (h : R.Quoted cfg) (id : OrderId) : Quoted cfg (remove Entry.id id R) :=
  h.subset (List.filter_sublist.subset)

theorem append (h : R.Quoted cfg) (hqty : 0 < e.qty.toNat ∧ e.qty.toNat ≤ cfg.maxQty.toNat)
    (hfits : Fits cfg R e.onBids e.price) : Quoted cfg (R ++ [e]) where
  qty := List.forall_mem_append.mpr ⟨h.qty, List.forall_mem_singleton.mpr hqty⟩
  bids := by
    refine List.forall_mem_append.mpr ⟨h.bids, List.forall_mem_singleton.mpr fun hon => ?_⟩
    rw [hon] at hfits
    exact hfits.1
  asks := by
    refine List.forall_mem_append.mpr ⟨h.asks, List.forall_mem_singleton.mpr fun hon => ?_⟩
    rw [hon] at hfits
    exact hfits.1
  uncrossed := by
    intro b hb a ha hbid hask
    rw [List.mem_append, List.mem_singleton] at hb ha
    rcases hb with hb | rfl <;> rcases ha with ha | rfl
    · exact h.uncrossed b hb a ha hbid hask
    · rw [hask] at hfits
      exact hfits.2 b hb hbid
    · rw [hbid] at hfits
      exact hfits.2 a ha hask
    · exact absurd (hbid.symm.trans hask) (by simp)

/-- An order's own price fits the others. -/
theorem fits_self (h : R.Quoted cfg) (he : e ∈ R) :
    Fits cfg (Keyed.remove Entry.id e.id R) e.onBids e.price := by
  cases hon : e.onBids with
  | true => exact ⟨h.bids e he hon, fun a ha => h.uncrossed e he a (mem_remove.mp ha).1 hon⟩
  | false => exact ⟨h.asks e he hon, fun b hb hbid =>
      h.uncrossed b (mem_remove.mp hb).1 e he hbid hon⟩

theorem perm (h : R.Quoted cfg) (hperm : R.Perm R') : R'.Quoted cfg :=
  h.subset hperm.symm.subset

theorem depth_le (h : R.Quoted cfg) (bids : Bool) (p : Price) :
    depth bids R p ≤ R.length * cfg.maxQty.toNat :=
  Mdfh.depth_le fun e he => (h.qty e he).2

end Quoted

end Reference

/-! ## The chosen price -/

section
variable {rng : Rng}

theorem toInt_min (a b : Price) : (min a b).toInt = min a.toInt b.toInt := by
  by_cases h : a ≤ b
  · rw [show min a b = a from if_pos h, min_eq_left (Int64.le_iff_toInt_le.mp h)]
  · rw [show min a b = b from if_neg h, min_eq_right]
    have hlt := mt Int64.le_iff_toInt_le.mpr h
    omega

theorem toInt_max (a b : Price) : (max a b).toInt = max a.toInt b.toInt := by
  by_cases h : a ≤ b
  · rw [show max a b = b from if_pos h, max_eq_right (Int64.le_iff_toInt_le.mp h)]
  · rw [show max a b = a from if_neg h, max_eq_left]
    have hlt := mt Int64.le_iff_toInt_le.mpr h
    omega

variable {cfg : SimConfig} {s : SymbolState} {R : Reference}

open SymbolState

/-- What the price bands of a symbol look like from outside. -/
structure Bands (cfg : SimConfig) (s : SymbolState) (R : Reference) : Prop where
  depths : s.Depths fun bids => depth bids R
  quoted : R.Quoted cfg
  refMid : cfg.tick.toInt ≤ s.refMid.toInt

namespace Bands

/-- The best ask is the price of an ask, and no ask is below it. -/
theorem bestAsk (h : Bands cfg s R) {best : Price × Quantity} (hbest : first? s.askQty = some best) :
    (∃ a ∈ R, a.onBids = false ∧ a.price = best.1) ∧
      ∀ a ∈ R, a.onBids = false → best.1.toInt ≤ a.price.toInt := by
  have hpos (e : Entry) (he : e ∈ R) := (h.quoted.qty e he).1
  obtain ⟨hget, hleast⟩ := h.depths.asks.first? hbest
  refine ⟨(depth_pos_iff hpos).mp hget, fun a ha hask => ?_⟩
  exact Int64.le_iff_toInt_le.mp (hleast _ ((depth_pos_iff hpos).mpr ⟨a, ha, hask, rfl⟩))

theorem bestBid (h : Bands cfg s R) {best : Price × Quantity} (hbest : last? s.bidQty = some best) :
    (∃ b ∈ R, b.onBids = true ∧ b.price = best.1) ∧
      ∀ b ∈ R, b.onBids = true → b.price.toInt ≤ best.1.toInt := by
  have hpos (e : Entry) (he : e ∈ R) := (h.quoted.qty e he).1
  obtain ⟨hget, hgreatest⟩ := h.depths.bids.last? hbest
  refine ⟨(depth_pos_iff hpos).mp hget, fun b hb hbid => ?_⟩
  exact Int64.le_iff_toInt_le.mp (hgreatest _ ((depth_pos_iff hpos).mpr ⟨b, hb, hbid, rfl⟩))

theorem no_asks (h : Bands cfg s R) (hnone : first? s.askQty = none) :
    ∀ a ∈ R, a.onBids ≠ false := by
  have hpos (e : Entry) (he : e ∈ R) := (h.quoted.qty e he).1
  intro a ha hask
  have hzero := h.depths.asks.eq_zero_of_first? hnone a.price
  exact absurd ((depth_pos_iff hpos).mpr ⟨a, ha, hask, rfl⟩) (by omega)

theorem no_bids (h : Bands cfg s R) (hnone : last? s.bidQty = none) :
    ∀ b ∈ R, b.onBids ≠ true := by
  have hpos (e : Entry) (he : e ∈ R) := (h.quoted.qty e he).1
  intro b hb hbid
  have hzero := h.depths.bids.eq_zero_of_last? hnone b.price
  exact absurd ((depth_pos_iff hpos).mpr ⟨b, hb, hbid, rfl⟩) (by omega)

/-- The ceiling is below every ask. -/
theorem bidCeil_ensures (h : Bands cfg s R) (hcfg : cfg.Valid) :
    Ensures Overflows (bidCeil cfg s) fun c =>
      ∀ a ∈ R, a.onBids = false → c.toInt < a.price.toInt := by
  have htick : 0 < cfg.tick.toInt := Int64.lt_iff_toInt_lt.mp hcfg.tick_pos
  unfold bidCeil
  cases hbest : first? s.askQty with
  | none =>
    refine (subPrice_ensures _ _).mono ?_
    intro c _ a ha hask
    exact absurd hask (h.no_asks hbest a ha)
  | some best =>
    refine (subPrice_ensures _ _).mono ?_
    intro c hc a ha hask
    have hle := (h.bestAsk hbest).2 a ha hask
    omega

/-- The floor is above every bid, and at least two ticks. -/
theorem askFloor_ensures (h : Bands cfg s R) (hcfg : cfg.Valid) :
    Ensures Overflows (askFloor cfg s) fun f => 2 * cfg.tick.toInt ≤ f.toInt ∧
      ∀ b ∈ R, b.onBids = true → b.price.toInt < f.toInt := by
  have htick : 0 < cfg.tick.toInt := Int64.lt_iff_toInt_lt.mp hcfg.tick_pos
  unfold askFloor
  cases hbest : last? s.bidQty with
  | none =>
    refine (addPrice_ensures _ _).mono ?_
    intro f hf
    have hmid := h.refMid
    exact ⟨by omega, fun b hb hbid => absurd hbid (h.no_bids hbest b hb)⟩
  | some best =>
    refine (addPrice_ensures _ _).mono ?_
    intro f hf
    obtain ⟨⟨b', hb', hon, hprice⟩, hgreatest⟩ := h.bestBid hbest
    have hlow := hprice ▸ h.quoted.bids b' hb' hon
    refine ⟨by omega, fun b hb hbid => ?_⟩
    have hle := hgreatest b hb hbid
    omega

theorem choosePrice_ensures (h : Bands cfg s R) (hcfg : cfg.Valid) (side : Side) (g : rng.State) :
    Ensures Overflows (choosePrice rng cfg s side g) fun r =>
      Reference.Fits cfg R (decide (side = .buy)) r.1 := by
  have htick : 0 < cfg.tick.toInt := Int64.lt_iff_toInt_lt.mp hcfg.tick_pos
  have hdepth : ∀ off ≤ (cfg.bandLevels - 1).toNat, Ensures Overflows
      (mulPrice (Int64.ofNat off) cfg.tick) fun d => 0 ≤ d.toInt := by
    intro off hoff
    refine (mulPrice_ensures _ _).mono ?_
    intro d hd
    have hlt := UInt32.toNat_lt (cfg.bandLevels - 1)
    rw [hd, Int64.toInt_ofNat_of_lt (by omega)]
    positivity
  by_cases hside : side = .buy
  · rw [choosePrice, if_pos hside, decide_eq_true hside]
    refine (h.bidCeil_ensures hcfg).bind ?_
    intro ceil hceil
    have hanchor : Ensures Overflows ((last? s.bidQty).elim (pure ceil) fun best =>
        (min · ceil) <$> addPrice best.1 cfg.tick) fun a => a.toInt ≤ ceil.toInt := by
      cases last? s.bidQty with
      | none => exact le_rfl
      | some best =>
        refine Ensures.map ((addPrice_ensures _ _).mono fun p _ => ?_)
        exact (toInt_min p ceil).trans_le (min_le_right _ _)
    refine hanchor.bind ?_
    intro anchor hanchor
    refine (uniform_ensures (Nat.zero_le _) g).bind ?_
    rintro ⟨off, g'⟩ hoff
    refine (hdepth off hoff.2).bind ?_
    intro d hd
    refine (subPrice_ensures _ _).bind ?_
    intro p hp
    refine ⟨?_, fun a ha hask => ?_⟩
    · exact (le_max_right _ _).trans_eq (toInt_max p cfg.tick).symm
    · rw [toInt_max]
      have hbelow := hceil a ha hask
      have hask' := h.quoted.asks a ha hask
      exact max_lt (by omega) (by omega)
  · rw [choosePrice, if_neg hside, decide_eq_false hside]
    refine (h.askFloor_ensures hcfg).bind ?_
    intro floor hfloor
    have hanchor : Ensures Overflows ((first? s.askQty).elim (pure floor) fun best =>
        (max · floor) <$> subPrice best.1 cfg.tick) fun a => floor.toInt ≤ a.toInt := by
      cases first? s.askQty with
      | none => exact le_rfl
      | some best =>
        refine Ensures.map ((subPrice_ensures _ _).mono fun p _ => ?_)
        exact (le_max_right _ _).trans_eq (toInt_max p floor).symm
    refine hanchor.bind ?_
    intro anchor hanchor
    refine (uniform_ensures (Nat.zero_le _) g).bind ?_
    rintro ⟨off, g'⟩ hoff
    refine (hdepth off hoff.2).bind ?_
    intro d hd
    refine (addPrice_ensures _ _).bind ?_
    intro p hp
    obtain ⟨hlow, habove⟩ := hfloor
    refine ⟨show _ ≤ p.toInt by omega, fun b hb hbid => show _ < p.toInt from ?_⟩
    have hbelow := habove b hb hbid
    omega

end Bands

end

end Mdfh
