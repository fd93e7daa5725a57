import Mdfh.BookCrossing

/-!
# The spread

The best ask minus the best bid, subtracted in the type of the prices. The self-check orders
the two prices and says nothing of their distance, so the difference of the best prices of a
book that passes it need not fit.

## Main results

* `run_spread_iff` — when the spread of a reachable book is exact and positive.
-/

namespace Mdfh

open Std Library Library.OrdMap

/-- A subtraction of `int64_t` values, undefined where the difference does not fit. -/
def checkedSub (a b : Price) : Option Price :=
  if -2 ^ 63 ≤ a.toInt - b.toInt ∧ a.toInt - b.toInt < 2 ^ 63 then some (a - b) else none

theorem checkedSub_eq_some_iff {a b d : Price} :
    checkedSub a b = some d ↔ d.toInt = a.toInt - b.toInt := by
  have hlow := d.le_toInt
  have hhigh := d.toInt_lt
  unfold checkedSub
  split_ifs with hfits
  · have hexact : (a - b).toInt = a.toInt - b.toInt := by
      rw [Int64.toInt_sub]
      exact Int.bmod_eq_of_le (by omega) (by omega)
    rw [Option.some.injEq, ← Int64.toInt_inj, hexact, eq_comm]
  · refine iff_of_false nofun ?_
    omega

namespace OrderBook

/-- `spread()`: nothing where a side is empty; the outer `none` is a signed overflow. -/
def spread (b : OrderBook) : Option (Option Price) :=
  match first? b.bids, first? b.asks with
  | some bid, some ask => (checkedSub ask.2.price bid.2.price).map some
  | _, _ => some none

section
variable {b : OrderBook}

/-- With both sides non-empty, the spread is the difference of the best prices if it fits. -/
theorem spread_eq_some_iff {bid ask : LevelView} (hbid : b.bestBid = some bid)
    (hask : b.bestAsk = some ask) {d : Price} :
    b.spread = some (some d) ↔ d.toInt = ask.price.toInt - bid.price.toInt := by
  obtain ⟨e, he, rfl⟩ := Option.map_eq_some_iff.mp hbid
  obtain ⟨f, hf, rfl⟩ := Option.map_eq_some_iff.mp hask
  rw [spread, he, hf]
  simp [checkedSub_eq_some_iff, PriceLevel.view]

/-- A book that passes the self-check has its best bid below its best ask. -/
theorem LocatorAgreement.bid_lt_ask (h : b.LocatorAgreement) (hok : b.checkInvariants = some true)
    {bid ask : LevelView} (hbid : b.bestBid = some bid) (hask : b.bestAsk = some ask) :
    bid.price < ask.price := by
  obtain ⟨e, he, rfl⟩ := Option.map_eq_some_iff.mp hbid
  obtain ⟨f, hf, rfl⟩ := Option.map_eq_some_iff.mp hask
  have hcross : b.crossing = false := by simpa [h.checkInvariants_eq] using hok
  rw [crossing, he, hf] at hcross
  simpa [PriceLevel.view, Int64.not_le] using hcross

/-- The best prices are the closest pair of resting prices of the two sides. -/
theorem LocatorAgreement.best_closest_iff (h : b.LocatorAgreement) {bid ask : LevelView}
    (hbid : b.bestBid = some bid) (hask : b.bestAsk = some ask) (n : Int) :
    ask.price.toInt - bid.price.toInt < n ↔
      ∃ p q, b.RestsAt .buy p ∧ b.RestsAt .sell q ∧ q.toInt - p.toInt < n := by
  obtain ⟨e, he, rfl⟩ := Option.map_eq_some_iff.mp hbid
  obtain ⟨f, hf, rfl⟩ := Option.map_eq_some_iff.mp hask
  have hhighest := h.highestBid he
  have hlowest := h.lowestAsk hf
  constructor
  · intro hlt
    exact ⟨_, _, hhighest.1, hlowest.1, hlt⟩
  · rintro ⟨p, q, hp, hq, hlt⟩
    have hpe := Int64.le_iff_toInt_le.mp (hhighest.2 p hp)
    have hqf := Int64.le_iff_toInt_le.mp (hlowest.2 q hq)
    simp only [PriceLevel.view]
    omega

end

/-- In every state that calls with arbitrary arguments reach from an empty book, if it passes
the self-check and both sides have orders: the spread is defined, exact and positive if and
only if some bid and some ask rest less than `2 ^ 63` apart. -/
theorem run_spread_iff (symbol : SymbolId) (ops : List Op) :
    ∃ b rets, OrderBook.run { symbol } ops = some (b, rets) ∧ (b.checkInvariants = some true →
      ∀ bid ask, b.bestBid = some bid → b.bestAsk = some ask →
        ((∃ d, b.spread = some (some d) ∧ d.toInt = ask.price.toInt - bid.price.toInt ∧ 0 < d) ↔
          ∃ p q, b.RestsAt .buy p ∧ b.RestsAt .sell q ∧ q.toInt - p.toInt < 2 ^ 63)) := by
  obtain ⟨b, hrun, hR⟩ := (Refines.empty symbol).run ops
  have hagree := hR.locatorAgreement
  refine ⟨b, _, hrun, fun hok bid ask hbid hask => ?_⟩
  have hlt := Int64.lt_iff_toInt_lt.mp (hagree.bid_lt_ask hok hbid hask)
  rw [← hagree.best_closest_iff hbid hask]
  constructor
  · rintro ⟨d, -, hd, -⟩
    have hbound := d.toInt_lt
    omega
  · intro hfits
    have hd : (Int64.ofInt (ask.price.toInt - bid.price.toInt)).toInt =
        ask.price.toInt - bid.price.toInt := Int64.toInt_ofInt_of_le (by omega) (by omega)
    refine ⟨_, (spread_eq_some_iff hbid hask).mpr hd, hd, ?_⟩
    rw [Int64.lt_iff_toInt_lt, hd]
    change 0 < _
    omega

/-- A bid at the lowest price of the type and an ask at the highest. -/
theorem run_spread_overflow :
    ∃ b rets, OrderBook.run {} [.add 1 .buy Int64.minValue 1, .add 2 .sell Int64.maxValue 1] =
        some (b, rets) ∧ b.checkInvariants = some true ∧ b.bestBid = some ⟨Int64.minValue, 1, 1⟩ ∧
      b.bestAsk = some ⟨Int64.maxValue, 1, 1⟩ ∧ b.spread = none := by
  have hrun : ((OrderBook.run {} [.add 1 .buy Int64.minValue 1, .add 2 .sell Int64.maxValue 1]).any
      fun r => r.1.checkInvariants = some true ∧ r.1.bestBid = some ⟨Int64.minValue, 1, 1⟩ ∧
        r.1.bestAsk = some ⟨Int64.maxValue, 1, 1⟩ ∧ r.1.spread = none) = true := by decide +kernel
  obtain ⟨⟨b, rets⟩, hb, hall⟩ := (Option.any_eq_true _ _).mp hrun
  exact ⟨b, rets, hb, of_decide_eq_true hall⟩

end OrderBook

end Mdfh
