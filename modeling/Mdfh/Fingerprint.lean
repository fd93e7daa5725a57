import Mdfh.BookDepth
import Mdfh.BookIsolation

/-!
# What the fingerprint sees

The hash of a symbol mixes in three counts and the best level of each side. Equal values in
the mix show equal best levels and equal counts, and nothing about what rests behind them.

## Main definitions

* `mixedValues` — the values mixed in for one symbol, in order.
* `SameTop` — what two books then have in common.

## Main results

* `symbolFingerprint_eq` — the hash is a fold over these values.
* `mixedValues_eq_iff` — which books have the same values.
* `BookManager.mixed_eq_iff` — the same for all symbols at once.
-/

namespace Mdfh

open Std Library Library.OrdMap

/-! ## The values in the mix -/

def levelValues : Option LevelView → List UInt64
  | none => []
  | some lv => [lv.price.toUInt64, lv.quantity.toUInt64, lv.orderCount.toUInt64]

/-- The values that are mixed into the hash of a symbol, in order. -/
def mixedValues (sym : SymbolId) (bk : OrderBook) : List UInt64 :=
  [sym.toUInt64, UInt64.ofNat bk.bidLevels, UInt64.ofNat bk.askLevels, UInt64.ofNat bk.orderCount] ++
    (levelValues bk.bestBid ++ levelValues bk.bestAsk)

theorem mixLevel_eq (h : UInt64) (v : Option LevelView) :
    mixLevel h v = (levelValues v).foldl mix h := by
  cases v <;> rfl

theorem symbolFingerprint_eq (sym : SymbolId) (bk : OrderBook) :
    symbolFingerprint sym bk = (mixedValues sym bk).foldl mix 1469598103934665603 := by
  rw [symbolFingerprint, mixedValues, List.foldl_append, List.foldl_append, mixLevel_eq, mixLevel_eq]
  rfl

/-- The same best levels, and the same counts as 64-bit words. -/
structure SameTop (b b' : OrderBook) : Prop where
  bidLevels : UInt64.ofNat b.bidLevels = UInt64.ofNat b'.bidLevels
  askLevels : UInt64.ofNat b.askLevels = UInt64.ofNat b'.askLevels
  orderCount : UInt64.ofNat b.orderCount = UInt64.ofNat b'.orderCount
  bestBid : b.bestBid = b'.bestBid
  bestAsk : b.bestAsk = b'.bestAsk

theorem levelValues_injective : Function.Injective levelValues := by
  rintro (_ | ⟨⟨⟨p⟩⟩, q, c⟩) (_ | ⟨⟨⟨p'⟩⟩, q', c'⟩) h
  · rfl
  · exact nomatch h
  · exact nomatch h
  · simp only [levelValues, List.cons.injEq, and_true, UInt32.toUInt64_inj] at h
    obtain ⟨hprice, rfl, rfl⟩ := h
    cases hprice
    rfl

/-- Prices as indices, to count them. -/
def priceIndex (p : Price) : Fin (2 ^ 64) := p.toUInt64.toBitVec.toFin

theorem priceIndex_injective : Function.Injective priceIndex := by
  rintro ⟨⟨⟨i⟩⟩⟩ ⟨⟨⟨j⟩⟩⟩ h
  cases h
  rfl

section
variable {cmp : Price → Price → Ordering} [TransCmp cmp] [LawfulEqCmp cmp] {m : LevelMap cmp}

/-- A side whose count of levels is zero as a word, but which is not empty, has a level at
every price. -/
theorem exists_level_of_wrap {e : Price × PriceLevel} (he : first? m = some e)
    (hwrap : UInt64.ofNat m.size = UInt64.ofNat 0) (p : Price) : ∃ lvl, m[p]? = some lvl := by
  have hpos : 0 < m.size := by
    rw [← ExtTreeMap.length_toList]
    exact List.length_pos_of_mem (List.mem_of_head? he)
  have hmod : m.size % 2 ^ 64 = 0 := by
    have := congrArg UInt64.toNat hwrap
    simpa using this
  refine exists_of_size_le priceIndex_injective ?_ p
  exact Nat.le_of_dvd hpos (Nat.dvd_of_mod_eq_zero hmod)

end

namespace OrderBook

variable {b b' : OrderBook}

theorem LocatorAgreement.bestBid_le (h : b.LocatorAgreement) {v : LevelView}
    (hv : b.bestBid = some v) {p : Price} {lvl : PriceLevel} (hlvl : b.bids[p]? = some lvl) :
    p ≤ v.price := by
  obtain ⟨e, he, rfl⟩ := Option.map_eq_some_iff.mp hv
  exact (h.highestBid he).2 p (h.restsAt_buy_iff.mpr ⟨lvl, hlvl⟩)

theorem LocatorAgreement.bestAsk_le (h : b.LocatorAgreement) {v : LevelView}
    (hv : b.bestAsk = some v) {p : Price} {lvl : PriceLevel} (hlvl : b.asks[p]? = some lvl) :
    v.price ≤ p := by
  obtain ⟨e, he, rfl⟩ := Option.map_eq_some_iff.mp hv
  exact (h.lowestAsk he).2 p (h.restsAt_sell_iff.mpr ⟨lvl, hlvl⟩)

/-- The values of a best bid are not mistaken for those of a best ask: the book with the bid
would have bids at all prices, the one with the ask would have asks at all prices. -/
theorem LocatorAgreement.bestBid_eq_none (h : b.LocatorAgreement) (h' : b'.LocatorAgreement)
    (hbids : UInt64.ofNat b.bidLevels = UInt64.ofNat b'.bidLevels)
    (hasks : UInt64.ofNat b.askLevels = UInt64.ofNat b'.askLevels)
    (hbest : levelValues b.bestBid ++ levelValues b.bestAsk =
      levelValues b'.bestBid ++ levelValues b'.bestAsk) (hnone' : b'.bestBid = none) :
    b.bestBid = none := by
  by_contra hsome
  obtain ⟨v, hbid⟩ := Option.ne_none_iff_exists'.mp hsome
  rw [hbid, hnone'] at hbest
  obtain ⟨w, hask'⟩ : ∃ w, b'.bestAsk = some w := by
    cases hask' : b'.bestAsk with
    | none => exact nomatch hask' ▸ hbest
    | some w => exact ⟨w, rfl⟩
  have hask : b.bestAsk = none := by
    cases hask : b.bestAsk with
    | none => rfl
    | some u =>
      have hlen := congrArg List.length hbest
      simp [hask, hask', levelValues] at hlen
  rw [hask, hask'] at hbest
  obtain rfl : v = w := Option.some.inj (levelValues_injective ((List.append_nil _).symm.trans hbest))
  obtain ⟨bid, hfirst, -⟩ := Option.map_eq_some_iff.mp hbid
  obtain ⟨ask, hfirst', -⟩ := Option.map_eq_some_iff.mp hask'
  rw [bidLevels, bidLevels, size_of_first?_none (Option.map_eq_none_iff.mp hnone')] at hbids
  rw [askLevels, askLevels, size_of_first?_none (Option.map_eq_none_iff.mp hask)] at hasks
  obtain ⟨lvl, hlvl⟩ := exists_level_of_wrap hfirst hbids Int64.maxValue
  obtain ⟨lvl', hlvl'⟩ := exists_level_of_wrap hfirst' hasks.symm Int64.minValue
  have hmax := h.bestBid_le hbid hlvl
  have hmin := h'.bestAsk_le hask' hlvl'
  exact absurd (Int64.le_trans hmax hmin) (by decide)

end OrderBook

/-- Two books have the same values in the mix exactly when they have the same counts and the
same best levels. -/
theorem mixedValues_eq_iff (sym : SymbolId) (b b' : Book) :
    mixedValues sym b.val = mixedValues sym b'.val ↔ SameTop b.val b'.val := by
  obtain ⟨b, R, hR⟩ := b
  obtain ⟨b', R', hR'⟩ := b'
  constructor
  · intro h
    simp only [mixedValues, List.cons_append, List.nil_append, List.cons.injEq, true_and] at h
    obtain ⟨hbids, hasks, hcount, hbest⟩ := h
    have hnone : b.bestBid = none ↔ b'.bestBid = none :=
      ⟨hR'.locatorAgreement.bestBid_eq_none hR.locatorAgreement hbids.symm hasks.symm hbest.symm,
        hR.locatorAgreement.bestBid_eq_none hR'.locatorAgreement hbids hasks hbest⟩
    have hlen : (levelValues b.bestBid).length = (levelValues b'.bestBid).length := by
      cases hbid : b.bestBid <;> cases hbid' : b'.bestBid <;> simp_all [levelValues]
    have hsides := List.append_inj hbest hlen
    exact ⟨hbids, hasks, hcount, levelValues_injective hsides.1, levelValues_injective hsides.2⟩
  · intro h
    simp only [mixedValues, h.bidLevels, h.askLevels, h.orderCount, h.bestBid, h.bestAsk]

namespace BookManager

/-- The values that the fingerprint of a manager mixes for a symbol, if it has a book. -/
def mixed (m : BookManager) (symbol : SymbolId) : Option (List UInt64) :=
  (m.find symbol).map fun bk => mixedValues symbol bk.val

/-- The books of both managers for a symbol have the same best levels and counts. -/
def SameTopOf (m m' : BookManager) (symbol : SymbolId) : Prop :=
  Option.Rel (fun bk bk' => SameTop bk.val bk'.val) (m.find symbol) (m'.find symbol)

theorem mixed_eq_mixed_iff (m m' : BookManager) (symbol : SymbolId) :
    m.mixed symbol = m'.mixed symbol ↔ m.SameTopOf m' symbol := by
  unfold mixed SameTopOf
  cases m.find symbol <;> cases m'.find symbol
  · simp
  · simp
  · simp
  · simp [mixedValues_eq_iff]

theorem bookFingerprint_eq_of_mixed {m m' : BookManager}
    (h : ∀ symbol, m.mixed symbol = m'.mixed symbol) : bookFingerprint m = bookFingerprint m' := by
  have hmap : m.books.map (fun symbol bk => mixedValues symbol bk.val) =
      m'.books.map fun symbol bk => mixedValues symbol bk.val := by
    refine ExtTreeMap.ext_getElem? ?_
    intro symbol
    rw [ExtTreeMap.getElem?_map, ExtTreeMap.getElem?_map]
    exact h symbol
  have hsum (m : BookManager) : bookFingerprint m =
      (m.books.map fun symbol bk => mixedValues symbol bk.val).toList.foldl
        (fun acc e => acc + e.2.foldl mix 1469598103934665603) 0 := by
    rw [bookFingerprint_eq, fingerprintIn, ExtTreeMap.toList_map, List.foldl_map]
    simp only [symbolFingerprint_eq]
  rw [hsum, hsum, hmap]

/-- The values in the mix are the same for every symbol exactly when the two managers have
books for the same symbols, with the same best levels and counts. -/
theorem mixed_eq_iff (m m' : BookManager) :
    (∀ symbol, m.mixed symbol = m'.mixed symbol) ↔ ∀ symbol, m.SameTopOf m' symbol :=
  forall_congr' (m.mixed_eq_mixed_iff m')

open BookBuilder in
/-- Two books that differ behind the best bid: in the price of an order, in its quantity and
in all ids. -/
theorem mixed_hides_depth :
    let add (orderId : OrderId) (price : Price) (quantity : Quantity) : MessageHeader × Body :=
      ({}, .addOrder { symbol := 7, orderId, side := Side.buy, price, quantity })
    let m := (build [add 1 100 5, add 2 99 7]).manager
    let m' := (build [add 3 100 5, add 4 98 8]).manager
    (∀ symbol, m.mixed symbol = m'.mixed symbol) ∧ bookFingerprint m = bookFingerprint m' ∧
      (m.book 7).val.levelAt .buy 99 ≠ (m'.book 7).val.levelAt .buy 99 ∧
      (m.book 7).val.restingOrders ≠ (m'.book 7).val.restingOrders ∧
      (m.book 7).val.queueAt .buy 100 ≠ (m'.book 7).val.queueAt .buy 100 := by
  intro add m m'
  have hmixed : ∀ symbol, m.mixed symbol = m'.mixed symbol := by
    intro symbol
    by_cases hsymbol : symbol = 7
    · subst hsymbol
      decide +kernel
    · rw [mixed, mixed, find_build symbol [add 1 100 5, add 2 99 7],
        find_build symbol [add 3 100 5, add 4 98 8]]
      simp [carrying, add, Body.op, Ne.symm hsymbol]
  refine ⟨hmixed, bookFingerprint_eq_of_mixed hmixed, ?_, ?_, ?_⟩
  · decide +kernel
  · decide +kernel
  · decide +kernel

end BookManager

end Mdfh
