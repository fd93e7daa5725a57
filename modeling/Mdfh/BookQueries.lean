import Mdfh.BookRefinement

/-!
# Queries on a book

The depth queries, the wire snapshot and the self-check. The self-check recomputes every
level total in the type of the total, so it never sees a total that has wrapped.

## Main definitions

* `OrderBook.topBids`, `topAsks`, `snapshot` — the depth queries.
* `OrderBook.checkInvariants` — the self-check.
* `OrderBook.Uncrossed` — a side is empty, or the best prices are apart.
* `OrderBook.Reports`, `restingSum` — what the queries say of a price, and what rests there.

## Main results

* `run_checkInvariants` — the self-check fails exactly on crossed books.
* `run_reports_exact` — a reported quantity is exact unless the sum at its price wraps.
-/

namespace Mdfh

open Std Library Library.OrdMap

namespace OrderBook

/-! ## Depth -/

/-- The loop over the levels of a side, best first, until `depth` of them are out. -/
def topLevelsLoop (depth : Nat) : List (Price × PriceLevel) → List LevelView → List LevelView
  | [], out => out
  | (_, lvl) :: rest, out =>
    if out.length ≥ depth then out else topLevelsLoop depth rest (out ++ [PriceLevel.view lvl])

def topLevels {cmp : Price → Price → Ordering} [TransCmp cmp] (m : LevelMap cmp) (depth : Nat) :
    List LevelView :=
  topLevelsLoop depth m.toList []

/-- `bids(depth)`. -/
def topBids (b : OrderBook) (depth : Nat) : List LevelView := topLevels b.bids depth

/-- `asks(depth)`. -/
def topAsks (b : OrderBook) (depth : Nat) : List LevelView := topLevels b.asks depth

theorem topLevelsLoop_eq (depth : Nat) (es : List (Price × PriceLevel)) (out : List LevelView) :
    topLevelsLoop depth es out =
      out ++ (es.take (depth - out.length)).map fun e => PriceLevel.view e.2 := by
  induction es generalizing out with
  | nil => simp [topLevelsLoop]
  | cons e es ih =>
    rw [topLevelsLoop]
    split_ifs with hfull
    · simp [Nat.sub_eq_zero_of_le hfull]
    · have hroom : depth - out.length = depth - (out ++ [PriceLevel.view e.2]).length + 1 := by
        simp
        omega
      rw [ih, hroom, List.take_succ_cons]
      simp

section
variable {cmp : Price → Price → Ordering} [TransCmp cmp] {m : LevelMap cmp}

theorem topLevels_eq (m : LevelMap cmp) (depth : Nat) :
    topLevels m depth = (m.toList.take depth).map fun e => PriceLevel.view e.2 := by
  rw [topLevels, topLevelsLoop_eq]
  rfl

theorem length_topLevels_le (m : LevelMap cmp) (depth : Nat) :
    (topLevels m depth).length ≤ depth := by
  rw [topLevels_eq]
  simp

end

/-- `s.bids[i] = {b[i].price, b[i].quantity}` for every view, in a zeroed array. -/
def snapshotLevels (views : List LevelView) (h : views.length ≤ kMaxSnapshotLevels) :
    SnapshotLevels :=
  ⟨views.map (fun v => ⟨v.price, v.quantity⟩) ++
      List.replicate (kMaxSnapshotLevels - views.length) ({} : SnapshotLevel), by
    rw [List.length_append, List.length_map, List.length_replicate]
    omega⟩

def snapshot (b : OrderBook) : BookSnapshot :=
  let bids := b.topBids kMaxSnapshotLevels
  let asks := b.topAsks kMaxSnapshotLevels
  { symbol := b.symbol
    numBidLevels := UInt8.ofNat bids.length
    numAskLevels := UInt8.ofNat asks.length
    bids := snapshotLevels bids (length_topLevels_le _ _)
    asks := snapshotLevels asks (length_topLevels_le _ _) }

/-! ## The self-check -/

/-- The loop over the orders of a level: their sum modulo 2^32, or `none` at an empty order. -/
def sumOrders : List RestingOrder → Quantity → Option Quantity
  | [], sum => some sum
  | o :: os, sum => if o.quantity = 0 then none else sumOrders os (sum + o.quantity)

/-- The checks on one level. A list node that is not there is undefined behaviour. -/
def levelOk (pool : NodePool) (price : Price) (lvl : PriceLevel) : Option Bool := do
  let orders ← lvl.orders.mapM pool.deref
  return orders ≠ [] ∧ lvl.price = price ∧ sumOrders orders 0 = some lvl.totalQuantity

def levelsOk {cmp : Price → Price → Ordering} [TransCmp cmp] (pool : NodePool)
    (m : LevelMap cmp) : Option Bool :=
  m.toList.allM fun e => levelOk pool e.1 e.2

/-- The best bid is not below the best ask. -/
def crossing (b : OrderBook) : Bool :=
  match first? b.bids, first? b.asks with
  | some bid, some ask => bid.2.price ≥ ask.2.price
  | _, _ => false

/-- The orders in the queues of both sides. -/
def counted (b : OrderBook) : Nat :=
  (b.bids.toList.map (·.2.orders.length)).sum + (b.asks.toList.map (·.2.orders.length)).sum

def checkInvariants (b : OrderBook) : Option Bool := do
  if !(← levelsOk b.pool b.bids) then return false
  if !(← levelsOk b.pool b.asks) then return false
  if b.crossing then return false
  return b.counted = b.orders.size

/-- The nodes of a queue, none of them empty, as the list they form. -/
theorem exists_orders {pool : NodePool} {its : List NodeAddr}
    (h : ∀ it ∈ its, ∃ o, pool.deref it = some o ∧ o.quantity ≠ 0) :
    ∃ os, its.mapM pool.deref = some os ∧ os.length = its.length ∧
      (∀ o ∈ os, o.quantity ≠ 0) ∧ os.map (·.quantity.toNat) =
        its.map fun it => ((pool.deref it).map (·.quantity.toNat)).getD 0 := by
  induction its with
  | nil => exact ⟨[], by simp⟩
  | cons it its ih =>
    obtain ⟨⟨o, ho, hpos⟩, hrest⟩ := List.forall_mem_cons.mp h
    obtain ⟨os, hos, hlen, hall, hmap⟩ := ih hrest
    refine ⟨o :: os, ?_, by simp [hlen], List.forall_mem_cons.mpr ⟨hpos, hall⟩, ?_⟩
    · simp [List.mapM_cons, ho, hos]
    · simp [ho, hmap]

theorem sumOrders_eq {os : List RestingOrder} (h : ∀ o ∈ os, o.quantity ≠ 0) (sum : Quantity) :
    sumOrders os sum = some (sum + UInt32.ofNat (os.map (·.quantity.toNat)).sum) := by
  induction os generalizing sum with
  | nil => simp [sumOrders]
  | cons o os ih =>
    obtain ⟨hpos, hrest⟩ := List.forall_mem_cons.mp h
    rw [sumOrders, if_neg hpos, ih hrest, List.map_cons, List.sum_cons, UInt32.ofNat_add,
      UInt32.ofNat_toNat, UInt32.add_assoc]

namespace LocatorAgreement

variable {b : OrderBook}

/-- A level of an agreeing book passes the check: the total is the sum in the same type. -/
theorem levelOk (h : b.LocatorAgreement) {side : Side} {price : Price} {lvl : PriceLevel}
    (hlvl : b.levelAt side price = some lvl) : levelOk b.pool price lvl = some true := by
  obtain ⟨hne, hprice, htotal⟩ := h.levels side price lvl hlvl
  have hnodes : ∀ it ∈ lvl.orders, ∃ o, b.pool.deref it = some o ∧ o.quantity ≠ 0 := by
    intro it hit
    obtain ⟨o, loc, ho, -, -, -, -, hpos⟩ := h.queued side price lvl hlvl it hit
    exact ⟨o, ho, fun hzero => by simp [hzero] at hpos⟩
  obtain ⟨os, hos, hlen, hpos, hquantities⟩ := exists_orders hnodes
  have hne' : os ≠ [] := by
    rw [← List.length_pos_iff, hlen]
    exact List.length_pos_iff.mpr hne
  have hsum : UInt32.ofNat (os.map (·.quantity.toNat)).sum = lvl.totalQuantity := by
    apply UInt32.toNat_inj.mp
    rw [UInt32.toNat_ofNat', htotal, hquantities, quantities]
  simp [OrderBook.levelOk, hos, hne', hprice, sumOrders_eq hpos, hsum]

/-- The ids in the queues are those of the locators. -/
theorem queuedIds_perm (h : b.LocatorAgreement) : b.queuedIds.Perm (b.orders.keys.map some) := by
  have hkeys : (b.orders.keys.map some).Nodup :=
    b.orders.nodup_keys.map (Option.some_injective OrderId)
  refine (List.perm_ext_iff_of_nodup h.nodup hkeys).mpr ?_
  intro i
  have hkey (id : OrderId) : id ∈ b.orders.keys ↔ ∃ loc, b.orders[id]? = some loc := mem_keys_iff
  simp only [queuedIds, levelIds, List.mem_flatMap, List.mem_append, List.mem_map, hkey]
  constructor
  · rintro ⟨e, he, it, hit, rfl⟩
    obtain ⟨side, hlvl⟩ : ∃ side, b.levelAt side e.1 = some e.2 := by
      rcases he with he | he
      · exact ⟨_, levelAt_of_mem_bids he⟩
      · exact ⟨_, levelAt_of_mem_asks he⟩
    obtain ⟨o, loc, ho, hloc, -⟩ := h.queued side e.1 e.2 hlvl it hit
    exact ⟨o.id, ⟨loc, hloc⟩, by rw [ho]; rfl⟩
  · rintro ⟨id, ⟨loc, hloc⟩, rfl⟩
    obtain ⟨lvl, o, hlvl, hit, ho, rfl⟩ := h.located id loc hloc
    refine ⟨(loc.price, lvl), ?_, loc.it, hit, by rw [ho]; rfl⟩
    unfold levelAt at hlvl
    split_ifs at hlvl with hside
    · exact .inl (ExtTreeMap.mem_toList_iff_getElem?_eq_some.mpr hlvl)
    · exact .inr (ExtTreeMap.mem_toList_iff_getElem?_eq_some.mpr hlvl)

theorem counted_eq (h : b.LocatorAgreement) : b.counted = b.orders.size := by
  have hlen : b.queuedIds.length = b.counted := by
    simp [queuedIds, counted, levelIds, List.length_flatMap]
  rw [← hlen, h.queuedIds_perm.length_eq, List.length_map, ExtTreeMap.length_keys]

end LocatorAgreement

theorem allM_of_forall {α : Type} {f : α → Option Bool} {as : List α}
    (h : ∀ a ∈ as, f a = some true) : as.allM f = some true := by
  induction as with
  | nil => rfl
  | cons a as ih =>
    obtain ⟨ha, has⟩ := List.forall_mem_cons.mp h
    simp [List.allM, ha, ih has]

/-! ## Crossed books -/

/-- An order rests at a price of the side of the book that `side` selects. -/
def RestsAt (b : OrderBook) (side : Side) (price : Price) : Prop :=
  ∃ (id : OrderId) (loc : OrderLocation), b.orders[id]? = some loc ∧
    (loc.side = .buy ↔ side = .buy) ∧ loc.price = price

def HighestBid (b : OrderBook) (p : Price) : Prop :=
  b.RestsAt .buy p ∧ ∀ p', b.RestsAt .buy p' → p' ≤ p

def LowestAsk (b : OrderBook) (p : Price) : Prop :=
  b.RestsAt .sell p ∧ ∀ p', b.RestsAt .sell p' → p ≤ p'

/-- A side is empty, or the highest price at which a `Buy` order rests is below the lowest
price at which any other order rests. -/
def Uncrossed (b : OrderBook) : Prop :=
  (∀ p, ¬b.RestsAt .buy p) ∨ (∀ p, ¬b.RestsAt .sell p) ∨
    ∃ bid ask, b.HighestBid bid ∧ b.LowestAsk ask ∧ bid < ask

theorem levelAt_congr (b : OrderBook) {side side' : Side} (h : side = .buy ↔ side' = .buy)
    (price : Price) : b.levelAt side price = b.levelAt side' price := by
  simp only [levelAt, h]

namespace LocatorAgreement

variable {b : OrderBook}

theorem restsAt_iff (h : b.LocatorAgreement) {side : Side} {price : Price} :
    b.RestsAt side price ↔ ∃ lvl, b.levelAt side price = some lvl := by
  constructor
  · rintro ⟨id, loc, hloc, hside, rfl⟩
    obtain ⟨lvl, o, hlvl, -⟩ := h.located id loc hloc
    exact ⟨lvl, (b.levelAt_congr hside _).symm.trans hlvl⟩
  · rintro ⟨lvl, hlvl⟩
    obtain ⟨it, hit⟩ := List.exists_mem_of_ne_nil _ (h.levels side price lvl hlvl).1
    obtain ⟨o, loc, -, hloc, hside, hprice, -⟩ := h.queued side price lvl hlvl it hit
    exact ⟨o.id, loc, hloc, hside, hprice⟩

theorem restsAt_buy_iff (h : b.LocatorAgreement) {price : Price} :
    b.RestsAt .buy price ↔ ∃ lvl, b.bids[price]? = some lvl := by
  rw [h.restsAt_iff, levelAt, if_pos rfl]

theorem restsAt_sell_iff (h : b.LocatorAgreement) {price : Price} :
    b.RestsAt .sell price ↔ ∃ lvl, b.asks[price]? = some lvl := by
  rw [h.restsAt_iff, levelAt, if_neg (by decide)]

theorem not_restsAt_buy (h : b.LocatorAgreement) (hbid : first? b.bids = none) (p : Price) :
    ¬b.RestsAt .buy p := by
  intro hp
  obtain ⟨lvl, hlvl⟩ := h.restsAt_buy_iff.mp hp
  exact nomatch (first?_eq_none p hbid).symm.trans hlvl

theorem not_restsAt_sell (h : b.LocatorAgreement) (hask : first? b.asks = none) (p : Price) :
    ¬b.RestsAt .sell p := by
  intro hp
  obtain ⟨lvl, hlvl⟩ := h.restsAt_sell_iff.mp hp
  exact nomatch (first?_eq_none p hask).symm.trans hlvl

/-- The first bid level is at the highest price of a resting `Buy` order. -/
theorem highestBid (h : b.LocatorAgreement) {e : Price × PriceLevel}
    (he : first? b.bids = some e) : b.HighestBid e.2.price := by
  obtain ⟨hmem, hbest⟩ := first?_eq_some he
  have hprice : e.2.price = e.1 := (h.levels .buy e.1 e.2 (by rw [levelAt, if_pos rfl, hmem])).2.1
  rw [hprice]
  refine ⟨h.restsAt_buy_iff.mpr ⟨e.2, hmem⟩, ?_⟩
  intro p hp
  obtain ⟨lvl, hlvl⟩ := h.restsAt_buy_iff.mp hp
  rcases hbest p lvl hlvl with rfl | hlt
  · exact Int64.le_refl _
  · exact Int64.le_of_lt (Std.compare_eq_lt.mp hlt)

/-- The first ask level is at the lowest price of any other resting order. -/
theorem lowestAsk (h : b.LocatorAgreement) {e : Price × PriceLevel}
    (he : first? b.asks = some e) : b.LowestAsk e.2.price := by
  obtain ⟨hmem, hbest⟩ := first?_eq_some he
  have hprice : e.2.price = e.1 :=
    (h.levels .sell e.1 e.2 (by rw [levelAt, if_neg (by decide), hmem])).2.1
  rw [hprice]
  refine ⟨h.restsAt_sell_iff.mpr ⟨e.2, hmem⟩, ?_⟩
  intro p hp
  obtain ⟨lvl, hlvl⟩ := h.restsAt_sell_iff.mp hp
  rcases hbest p lvl hlvl with rfl | hlt
  · exact Int64.le_refl _
  · exact Int64.le_of_lt (Std.compare_eq_lt.mp hlt)

theorem crossing_iff (h : b.LocatorAgreement) : b.crossing = false ↔ b.Uncrossed := by
  cases hbid : first? b.bids with
  | none =>
    have hempty (p : Price) := h.not_restsAt_buy hbid p
    simp [crossing, hbid, Uncrossed, hempty]
  | some bid =>
    cases hask : first? b.asks with
    | none =>
      have hempty (p : Price) := h.not_restsAt_sell hask p
      simp [crossing, hbid, hask, Uncrossed, hempty]
    | some ask =>
      have hhighest := h.highestBid hbid
      have hlowest := h.lowestAsk hask
      rw [crossing, hbid, hask]
      simp only [ge_iff_le, decide_eq_false_iff_not, Int64.not_le]
      constructor
      · intro hlt
        exact .inr (.inr ⟨_, _, hhighest, hlowest, hlt⟩)
      · rintro (hnone | hnone | ⟨p, q, hp, hq, hlt⟩)
        · exact absurd hhighest.1 (hnone _)
        · exact absurd hlowest.1 (hnone _)
        · exact Int64.lt_of_le_of_lt (hp.2 _ hhighest.1)
            (Int64.lt_of_lt_of_le hlt (hq.2 _ hlowest.1))

/-- On an agreeing book the self-check never fails but on a crossed one. -/
theorem checkInvariants_eq (h : b.LocatorAgreement) : b.checkInvariants = some (!b.crossing) := by
  have hbids : levelsOk b.pool b.bids = some true :=
    allM_of_forall fun e he => h.levelOk (levelAt_of_mem_bids he)
  have hasks : levelsOk b.pool b.asks = some true :=
    allM_of_forall fun e he => h.levelOk (levelAt_of_mem_asks he)
  cases hcross : b.crossing <;> simp [checkInvariants, hbids, hasks, hcross, h.counted_eq]

end LocatorAgreement

/-- In every state that calls with arbitrary arguments reach from an empty book, the
self-check returns `true` if and only if the book is not crossed. -/
theorem run_checkInvariants (symbol : SymbolId) (ops : List Op) :
    ∃ b rets ok, OrderBook.run { symbol } ops = some (b, rets) ∧ b.checkInvariants = some ok ∧
      (ok = true ↔ b.Uncrossed) := by
  obtain ⟨b, hrun, hR⟩ := (Refines.empty symbol).run ops
  have hagree := hR.locatorAgreement
  refine ⟨b, _, !b.crossing, hrun, hagree.checkInvariants_eq, ?_⟩
  rw [Bool.not_eq_true', hagree.crossing_iff]

/-! ## Reported quantities -/

/-- One of the queries reports a quantity for a price of a side. -/
inductive Reports (b : OrderBook) : Side → Price → Quantity → Prop
  | bestBid {v : LevelView} : b.bestBid = some v → Reports b .buy v.price v.quantity
  | bestAsk {v : LevelView} : b.bestAsk = some v → Reports b .sell v.price v.quantity
  | bids {depth : Nat} {v : LevelView} : v ∈ b.topBids depth → Reports b .buy v.price v.quantity
  | asks {depth : Nat} {v : LevelView} : v ∈ b.topAsks depth → Reports b .sell v.price v.quantity
  | snapshotBid {i : Nat} {l : SnapshotLevel} : i < b.snapshot.numBidLevels.toNat →
      b.snapshot.bids.val[i]? = some l → Reports b .buy l.price l.quantity
  | snapshotAsk {i : Nat} {l : SnapshotLevel} : i < b.snapshot.numAskLevels.toNat →
      b.snapshot.asks.val[i]? = some l → Reports b .sell l.price l.quantity

/-- The exact sum of the quantities resting at a price of a side. -/
def restingSum (b : OrderBook) (side : Side) (price : Price) : Nat :=
  ((b.levelAt side price).map fun lvl => (b.quantities lvl).sum).getD 0

theorem mem_topLevels {cmp : Price → Price → Ordering} [TransCmp cmp] {m : LevelMap cmp}
    {depth : Nat} {v : LevelView} (hv : v ∈ topLevels m depth) :
    ∃ e ∈ m.toList, PriceLevel.view e.2 = v := by
  rw [topLevels_eq] at hv
  obtain ⟨e, he, rfl⟩ := List.mem_map.mp hv
  exact ⟨e, List.mem_of_mem_take he, rfl⟩

/-- The levels that a snapshot declares are the views it was built from. -/
theorem mem_of_snapshotLevels {views : List LevelView} (h : views.length ≤ kMaxSnapshotLevels)
    {i : Nat} {l : SnapshotLevel} (hi : i < (UInt8.ofNat views.length).toNat)
    (hl : (snapshotLevels views h).val[i]? = some l) :
    ∃ v ∈ views, l = ⟨v.price, v.quantity⟩ := by
  have hlt : i < views.length := by
    rw [UInt8.toNat_ofNat'] at hi
    exact hi.trans_le (Nat.mod_le _ _)
  rw [snapshotLevels, List.getElem?_append_left (by simpa using hlt), List.getElem?_map] at hl
  obtain ⟨v, hv, rfl⟩ := Option.map_eq_some_iff.mp hl
  exact ⟨v, List.mem_of_getElem? hv, rfl⟩

namespace LocatorAgreement

variable {b : OrderBook}

/-- What a query reports for a price is the total of the level there. -/
theorem exists_level (h : b.LocatorAgreement) {side : Side} {price : Price} {qty : Quantity}
    (hr : b.Reports side price qty) :
    ∃ lvl, b.levelAt side price = some lvl ∧ lvl.totalQuantity = qty := by
  have hbid {v : LevelView} (hv : ∃ e ∈ b.bids.toList, PriceLevel.view e.2 = v) :
      ∃ lvl, b.levelAt .buy v.price = some lvl ∧ lvl.totalQuantity = v.quantity := by
    obtain ⟨e, he, rfl⟩ := hv
    have hlvl := levelAt_of_mem_bids he
    exact ⟨e.2, ((h.levels _ _ _ hlvl).2.1 ▸ hlvl : b.levelAt .buy e.2.price = some e.2), rfl⟩
  have hask {v : LevelView} (hv : ∃ e ∈ b.asks.toList, PriceLevel.view e.2 = v) :
      ∃ lvl, b.levelAt .sell v.price = some lvl ∧ lvl.totalQuantity = v.quantity := by
    obtain ⟨e, he, rfl⟩ := hv
    have hlvl := levelAt_of_mem_asks he
    exact ⟨e.2, ((h.levels _ _ _ hlvl).2.1 ▸ hlvl : b.levelAt .sell e.2.price = some e.2), rfl⟩
  cases hr with
  | bestBid hv =>
    obtain ⟨e, he, rfl⟩ := Option.map_eq_some_iff.mp hv
    exact hbid ⟨e, List.mem_of_head? he, rfl⟩
  | bestAsk hv =>
    obtain ⟨e, he, rfl⟩ := Option.map_eq_some_iff.mp hv
    exact hask ⟨e, List.mem_of_head? he, rfl⟩
  | bids hv => exact hbid (mem_topLevels hv)
  | asks hv => exact hask (mem_topLevels hv)
  | snapshotBid hi hl =>
    obtain ⟨v, hv, rfl⟩ := mem_of_snapshotLevels (length_topLevels_le _ _) hi hl
    exact hbid (mem_topLevels hv)
  | snapshotAsk hi hl =>
    obtain ⟨v, hv, rfl⟩ := mem_of_snapshotLevels (length_topLevels_le _ _) hi hl
    exact hask (mem_topLevels hv)

/-- A reported quantity is the sum modulo 2^32. -/
theorem reports_eq (h : b.LocatorAgreement) {side : Side} {price : Price} {qty : Quantity}
    (hr : b.Reports side price qty) : qty.toNat = b.restingSum side price % 2 ^ 32 := by
  obtain ⟨lvl, hlvl, rfl⟩ := h.exists_level hr
  rw [(h.levels side price lvl hlvl).2.2, restingSum, hlvl]
  rfl

theorem reports_exact_iff (h : b.LocatorAgreement) {side : Side} {price : Price} {qty : Quantity}
    (hr : b.Reports side price qty) :
    qty.toNat = b.restingSum side price ↔ b.restingSum side price < 2 ^ 32 := by
  have := h.reports_eq hr
  omega

/-- Every level is reported by a deep enough query. -/
theorem exists_report (h : b.LocatorAgreement) {side : Side} {price : Price} {lvl : PriceLevel}
    (hlvl : b.levelAt side price = some lvl) :
    ∃ side', b.Reports side' price lvl.totalQuantity ∧
      b.restingSum side' price = b.restingSum side price := by
  have hprice := (h.levels side price lvl hlvl).2.1
  by_cases hside : side = .buy
  · subst hside
    have he : (price, lvl) ∈ b.bids.toList := by
      rw [levelAt, if_pos rfl] at hlvl
      exact ExtTreeMap.mem_toList_iff_getElem?_eq_some.mpr hlvl
    have hmem : PriceLevel.view lvl ∈ b.topBids b.bids.toList.length := by
      rw [topBids, topLevels_eq, List.take_length]
      exact List.mem_map_of_mem he
    exact ⟨.buy, hprice ▸ .bids hmem, rfl⟩
  · have hlvl' := hlvl
    have he : (price, lvl) ∈ b.asks.toList := by
      rw [levelAt, if_neg hside] at hlvl
      exact ExtTreeMap.mem_toList_iff_getElem?_eq_some.mpr hlvl
    have hmem : PriceLevel.view lvl ∈ b.topAsks b.asks.toList.length := by
      rw [topAsks, topLevels_eq, List.take_length]
      exact List.mem_map_of_mem he
    have hsell : Side.sell = .buy ↔ side = .buy := iff_of_false (by decide) hside
    refine ⟨.sell, hprice ▸ .asks hmem, ?_⟩
    rw [restingSum, restingSum, b.levelAt_congr hsell]

end LocatorAgreement

/-- In every reachable state that passes the self-check, a query reports the exact sum for a
price if and only if that sum is below 2^32, so all reports are exact if and only if all
sums are. -/
theorem run_reports_exact (symbol : SymbolId) (ops : List Op) :
    ∃ b rets, OrderBook.run { symbol } ops = some (b, rets) ∧ (b.checkInvariants = some true →
      (∀ side price qty, b.Reports side price qty →
        (qty.toNat = b.restingSum side price ↔ b.restingSum side price < 2 ^ 32)) ∧
      ((∀ side price qty, b.Reports side price qty → qty.toNat = b.restingSum side price) ↔
        ∀ side price, b.restingSum side price < 2 ^ 32)) := by
  obtain ⟨b, hrun, hR⟩ := (Refines.empty symbol).run ops
  have hagree := hR.locatorAgreement
  refine ⟨b, _, hrun, fun _ => ⟨fun side price qty hr => hagree.reports_exact_iff hr, ?_⟩⟩
  constructor
  · intro hexact side price
    cases hlvl : b.levelAt side price with
    | none => simp [restingSum, hlvl]
    | some lvl =>
      obtain ⟨side', hr, hsum⟩ := hagree.exists_report hlvl
      rw [← hsum]
      exact (hagree.reports_exact_iff hr).mp (hexact side' price _ hr)
  · intro hfits side price qty hr
    exact (hagree.reports_exact_iff hr).mpr (hfits side price)

/-- Two orders of 2^31 each at one price: the self-check passes, the reported total is zero. -/
theorem run_reports_wrapped :
    ∃ b rets, OrderBook.run {} [.add 1 .buy 100 (2 ^ 31), .add 2 .buy 100 (2 ^ 31)] =
        some (b, rets) ∧ b.checkInvariants = some true ∧ b.bestBid = some ⟨100, 0, 2⟩ ∧
      b.restingSum .buy 100 = 2 ^ 32 := by
  have hrun : ((OrderBook.run {} [.add 1 .buy 100 (2 ^ 31), .add 2 .buy 100 (2 ^ 31)]).any
      fun r => r.1.checkInvariants = some true ∧ r.1.bestBid = some ⟨100, 0, 2⟩ ∧
        r.1.restingSum .buy 100 = 2 ^ 32) = true := by decide +kernel
  obtain ⟨⟨b, rets⟩, hb, hall⟩ := (Option.any_eq_true _ _).mp hrun
  exact ⟨b, rets, hb, of_decide_eq_true hall⟩

end OrderBook

end Mdfh
