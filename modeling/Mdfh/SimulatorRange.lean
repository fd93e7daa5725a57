import Mdfh.SimulatorEdits

/-!
# Prices stay in range

An order is posted at most one band above all prices before it, so the prices of a run are
bounded by its configuration and the number of messages. If that bound is a 64-bit integer,
no price that is computed on the way leaves the range, intermediate results included.

## Main definitions

* `SimConfig.ceiling` — the highest price that so many messages can reach.
* `SimConfig.Ranged` — the configurations whose ceiling is in range.
* `SymbolState.Within` — all prices of a symbol are between one tick and a ceiling.

## Main results

* `choosePrice_within` — one choice, whatever the depths are.
* `MarketSimulator.emit_within` — every run has a result.
-/

namespace Mdfh

open Std Library Library.OrdMap

/-! ## The ceiling -/

namespace SimConfig

/-- How far above the prices before it an order can be posted. -/
def reach (cfg : SimConfig) : Int := cfg.bandLevels.toNat * cfg.tick.toInt

/-- The highest price that `n` messages can reach. -/
def ceiling (cfg : SimConfig) (n : Nat) : Int :=
  cfg.startPrice.toInt + (cfg.numSymbols.toNat - 1) * cfg.symbolPriceStep.toInt + n * cfg.reach

structure Ranged (cfg : SimConfig) : Prop where
  admitted : cfg.Admitted
  bands : 1 ≤ cfg.bandLevels
  tick_pos : 0 < cfg.tick
  tick_le : cfg.tick ≤ cfg.startPrice
  step_nonneg : 0 ≤ cfg.symbolPriceStep
  ceiling : cfg.ceiling cfg.numMessages.toNat < 2 ^ 63

variable {cfg : SimConfig}

theorem Ranged.tick (h : cfg.Ranged) : 0 < cfg.tick.toInt := Int64.lt_iff_toInt_lt.mp h.tick_pos

theorem Ranged.start (h : cfg.Ranged) : cfg.tick.toInt ≤ cfg.startPrice.toInt :=
  Int64.le_iff_toInt_le.mp h.tick_le

theorem Ranged.step (h : cfg.Ranged) : 0 ≤ cfg.symbolPriceStep.toInt :=
  Int64.le_iff_toInt_le.mp h.step_nonneg

/-- The depth of an order below or above its anchor. -/
theorem Ranged.offset (h : cfg.Ranged) {off : Nat} (hoff : off ≤ (cfg.bandLevels - 1).toNat) :
    0 ≤ off * cfg.tick.toInt ∧ off * cfg.tick.toInt + cfg.tick.toInt ≤ cfg.reach := by
  have htick := h.tick
  have hlevels : off + 1 ≤ cfg.bandLevels.toNat := by
    have hbands := UInt32.le_iff_toNat_le.mp h.bands
    rw [UInt32.toNat_sub_of_le _ _ h.bands] at hoff
    simp at hbands hoff
    omega
  refine ⟨by positivity, ?_⟩
  calc (off : Int) * cfg.tick.toInt + cfg.tick.toInt = (off + 1 : Nat) * cfg.tick.toInt := by
        push_cast
        ring
    _ ≤ cfg.reach := Int.mul_le_mul_of_nonneg_right (Int.ofNat_le.mpr hlevels) htick.le

theorem ceiling_succ (cfg : SimConfig) (n : Nat) : cfg.ceiling (n + 1) = cfg.ceiling n + cfg.reach := by
  simp only [ceiling]
  push_cast
  ring

theorem Ranged.reach_nonneg (h : cfg.Ranged) : 0 ≤ cfg.reach := by
  have hoff := h.offset (Nat.zero_le (cfg.bandLevels - 1).toNat)
  have htick := h.tick
  omega

theorem Ranged.ceiling_mono (h : cfg.Ranged) {n k : Nat} (hnk : n ≤ k) :
    cfg.ceiling n ≤ cfg.ceiling k := by
  have hle := Int.mul_le_mul_of_nonneg_right (Int.ofNat_le.mpr hnk) h.reach_nonneg
  simp only [SimConfig.ceiling]
  omega

end SimConfig

/-! ## Prices within a ceiling -/

/-- At least one tick, and not above the ceiling. -/
def Priced (cfg : SimConfig) (hi : Int) (p : Price) : Prop :=
  cfg.tick.toInt ≤ p.toInt ∧ p.toInt ≤ hi

theorem Priced.mono {cfg : SimConfig} {hi hi' : Int} {p : Price} (h : Priced cfg hi p)
    (hle : hi ≤ hi') : Priced cfg hi' p := ⟨h.1, h.2.trans hle⟩

/-- The prices that a message shows. -/
def Body.prices : Body → List Price
  | .addOrder m => [m.price]
  | .modifyOrder m => [m.newPrice]
  | .trade m => [m.price]
  | .bookSnapshot m => (m.bids.val.take m.numBidLevels.toNat ++
      m.asks.val.take m.numAskLevels.toNat).map (·.price)
  | .cancelOrder _ | .heartbeat => []

def DepthMap.Within (cfg : SimConfig) (hi : Int) (m : DepthMap) : Prop :=
  ∀ (p : Price) (q : Quantity), m[p]? = some q → Priced cfg hi p

namespace DepthMap.Within

variable {cfg : SimConfig} {hi hi' : Int} {m : DepthMap} {p : Price}

theorem mono (h : m.Within cfg hi) (hle : hi ≤ hi') : m.Within cfg hi' :=
  fun p q hq => (h p q hq).mono hle

theorem add (h : m.Within cfg hi) (hp : Priced cfg hi p) (q : Quantity) :
    (m.add p q).Within cfg hi := by
  intro p' q' hq'
  rw [DepthMap.add, getElem?_insert] at hq'
  split_ifs at hq' with hsame
  · exact hsame ▸ hp
  · exact h p' q' hq'

theorem sub (h : m.Within cfg hi) (p : Price) (q : Quantity) : (m.sub p q).Within cfg hi := by
  intro p' q' hq'
  unfold DepthMap.sub at hq'
  cases hget : m[p]? with
  | none =>
    rw [hget] at hq'
    exact h p' q' hq'
  | some v =>
    simp only [hget] at hq'
    split_ifs at hq'
    · rw [getElem?_erase] at hq'
      split_ifs at hq'
      exact h p' q' hq'
    · rw [getElem?_insert] at hq'
      split_ifs at hq' with hsame
      · exact hsame ▸ h p _ hget
      · exact h p' q' hq'

theorem first? (h : m.Within cfg hi) {best : Price × Quantity} (hbest : first? m = some best) :
    Priced cfg hi best.1 := h best.1 best.2 (first?_eq_some hbest).1

theorem last? (h : m.Within cfg hi) {best : Price × Quantity} (hbest : last? m = some best) :
    Priced cfg hi best.1 := h best.1 best.2 (last?_eq_some hbest).1

end DepthMap.Within

namespace SymbolState

structure Within (cfg : SimConfig) (hi : Int) (s : SymbolState) : Prop where
  refMid : Priced cfg hi s.refMid
  bids : s.bidQty.Within cfg hi
  asks : s.askQty.Within cfg hi
  orders : ∀ (id : OrderId) (o : LiveOrder), s.orders[id]? = some o → Priced cfg hi o.price

namespace Within

variable {cfg : SimConfig} {hi hi' : Int} {s : SymbolState}

theorem mono (h : s.Within cfg hi) (hle : hi ≤ hi') : s.Within cfg hi' :=
  ⟨h.refMid.mono hle, h.bids.mono hle, h.asks.mono hle, fun id o ho => (h.orders id o ho).mono hle⟩

theorem addDepth (h : s.Within cfg hi) {p : Price} (hp : Priced cfg hi p) (side : Side)
    (q : Quantity) : (s.addDepth side p q).Within cfg hi := by
  unfold SymbolState.addDepth
  split_ifs
  · exact ⟨h.refMid, h.bids.add hp q, h.asks, h.orders⟩
  · exact ⟨h.refMid, h.bids, h.asks.add hp q, h.orders⟩

theorem removeDepth (h : s.Within cfg hi) (side : Side) (p : Price) (q : Quantity) :
    (s.removeDepth side p q).Within cfg hi := by
  unfold SymbolState.removeDepth
  split_ifs
  · exact ⟨h.refMid, h.bids.sub p q, h.asks, h.orders⟩
  · exact ⟨h.refMid, h.bids, h.asks.sub p q, h.orders⟩

/-- The table may get an order whose price is in range, and lose any. -/
theorem setOrders (h : s.Within cfg hi) {orders : ExtTreeMap OrderId LiveOrder compare}
    (horders : ∀ (id : OrderId) (o : LiveOrder), orders[id]? = some o →
      s.orders[id]? = some o ∨ Priced cfg hi o.price) (index : ExtTreeMap OrderId Nat compare)
    (liveIds : List OrderId) : Within cfg hi { s with orders, index, liveIds } :=
  ⟨h.refMid, h.bids, h.asks, fun id o ho => (horders id o ho).elim (h.orders id o) fun hp => hp⟩

theorem insert (h : s.Within cfg hi) (id : OrderId) {o : LiveOrder} (ho : Priced cfg hi o.price) :
    Within cfg hi { s with orders := s.orders.insert id o } := by
  refine h.setOrders (fun id' o' ho' => ?_) s.index s.liveIds
  rw [getElem?_insert] at ho'
  grind

theorem registerOrder (h : s.Within cfg hi) {p : Price} (hp : Priced cfg hi p) (id : OrderId)
    (side : Side) (q : Quantity) : (s.registerOrder id side p q).Within cfg hi := by
  refine addDepth (h.setOrders (fun id' o ho => ?_) _ _) hp side q
  rw [getElem?_insertIfNew] at ho
  grind

theorem unregisterOrder {excused : Fault → Prop} (h : s.Within cfg hi) (hs : s.Registered)
    {id : OrderId} {o : LiveOrder} (ho : s.orders[id]? = some o) :
    Ensures excused (s.unregisterOrder id) (Within cfg hi) := by
  obtain ⟨index, liveIds, heq, -⟩ := hs.unregisterOrder_eq ho
  refine Ensures.of_eq_ok heq ?_
  refine (h.removeDepth o.side o.price o.qty).setOrders (fun id' o' ho' => ?_) index liveIds
  rw [getElem?_erase] at ho'
  simp only [removeDepth_orders]
  grind

end Within

end SymbolState

/-! ## Choices -/

section
variable {rng : Rng} {cfg : SimConfig} {s : SymbolState} {hi : Int} {excused : Fault → Prop}

theorem checkedPrice_within {v : Int} (hlow : -2 ^ 63 ≤ v) (hhigh : v < 2 ^ 63) :
    Ensures excused (checkedPrice v) fun p => p.toInt = v := by
  rw [checkedPrice, if_pos ⟨hlow, hhigh⟩]
  exact Int64.toInt_ofInt_of_le hlow hhigh

theorem randomQty_total (hcfg : cfg.Admitted) (g : rng.State) :
    Ensures excused (randomQty rng cfg g) fun _ => True :=
  (uniform_ensures (UInt32.le_iff_toNat_le.mp hcfg.qty_le) g).bind fun _ _ => trivial

/-- The distance of an order from its anchor. -/
theorem mulPrice_within (hcfg : cfg.Ranged) (hroom : hi + cfg.reach < 2 ^ 63) (hhi : 0 ≤ hi)
    {off : Nat} (hoff : off ≤ (cfg.bandLevels - 1).toNat) :
    Ensures excused (mulPrice (Int64.ofNat off) cfg.tick) fun d =>
      0 ≤ d.toInt ∧ d.toInt + cfg.tick.toInt ≤ cfg.reach := by
  obtain ⟨hlow, hhigh⟩ := hcfg.offset hoff
  have htick := hcfg.tick
  have hlt := UInt32.toNat_lt (cfg.bandLevels - 1)
  have hvalue : (Int64.ofNat off).toInt = off := Int64.toInt_ofNat_of_lt (by omega)
  have hmul : Ensures excused (mulPrice (Int64.ofNat off) cfg.tick) fun d =>
      d.toInt = off * cfg.tick.toInt := by
    rw [mulPrice, hvalue]
    exact checkedPrice_within (by omega) (by omega)
  refine hmul.mono fun d hd => ?_
  omega

theorem bidCeil_within (hcfg : cfg.Ranged) (hroom : hi + cfg.reach < 2 ^ 63)
    (h : s.Within cfg hi) :
    Ensures excused (bidCeil cfg s) fun c => 0 ≤ c.toInt ∧ c.toInt ≤ hi := by
  have htick := hcfg.tick
  have hreach := hcfg.reach_nonneg
  have hsub {p : Price} (hp : Priced cfg hi p) : Ensures excused (subPrice p cfg.tick) fun c =>
      0 ≤ c.toInt ∧ c.toInt ≤ hi := by
    obtain ⟨hlow, hhigh⟩ := hp
    refine (checkedPrice_within (by omega) (by omega)).mono fun c hc => ?_
    omega
  unfold bidCeil
  cases hbest : first? s.askQty with
  | none => exact hsub h.refMid
  | some best => exact hsub (h.asks.first? hbest)

theorem addTick_within (hcfg : cfg.Ranged) (hroom : hi + cfg.reach < 2 ^ 63) {p : Price}
    (hp : Priced cfg hi p) : Ensures excused (addPrice p cfg.tick) fun c =>
      cfg.tick.toInt ≤ c.toInt ∧ c.toInt ≤ hi + cfg.tick.toInt := by
  have htick := hcfg.tick
  have hoff := hcfg.offset (Nat.zero_le (cfg.bandLevels - 1).toNat)
  obtain ⟨hlow, hhigh⟩ := hp
  refine (checkedPrice_within (by omega) (by omega)).mono fun c hc => ?_
  omega

theorem askFloor_within (hcfg : cfg.Ranged) (hroom : hi + cfg.reach < 2 ^ 63)
    (h : s.Within cfg hi) : Ensures excused (askFloor cfg s) fun f =>
      cfg.tick.toInt ≤ f.toInt ∧ f.toInt ≤ hi + cfg.tick.toInt := by
  unfold askFloor
  cases hbest : last? s.bidQty with
  | none => exact addTick_within hcfg hroom h.refMid
  | some best => exact addTick_within hcfg hroom (h.bids.last? hbest)

/-- Whatever the depths are, a price is chosen, and it is at most one band above the others. -/
theorem choosePrice_within (hcfg : cfg.Ranged) (hroom : hi + cfg.reach < 2 ^ 63)
    (h : s.Within cfg hi) (side : Side) (g : rng.State) :
    Ensures excused (choosePrice rng cfg s side g) fun r => Priced cfg (hi + cfg.reach) r.1 := by
  have htick := hcfg.tick
  have hreach := hcfg.reach_nonneg
  obtain ⟨hmid, hmid'⟩ := h.refMid
  by_cases hside : side = .buy
  · rw [choosePrice, if_pos hside]
    refine (bidCeil_within hcfg hroom h).bind fun ceil hceil => ?_
    have hanchor : Ensures excused ((last? s.bidQty).elim (pure ceil) fun best =>
        (min · ceil) <$> addPrice best.1 cfg.tick) fun a => 0 ≤ a.toInt ∧ a.toInt ≤ hi := by
      cases hbest : last? s.bidQty with
      | none => exact hceil
      | some best =>
        refine Ensures.map ((addTick_within hcfg hroom (h.bids.last? hbest)).mono fun p hp => ?_)
        simp only [Function.comp_apply, toInt_min]
        omega
    refine hanchor.bind fun anchor hanchor => ?_
    refine (uniform_ensures (Nat.zero_le _) g).bind ?_
    rintro ⟨off, g'⟩ hoff
    refine (mulPrice_within hcfg hroom (by omega) hoff.2).bind fun depth hdepth => ?_
    refine (checkedPrice_within (by omega) (by omega)).bind fun price hprice => ?_
    -- A price below one tick is raised to it.
    simp only [Ensures.pure, Priced, toInt_max]
    omega
  · rw [choosePrice, if_neg hside]
    refine (askFloor_within hcfg hroom h).bind fun floor hfloor => ?_
    have hanchor : Ensures excused ((first? s.askQty).elim (pure floor) fun best =>
        (max · floor) <$> subPrice best.1 cfg.tick) fun a =>
          cfg.tick.toInt ≤ a.toInt ∧ a.toInt ≤ hi + cfg.tick.toInt := by
      cases hbest : first? s.askQty with
      | none => exact hfloor
      | some best =>
        obtain ⟨hlow, hhigh⟩ := h.asks.first? hbest
        refine Ensures.map ((checkedPrice_within (by omega) (by omega)).mono fun p hp => ?_)
        simp only [Function.comp_apply, toInt_max]
        omega
    refine hanchor.bind fun anchor hanchor => ?_
    refine (uniform_ensures (Nat.zero_le _) g).bind ?_
    rintro ⟨off, g'⟩ hoff
    refine (mulPrice_within hcfg hroom (by omega) hoff.2).bind fun depth hdepth => ?_
    refine (checkedPrice_within (by omega) (by omega)).bind fun price hprice => ?_
    simp only [Ensures.pure, Priced]
    omega

end

/-! ## Messages -/

/-- The prices of a symbol and those that its message shows. -/
structure Draft.Within {rng : Rng} (cfg : SimConfig) (hi : Int) (d : Draft rng) : Prop where
  state : d.s.Within cfg hi
  shown : ∀ p ∈ d.out.dispatch.body.prices, Priced cfg hi p

/-- The levels that a snapshot counts are levels of the map. -/
theorem SnapshotLevels.mem_ofDepth {levels : List (Price × Quantity)} {n : Nat}
    (hn : n ≤ (levels.take kMaxSnapshotLevels).length) {lvl : SnapshotLevel}
    (h : lvl ∈ (SnapshotLevels.ofDepth levels).val.take n) : ∃ e ∈ levels, e.1 = lvl.price := by
  rw [SnapshotLevels.ofDepth, List.take_append_of_le_length (by simpa using hn)] at h
  obtain ⟨e, he, rfl⟩ := List.mem_map.mp (List.mem_of_mem_take h)
  exact ⟨e, List.mem_of_mem_take he, rfl⟩

section
variable {rng : Rng} {cfg : SimConfig} {hi : Int} {excused : Fault → Prop} {sym : SymbolId}
  {d : Draft rng}

theorem makeSnapshot_within {s : SymbolState} (h : s.Within cfg hi) :
    ∀ p ∈ (Body.bookSnapshot (makeSnapshot sym s)).prices, Priced cfg hi p := by
  have hcount (m : DepthMap) : (UInt8.ofNat (min m.size kMaxSnapshotLevels)).toNat =
      (m.toList.take kMaxSnapshotLevels).length := by
    have hsmall : min m.size kMaxSnapshotLevels < 2 ^ 8 :=
      (Nat.min_le_right _ _).trans_lt (by decide)
    rw [UInt8.toNat_ofNat_of_lt' hsmall, List.length_take, ExtTreeMap.length_toList, Nat.min_comm]
  intro p hp
  obtain ⟨lvl, hlvl, rfl⟩ := List.mem_map.mp hp
  rcases List.mem_append.mp hlvl with hlvl | hlvl
  · obtain ⟨e, he, heq⟩ := SnapshotLevels.mem_ofDepth (by
      simp [makeSnapshot, hcount]) hlvl
    exact heq ▸ h.bids e.1 e.2
      (ExtTreeMap.mem_toList_iff_getElem?_eq_some.mp (List.mem_reverse.mp he))
  · obtain ⟨e, he, heq⟩ := SnapshotLevels.mem_ofDepth (by
      simp [makeSnapshot, hcount]) hlvl
    exact heq ▸ h.asks e.1 e.2 (ExtTreeMap.mem_toList_iff_getElem?_eq_some.mp he)

theorem fillAdd_within (hcfg : cfg.Ranged) (hroom : hi + cfg.reach < 2 ^ 63)
    (h : d.s.Within cfg hi) :
    Ensures excused (fillAdd cfg sym d) (·.Within cfg (hi + cfg.reach)) := by
  have hup : hi ≤ hi + cfg.reach := Int.le_add_of_nonneg_right hcfg.reach_nonneg
  refine (uniform_ensures (Nat.zero_le 1) d.g).bind fun ⟨coin, g⟩ _ => ?_
  refine (choosePrice_within hcfg hroom h _ g).bind fun ⟨price, g⟩ hprice => ?_
  refine (randomQty_total hcfg.admitted g).bind fun ⟨qty, g⟩ _ => ?_
  exact ⟨(h.mono hup).registerOrder hprice _ _ _, List.forall_mem_singleton.mpr hprice⟩

theorem fillCancel_within (hs : d.s.Registered) (h : d.s.Within cfg hi) :
    Ensures excused (fillCancel sym d) fun r => ∀ d', r = some d' → d'.Within cfg hi := by
  unfold fillCancel
  split_ifs with hempty
  · exact Ensures.pure_none
  refine (hs.randomLive_ensures (by simpa using hempty) d.g).bind fun ⟨id, g⟩ ⟨o, ho⟩ => ?_
  refine (h.unregisterOrder hs ho).bind fun s hs' => ?_
  rintro d' ⟨⟩
  exact ⟨hs', List.forall_mem_nil _⟩

theorem fillModify_within (hcfg : cfg.Ranged) (hroom : hi + cfg.reach < 2 ^ 63)
    (hs : d.s.Registered) (h : d.s.Within cfg hi) :
    Ensures excused (fillModify cfg sym d) fun r =>
      ∀ d', r = some d' → d'.Within cfg (hi + cfg.reach) := by
  have hup : hi ≤ hi + cfg.reach := Int.le_add_of_nonneg_right hcfg.reach_nonneg
  unfold fillModify
  split_ifs with hempty
  · exact Ensures.pure_none
  refine (hs.randomLive_ensures (by simpa using hempty) d.g).bind fun ⟨id, g⟩ ⟨o, ho⟩ => ?_
  refine (access_ensures ho).bind fun o' heq => ?_
  obtain rfl : o' = o := heq
  have hremoved := h.removeDepth o'.side o'.price o'.qty
  refine (choosePrice_within hcfg hroom hremoved o'.side g).bind fun ⟨price, g⟩ hprice => ?_
  refine (randomQty_total hcfg.admitted g).bind fun ⟨qty, g⟩ _ => ?_
  rintro d' ⟨⟩
  refine ⟨?_, List.forall_mem_singleton.mpr hprice⟩
  exact ((hremoved.mono hup).insert id hprice).addDepth hprice _ _

theorem fillTrade_within (hs : d.s.Registered) (hstock : d.s.Stocked) (h : d.s.Within cfg hi) :
    Ensures excused (fillTrade sym d) fun r => ∀ d', r = some d' → d'.Within cfg hi := by
  unfold fillTrade
  split_ifs with hempty
  · exact Ensures.pure_none
  refine (hs.randomLive_ensures (by simpa using hempty) d.g).bind fun ⟨id, g⟩ ⟨o, ho⟩ => ?_
  refine (access_ensures ho).bind fun o' heq => ?_
  obtain rfl : o' = o := heq
  have hshown := h.orders id o' ho
  refine (uniform_ensures (Nat.succ_le_of_lt (hstock id o' ho)) g).bind fun ⟨fill, g⟩ _ => ?_
  by_cases hall : UInt32.ofNat fill ≥ o'.qty
  · simp only [hall, if_true]
    refine (h.unregisterOrder hs ho).bind fun s hs' => ?_
    rintro d' ⟨⟩
    exact ⟨hs', List.forall_mem_singleton.mpr hshown⟩
  · simp only [hall, if_false]
    rintro d' ⟨⟩
    exact ⟨(h.removeDepth _ _ _).insert id hshown, List.forall_mem_singleton.mpr hshown⟩

theorem fillMix_within (hcfg : cfg.Ranged) (hroom : hi + cfg.reach < 2 ^ 63)
    (hs : d.s.Registered) (hstock : d.s.Stocked) (h : d.s.Within cfg hi) (r : Int32) :
    Ensures excused (MarketSimulator.fillMix cfg r sym d) fun done =>
      ∀ d', done = some d' → d'.Within cfg (hi + cfg.reach) := by
  have hup : hi ≤ hi + cfg.reach := Int.le_add_of_nonneg_right hcfg.reach_nonneg
  have hmono {d' : Draft rng} (hd' : d'.Within cfg hi) : d'.Within cfg (hi + cfg.reach) :=
    ⟨hd'.state.mono hup, fun p hp => (hd'.shown p hp).mono hup⟩
  unfold MarketSimulator.fillMix
  split_ifs
  · refine Ensures.map ((fillAdd_within hcfg hroom h).mono fun d' hd' => ?_)
    rintro _ ⟨⟩
    exact hd'
  · exact (fillCancel_within hs h).mono fun r hr d' hd' => hmono (hr d' hd')
  · exact fillModify_within hcfg hroom hs h
  · exact (fillTrade_within hs hstock h).mono fun r hr d' hd' => hmono (hr d' hd')

theorem fill_within (hcfg : cfg.Ranged) (hroom : hi + cfg.reach < 2 ^ 63)
    (hs : d.s.Registered) (hstock : d.s.Stocked) (h : d.s.Within cfg hi) (idx : UInt64) :
    Ensures excused (MarketSimulator.fill cfg idx sym d) (·.Within cfg (hi + cfg.reach)) := by
  have hup : hi ≤ hi + cfg.reach := Int.le_add_of_nonneg_right hcfg.reach_nonneg
  unfold MarketSimulator.fill
  split_ifs
  · exact ⟨h.mono hup, List.forall_mem_nil _⟩
  · exact ⟨h.mono hup, makeSnapshot_within (h.mono hup)⟩
  refine (uniform_ensures (Nat.zero_le 99) d.g).bind fun ⟨r, g⟩ _ => ?_
  refine (fillMix_within (d := { d with g }) hcfg hroom hs hstock h (Int32.ofNat r)).bind ?_
  intro done hdone
  cases done with
  | some d' => exact hdone d' rfl
  | none => exact fillAdd_within (d := { d with g }) hcfg hroom h

end

/-! ## Runs -/

namespace MarketSimulator

variable {rng : Rng} {cfg : SimConfig} {sim : MarketSimulator rng}

/-- All symbols are below the ceiling of the messages produced. -/
structure InRange (cfg : SimConfig) (sim : MarketSimulator rng) : Prop where
  registry : sim.Registry cfg
  within : ∀ s ∈ sim.symbols, s.Within cfg (cfg.ceiling sim.produced.toNat)
  produced_le : sim.produced.toNat ≤ cfg.numMessages.toNat

theorem next_registry (hcfg : cfg.Admitted) (h : sim.Registry cfg) :
    Ensures Overflows sim.next fun r => r.1.Registry cfg := by
  refine (next_edits hcfg h).mono ?_
  rintro r (⟨rfl, -⟩ | ⟨i, s, posted, s', -, hadvances⟩)
  · exact h
  · exact hadvances.registry h

/-- The reference prices of all symbols are computed without a fault. -/
theorem new_inRange (rng : Rng) (hcfg : cfg.Ranged) :
    Ensures (fun _ => False) (new rng cfg) fun sim => sim.InRange cfg ∧ sim.produced = 0 := by
  have htick := hcfg.tick
  have hstart := hcfg.start
  have hceiling := (hcfg.ceiling_mono (Nat.zero_le cfg.numMessages.toNat)).trans_lt hcfg.ceiling
  have hsymbol : ∀ i ∈ List.range cfg.numSymbols.toNat, Ensures (fun _ => False) (do
        let refMid ← addPrice cfg.startPrice (← mulPrice (Int64.ofNat i) cfg.symbolPriceStep)
        return { refMid : SymbolState })
      fun s => s.Within cfg (cfg.ceiling 0) := by
    intro i hi
    have hlt := List.mem_range.mp hi
    have hbound := UInt32.toNat_lt cfg.numSymbols
    have hvalue : (Int64.ofNat i).toInt = i := Int64.toInt_ofNat_of_lt (by omega)
    have hnonneg : 0 ≤ (i : Int) * cfg.symbolPriceStep.toInt :=
      Int.mul_nonneg (Int.natCast_nonneg i) hcfg.step
    have hle : (i : Int) * cfg.symbolPriceStep.toInt ≤
        (cfg.numSymbols.toNat - 1) * cfg.symbolPriceStep.toInt :=
      Int.mul_le_mul_of_nonneg_right (by omega) hcfg.step
    have hzero : cfg.ceiling 0 = cfg.startPrice.toInt +
        (cfg.numSymbols.toNat - 1) * cfg.symbolPriceStep.toInt := by simp [SimConfig.ceiling]
    have hmul : Ensures (fun _ => False) (mulPrice (Int64.ofNat i) cfg.symbolPriceStep) fun p =>
        p.toInt = i * cfg.symbolPriceStep.toInt := by
      rw [mulPrice, hvalue]
      exact checkedPrice_within (by omega) (by omega)
    refine hmul.bind fun off hoff => ?_
    refine (checkedPrice_within (by omega) (by omega)).bind fun refMid hmid => ?_
    have hpriced : Priced cfg (cfg.ceiling 0) refMid := ⟨by omega, by omega⟩
    refine ⟨hpriced, ?_, ?_, ?_⟩
    all_goals
      intro k v hk
      simp at hk
  have htotal : Ensures (fun _ => False) (new rng cfg) fun sim =>
      (∀ s ∈ sim.symbols, s.Within cfg (cfg.ceiling 0)) ∧ sim.produced = 0 :=
    (Ensures.mapM hsymbol).bind fun symbols ⟨_, hall⟩ => ⟨hall, rfl⟩
  refine (htotal.and ((new_registry rng cfg).weaken fun _ _ => trivial)).mono ?_
  rintro sim ⟨⟨hwithin, hproduced⟩, hreg, -⟩
  have hzero : sim.produced.toNat = 0 := congrArg UInt64.toNat hproduced
  exact ⟨⟨hreg, hzero ▸ hwithin, hzero ▸ Nat.zero_le _⟩, hproduced⟩

/-- No fault, and one more message below the next ceiling unless all have been produced. -/
theorem next_inRange (hcfg : cfg.Ranged) (h : sim.InRange cfg) :
    Ensures (fun _ => False) sim.next fun r => r.1.InRange cfg ∧
      r.1.produced.toNat = min (sim.produced.toNat + 1) cfg.numMessages.toNat ∧
      ∀ m ∈ r.2, ∀ p ∈ m.dispatch.body.prices, Priced cfg (cfg.ceiling r.1.produced.toNat) p := by
  have hreg := h.registry
  obtain rfl := hreg.cfg_eq
  have hnext := (next_registry hcfg.admitted hreg).weaken fun _ _ => trivial
  have hproduced_le := h.produced_le
  suffices htotal : Ensures (fun _ => False) sim.next fun r =>
      (∀ s ∈ r.1.symbols, s.Within sim.cfg (sim.cfg.ceiling r.1.produced.toNat)) ∧
      r.1.produced.toNat = min (sim.produced.toNat + 1) sim.cfg.numMessages.toNat ∧
      ∀ m ∈ r.2, ∀ p ∈ m.dispatch.body.prices,
        Priced sim.cfg (sim.cfg.ceiling r.1.produced.toNat) p by
    refine (htotal.and hnext).mono ?_
    rintro r ⟨⟨hwithin, hproduced, hshown⟩, hreg'⟩
    exact ⟨⟨hreg', hwithin, hproduced.trans_le (Nat.min_le_right _ _)⟩, hproduced, hshown⟩
  unfold next
  split_ifs with hdone
  · have hall := UInt64.le_iff_toNat_le.mp hdone
    refine ⟨h.within, ?_, nofun⟩
    simp only
    omega
  have hmore : sim.produced.toNat < sim.cfg.numMessages.toNat :=
    UInt64.lt_iff_toNat_lt.mp (UInt64.not_le.mp hdone)
  have hsucc : (sim.produced + 1).toNat = sim.produced.toNat + 1 := by
    have hbound := UInt64.toNat_lt sim.cfg.numMessages
    rw [UInt64.toNat_add, UInt64.toNat_one]
    omega
  have hroom : sim.cfg.ceiling sim.produced.toNat + sim.cfg.reach < 2 ^ 63 := by
    rw [← SimConfig.ceiling_succ]
    exact (hcfg.ceiling_mono hmore).trans_lt hcfg.ceiling
  refine (uniform_ensures (Nat.zero_le _) sim.g).bind ?_
  rintro ⟨i, g⟩ hi
  have hlt : i < sim.symbols.length := hreg.length ▸ lt_numSymbols hcfg.admitted hi.2
  have hmem := List.getElem_mem hlt
  refine (access_ensures (List.getElem?_eq_getElem hlt)).bind fun s hs => ?_
  rw [← hs] at hmem
  refine (fill_within hcfg hroom (hreg.registered s hmem) (hreg.stocked s hmem)
    (h.within s hmem) _).bind fun d hd => ?_
  rw [← SimConfig.ceiling_succ] at hd
  refine ⟨fun t ht => ?_, ?_, ?_⟩
  · simp only [hsucc]
    rcases List.mem_or_eq_of_mem_set ht with ht | rfl
    · refine (h.within t ht).mono ?_
      rw [SimConfig.ceiling_succ]
      exact Int.le_add_of_nonneg_right hcfg.reach_nonneg
    · exact hd.state
  · simp only [hsucc]
    omega
  · rintro m hm p hp
    obtain rfl := Option.some.inj hm
    simp only [hsucc]
    exact hd.shown p hp

theorem emit_inRange (rng : Rng) (hcfg : cfg.Ranged) (n : Nat) :
    Ensures (fun _ => False) (emit rng cfg n) fun r => r.1.InRange cfg ∧
      r.1.produced.toNat = min n cfg.numMessages.toNat ∧
      ∀ m ∈ r.2, ∀ p ∈ m.dispatch.body.prices, Priced cfg (cfg.ceiling r.1.produced.toNat) p := by
  induction n with
  | zero =>
    refine (new_inRange rng hcfg).bind fun sim ⟨h, hproduced⟩ => ⟨h, ?_, nofun⟩
    rw [hproduced]
    exact (Nat.zero_min _).symm
  | succ n ih =>
    refine ih.bind fun ⟨sim, ms⟩ ⟨h, hproduced, hshown⟩ => ?_
    refine (next_inRange hcfg h).bind fun ⟨sim', out⟩ ⟨h', hproduced', hshown'⟩ => ?_
    refine ⟨h', ?_, ?_⟩
    · simp only at hproduced hproduced' ⊢
      omega
    · intro m hm p hp
      have hle : sim.produced.toNat ≤ sim'.produced.toNat := by
        simp only at hproduced hproduced'
        omega
      rcases List.mem_append.mp hm with hm | hm
      · exact (hshown m hm p hp).mono (hcfg.ceiling_mono hle)
      · exact hshown' m (Option.mem_toList.mp hm) p hp

/-- Whatever is drawn and whatever the weights, whose sums wrap: if the ceiling of the
configuration is in range, every run has a result, and its messages show prices between one
tick and the ceiling of their number. -/
theorem emit_within (rng : Rng) (hcfg : cfg.Ranged) (n : Nat) :
    ∃ sim ms, emit rng cfg n = .ok (sim, ms) ∧
      ∀ m ∈ ms, ∀ p ∈ m.dispatch.body.prices,
        cfg.tick.toInt ≤ p.toInt ∧ p.toInt ≤ cfg.ceiling (min n cfg.numMessages.toNat) := by
  obtain ⟨⟨sim, ms⟩, hemit, -, hproduced, hshown⟩ :=
    (emit_inRange rng hcfg n).exists_ok fun _ => False.elim
  exact ⟨sim, ms, hemit, hproduced ▸ hshown⟩

/-- The configuration with every default. -/
theorem defaultConfig_ranged : SimConfig.Ranged {} where
  admitted := ⟨by decide, by decide, by decide⟩
  bands := by decide
  tick_pos := by decide
  tick_le := by decide
  step_nonneg := by decide
  ceiling := by decide

theorem emit_within_default :
    ∃ sim ms, emit Loopback.congruential {} 1000000 = .ok (sim, ms) ∧
      ∀ m ∈ ms, ∀ p ∈ m.dispatch.body.prices,
        (100 : Int) ≤ p.toInt ∧ p.toInt ≤ 1001150000 := by
  obtain ⟨sim, ms, hemit, hshown⟩ := emit_within Loopback.congruential defaultConfig_ranged 1000000
  exact ⟨sim, ms, hemit, hshown⟩

end MarketSimulator

end Mdfh
