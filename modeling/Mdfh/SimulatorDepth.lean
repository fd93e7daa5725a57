import Mdfh.SimulatorEdits

/-!
# When the simulator's depth maps are exact

The depth of a price is kept incrementally in 32 bits, the sum of what the live orders
there have left is a natural number. The two agree in every state of a run exactly if every
order that is posted or put back fits: a wrapped sum is never noticed by the code, and the
entry is wrong from then on.

## Main definitions

* `exactDepth` — the exact sum over the table of live orders.
* `SymbolState.DepthExact` — the maps against these sums.
* `MarketSimulator.Roomy` — the next order fits.

## Main results

* `Edits.depths` — one message.
* `MarketSimulator.emit_exact_iff` — every run.
-/

namespace Mdfh

open Std Library Library.OrdMap

/-- `std::unordered_map<OrderId, LiveOrder>`. -/
abbrev OrderTable := ExtTreeMap OrderId LiveOrder compare

def LiveOrder.entry (id : OrderId) (o : LiveOrder) : Entry := ⟨id, o.side, o.price, o.qty⟩

/-- What the live orders of one side have left at a price. -/
def exactDepth (orders : OrderTable) (bids : Bool) (p : Price) : Nat :=
  depth bids (orders.toList.map fun e => e.2.entry e.1) p

/-! ## The exact sum under the edits of the table -/

section
variable {orders : OrderTable} {id : OrderId} {o : LiveOrder} {bids : Bool} {p : Price}

theorem depth_perm {R R' : Reference} (h : R.Perm R') : depth bids R p = depth bids R' p :=
  (h.map (weight bids p)).sum_eq

theorem exactDepth_insert : exactDepth (orders.insert id o) bids p =
    exactDepth (orders.erase id) bids p + weight bids p (o.entry id) := by
  rw [exactDepth, depth_perm ((toList_insert_perm_erase orders id o).map fun e => e.2.entry e.1)]
  simp [exactDepth, depth, Nat.add_comm]

theorem exactDepth_of_getElem? (ho : orders[id]? = some o) : exactDepth orders bids p =
    exactDepth (orders.erase id) bids p + weight bids p (o.entry id) := by
  rw [exactDepth, depth_perm ((toList_perm_erase orders id o ho).map fun e => e.2.entry e.1)]
  simp [exactDepth, depth, Nat.add_comm]

theorem exactDepth_insertIfNew (hnone : orders[id]? = none) :
    exactDepth (orders.insertIfNew id o) bids p =
      exactDepth (orders.erase id) bids p + weight bids p (o.entry id) := by
  have hinsert : orders.insertIfNew id o = orders.insert id o := by
    refine ExtTreeMap.ext_getElem? ?_
    intro a
    rw [getElem?_insertIfNew, getElem?_insert]
    grind
  rw [hinsert, exactDepth_insert]

theorem weight_self (e : Entry) : weight e.onBids e.price e = e.qty.toNat := if_pos ⟨rfl, rfl⟩

theorem qty_le_exactDepth (ho : orders[id]? = some o) :
    o.qty.toNat ≤ exactDepth orders (o.entry id).onBids o.price := by
  have hself : weight (o.entry id).onBids o.price (o.entry id) = o.qty.toNat := weight_self _
  rw [exactDepth_of_getElem? ho, hself]
  exact Nat.le_add_left _ _

end

/-! ## One message -/

namespace SymbolState

variable {s s' : SymbolState} {f : Bool → Price → Nat} {next next' : OrderId}
  {posted : Option Entry}

theorem Depths.added (h : s.Depths f) (e : Entry) (hq : 0 < e.qty.toNat)
    (hroom : f e.onBids e.price + e.qty.toNat < 2 ^ 32) :
    (s.addDepth e.side e.price e.qty).Depths fun bids p => f bids p + weight bids p e := by
  obtain ⟨bidQty, askQty, heq, hdepths⟩ := h.addDepth e hq hroom
  exact heq ▸ hdepths

theorem Depths.removed (h : s.Depths f) (e : Entry) (hq : 0 < e.qty.toNat)
    (hle : e.qty.toNat ≤ f e.onBids e.price) :
    (s.removeDepth e.side e.price e.qty).Depths fun bids p => f bids p - weight bids p e := by
  obtain ⟨bidQty, askQty, heq, hdepths⟩ := h.removeDepth e hq hle
  exact heq ▸ hdepths

theorem Depths.lt (h : s.Depths f) (bids : Bool) (p : Price) : f bids p < 2 ^ 32 := by
  cases bids with
  | true => exact (h.bids p).1
  | false => exact (h.asks p).1

/-- The depths depend on the maps, and on the sums as functions. -/
theorem Depths.congr {t : SymbolState} {f' : Bool → Price → Nat} (h : s.Depths f)
    (hbids : t.bidQty = s.bidQty) (hasks : t.askQty = s.askQty)
    (hsum : ∀ bids p, f' bids p = f bids p) : t.Depths f' := by
  obtain rfl : f' = f := funext fun bids => funext fun p => hsum bids p
  exact ⟨hbids ▸ h.bids, hasks ▸ h.asks⟩

namespace Edits

/-- The posted order on top of the others at its price. -/
theorem exactDepth_posted {e : Entry} (h : s.Edits next (some e) s' next')
    (hfresh : s.orders[next]? = none) :
    exactDepth s'.orders e.onBids e.price =
      exactDepth (s.orders.erase e.id) e.onBids e.price + e.qty.toNat := by
  cases h with
  | add _ hid =>
    have hnone : s.orders[e.id]? = none := hid ▸ hfresh
    rw [registerOrder_orders, exactDepth_insertIfNew hnone]
    exact congrArg _ (weight_self e)
  | modify _ ho =>
    rw [addDepth_orders, exactDepth_insert]
    exact congrArg _ (weight_self e)

/-- Depths that are exact stay exact if the posted order fits. -/
theorem depths (h : s.Edits next posted s' next') (hs : s.Registered) (hstock : s.Stocked)
    (hfresh : s.orders[next]? = none) (hd : s.Depths (exactDepth s.orders))
    (hroom : ∀ e, posted = some e →
      exactDepth (s.orders.erase e.id) e.onBids e.price + e.qty.toNat < 2 ^ 32) :
    s'.Depths (exactDepth s'.orders) := by
  -- Without a live order the sums are those of the table without it.
  have hwithout {id : OrderId} {o : LiveOrder} (ho : s.orders[id]? = some o) :
      (s.removeDepth o.side o.price o.qty).Depths (exactDepth (s.orders.erase id)) := by
    refine (hd.removed (o.entry id) (hstock id o ho) (qty_le_exactDepth ho)).congr rfl rfl ?_
    intro bids p
    rw [exactDepth_of_getElem? ho, Nat.add_sub_cancel]
  cases h with
  | keep => exact hd
  | add e hid hq =>
    have hnone : s.orders[e.id]? = none := hid ▸ hfresh
    have hbase : Depths { s with
        orders := s.orders.insertIfNew e.id e.live
        index := s.index.insertIfNew e.id s.liveIds.length
        liveIds := s.liveIds ++ [e.id] } (exactDepth (s.orders.erase e.id)) := by
      rw [erase_eq_self _ _ hnone]
      exact ⟨hd.bids, hd.asks⟩
    refine (hbase.added e hq (hroom e rfl)).congr rfl rfl ?_
    intro bids p
    rw [registerOrder_orders, exactDepth_insertIfNew hnone]
    rfl
  | remove ho hremoved =>
    obtain ⟨index, liveIds, heq, -⟩ := hs.unregisterOrder_eq ho
    obtain rfl := Except.ok.inj (heq.symm.trans hremoved)
    exact (hwithout ho).congr rfl rfl fun _ _ => rfl
  | @modify o e ho hside hq =>
    have hbase : Depths { s.removeDepth o.side o.price o.qty with
        orders := s.orders.insert e.id e.live } (exactDepth (s.orders.erase e.id)) :=
      (hwithout ho).congr rfl rfl fun _ _ => rfl
    refine (hbase.added e hq (hroom e rfl)).congr rfl rfl ?_
    intro bids p
    rw [addDepth_orders, exactDepth_insert]
    rfl
  | @fill id o q ho hq hlt =>
    have hle : q ≤ o.qty := UInt32.le_of_lt hlt
    have hfits := (UInt32.le_iff_toNat_le.mp hle).trans (qty_le_exactDepth ho)
    refine (hd.removed ((o.entry id).setQty q) hq hfits).congr rfl rfl ?_
    intro bids p
    have hparts : weight bids p ((o.entry id).setQty (o.qty - q)) +
        weight bids p ((o.entry id).setQty q) = weight bids p (o.entry id) :=
      weight_setQty_add hle
    have hrest : weight bids p (LiveOrder.entry id { o with qty := o.qty - q }) =
        weight bids p ((o.entry id).setQty (o.qty - q)) := rfl
    rw [exactDepth_insert, exactDepth_of_getElem? ho, hrest]
    omega

end Edits

/-! ## Exact maps -/

/-- The map of one side has an entry exactly where a live order of the side rests, and the
entry is what these orders have left. -/
structure SideExact (m : DepthMap) (bids : Bool) (orders : OrderTable) : Prop where
  prices : ∀ p, (∃ q, m[p]? = some q) ↔ ∃ (id : OrderId) (o : LiveOrder),
    orders[id]? = some o ∧ (o.side = .buy ↔ bids = true) ∧ o.price = p
  sums : ∀ p q, m[p]? = some q → q.toNat = exactDepth orders bids p

structure DepthExact (s : SymbolState) : Prop where
  bids : SideExact s.bidQty true s.orders
  asks : SideExact s.askQty false s.orders

theorem exactDepth_pos_iff {bids : Bool} (hstock : s.Stocked) (p : Price) :
    0 < exactDepth s.orders bids p ↔ ∃ (id : OrderId) (o : LiveOrder),
      s.orders[id]? = some o ∧ (o.side = .buy ↔ bids = true) ∧ o.price = p := by
  have hmem (e : Entry) : e ∈ s.orders.toList.map (fun e => e.2.entry e.1) ↔
      ∃ (id : OrderId) (o : LiveOrder), s.orders[id]? = some o ∧ o.entry id = e := by
    simp only [List.mem_map, Prod.exists, ExtTreeMap.mem_toList_iff_getElem?_eq_some]
  have hon (id : OrderId) (o : LiveOrder) :
      (o.entry id).onBids = bids ↔ (o.side = .buy ↔ bids = true) := by
    by_cases hside : o.side = .buy <;> cases bids <;>
      simp [Entry.onBids, LiveOrder.entry, hside]
  rw [exactDepth, depth_pos_iff]
  · constructor
    · rintro ⟨e, he, hside, hprice⟩
      obtain ⟨id, o, ho, rfl⟩ := (hmem e).mp he
      exact ⟨id, o, ho, (hon id o).mp hside, hprice⟩
    · rintro ⟨id, o, ho, hside, hprice⟩
      exact ⟨o.entry id, (hmem _).mpr ⟨id, o, ho, rfl⟩, (hon id o).mpr hside, hprice⟩
  · intro e he
    obtain ⟨id, o, ho, rfl⟩ := (hmem e).mp he
    exact hstock id o ho

theorem sideExact_iff {bids : Bool} (hstock : s.Stocked) (m : DepthMap) :
    SideExact m bids s.orders ↔ m.Shows (exactDepth s.orders bids) := by
  constructor
  · intro h p
    by_cases hzero : exactDepth s.orders bids p = 0
    · have hnone : ¬∃ q, m[p]? = some q := by
        rw [h.prices, ← exactDepth_pos_iff hstock]
        omega
      refine ⟨by omega, ?_⟩
      rw [if_pos hzero]
      exact Option.eq_none_iff_forall_ne_some.mpr fun q hq => hnone ⟨q, hq⟩
    · obtain ⟨q, hq⟩ := (h.prices p).mpr ((exactDepth_pos_iff hstock p).mp (Nat.pos_of_ne_zero hzero))
      have htotal := h.sums p q hq
      refine ⟨htotal ▸ UInt32.toNat_lt q, ?_⟩
      rw [if_neg hzero, ← htotal, UInt32.ofNat_toNat]
      exact hq
  · intro h
    refine ⟨fun p => ?_, fun p q hq => ?_⟩
    · rw [← exactDepth_pos_iff hstock]
      exact ⟨fun ⟨q, hq⟩ => h.pos_of_getElem? hq, h.exists_getElem?⟩
    · have hpos := h.pos_of_getElem? hq
      obtain ⟨hlt, hget⟩ := h p
      rw [if_neg hpos.ne', hq] at hget
      rw [Option.some.inj hget, UInt32.toNat_ofNat_of_lt' hlt]

theorem depthExact_iff (hstock : s.Stocked) : s.DepthExact ↔ s.Depths (exactDepth s.orders) := by
  constructor
  · exact fun h => ⟨(sideExact_iff hstock _).mp h.bids, (sideExact_iff hstock _).mp h.asks⟩
  · exact fun h => ⟨(sideExact_iff hstock _).mpr h.bids, (sideExact_iff hstock _).mpr h.asks⟩

end SymbolState

/-! ## Runs -/

namespace MarketSimulator

variable {rng : Rng} {cfg : SimConfig} {sim sim' : MarketSimulator rng}

def DepthsExact (sim : MarketSimulator rng) : Prop := ∀ s ∈ sim.symbols, s.DepthExact

/-- The order that the next call posts or puts back, if any, and the other live orders of
its side at its price have a 32-bit sum. -/
def Roomy (sim : MarketSimulator rng) : Prop :=
  ∀ s e, sim.upcoming = .ok (some (s, e)) →
    exactDepth (s.orders.erase e.id) e.onBids e.price + e.qty.toNat < 2 ^ 32

theorem Registry.depthsExact_iff (h : sim.Registry cfg) :
    sim.DepthsExact ↔ ∀ s ∈ sim.symbols, s.Depths (exactDepth s.orders) :=
  forall₂_congr fun s hs => SymbolState.depthExact_iff (h.stocked s hs)

/-- A call keeps exact depths exactly if it is roomy. -/
theorem next_exact_iff (hcfg : cfg.Admitted) (h : sim.Registry cfg) (hexact : sim.DepthsExact) :
    Ensures Overflows sim.next fun r => r.1.DepthsExact ↔ sim.Roomy := by
  refine (next_edits hcfg h).mono ?_
  rintro ⟨sim', out⟩ (⟨rfl, hnone⟩ | ⟨i, s, posted, s', hupcoming, hadvances⟩)
  · refine iff_of_true hexact fun s e he => ?_
    exact absurd (hnone.symm.trans he) nofun
  have hfresh := h.fresh hadvances.more hadvances.mem
  rw [h.depthsExact_iff] at hexact
  rw [(hadvances.registry h).depthsExact_iff]
  constructor
  · intro hexact' t e he
    obtain ⟨e', rfl, heq⟩ := Option.map_eq_some_iff.mp (Except.ok.inj (hupcoming.symm.trans he))
    obtain ⟨rfl, rfl⟩ := Prod.mk.inj heq
    have hbound := (hexact' s' hadvances.mem_new).lt e'.onBids e'.price
    rwa [hadvances.edits.exactDepth_posted hfresh] at hbound
  · intro hroomy t ht
    rcases hadvances.mem_or_eq ht with ht | rfl
    · exact hexact t ht
    · refine hadvances.edits.depths (h.registered s hadvances.mem) (h.stocked s hadvances.mem)
        hfresh (hexact s hadvances.mem) ?_
      rintro e rfl
      exact hroomy s e hupcoming

theorem new_exact (rng : Rng) (cfg : SimConfig) :
    Ensures Overflows (new rng cfg) DepthsExact := by
  refine (new_registry rng cfg).mono fun sim ⟨hreg, hempty⟩ => ?_
  rw [hreg.depthsExact_iff]
  intro s hs
  obtain ⟨refMid, rfl⟩ := hempty s hs
  have hzero : exactDepth ∅ = fun _ _ => 0 := by
    funext bids p
    have hnil : (∅ : OrderTable).toList = [] := rfl
    simp [exactDepth, depth, hnil]
  rw [hzero]
  exact ⟨DepthMap.shows_empty, DepthMap.shows_empty⟩

/-- However many calls are made, whatever is drawn and whatever the weights, whose sums wrap:
unless a computed price leaves the 64-bit range, every state is reached, and the depth maps of
all of them are exact if and only if each call that leads there is roomy. -/
theorem emit_exact_iff (rng : Rng) (hcfg : cfg.Admitted) (n : Nat)
    (hprices : emit rng cfg n ≠ .error .priceOverflow) :
    (∀ k ≤ n, ∃ sim ms, emit rng cfg k = .ok (sim, ms)) ∧
      ((∀ k ≤ n, ∀ sim ms, emit rng cfg k = .ok (sim, ms) → sim.DepthsExact) ↔
        ∀ k < n, ∀ sim ms, emit rng cfg k = .ok (sim, ms) → sim.Roomy) := by
  have hstep {k : Nat} {sim sim' : MarketSimulator rng} {ms ms' : List GeneratedMessage}
      (hk : k < n) (h : emit rng cfg k = .ok (sim, ms)) (h' : emit rng cfg (k + 1) = .ok (sim', ms'))
      (hexact : sim.DepthsExact) : sim'.DepthsExact ↔ sim.Roomy := by
    obtain ⟨sim₁, ms₁, h₁, hreg⟩ := emit_reaches hcfg hprices hk.le
    obtain ⟨rfl, rfl⟩ := Prod.mk.inj (Except.ok.inj (h₁.symm.trans h))
    obtain ⟨out, hnext⟩ := next_of_emit h h'
    have hiff := next_exact_iff hcfg hreg hexact
    rwa [hnext] at hiff
  refine ⟨fun k hk => ?_, fun hexact k hk sim ms h => ?_, fun hroomy k => ?_⟩
  · obtain ⟨sim, ms, h, -⟩ := emit_reaches hcfg hprices hk
    exact ⟨sim, ms, h⟩
  · obtain ⟨sim', ms', h', -⟩ := emit_reaches hcfg hprices (Nat.succ_le_of_lt hk)
    exact (hstep hk h h' (hexact k hk.le sim ms h)).mp (hexact (k + 1) hk sim' ms' h')
  · induction k with
    | zero =>
      intro _ sim ms h
      have hnew : Ensures Overflows (emit rng cfg 0) fun r => r.1.DepthsExact :=
        (new_exact rng cfg).bind fun sim hsim => hsim
      rwa [h] at hnew
    | succ k ih =>
      intro hk sim' ms' h'
      obtain ⟨sim, ms, h, -⟩ := emit_reaches hcfg hprices (Nat.le_of_succ_le hk)
      exact (hstep hk h h' (ih (Nat.le_of_succ_le hk) sim ms h)).mpr (hroomy k hk sim ms h)

theorem emit_exact_iff_short :
    (∀ k ≤ 13, ∃ sim ms, emit Loopback.congruential Loopback.shortConfig k = .ok (sim, ms)) ∧
      ((∀ k ≤ 13, ∀ sim ms, emit Loopback.congruential Loopback.shortConfig k = .ok (sim, ms) →
        sim.DepthsExact) ↔
        ∀ k < 13, ∀ sim ms, emit Loopback.congruential Loopback.shortConfig k = .ok (sim, ms) →
          sim.Roomy) :=
  emit_exact_iff Loopback.congruential Loopback.shortConfig_valid.admitted 13 Loopback.emit_short

/-! ## Two orders that do not fit -/

/-- Every draw is the lowest number. -/
def lowest : Rng where
  State := Unit
  seed _ := ()
  draw lo _ h g := (g, ⟨lo, le_rfl, h⟩)

def largeConfig : SimConfig where
  numSymbols := 1
  numMessages := 2
  bandLevels := 1
  minQty := 2 ^ 31
  maxQty := 2 ^ 31
  heartbeatInterval := 0

/-- Two bids of half the range at one price: their depth is shown as zero. -/
theorem emit_not_exact :
    1 ≤ largeConfig.numSymbols ∧ 1 ≤ largeConfig.bandLevels ∧ 0 < largeConfig.tick ∧
      largeConfig.tick ≤ largeConfig.startPrice ∧ 0 ≤ largeConfig.symbolPriceStep ∧
      1 ≤ largeConfig.minQty ∧ largeConfig.minQty ≤ largeConfig.maxQty ∧
      ∃ sim ms, emit lowest largeConfig 2 = .ok (sim, ms) ∧ ¬sim.DepthsExact := by
  have hrun : (emit lowest largeConfig 2).toOption.map (fun r => r.1.symbols.map fun s =>
      (s.bidQty[(999900 : Price)]?, exactDepth s.orders true 999900)) =
        some [(some 0, 2 ^ 32)] := by
    decide +kernel
  refine ⟨by decide, by decide, by decide, by decide, by decide, by decide, by decide, ?_⟩
  cases hemit : emit lowest largeConfig 2 with
  | error f =>
    rw [hemit] at hrun
    exact nomatch hrun
  | ok r =>
    obtain ⟨sim, ms⟩ := r
    refine ⟨sim, ms, rfl, fun hexact => ?_⟩
    rw [hemit] at hrun
    obtain ⟨s, hsymbols, hs⟩ := List.map_eq_singleton_iff.mp (Option.some.inj hrun)
    obtain ⟨hshown, hsum⟩ := Prod.mk.inj hs
    have hmem : s ∈ sim.symbols := hsymbols ▸ List.mem_singleton_self s
    have heq := (hexact s hmem).bids.sums 999900 0 hshown
    rw [hsum] at heq
    exact absurd heq (by decide)

end MarketSimulator

end Mdfh
