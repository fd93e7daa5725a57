import Mdfh.SimulatorRun

/-!
# What one message does to the simulator

Whatever is drawn, a message leaves its symbol in one of five ways, and the order it puts
into the depth is determined before the symbol changes. That the registry is exact in every
run follows from the five cases alone.

## Main definitions

* `Edits` — the five cases.
* `upcoming` — the order a message is going to put into the depth.
* `MarketSimulator.Registry` — the invariant of all symbols.

## Main results

* `fill_edits`, `MarketSimulator.next_edits` — there are no others.
* `MarketSimulator.emit_registered` — every run.
-/

namespace Mdfh

open Std Library Library.OrdMap

/-! ## The cases -/

namespace SymbolState

def Stocked (s : SymbolState) : Prop :=
  ∀ (id : OrderId) (o : LiveOrder), s.orders[id]? = some o → 0 < o.qty.toNat

/-- From the state `s` and the next id to the state and the next id after a message, with
the order that was put into the depth. -/
inductive Edits (s : SymbolState) (next : OrderId) :
    Option Entry → SymbolState → OrderId → Prop
  | keep : Edits s next none s next
  | add (e : Entry) (hid : e.id = next) (hq : 0 < e.qty.toNat) :
      Edits s next (some e) (s.registerOrder e.id e.side e.price e.qty) (next + 1)
  | remove {id : OrderId} {o : LiveOrder} {s' : SymbolState} (ho : s.orders[id]? = some o)
      (hs : s.unregisterOrder id = .ok s') : Edits s next none s' next
  | modify {o : LiveOrder} (e : Entry) (ho : s.orders[e.id]? = some o) (hside : e.side = o.side)
      (hq : 0 < e.qty.toNat) :
      Edits s next (some e) (SymbolState.addDepth
        { s.removeDepth o.side o.price o.qty with orders := s.orders.insert e.id e.live }
        e.side e.price e.qty) next
  | fill {id : OrderId} {o : LiveOrder} {q : Quantity} (ho : s.orders[id]? = some o)
      (hq : 0 < q.toNat) (hlt : q < o.qty) :
      Edits s next none { s.removeDepth o.side o.price q with
        orders := s.orders.insert id { o with qty := o.qty - q } } next

variable {s s' : SymbolState} {next next' : OrderId} {posted : Option Entry}

theorem Registered.insert (h : s.Registered) {id : OrderId} {o : LiveOrder}
    (ho : s.orders[id]? = some o) (o' : LiveOrder) {t : SymbolState}
    (hindex : t.index = s.index) (hlive : t.liveIds = s.liveIds)
    (horders : t.orders = s.orders.insert id o') : t.Registered where
  index := by
    rw [hindex, hlive]
    exact h.index
  live id' := by
    rw [hlive, horders, h.live, getElem?_insert]
    grind

namespace Edits

theorem next_eq (h : s.Edits next posted s' next') : next' = next ∨ next' = next + 1 := by
  cases h <;> simp

/-- Only a new order brings a new key, and its id is used up. -/
theorem orders_subset (h : s.Edits next posted s' next') (hs : s.Registered) {id : OrderId}
    {o : LiveOrder} (ho : s'.orders[id]? = some o) :
    (∃ o, s.orders[id]? = some o) ∨ id = next ∧ next' = next + 1 := by
  cases h with
  | keep => exact .inl ⟨o, ho⟩
  | add e hid =>
    rw [registerOrder_orders, getElem?_insertIfNew] at ho
    grind
  | remove hold hremoved =>
    obtain ⟨index, liveIds, heq, -⟩ := hs.unregisterOrder_eq hold
    obtain rfl := Except.ok.inj (heq.symm.trans hremoved)
    rw [getElem?_erase] at ho
    grind
  | modify e hold =>
    rw [addDepth_orders, getElem?_insert] at ho
    grind
  | fill hold =>
    rw [getElem?_insert] at ho
    grind

theorem registered (h : s.Edits next posted s' next') (hs : s.Registered)
    (hfresh : s.orders[next]? = none) : s'.Registered := by
  cases h with
  | keep => exact hs
  | add e hid =>
    refine hs.registerOrder ?_
    rw [hid]
    exact hfresh
  | remove ho hremoved =>
    obtain ⟨index, liveIds, heq, hindex, hlive⟩ := hs.unregisterOrder_eq ho
    obtain rfl := Except.ok.inj (heq.symm.trans hremoved)
    refine ⟨hindex, fun id' => ?_⟩
    rw [hlive, hs.live, getElem?_erase]
    grind
  | modify e ho => exact hs.insert ho e.live (by simp) (by simp) (by simp)
  | fill ho => exact hs.insert ho _ (by simp) (by simp) rfl

theorem stocked (h : s.Edits next posted s' next') (hs : s.Registered) (hstock : s.Stocked)
    (hfresh : s.orders[next]? = none) : s'.Stocked := by
  intro id' o' ho'
  cases h with
  | keep => exact hstock id' o' ho'
  | add e hid hq =>
    rw [registerOrder_orders, getElem?_insertIfNew] at ho'
    grind [Stocked]
  | remove ho hremoved =>
    obtain ⟨index, liveIds, heq, -⟩ := hs.unregisterOrder_eq ho
    obtain rfl := Except.ok.inj (heq.symm.trans hremoved)
    rw [getElem?_erase] at ho'
    grind [Stocked]
  | modify e ho hside hq =>
    rw [addDepth_orders, getElem?_insert] at ho'
    grind [Stocked, Entry.live]
  | fill ho hq hlt =>
    have hrest := UInt32.toNat_sub_of_le _ _ (UInt32.le_of_lt hlt)
    have hlt' := UInt32.lt_iff_toNat_lt.mp hlt
    rw [getElem?_insert] at ho'
    split_ifs at ho' with hid
    · obtain rfl := Option.some.inj ho'
      simp only
      omega
    · exact hstock id' o' ho'

end Edits

end SymbolState

/-- What the random picks rely on. -/
structure SymbolState.SlotsExact (s : SymbolState) : Prop where
  nodup : s.liveIds.Nodup
  orders : ∀ id, id ∈ s.liveIds ↔ id ∈ s.orders
  index : ∀ id, id ∈ s.liveIds ↔ id ∈ s.index
  slots : ∀ (k : Nat) (id : OrderId), s.liveIds[k]? = some id → s.index[id]? = some k
  qty : ∀ (id : OrderId) (o : LiveOrder), s.orders[id]? = some o → 1 ≤ o.qty
  pick : s.liveIds ≠ [] → ∀ (rng : Rng) (g : rng.State), ∃ id g' o,
    randomLive rng s g = .ok (id, g') ∧ s.orders[id]? = some o

theorem SymbolState.Registered.slotsExact {s : SymbolState} (h : s.Registered)
    (hstock : s.Stocked) : s.SlotsExact where
  nodup := h.index.nodup
  orders id := by
    rw [h.live, ExtTreeMap.mem_iff_isSome_getElem?, Option.isSome_iff_exists]
  index id := by
    rw [h.index.mem_iff, ExtTreeMap.mem_iff_isSome_getElem?]
  slots k id hk := (h.index id k).mpr hk
  qty id o ho := UInt32.le_iff_toNat_le.mpr (hstock id o ho)
  pick hne rng g := by
    have hensures : Ensures (fun _ => False) (randomLive rng s g) fun r =>
      ∃ o, s.orders[r.1]? = some o := h.randomLive_ensures hne g
    obtain ⟨⟨id, g'⟩, hpick, o, ho⟩ := hensures.exists_ok fun _ => False.elim
    exact ⟨id, g', o, hpick, ho⟩

/-! ## The orders that messages put into the depth -/

section
variable {rng : Rng} (cfg : SimConfig) (idx : UInt64) (r : Int32) (d : Draft rng)

/-- The draws of `fillAdd`. -/
def chooseAdd : Except Fault (Entry × rng.State) := do
  let (coin, g) ← rng.uniform 0 1 d.g
  let side : Side := if coin = 0 then .buy else .sell
  let (price, g) ← choosePrice rng cfg d.s side g
  let (qty, g) ← randomQty rng cfg g
  return (⟨d.nextOrderId, side, price, qty⟩, g)

/-- The draws of `fillModify`: the order, and what replaces it. -/
def chooseModify : Except Fault (LiveOrder × Entry × rng.State) := do
  let (id, g) ← randomLive rng d.s d.g
  let o ← access d.s.orders[id]?
  let (price, g) ← choosePrice rng cfg (d.s.removeDepth o.side o.price o.qty) o.side g
  let (qty, g) ← randomQty rng cfg g
  return (o, ⟨id, o.side, price, qty⟩, g)

/-- The order that the action mix, or its fallback, puts into the depth. -/
def upcomingMix : Except Fault (Option Entry) :=
  if r < cfg.wAdd ∨ d.s.liveIds = [] then (some ·.1) <$> chooseAdd cfg d
  else if r < cfg.wAdd + cfg.wCancel then return none
  else if r < cfg.wAdd + cfg.wCancel + cfg.wModify then (some ·.2.1) <$> chooseModify cfg d
  else return none

/-- The order that `fill` puts into the depth, by the draws it is going to make. -/
def upcoming : Except Fault (Option Entry) :=
  if cfg.heartbeatInterval ≠ 0 ∧ idx % cfg.heartbeatInterval = 0 ∨
      cfg.snapshotInterval ≠ 0 ∧ idx % cfg.snapshotInterval = 0 then return none
  else do
    let (r, g) ← rng.uniform 0 99 d.g
    upcomingMix cfg (Int32.ofNat r) { d with g }

variable {cfg idx r d} {sym : SymbolId}

theorem fillAdd_eq : fillAdd cfg sym d = (fun (e, g) =>
    { out := { d.out with type := .addOrder, add := ⟨sym, e.id, e.side, e.price, e.qty⟩ }
      s := d.s.registerOrder e.id e.side e.price e.qty
      nextOrderId := d.nextOrderId + 1
      g }) <$> chooseAdd cfg d := by
  simp [fillAdd, chooseAdd]

theorem fillModify_eq (hne : d.s.liveIds ≠ []) : fillModify cfg sym d = (fun (o, e, g) =>
    some { d with
      out := { d.out with type := .modifyOrder, modify := ⟨sym, e.id, e.price, e.qty⟩ }
      s := SymbolState.addDepth { d.s.removeDepth o.side o.price o.qty with
        orders := d.s.orders.insert e.id e.live } e.side e.price e.qty
      g }) <$> chooseModify cfg d := by
  simp [fillModify, chooseModify, hne, Entry.live]

theorem chooseAdd_ensures (hcfg : cfg.Admitted) : Ensures Overflows (chooseAdd cfg d) fun r =>
    r.1.id = d.nextOrderId ∧ 0 < r.1.qty.toNat := by
  refine (uniform_ensures (Nat.zero_le 1) d.g).bind fun ⟨coin, g⟩ _ => ?_
  refine (choosePrice_overflows _ _ g).bind fun ⟨price, g⟩ _ => ?_
  exact (randomQty_ensures hcfg g).bind fun ⟨qty, g⟩ hqty => ⟨rfl, hqty.1⟩

theorem chooseModify_ensures (hcfg : cfg.Admitted) (h : d.s.Registered)
    (hne : d.s.liveIds ≠ []) : Ensures Overflows (chooseModify cfg d) fun r =>
      d.s.orders[r.2.1.id]? = some r.1 ∧ r.2.1.side = r.1.side ∧ 0 < r.2.1.qty.toNat := by
  refine (h.randomLive_ensures hne d.g).bind fun ⟨id, g⟩ ⟨o, ho⟩ => ?_
  refine (access_ensures ho).bind fun o' heq => ?_
  obtain rfl : o' = o := heq
  refine (choosePrice_overflows _ _ g).bind fun ⟨price, g⟩ _ => ?_
  exact (randomQty_ensures hcfg g).bind fun ⟨qty, g⟩ hqty => ⟨ho, rfl, hqty.1⟩

/-! ## The fills -/

theorem fillAdd_edits (hcfg : cfg.Admitted) : Ensures Overflows (fillAdd cfg sym d) fun d' =>
    ∃ posted, (some ·.1) <$> chooseAdd cfg d = .ok posted ∧
      d.s.Edits d.nextOrderId posted d'.s d'.nextOrderId := by
  rw [fillAdd_eq]
  refine Ensures.map ((chooseAdd_ensures hcfg).with_eq.mono ?_)
  rintro ⟨e, g⟩ ⟨heq, hid, hqty⟩
  refine ⟨some e, ?_, .add e hid hqty⟩
  rw [heq]
  rfl

theorem fillModify_edits (hcfg : cfg.Admitted) (h : d.s.Registered) (hne : d.s.liveIds ≠ []) :
    Ensures Overflows (fillModify cfg sym d) fun done => ∃ d' posted, done = some d' ∧
      (some ·.2.1) <$> chooseModify cfg d = .ok posted ∧
        d.s.Edits d.nextOrderId posted d'.s d'.nextOrderId := by
  rw [fillModify_eq hne]
  refine Ensures.map ((chooseModify_ensures hcfg h hne).with_eq.mono ?_)
  rintro ⟨o, e, g⟩ ⟨heq, ho, hside, hqty⟩
  refine ⟨_, some e, rfl, ?_, .modify e ho hside hqty⟩
  rw [heq]
  rfl

theorem unregisterOrder_edits (h : d.s.Registered) {id : OrderId} {o : LiveOrder}
    (ho : d.s.orders[id]? = some o) :
    Ensures Overflows (d.s.unregisterOrder id) fun s' =>
      d.s.Edits d.nextOrderId none s' d.nextOrderId := by
  obtain ⟨index, liveIds, heq, -⟩ := h.unregisterOrder_eq ho
  exact Ensures.of_eq_ok heq (.remove ho heq)

theorem fillCancel_edits (h : d.s.Registered) (hne : d.s.liveIds ≠ []) :
    Ensures Overflows (fillCancel sym d) fun done => ∃ d', done = some d' ∧
      d.s.Edits d.nextOrderId none d'.s d'.nextOrderId := by
  rw [fillCancel, if_neg (by simpa using hne)]
  refine (h.randomLive_ensures hne d.g).bind fun ⟨id, g⟩ ⟨o, ho⟩ => ?_
  exact (unregisterOrder_edits h ho).bind fun s' hs' => ⟨_, rfl, hs'⟩

theorem fillTrade_edits (h : d.s.Registered) (hstock : d.s.Stocked) (hne : d.s.liveIds ≠ []) :
    Ensures Overflows (fillTrade sym d) fun done => ∃ d', done = some d' ∧
      d.s.Edits d.nextOrderId none d'.s d'.nextOrderId := by
  rw [fillTrade, if_neg (by simpa using hne)]
  refine (h.randomLive_ensures hne d.g).bind fun ⟨id, g⟩ ⟨o, ho⟩ => ?_
  refine (access_ensures ho).bind fun o' heq => ?_
  obtain rfl : o' = o := heq
  refine (uniform_ensures (Nat.succ_le_of_lt (hstock id o' ho)) g).bind ?_
  rintro ⟨fill, g⟩ hfill
  have hvalue : (UInt32.ofNat fill).toNat = fill :=
    UInt32.toNat_ofNat_of_lt' (hfill.2.trans_lt o'.qty.toNat_lt)
  by_cases hall : UInt32.ofNat fill ≥ o'.qty
  · simp only [hall, if_true]
    exact (unregisterOrder_edits h ho).bind fun s' hs' => ⟨_, rfl, hs'⟩
  · simp only [hall, if_false]
    refine ⟨_, rfl, ?_⟩
    simp only [SymbolState.removeDepth_orders]
    exact .fill ho (Nat.lt_of_lt_of_eq hfill.1 hvalue.symm) (UInt32.not_le.mp hall)

/-- Without a live order nothing is done, and the fallback adds one. -/
theorem fillMix_edits (hcfg : cfg.Admitted) (h : d.s.Registered) (hstock : d.s.Stocked) :
    Ensures Overflows (MarketSimulator.fillMix cfg r sym d) fun done =>
      match done with
      | some d' => ∃ posted, upcomingMix cfg r d = .ok posted ∧
          d.s.Edits d.nextOrderId posted d'.s d'.nextOrderId
      | none => d.s.liveIds = [] := by
  unfold MarketSimulator.fillMix upcomingMix
  by_cases hadd : r < cfg.wAdd
  · simp only [hadd, if_true, true_or]
    exact Ensures.map (fillAdd_edits hcfg)
  by_cases hempty : d.s.liveIds = []
  · simp [hadd, hempty, fillCancel, fillModify, fillTrade]
  simp only [hadd, hempty, if_false, or_self]
  split_ifs
  · refine (fillCancel_edits h hempty).mono ?_
    rintro _ ⟨d', rfl, hd'⟩
    exact ⟨none, rfl, hd'⟩
  · refine (fillModify_edits hcfg h hempty).mono ?_
    rintro _ ⟨d', posted, rfl, hposted, hd'⟩
    exact ⟨posted, hposted, hd'⟩
  · refine (fillTrade_edits h hstock hempty).mono ?_
    rintro _ ⟨d', rfl, hd'⟩
    exact ⟨none, rfl, hd'⟩

theorem fill_edits (hcfg : cfg.Admitted) (h : d.s.Registered) (hstock : d.s.Stocked) :
    Ensures Overflows (MarketSimulator.fill cfg idx sym d) fun d' =>
      ∃ posted, upcoming cfg idx d = .ok posted ∧
        d.s.Edits d.nextOrderId posted d'.s d'.nextOrderId := by
  unfold MarketSimulator.fill upcoming
  by_cases hbeat : cfg.heartbeatInterval ≠ 0 ∧ idx % cfg.heartbeatInterval = 0
  · rw [if_pos hbeat, if_pos (.inl hbeat)]
    exact ⟨none, rfl, .keep⟩
  by_cases hsnap : cfg.snapshotInterval ≠ 0 ∧ idx % cfg.snapshotInterval = 0
  · rw [if_neg hbeat, if_pos hsnap, if_pos (.inr hsnap)]
    exact ⟨none, rfl, .keep⟩
  rw [if_neg hbeat, if_neg hsnap, if_neg (not_or.mpr ⟨hbeat, hsnap⟩)]
  refine (uniform_ensures (Nat.zero_le 99) d.g).with_eq.bind ?_
  rintro ⟨r, g⟩ ⟨hr, -⟩
  rw [hr]
  let d₁ : Draft rng := { d with g }
  refine (fillMix_edits (d := d₁) hcfg h hstock).bind fun done hdone => ?_
  cases done with
  | some d' => exact hdone
  | none =>
    have hmix : upcomingMix cfg (Int32.ofNat r) d₁ = (some ·.1) <$> chooseAdd cfg d₁ :=
      if_pos (.inr hdone)
    change Ensures Overflows (fillAdd cfg sym d₁) fun d' =>
      ∃ posted, upcomingMix cfg (Int32.ofNat r) d₁ = .ok posted ∧ _
    rw [hmix]
    exact fillAdd_edits hcfg

end

/-! ## All symbols -/

namespace MarketSimulator

variable {rng : Rng} {cfg : SimConfig} {sim sim' : MarketSimulator rng}

/-- The order that the next call puts into the depth of a symbol, by the draws it is going
to make. -/
def upcoming (sim : MarketSimulator rng) : Except Fault (Option (SymbolState × Entry)) :=
  if sim.produced ≥ sim.cfg.numMessages then return none
  else do
    let (sym, g) ← rng.uniform 0 (sim.cfg.numSymbols - 1).toNat sim.g
    let s ← access sim.symbols[sym]?
    let posted ← Mdfh.upcoming sim.cfg (sim.produced + 1)
      { out := { seq := sim.nextSeq, ts := sim.ts }, s, nextOrderId := sim.nextOrderId, g }
    return posted.map (s, ·)

/-- The last id handed out, zero in the beginning. -/
def lastId (sim : MarketSimulator rng) : Nat := (sim.nextOrderId - 1).toNat

/-- Every symbol's registry is exact, no id is live twice, and no message has used more than
one id. -/
structure Registry (cfg : SimConfig) (sim : MarketSimulator rng) : Prop where
  cfg_eq : sim.cfg = cfg
  length : sim.symbols.length = cfg.numSymbols.toNat
  registered : ∀ s ∈ sim.symbols, s.Registered
  stocked : ∀ s ∈ sim.symbols, s.Stocked
  issued : ∀ s ∈ sim.symbols, ∀ (id : OrderId) (o : LiveOrder), s.orders[id]? = some o →
    id.toNat ≤ sim.lastId
  disjoint : ∀ (i j : Nat) (s t : SymbolState), sim.symbols[i]? = some s →
    sim.symbols[j]? = some t → ∀ (id : OrderId) (o o' : LiveOrder),
      s.orders[id]? = some o → t.orders[id]? = some o' → i = j
  lastId_le : sim.lastId ≤ sim.produced.toNat

/-- One symbol is edited, and the message is counted. -/
structure Advances (sim sim' : MarketSimulator rng) (i : Nat) (s : SymbolState)
    (posted : Option Entry) (s' : SymbolState) : Prop where
  get : sim.symbols[i]? = some s
  more : sim.produced < sim.cfg.numMessages
  edits : s.Edits sim.nextOrderId posted s' sim'.nextOrderId
  symbols : sim'.symbols = sim.symbols.set i s'
  produced : sim'.produced = sim.produced + 1
  cfg_eq : sim'.cfg = sim.cfg

theorem next_edits (hcfg : cfg.Admitted) (h : sim.Registry cfg) :
    Ensures Overflows sim.next fun r => r.1 = sim ∧ sim.upcoming = .ok none ∨
      ∃ i s posted s', sim.upcoming = .ok (posted.map (s, ·)) ∧
        Advances sim r.1 i s posted s' := by
  obtain rfl := h.cfg_eq
  unfold next upcoming
  split_ifs with hdone
  · exact .inl ⟨rfl, rfl⟩
  refine (uniform_ensures (Nat.zero_le _) sim.g).with_eq.bind ?_
  rintro ⟨i, g⟩ ⟨hdraw, -, hi⟩
  have hlt : i < sim.symbols.length := h.length ▸ lt_numSymbols hcfg hi
  have hget := List.getElem?_eq_getElem hlt
  have hmem := List.getElem_mem hlt
  refine (access_ensures hget).bind fun s hs => ?_
  rw [← hs] at hget hmem
  refine (fill_edits hcfg (h.registered s hmem) (h.stocked s hmem)).bind ?_
  rintro d ⟨posted, hposted, hedits⟩
  refine .inr ⟨i, s, posted, d.s, ?_, hget, UInt64.not_le.mp hdone, hedits, rfl, rfl, rfl⟩
  rw [hdraw]
  change (access sim.symbols[i]? >>= _) = _
  rw [access_bind hget]
  rw [hposted]
  rfl

/-- The next id does not wrap while there is a message left to produce. -/
theorem Registry.toNat_nextOrderId (h : sim.Registry cfg)
    (hmore : sim.produced < sim.cfg.numMessages) : sim.nextOrderId.toNat = sim.lastId + 1 := by
  have hlt := UInt64.lt_iff_toNat_lt.mp hmore
  have hbound := UInt64.toNat_lt sim.cfg.numMessages
  have hle := h.lastId_le
  have hnext : (sim.nextOrderId - 1 + 1).toNat = sim.lastId + 1 := by
    rw [UInt64.toNat_add, UInt64.toNat_one, ← lastId]
    omega
  rwa [UInt64.sub_add_cancel] at hnext

theorem Registry.fresh (h : sim.Registry cfg) (hmore : sim.produced < sim.cfg.numMessages)
    {s : SymbolState} (hs : s ∈ sim.symbols) : s.orders[sim.nextOrderId]? = none := by
  by_contra hne
  obtain ⟨o, ho⟩ := Option.ne_none_iff_exists'.mp hne
  have hle := h.issued s hs sim.nextOrderId o ho
  have hnext := h.toNat_nextOrderId hmore
  omega

namespace Advances

variable {i : Nat} {s s' : SymbolState} {posted : Option Entry}

theorem mem (h : Advances sim sim' i s posted s') : s ∈ sim.symbols := List.mem_of_getElem? h.get

theorem mem_new (h : Advances sim sim' i s posted s') : s' ∈ sim'.symbols := by
  rw [h.symbols]
  exact List.mem_set (List.getElem?_eq_some_iff.mp h.get).1 s'

theorem mem_or_eq (h : Advances sim sim' i s posted s') {t : SymbolState}
    (ht : t ∈ sim'.symbols) : t ∈ sim.symbols ∨ t = s' := by
  rw [h.symbols] at ht
  exact List.mem_or_eq_of_mem_set ht

theorem eq_or_getElem? (h : Advances sim sim' i s posted s') {j : Nat} {t : SymbolState}
    (ht : sim'.symbols[j]? = some t) : j = i ∧ t = s' ∨ sim.symbols[j]? = some t := by
  rw [h.symbols, List.getElem?_set] at ht
  grind

theorem lastId_eq (h : Advances sim sim' i s posted s') (hreg : sim.Registry cfg) :
    sim'.nextOrderId = sim.nextOrderId ∧ sim'.lastId = sim.lastId ∨
      sim'.nextOrderId = sim.nextOrderId + 1 ∧ sim'.lastId = sim.lastId + 1 := by
  have hnext := hreg.toNat_nextOrderId h.more
  rcases h.edits.next_eq with heq | heq
  · exact .inl ⟨heq, by rw [lastId, heq, lastId]⟩
  · exact .inr ⟨heq, by rw [lastId, heq, UInt64.add_sub_cancel, hnext]⟩

/-- An id that is live after the step was live before, or it is the one handed out. -/
theorem id_cases (h : Advances sim sim' i s posted s') (hreg : sim.Registry cfg) {id : OrderId}
    {o : LiveOrder} (ho : s'.orders[id]? = some o) :
    (∃ o, s.orders[id]? = some o) ∨ id = sim.nextOrderId ∧ sim'.lastId = sim.lastId + 1 := by
  have hnext := hreg.toNat_nextOrderId h.more
  have hcases := h.edits.orders_subset (hreg.registered s h.mem) ho
  have hlast := h.lastId_eq hreg
  grind

theorem registry (h : Advances sim sim' i s posted s') (hreg : sim.Registry cfg) :
    sim'.Registry cfg := by
  have hs := hreg.registered s h.mem
  have hfresh {t : SymbolState} (ht : t ∈ sim.symbols) := hreg.fresh h.more ht
  have hnext := hreg.toNat_nextOrderId h.more
  have hlast : sim.lastId ≤ sim'.lastId ∧ sim'.lastId ≤ sim.lastId + 1 := by
    have hcases := h.lastId_eq hreg
    omega
  -- An id of the edited symbol is not live in another one.
  have hapart {j : Nat} {t : SymbolState} (ht : sim.symbols[j]? = some t) {id : OrderId}
      {o o' : LiveOrder} (ho : s'.orders[id]? = some o) (ho' : t.orders[id]? = some o') :
      i = j := by
    rcases h.id_cases hreg ho with ⟨o, hold⟩ | ⟨rfl, -⟩
    · exact hreg.disjoint i j s t h.get ht id o o' hold ho'
    · exact absurd ((hfresh (List.mem_of_getElem? ht)).symm.trans ho') nofun
  refine ⟨h.cfg_eq.trans hreg.cfg_eq, ?_, ?_, ?_, ?_, ?_, ?_⟩
  · rw [h.symbols, List.length_set, hreg.length]
  · intro t ht
    rcases h.mem_or_eq ht with ht | rfl
    · exact hreg.registered t ht
    · exact h.edits.registered hs (hfresh h.mem)
  · intro t ht
    rcases h.mem_or_eq ht with ht | rfl
    · exact hreg.stocked t ht
    · exact h.edits.stocked hs (hreg.stocked s h.mem) (hfresh h.mem)
  · intro t ht id o ho
    rcases h.mem_or_eq ht with ht | rfl
    · exact (hreg.issued t ht id o ho).trans hlast.1
    · rcases h.id_cases hreg ho with ⟨o, hold⟩ | ⟨rfl, heq⟩
      · exact (hreg.issued s h.mem id o hold).trans hlast.1
      · exact (hnext.trans heq.symm).le
  · intro j k t u ht hu id o o' ho ho'
    rcases h.eq_or_getElem? ht with ⟨rfl, rfl⟩ | ht <;>
      rcases h.eq_or_getElem? hu with ⟨rfl, rfl⟩ | hu
    · rfl
    · exact hapart hu ho ho'
    · exact (hapart ht ho' ho).symm
    · exact hreg.disjoint j k t u ht hu id o o' ho ho'
  · have hmore := UInt64.lt_iff_toNat_lt.mp h.more
    have hbound := UInt64.toNat_lt sim.cfg.numMessages
    have hle := hreg.lastId_le
    rw [h.produced, UInt64.toNat_add, UInt64.toNat_one]
    omega

end Advances

/-! ## Runs -/

theorem new_registry (rng : Rng) (cfg : SimConfig) :
    Ensures Overflows (new rng cfg) fun sim => sim.Registry cfg ∧
      ∀ s ∈ sim.symbols, ∃ refMid, s = { refMid } := by
  refine (new_symbols rng cfg).mono ?_
  rintro _ ⟨symbols, rfl, hlen, hall⟩
  have hnone (s : SymbolState) (hs : s ∈ symbols) (id : OrderId) : s.orders[id]? = none := by
    obtain ⟨i, refMid, rfl, -⟩ := hall s hs
    simp
  refine ⟨⟨rfl, hlen, ?_, ?_, ?_, ?_, by simp [lastId]⟩, ?_⟩
  · intro s hs
    obtain ⟨i, refMid, rfl, -⟩ := hall s hs
    exact .empty refMid
  · intro s hs id o ho
    exact absurd ((hnone s hs id).symm.trans ho) nofun
  · intro s hs id o ho
    exact absurd ((hnone s hs id).symm.trans ho) nofun
  · intro i j s t hs _ id o o' ho
    exact absurd ((hnone s (List.mem_of_getElem? hs) id).symm.trans ho) nofun
  · intro s hs
    obtain ⟨i, refMid, rfl, -⟩ := hall s hs
    exact ⟨refMid, rfl⟩

theorem emit_registry (rng : Rng) (hcfg : cfg.Admitted) (n : Nat) :
    Ensures Overflows (emit rng cfg n) fun r => r.1.Registry cfg := by
  induction n with
  | zero => exact (new_registry rng cfg).bind fun sim hsim => hsim.1
  | succ n ih =>
    refine ih.bind fun ⟨sim, ms⟩ h => ?_
    refine (next_edits hcfg h).bind fun ⟨sim', out⟩ hnext => ?_
    rcases hnext with ⟨heq, -⟩ | ⟨i, s, posted, s', -, hadvances⟩
    · obtain rfl : sim' = sim := heq
      exact h
    · exact hadvances.registry h

theorem emit_of_error {f : Fault} {k n : Nat} (h : emit rng cfg k = .error f) (hk : k ≤ n) :
    emit rng cfg n = .error f := by
  induction hk with
  | refl => exact h
  | step _ ih =>
    rw [emit, ih]
    rfl

/-- Every earlier state of a run is reached. -/
theorem emit_reaches (hcfg : cfg.Admitted) {n : Nat} (hprices : emit rng cfg n ≠ .error .priceOverflow)
    {k : Nat} (hk : k ≤ n) : ∃ sim ms, emit rng cfg k = .ok (sim, ms) ∧ sim.Registry cfg := by
  obtain ⟨⟨sim, ms⟩, hemit, h⟩ := (emit_registry rng hcfg k).exists_ok fun e he hfault =>
    hprices (emit_of_error (he ▸ hfault) hk)
  exact ⟨sim, ms, hemit, h⟩

theorem next_of_emit {k : Nat} {ms ms' : List GeneratedMessage}
    (h : emit rng cfg k = .ok (sim, ms)) (h' : emit rng cfg (k + 1) = .ok (sim', ms')) :
    ∃ out, sim.next = .ok (sim', out) := by
  rw [emit, h] at h'
  change (sim.next >>= _) = _ at h'
  cases hnext : sim.next with
  | error f =>
    rw [hnext] at h'
    exact nomatch h'
  | ok r =>
    rw [hnext] at h'
    obtain rfl : r.1 = sim' := congrArg Prod.fst (Except.ok.inj h')
    exact ⟨r.2, rfl⟩

/-- However many calls are made, whatever the weights (their sums wrap, see `fillMix`), the
intervals and the numbers drawn: unless a computed price leaves the 64-bit range, no access is
out of range and no range is empty, the list of live ids of every symbol is exact, and no id is
live in two symbols. -/
theorem emit_registered (rng : Rng) (hcfg : cfg.Admitted) (n : Nat)
    (hprices : emit rng cfg n ≠ .error .priceOverflow) :
    ∃ sim ms, emit rng cfg n = .ok (sim, ms) ∧ (∀ s ∈ sim.symbols, s.SlotsExact) ∧
      ∀ (i j : Nat) (s t : SymbolState), i ≠ j → sim.symbols[i]? = some s →
        sim.symbols[j]? = some t → s.liveIds.Disjoint t.liveIds := by
  obtain ⟨sim, ms, hemit, h⟩ := emit_reaches hcfg hprices le_rfl
  refine ⟨sim, ms, hemit, fun s hs => (h.registered s hs).slotsExact (h.stocked s hs), ?_⟩
  intro i j s t hij hs ht id hid hid'
  obtain ⟨o, ho⟩ := ((h.registered s (List.mem_of_getElem? hs)).live id).mp hid
  obtain ⟨o', ho'⟩ := ((h.registered t (List.mem_of_getElem? ht)).live id).mp hid'
  exact hij (h.disjoint i j s t hs ht id o o' ho ho')

theorem emit_registered_short :
    ∃ sim ms, emit Loopback.congruential Loopback.shortConfig 13 = .ok (sim, ms) ∧
      (∀ s ∈ sim.symbols, s.SlotsExact) ∧
      ∀ (i j : Nat) (s t : SymbolState), i ≠ j → sim.symbols[i]? = some s →
        sim.symbols[j]? = some t → s.liveIds.Disjoint t.liveIds :=
  emit_registered Loopback.congruential Loopback.shortConfig_valid.admitted 13 Loopback.emit_short

end MarketSimulator

end Mdfh
