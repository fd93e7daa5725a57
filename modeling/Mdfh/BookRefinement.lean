import Mdfh.BookCells

/-!
# The book refines a flat list of orders

The reference keeps one list of orders in arrival order and has no levels and no locators.
Every mutation of the book returns what the reference returns and leaves a book whose
levels are the reference list, filtered by side and price.

## Main definitions

* `Reference` — the flat model with its four operations.
* `OrderBook.Refines` — the abstraction relation.
* `OrderBook.LocatorAgreement` — what links locators, queues and levels.

## Main results

* `Refines.apply` — one call of the book and of the reference.
* `run_refines` — every sequence of calls.
* `run_locatorAgreement` — locators and levels agree in every reachable state.
-/

namespace Mdfh

open Std Library Library.Keyed

/-! ## The reference model -/

structure Entry where
  id : OrderId
  side : Side
  price : Price
  qty : Quantity
  deriving DecidableEq, Repr

def Entry.setQty (qty : Quantity) (e : Entry) : Entry := { e with qty }

/-- All resting orders in arrival order. -/
abbrev Reference := List Entry

namespace Reference

def add (R : Reference) (id : OrderId) (side : Side) (price : Price) (qty : Quantity) :
    Reference × Bool :=
  if qty ≠ 0 ∧ lookup Entry.id id R = none then (R ++ [⟨id, side, price, qty⟩], true)
  else (R, false)

def cancel (R : Reference) (id : OrderId) : Reference × Bool :=
  match lookup Entry.id id R with
  | none => (R, false)
  | some _ => (remove Entry.id id R, true)

def modify (R : Reference) (id : OrderId) (newPrice : Price) (newQty : Quantity) :
    Reference × Bool :=
  match lookup Entry.id id R with
  | none => (R, false)
  | some e =>
    if newQty = 0 then (remove Entry.id id R, true)
    else if newPrice = e.price ∧ newQty ≤ e.qty then
      (update Entry.id id (Entry.setQty newQty) R, true)
    else (remove Entry.id id R ++ [⟨id, e.side, newPrice, newQty⟩], true)

def execute (R : Reference) (id : OrderId) (qty : Quantity) : Reference × Bool :=
  match lookup Entry.id id R with
  | none => (R, false)
  | some e =>
    let remaining := e.qty - min qty e.qty
    if remaining = 0 then (remove Entry.id id R, true)
    else (update Entry.id id (Entry.setQty remaining) R, true)

open OrderBook in
def apply (R : Reference) : Op → Reference × Bool
  | .add id side price qty => R.add id side price qty
  | .cancel id => R.cancel id
  | .modify id newPrice newQty => R.modify id newPrice newQty
  | .execute restingId qty => R.execute restingId qty
  | .clear => ([], true)

open OrderBook in
def run (R : Reference) : List Op → Reference × List Bool
  | [] => (R, [])
  | op :: ops =>
    let r := R.apply op
    let rs := run r.1 ops
    (rs.1, r.2 :: rs.2)

end Reference

/-! ## The abstraction relation -/

def Cell.entry (c : Cell) : Entry := ⟨c.id, c.side, c.price, c.qty⟩

namespace OrderBook

/-- The book's cells are the reference's entries, none of them empty. -/
def Refines (b : OrderBook) (R : Reference) : Prop :=
  ∃ L : List Cell, b.Represents L ∧ (∀ c ∈ L, c.qty ≠ 0) ∧ L.map Cell.entry = R

section
variable {b : OrderBook} {L : List Cell} {c : Cell}

theorem lookup_entry (i : OrderId) :
    lookup Entry.id i (L.map Cell.entry) = (lookup Cell.id i L).map Cell.entry :=
  lookup_map fun _ => rfl

theorem remove_entry (i : OrderId) :
    remove Entry.id i (L.map Cell.entry) = (remove Cell.id i L).map Cell.entry :=
  remove_map fun _ => rfl

theorem update_entry (i : OrderId) (qty : Quantity) :
    update Entry.id i (Entry.setQty qty) (L.map Cell.entry) =
      (update Cell.id i (Cell.setQty qty) L).map Cell.entry :=
  update_map (fun _ => rfl) fun _ => rfl

theorem pos_remove (hpos : ∀ c ∈ L, c.qty ≠ 0) (i : OrderId) :
    ∀ c ∈ remove Cell.id i L, c.qty ≠ 0 := fun c hc => hpos c (mem_remove.mp hc).1

theorem pos_update (hpos : ∀ c ∈ L, c.qty ≠ 0) (i : OrderId) {qty : Quantity} (hqty : qty ≠ 0) :
    ∀ c ∈ update Cell.id i (Cell.setQty qty) L, c.qty ≠ 0 := by
  intro c hc
  obtain ⟨x, hx, rfl⟩ := List.mem_map.mp hc
  split_ifs
  · exact hqty
  · exact hpos x hx

end

namespace Refines

variable {b : OrderBook} {R : Reference}

theorem empty (symbol : SymbolId) : Refines { symbol } [] :=
  ⟨[], represents_nil rfl rfl rfl rfl rfl, by simp, rfl⟩

theorem clear (h : b.Refines R) : b.clear.Refines [] := by
  obtain ⟨L, hL, -, -⟩ := h
  exact ⟨[], represents_nil rfl rfl rfl rfl hL.early, by simp, rfl⟩

theorem add (h : b.Refines R) (id : OrderId) (side : Side) (price : Price) (qty : Quantity) :
    (b.add id side price qty).1.Refines (R.add id side price qty).1 ∧
      (b.add id side price qty).2 = (R.add id side price qty).2 := by
  have hkeep := h
  obtain ⟨L, hL, hpos, rfl⟩ := h
  have horders := hL.orders id
  rw [OrderBook.add, Reference.add, lookup_entry, horders]
  by_cases hqty : qty = 0
  · simp [hqty, hkeep]
  · cases hid : lookup Cell.id id L with
    | some c => simp [hqty, hkeep]
    | none =>
      simp only [if_neg hqty, Option.map_none, Option.isSome_none, Bool.false_eq_true, if_false]
      rw [if_pos ⟨hqty, trivial⟩, insertOn_orders]
      refine ⟨⟨_, hL.insert id side price qty hid, ?_, ?_⟩, rfl⟩
      · intro c hc
        rcases List.mem_append.mp hc with hc | hc
        · exact hpos c hc
        · rw [List.mem_singleton.mp hc]
          exact hqty
      · rw [List.map_append]
        rfl

theorem cancel (h : b.Refines R) (id : OrderId) :
    ∃ b', b.cancel id = some (b', (R.cancel id).2) ∧ b'.Refines (R.cancel id).1 := by
  have hkeep := h
  obtain ⟨L, hL, hpos, rfl⟩ := h
  have horders := hL.orders id
  rw [OrderBook.cancel, Reference.cancel, lookup_entry, horders]
  cases hid : lookup Cell.id id L with
  | none => exact ⟨b, rfl, hkeep⟩
  | some c =>
    obtain ⟨hc, rfl⟩ := of_lookup_eq_some hid
    obtain ⟨b', herase, horders', -, hb'⟩ := hL.erase hc
    refine ⟨{ b' with orders := b.orders.erase c.id }, ?_, _, hb', pos_remove hpos _, ?_⟩
    · simp [herase, horders']
    · exact (remove_entry _).symm

theorem modify (h : b.Refines R) (id : OrderId) (newPrice : Price) (newQty : Quantity) :
    ∃ b', b.modify id newPrice newQty = some (b', (R.modify id newPrice newQty).2) ∧
      b'.Refines (R.modify id newPrice newQty).1 := by
  have hkeep := h
  by_cases hzero : newQty = 0
  · -- Both sides fall back to a cancellation.
    have hcancel : R.modify id newPrice newQty = R.cancel id := by
      rw [Reference.modify, Reference.cancel]
      cases lookup Entry.id id R with
      | none => rfl
      | some e => simp [hzero]
    rw [OrderBook.modify, if_pos hzero, hcancel]
    exact h.cancel id
  obtain ⟨L, hL, hpos, rfl⟩ := h
  have horders := hL.orders id
  rw [OrderBook.modify, if_neg hzero, Reference.modify, lookup_entry, horders]
  cases hid : lookup Cell.id id L with
  | none => exact ⟨b, rfl, hkeep⟩
  | some c =>
    obtain ⟨hc, rfl⟩ := of_lookup_eq_some hid
    have hderef : b.pool.deref c.location.it = some c.order := hL.deref_of_mem hc
    simp only [Option.map_some, if_neg hzero, hderef, Option.bind_eq_bind, Option.bind_some]
    by_cases hshrink : newPrice = c.price ∧ newQty ≤ c.qty
    · obtain ⟨b', hset, -, hb'⟩ := hL.setQty hc newQty
      simp only [Cell.location, Cell.order, Cell.entry] at hset ⊢
      simp only [hshrink.1, hshrink.2, and_self, if_true, hset]
      exact ⟨b', rfl, _, hb', pos_update hpos _ hzero, (update_entry _ _).symm⟩
    · obtain ⟨b', herase, horders', -, hb'⟩ := hL.erase hc
      have hgone : lookup Cell.id c.id (remove Cell.id c.id L) = none := by
        rw [lookup_remove, if_pos rfl]
      have hinsert := hb'.insert c.id c.side newPrice newQty hgone
      simp only [insertOn_setOrders, OrdMap.insert_erase] at hinsert
      simp only [Cell.location, Cell.order, Cell.entry] at herase ⊢
      simp only [hshrink, if_false, herase, Option.bind_some]
      rw [← horders', ← insertOn_orders b' c.side newPrice c.id newQty] at hinsert
      refine ⟨_, rfl, _, hinsert, ?_, ?_⟩
      · intro x hx
        rcases List.mem_append.mp hx with hx | hx
        · exact pos_remove hpos _ x hx
        · rw [List.mem_singleton.mp hx]
          exact hzero
      · rw [List.map_append, ← remove_entry]
        rfl

theorem execute (h : b.Refines R) (id : OrderId) (qty : Quantity) :
    ∃ b', b.execute id qty = some (b', (R.execute id qty).2) ∧
      b'.Refines (R.execute id qty).1 := by
  obtain ⟨L, hL, hpos, rfl⟩ := h
  obtain ⟨b', hexecute, -, hb'⟩ := hL.execute id qty
  rw [Represents.filled] at hb'
  rw [hexecute, Reference.execute, lookup_entry]
  cases hid : lookup Cell.id id L with
  | none =>
    rw [hid] at hb'
    exact ⟨b', rfl, L, hb', hpos, rfl⟩
  | some c =>
    simp only [hid] at hb'
    simp only [Option.map_some, Cell.entry]
    split_ifs at hb' ⊢ with hzero
    · exact ⟨b', rfl, _, hb', pos_remove hpos _, (remove_entry _).symm⟩
    · exact ⟨b', rfl, _, hb', pos_update hpos _ hzero, (update_entry _ _).symm⟩

/-- One call: the book never runs into undefined behaviour, returns what the reference
returns, and refines the reference's next state. -/
theorem apply (h : b.Refines R) (op : Op) :
    ∃ b', b.apply op = some (b', (R.apply op).2) ∧ b'.Refines (R.apply op).1 := by
  cases op with
  | add id side price qty =>
    obtain ⟨hnext, hret⟩ := h.add id side price qty
    exact ⟨_, congrArg some (Prod.ext rfl hret), hnext⟩
  | cancel id => exact h.cancel id
  | modify id newPrice newQty => exact h.modify id newPrice newQty
  | execute restingId qty => exact h.execute restingId qty
  | clear => exact ⟨b.clear, rfl, h.clear⟩

theorem run (h : b.Refines R) (ops : List Op) :
    ∃ b', b.run ops = some (b', (R.run ops).2) ∧ b'.Refines (R.run ops).1 := by
  induction ops generalizing b R with
  | nil => exact ⟨b, rfl, h⟩
  | cons op ops ih =>
    obtain ⟨b₁, hop, h₁⟩ := h.apply op
    obtain ⟨b₂, hops, h₂⟩ := ih h₁
    refine ⟨b₂, ?_, h₂⟩
    rw [OrderBook.run, hop]
    simp only [Option.bind_eq_bind, Option.bind_some, hops]
    rfl

end Refines

end OrderBook

/-! ## Levels and queues -/

/-- The levels of one side against the reference entries of that side: the distinct prices,
best first, and at each price the entries in list order. -/
structure SideMatches {cmp : Price → Price → Ordering} [TransCmp cmp] (better : Price → Price → Prop)
    (m : LevelMap cmp) (pool : NodePool) (Q : List Entry) : Prop where
  bestFirst : m.keys.Pairwise better
  prices : ∀ p, p ∈ m.keys ↔ ∃ e ∈ Q, e.price = p
  queues : ∀ p lvl, m[p]? = some lvl →
    lvl.orders.map pool.deref = (Q.filter (·.price = p)).map fun e => some ⟨e.id, e.qty⟩

section
variable {cmp : Price → Price → Ordering} [TransCmp cmp] [LawfulEqCmp cmp] {m : LevelMap cmp}
  {Q : List Cell} {pool : NodePool}

theorem levelOf_eq_some {p : Price} {q : List Cell} {lvl : PriceLevel}
    (h : levelOf p q = some lvl) : q ≠ [] ∧ lvl = ⟨p, total q, q.map (·.addr)⟩ := by
  unfold levelOf at h
  split_ifs at h with hq
  exact ⟨hq, (Option.some.inj h).symm⟩

theorem Levels.mem_keys (h : Levels m Q) (p : Price) : p ∈ m.keys ↔ ∃ c ∈ Q, c.price = p := by
  rw [OrdMap.mem_keys_iff, h p]
  constructor
  · rintro ⟨lvl, hlvl⟩
    obtain ⟨c, hc⟩ := List.exists_mem_of_ne_nil _ (levelOf_eq_some hlvl).1
    obtain ⟨hc, hp⟩ := List.mem_filter.mp hc
    exact ⟨c, hc, by simpa using hp⟩
  · rintro ⟨c, hc, rfl⟩
    exact ⟨_, levelOf_of_mem (mem_queue_self hc) _⟩

theorem Levels.matches (h : Levels m Q) (hderef : ∀ c ∈ Q, pool.deref c.addr = some c.order)
    {better : Price → Price → Prop} (hbetter : ∀ {p p'}, cmp p p' = .lt → better p p') :
    SideMatches better m pool (Q.map Cell.entry) where
  bestFirst := ExtTreeMap.ordered_keys.imp hbetter
  prices p := by
    rw [h.mem_keys]
    simp [Cell.entry]
  queues p lvl hlvl := by
    rw [h p] at hlvl
    obtain ⟨-, rfl⟩ := levelOf_eq_some hlvl
    rw [List.filter_map, List.map_map, List.map_map]
    refine List.map_congr_left ?_
    intro c hc
    exact hderef c (List.mem_filter.mp hc).1

end

namespace OrderBook

/-- Every sequence of calls from an empty book returns what the reference returns, and each
side of the book is the reference list filtered by side: `Buy` on the bids, anything else
on the asks. -/
theorem run_refines (symbol : SymbolId) (ops : List Op) :
    ∃ b, OrderBook.run { symbol } ops = some (b, (Reference.run [] ops).2) ∧
      SideMatches (· > ·) b.bids b.pool ((Reference.run [] ops).1.filter (·.side = .buy)) ∧
      SideMatches (· < ·) b.asks b.pool ((Reference.run [] ops).1.filter (·.side ≠ .buy)) := by
  obtain ⟨b, hrun, L, hL, -, hR⟩ := (Refines.empty symbol).run ops
  have hbids : (Reference.run [] ops).1.filter (·.side = .buy) =
      (L.filter Cell.onBids).map Cell.entry := by
    rw [← hR, List.filter_map]
    rfl
  have hasks : (Reference.run [] ops).1.filter (·.side ≠ .buy) =
      (L.filter (!Cell.onBids ·)).map Cell.entry := by
    rw [← hR, List.filter_map]
    refine congrArg _ (List.filter_congr fun c _ => ?_)
    by_cases hside : c.side = .buy <;> simp [Cell.entry, Cell.onBids, hside]
  refine ⟨b, hrun, ?_, ?_⟩
  · rw [hbids]
    refine hL.bids.matches (fun c hc => hL.deref_of_mem (List.mem_filter.mp hc).1) ?_
    intro p p' hlt
    exact Std.compare_eq_lt.mp hlt
  · rw [hasks]
    refine hL.asks.matches (fun c hc => hL.deref_of_mem (List.mem_filter.mp hc).1) ?_
    intro p p' hlt
    exact Std.compare_eq_lt.mp hlt

/-! ## Locators and levels -/

/-- `bids_.find(price)` or `asks_.find(price)`, by side. -/
def levelAt (b : OrderBook) (side : Side) (price : Price) : Option PriceLevel :=
  if side = .buy then b.bids[price]? else b.asks[price]?

theorem levelAt_of_mem_bids {b : OrderBook} {e : Price × PriceLevel} (he : e ∈ b.bids.toList) :
    b.levelAt .buy e.1 = some e.2 := by
  rw [levelAt, if_pos rfl]
  exact ExtTreeMap.mem_toList_iff_getElem?_eq_some.mp he

theorem levelAt_of_mem_asks {b : OrderBook} {e : Price × PriceLevel} (he : e ∈ b.asks.toList) :
    b.levelAt .sell e.1 = some e.2 := by
  rw [levelAt, if_neg (by decide)]
  exact ExtTreeMap.mem_toList_iff_getElem?_eq_some.mp he

/-- The ids of the orders a level queues. -/
def levelIds (b : OrderBook) (lvl : PriceLevel) : List (Option OrderId) :=
  lvl.orders.map fun it => (b.pool.deref it).map (·.id)

/-- The ids of all queued orders of both sides, level by level. -/
def queuedIds (b : OrderBook) : List (Option OrderId) :=
  (b.bids.toList ++ b.asks.toList).flatMap fun e => b.levelIds e.2

/-- The quantities of a level's orders. -/
def quantities (b : OrderBook) (lvl : PriceLevel) : List Nat :=
  lvl.orders.map fun it => ((b.pool.deref it).map (·.quantity.toNat)).getD 0

structure LocatorAgreement (b : OrderBook) : Prop where
  /-- A locator names an existing level and an element of its queue that carries the id. -/
  located : ∀ id loc, b.orders[id]? = some loc → ∃ lvl o, b.levelAt loc.side loc.price = some lvl ∧
    loc.it ∈ lvl.orders ∧ b.pool.deref loc.it = some o ∧ o.id = id
  /-- A queued order has exactly the locator of its place, and is not empty. -/
  queued : ∀ side price lvl, b.levelAt side price = some lvl → ∀ it ∈ lvl.orders,
    ∃ o loc, b.pool.deref it = some o ∧ b.orders[o.id]? = some loc ∧
      (loc.side = .buy ↔ side = .buy) ∧ loc.price = price ∧ loc.it = it ∧ 1 ≤ o.quantity.toNat
  nodup : b.queuedIds.Nodup
  levels : ∀ side price lvl, b.levelAt side price = some lvl →
    lvl.orders ≠ [] ∧ lvl.price = price ∧
      lvl.totalQuantity.toNat = (b.quantities lvl).sum % 2 ^ 32

namespace Represents

variable {b : OrderBook} {L : List Cell}

/-- The cells on the side of the book that `side` selects. -/
def onSide (side : Side) (c : Cell) : Bool := c.side = .buy ↔ side = .buy

theorem levelAt_eq (h : b.Represents L) (side : Side) (price : Price) :
    b.levelAt side price = levelOf price (queue price (L.filter (onSide side))) := by
  have hfilter (p : Cell → Bool) (hp : ∀ c, onSide side c = p c) :
      L.filter (onSide side) = L.filter p := List.filter_congr fun c _ => hp c
  by_cases hside : side = .buy
  · rw [levelAt, if_pos hside, h.bids price, hfilter Cell.onBids]
    intro c
    by_cases hc : c.side = .buy <;> simp [onSide, Cell.onBids, hside, hc]
  · rw [levelAt, if_neg hside, h.asks price, hfilter (!Cell.onBids ·)]
    intro c
    by_cases hc : c.side = .buy <;> simp [onSide, Cell.onBids, hside, hc]

/-- A level holds the addresses of cells of the book. -/
theorem mem_level (h : b.Represents L) {side : Side} {price : Price} {lvl : PriceLevel}
    (hlvl : b.levelAt side price = some lvl) {it : NodeAddr} (hit : it ∈ lvl.orders) :
    ∃ c ∈ L, c.addr = it ∧ c.price = price ∧ (c.side = .buy ↔ side = .buy) := by
  rw [h.levelAt_eq] at hlvl
  obtain ⟨-, rfl⟩ := levelOf_eq_some hlvl
  obtain ⟨c, hc, rfl⟩ := List.mem_map.mp hit
  obtain ⟨hc, hprice⟩ := List.mem_filter.mp hc
  obtain ⟨hc, hside⟩ := List.mem_filter.mp hc
  exact ⟨c, hc, rfl, by simpa using hprice, by simpa [onSide] using hside⟩

theorem levelIds_eq (h : b.Represents L) {side : Side} {price : Price} {lvl : PriceLevel}
    (hlvl : b.levelAt side price = some lvl) :
    b.levelIds lvl = (queue price (L.filter (onSide side))).map fun c => some c.id := by
  rw [h.levelAt_eq] at hlvl
  obtain ⟨-, rfl⟩ := levelOf_eq_some hlvl
  rw [levelIds, List.map_map]
  refine List.map_congr_left ?_
  intro c hc
  have hmem : c ∈ L := (List.mem_filter.mp (List.mem_filter.mp hc).1).1
  simp [h.deref_of_mem hmem, Cell.order]

theorem levelIds_nodup (h : b.Represents L) {side : Side} {price : Price} {lvl : PriceLevel}
    (hlvl : b.levelAt side price = some lvl) : (b.levelIds lvl).Nodup := by
  rw [h.levelIds_eq hlvl]
  have hids : Unique Cell.id (queue price (L.filter (onSide side))) := (h.ids.filter _).filter _
  have := hids.map (Option.some_injective _)
  rwa [List.map_map] at this

/-- An id is queued at one place only. -/
theorem levelIds_disjoint (h : b.Represents L) {side side' : Side} {price price' : Price}
    {lvl lvl' : PriceLevel} (hlvl : b.levelAt side price = some lvl)
    (hlvl' : b.levelAt side' price' = some lvl')
    (hne : price ≠ price' ∨ ¬(side = .buy ↔ side' = .buy)) :
    (b.levelIds lvl).Disjoint (b.levelIds lvl') := by
  rw [h.levelIds_eq hlvl, h.levelIds_eq hlvl']
  intro i hi hi'
  obtain ⟨c, hc, rfl⟩ := List.mem_map.mp hi
  obtain ⟨c', hc', heq⟩ := List.mem_map.mp hi'
  simp only [queue, List.mem_filter, onSide, decide_eq_true_eq] at hc hc'
  obtain rfl : c' = c := h.ids.eq_of_mem hc'.1.1 hc.1.1 (Option.some.inj heq)
  rcases hne with hprice | hside
  · exact hprice (hc.2.symm.trans hc'.2)
  · exact hside (hc.1.2.symm.trans hc'.1.2)

theorem queuedIds_nodup (h : b.Represents L) : b.queuedIds.Nodup := by
  have hkeys {cmp : Price → Price → Ordering} [TransCmp cmp] [LawfulEqCmp cmp] (m : LevelMap cmp) :
      m.toList.Pairwise fun e e' => e.1 ≠ e'.1 := by
    refine ExtTreeMap.ordered_keys_toList.imp fun {e e'} hlt heq => ?_
    have hrefl : cmp e'.1 e'.1 = .eq := Std.ReflCmp.compare_self
    rw [heq, hrefl] at hlt
    exact Ordering.noConfusion hlt
  refine List.nodup_flatMap.mpr ⟨?_, List.pairwise_append.mpr ⟨?_, ?_, ?_⟩⟩
  · intro e he
    rcases List.mem_append.mp he with he | he
    · exact h.levelIds_nodup (levelAt_of_mem_bids he)
    · exact h.levelIds_nodup (levelAt_of_mem_asks he)
  · refine (hkeys b.bids).imp_of_mem ?_
    intro e e' he he' hne
    exact h.levelIds_disjoint (levelAt_of_mem_bids he) (levelAt_of_mem_bids he') (.inl hne)
  · refine (hkeys b.asks).imp_of_mem ?_
    intro e e' he he' hne
    exact h.levelIds_disjoint (levelAt_of_mem_asks he) (levelAt_of_mem_asks he') (.inl hne)
  · intro e he e' he'
    exact h.levelIds_disjoint (levelAt_of_mem_bids he) (levelAt_of_mem_asks he') (.inr (by decide))

theorem locatorAgreement (h : b.Represents L) (hpos : ∀ c ∈ L, c.qty ≠ 0) :
    b.LocatorAgreement where
  located := by
    intro id loc hloc
    rw [h.orders] at hloc
    obtain ⟨c, hlookup, rfl⟩ := Option.map_eq_some_iff.mp hloc
    obtain ⟨hc, rfl⟩ := of_lookup_eq_some hlookup
    have hside : c ∈ queue c.price (L.filter (onSide c.side)) :=
      mem_queue_self (List.mem_filter.mpr ⟨hc, decide_eq_true Iff.rfl⟩)
    exact ⟨_, c.order, (h.levelAt_eq _ _).trans (levelOf_of_mem hside _),
      List.mem_map_of_mem hside, h.deref_of_mem hc, rfl⟩
  queued := by
    intro side price lvl hlvl it hit
    obtain ⟨c, hc, rfl, hprice, hside⟩ := h.mem_level hlvl hit
    refine ⟨c.order, c.location, h.deref_of_mem hc, h.located hc, hside, hprice, rfl, ?_⟩
    exact Nat.one_le_iff_ne_zero.mpr fun hzero => hpos c hc (UInt32.toNat_inj.mp hzero)
  nodup := h.queuedIds_nodup
  levels := by
    intro side price lvl hlvl
    rw [h.levelAt_eq] at hlvl
    obtain ⟨hne, rfl⟩ := levelOf_eq_some hlvl
    refine ⟨by simpa using hne, rfl, ?_⟩
    have hquantities : b.quantities ⟨price, total (queue price (L.filter (onSide side))),
        (queue price (L.filter (onSide side))).map (·.addr)⟩ =
          (queue price (L.filter (onSide side))).map (·.qty.toNat) := by
      rw [quantities, List.map_map]
      refine List.map_congr_left ?_
      intro c hc
      have hmem : c ∈ L := (List.mem_filter.mp (List.mem_filter.mp hc).1).1
      simp [h.deref_of_mem hmem, Cell.order]
    rw [hquantities, total, UInt32.toNat_ofNat']

end Represents

theorem Refines.locatorAgreement {b : OrderBook} {R : Reference} (h : b.Refines R) :
    b.LocatorAgreement := by
  obtain ⟨L, hL, hpos, -⟩ := h
  exact hL.locatorAgreement hpos

/-- Locators and levels agree in every state that calls with arbitrary arguments reach from
an empty book. No call dereferences the end of a map or a dangling iterator, since every run
has a result, and `eraseOrder` never returns early. -/
theorem run_locatorAgreement (symbol : SymbolId) (ops : List Op) :
    ∃ b rets, OrderBook.run { symbol } ops = some (b, rets) ∧ b.LocatorAgreement ∧
      b.pool.earlyReturns = 0 := by
  obtain ⟨b, hrun, L, hL, hpos, -⟩ := (Refines.empty symbol).run ops
  exact ⟨b, _, hrun, hL.locatorAgreement hpos, hL.early⟩

end OrderBook

end Mdfh
