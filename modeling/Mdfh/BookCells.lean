import Mdfh.OrderBook
import Mdfh.Library.Keyed

/-!
# The book as one list of cells

Every resting order of both sides as one list in arrival order, each with the address of
its list node. A book represents such a list when its maps, its locators and its node pool
can all be read off it. The three elementary changes (append a cell, remove one, lower a
quantity) are what the helpers of the book do to the list.

## Main definitions

* `Cell`, `Levels`, `OrderBook.Represents`.

## Main results

* `Represents.insert`, `Represents.erase`, `Represents.setQty` — the elementary changes.
* `Represents.execute` — an execution is one of the last two.
-/

namespace Mdfh

open Std Library Library.Keyed

/-- A resting order with its id, its place and the address of its list node. -/
structure Cell where
  addr : NodeAddr
  id : OrderId
  side : Side
  price : Price
  qty : Quantity
  deriving DecidableEq

namespace Cell

def order (c : Cell) : RestingOrder := ⟨c.id, c.qty⟩

def location (c : Cell) : OrderLocation := ⟨c.side, c.price, c.addr⟩

def onBids (c : Cell) : Bool := c.side = .buy

def setQty (qty : Quantity) (c : Cell) : Cell := { c with qty }

@[simp] theorem setQty_addr (qty : Quantity) (c : Cell) : (c.setQty qty).addr = c.addr := rfl
@[simp] theorem setQty_id (qty : Quantity) (c : Cell) : (c.setQty qty).id = c.id := rfl

end Cell

/-! ## Totals -/

/-- The sum of the quantities modulo 2^32. -/
def total (q : List Cell) : Quantity := UInt32.ofNat (q.map (·.qty.toNat)).sum

theorem total_append (q : List Cell) (c : Cell) : total (q ++ [c]) = total q + c.qty := by
  simp [total, UInt32.ofNat_add]

section
variable {q : List Cell} {c : Cell}

theorem total_remove (h : Unique Cell.addr q) (hc : c ∈ q) :
    total (remove Cell.addr c.addr q) = total q - c.qty := by
  have hsum := h.sum_remove hc (·.qty.toNat)
  rw [total, total, hsum, UInt32.ofNat_add, UInt32.ofNat_toNat]
  grind

theorem total_setQty (h : Unique Cell.addr q) (hc : c ∈ q) (qty : Quantity) :
    total (update Cell.addr c.addr (Cell.setQty qty) q) = total q - (c.qty - qty) := by
  have hsum := h.sum_update (f := Cell.setQty qty) hc (fun _ => rfl) (·.qty.toNat)
  have hword := congrArg UInt32.ofNat hsum
  simp only [UInt32.ofNat_add, UInt32.ofNat_toNat] at hword
  have hset : (c.setQty qty).qty = qty := rfl
  rw [hset] at hword
  rw [total, total]
  grind

end

/-! ## One side -/

/-- The level of a price whose orders are the cells `q`. -/
def levelOf (price : Price) (q : List Cell) : Option PriceLevel :=
  if q = [] then none else some ⟨price, total q, q.map (·.addr)⟩

/-- The cells at one price, oldest first. -/
def queue (price : Price) (Q : List Cell) : List Cell := Q.filter (·.price = price)

/-- The map holds exactly the levels of the cells `Q`. -/
def Levels {cmp : Price → Price → Ordering} [TransCmp cmp] (m : LevelMap cmp) (Q : List Cell) : Prop :=
  ∀ p, m[p]? = levelOf p (queue p Q)

section
variable {cmp : Price → Price → Ordering} [TransCmp cmp] [LawfulEqCmp cmp] {m : LevelMap cmp}
  {Q : List Cell} {c : Cell}

theorem mem_queue_self (hc : c ∈ Q) : c ∈ queue c.price Q :=
  List.mem_filter.mpr ⟨hc, decide_eq_true rfl⟩

theorem levelOf_of_mem {q : List Cell} (hc : c ∈ q) (p : Price) :
    levelOf p q = some ⟨p, total q, q.map (·.addr)⟩ := if_neg (List.ne_nil_of_mem hc)

theorem queue_append_self : queue c.price (Q ++ [c]) = queue c.price Q ++ [c] := by
  simp [queue]

theorem queue_append_other {p : Price} (hp : c.price ≠ p) : queue p (Q ++ [c]) = queue p Q := by
  simp [queue, hp]

theorem queue_remove_other (h : Unique Cell.addr Q) (hc : c ∈ Q) {p : Price} (hp : c.price ≠ p) :
    queue p (remove Cell.addr c.addr Q) = queue p Q := by
  rw [queue, filter_remove, ← queue]
  refine remove_eq_self (lookup_eq_none_iff.mpr fun x hx haddr => hp ?_)
  obtain ⟨hx, hprice⟩ := List.mem_filter.mp hx
  rw [← h.eq_of_mem hx hc haddr]
  simpa using hprice

/-- Inserting allocates a node and appends its cell. -/
theorem Levels.insert (h : Levels m Q) (pool : NodePool) (haddr : c.addr = pool.next) :
    ∃ m', insertOrder m pool c.price c.id c.qty = (m', pool.alloc c.order) ∧
      Levels m' (Q ++ [c]) := by
  refine ⟨_, rfl, fun p => ?_⟩
  rw [OrdMap.getElem?_insert]
  split_ifs with hp
  · subst hp
    have hlevel := h c.price
    rw [queue_append_self, levelOf_of_mem (c := c) (by simp), total_append]
    rw [hlevel]
    by_cases hq : queue c.price Q = []
    · simp [levelOf, hq, total, haddr]
    · simp [levelOf, hq, haddr]
  · rw [h p, queue_append_other hp]

theorem map_addr_erase {q : List Cell} (h : Unique Cell.addr q) :
    (q.map (·.addr)).erase c.addr = (remove Cell.addr c.addr q).map (·.addr) := by
  rw [List.Nodup.erase_eq_filter h, List.filter_map]
  refine congrArg _ (List.filter_congr fun x _ => ?_)
  by_cases hx : x.addr = c.addr <;> simp [hx]

/-- Erasing finds the level of the cell and frees its node. -/
theorem Levels.erase (h : Levels m Q) (hQ : Unique Cell.addr Q) (hc : c ∈ Q) (pool : NodePool)
    (hderef : pool.deref c.addr = some c.order) :
    ∃ m', eraseOrder m pool c.price c.addr = some (m', pool.free c.addr) ∧
      Levels m' (remove Cell.addr c.addr Q) := by
  have hmem := mem_queue_self hc
  have hlevel := (h c.price).trans (levelOf_of_mem hmem c.price)
  have hqueue : Unique Cell.addr (queue c.price Q) := hQ.filter _
  have hin : c.addr ∈ (queue c.price Q).map (·.addr) := List.mem_map_of_mem hmem
  have hkeep : queue c.price (remove Cell.addr c.addr Q) =
      remove Cell.addr c.addr (queue c.price Q) := filter_remove _
  have hother {p : Price} (hp : c.price ≠ p) :
      m[p]? = levelOf p (queue p (remove Cell.addr c.addr Q)) := by
    rw [h p, queue_remove_other hQ hc hp]
  by_cases hlast : remove Cell.addr c.addr (queue c.price Q) = []
  · refine ⟨m.erase c.price, ?_, fun p => ?_⟩
    · simp [eraseOrder, hlevel, hderef, hin, map_addr_erase hqueue, hlast]
    · rw [OrdMap.getElem?_erase]
      split_ifs with hp
      · rw [← hp, hkeep, levelOf, if_pos hlast]
      · exact hother hp
  · refine ⟨m.insert c.price ⟨c.price, total (queue c.price Q) - c.qty,
      (remove Cell.addr c.addr (queue c.price Q)).map (·.addr)⟩, ?_, fun p => ?_⟩
    · simp [eraseOrder, hlevel, hderef, hin, map_addr_erase hqueue, hlast, Cell.order]
    · rw [OrdMap.getElem?_insert]
      split_ifs with hp
      · rw [← hp, hkeep, levelOf, if_neg hlast, total_remove hqueue hmem]
      · exact hother hp

/-- Lowering a total finds the level of the cell. -/
theorem Levels.setQty (h : Levels m Q) (hQ : Unique Cell.addr Q) (hc : c ∈ Q) (qty : Quantity) :
    ∃ m', subTotal m c.price (c.qty - qty) = some m' ∧
      Levels m' (update Cell.addr c.addr (Cell.setQty qty) Q) := by
  have hmem := mem_queue_self hc
  have hlevel := (h c.price).trans (levelOf_of_mem hmem c.price)
  have hqueue : Unique Cell.addr (queue c.price Q) := hQ.filter _
  have hkeep (p : Price) : queue p (update Cell.addr c.addr (Cell.setQty qty) Q) =
      update Cell.addr c.addr (Cell.setQty qty) (queue p Q) := filter_update _ fun _ => rfl
  refine ⟨m.insert c.price ⟨c.price, total (queue c.price Q) - (c.qty - qty),
    (queue c.price Q).map (·.addr)⟩, ?_, fun p => ?_⟩
  · simp [subTotal, hlevel]
  · rw [OrdMap.getElem?_insert, hkeep]
    split_ifs with hp
    · subst hp
      have hset : c.setQty qty ∈ update Cell.addr c.addr (Cell.setQty qty) (queue c.price Q) :=
        List.mem_map.mpr ⟨c, hmem, if_pos rfl⟩
      rw [levelOf_of_mem hset, total_setQty hqueue hmem, map_update _ (Cell.setQty_addr qty)]
    · have hfresh : lookup Cell.addr c.addr (queue p Q) = none := by
        refine lookup_eq_none_iff.mpr fun x hx haddr => hp ?_
        obtain ⟨hx, hprice⟩ := List.mem_filter.mp hx
        rw [← hQ.eq_of_mem hx hc haddr]
        simpa using hprice
      rw [h p, update_eq_self hfresh]

end

/-! ## The whole book -/

namespace OrderBook

/-- Inserting neither reads nor writes the locators. -/
theorem insertOn_setOrders (b : OrderBook) (orders : ExtTreeMap OrderId OrderLocation compare)
    (side : Side) (price : Price) (id : OrderId) (qty : Quantity) :
    insertOn { b with orders } side price id qty =
      ({ (b.insertOn side price id qty).1 with orders }, (b.insertOn side price id qty).2) := by
  unfold insertOn
  split <;> rfl

@[simp] theorem insertOn_orders (b : OrderBook) (side : Side) (price : Price) (id : OrderId)
    (qty : Quantity) : (b.insertOn side price id qty).1.orders = b.orders := by
  unfold insertOn
  split <;> rfl

/-- The maps, the locators and the node pool are those of the cells `L`. -/
structure Represents (b : OrderBook) (L : List Cell) : Prop where
  addrs : Unique Cell.addr L
  ids : Unique Cell.id L
  fresh : ∀ c ∈ L, c.addr < b.pool.next
  cells : ∀ a, b.pool.deref a = (lookup Cell.addr a L).map Cell.order
  orders : ∀ i, b.orders[i]? = (lookup Cell.id i L).map Cell.location
  bids : Levels b.bids (L.filter Cell.onBids)
  asks : Levels b.asks (L.filter (!Cell.onBids ·))
  early : b.pool.earlyReturns = 0

/-- What an operation that allocates no node leaves alone. -/
structure SameFrame (b b' : OrderBook) : Prop where
  symbol : b'.symbol = b.symbol
  next : b'.pool.next = b.pool.next

theorem represents_nil {b : OrderBook} (hbids : b.bids = ∅) (hasks : b.asks = ∅)
    (horders : b.orders = ∅) (hcells : b.pool.cells = ∅) (hearly : b.pool.earlyReturns = 0) :
    b.Represents [] where
  addrs := List.nodup_nil
  ids := List.nodup_nil
  fresh := by simp
  cells a := by simp [NodePool.deref, hcells, lookup]
  orders i := by simp [horders, lookup]
  bids p := by simp [hbids, levelOf, queue]
  asks p := by simp [hasks, levelOf, queue]
  early := hearly

namespace Represents

variable {b : OrderBook} {L : List Cell} {c : Cell}

theorem deref_of_mem (h : b.Represents L) (hc : c ∈ L) : b.pool.deref c.addr = some c.order := by
  rw [h.cells, h.addrs.lookup_of_mem hc, Option.map_some]

theorem located (h : b.Represents L) (hc : c ∈ L) : b.orders[c.id]? = some c.location := by
  rw [h.orders, h.ids.lookup_of_mem hc, Option.map_some]

/-- Nothing is on both sides. -/
theorem lookup_other_side (h : b.Represents L) (hc : c ∈ L) (p : Cell → Bool) (hp : p c = false) :
    lookup Cell.addr c.addr (L.filter p) = none := by
  refine lookup_eq_none_iff.mpr ?_
  intro x hx haddr
  obtain ⟨hx, hpx⟩ := List.mem_filter.mp hx
  rw [h.addrs.eq_of_mem hx hc haddr, hp] at hpx
  exact Bool.noConfusion hpx

theorem insert (h : b.Represents L) (id : OrderId) (side : Side) (price : Price) (qty : Quantity)
    (hid : lookup Cell.id id L = none) :
    let r := b.insertOn side price id qty
    OrderBook.Represents { r.1 with orders := b.orders.insert id ⟨side, price, r.2⟩ }
      (L ++ [⟨b.pool.next, id, side, price, qty⟩]) := by
  set c : Cell := ⟨b.pool.next, id, side, price, qty⟩ with hcdef
  have haddr : lookup Cell.addr c.addr L = none :=
    lookup_eq_none_iff.mpr fun x hx heq => (h.fresh x hx).ne heq
  obtain ⟨bids', hbids, hbids'⟩ := h.bids.insert (c := c) b.pool rfl
  obtain ⟨asks', hasks, hasks'⟩ := h.asks.insert (c := c) b.pool rfl
  have hfresh : ∀ x ∈ L ++ [c], x.addr < b.pool.next + 1 := by
    intro x hx
    rcases List.mem_append.mp hx with hx | hx
    · exact (h.fresh x hx).trans (Nat.lt_succ_self _)
    · rw [List.mem_singleton.mp hx]
      exact Nat.lt_succ_self _
  have hcells (a : NodeAddr) : (b.pool.alloc c.order).1.deref a =
      (lookup Cell.addr a (L ++ [c])).map Cell.order := by
    have hold := h.cells a
    rw [NodePool.deref] at hold
    rw [lookup_append_of_fresh haddr, NodePool.deref, NodePool.alloc, OrdMap.getElem?_insert, hold]
    split_ifs <;> rfl
  have horders (i : OrderId) : (b.orders.insert id c.location)[i]? =
      (lookup Cell.id i (L ++ [c])).map Cell.location := by
    rw [lookup_append_of_fresh hid, OrdMap.getElem?_insert, h.orders]
    split_ifs <;> rfl
  intro r
  by_cases hside : side = .buy
  · have hr : r = ({ b with bids := bids', pool := (b.pool.alloc c.order).1 }, c.addr) := by
      simp only [r, insertOn, if_pos hside]
      rw [hbids]
      rfl
    have hon : c.onBids = true := decide_eq_true hside
    rw [hr]
    refine ⟨h.addrs.append_singleton haddr, h.ids.append_singleton hid, hfresh, hcells, horders,
      ?_, ?_, h.early⟩
    · rw [List.filter_append, List.filter_cons_of_pos hon]
      exact hbids'
    · rw [List.filter_append, List.filter_cons_of_neg (by simp [hon]), List.filter_nil,
        List.append_nil]
      exact h.asks
  · have hr : r = ({ b with asks := asks', pool := (b.pool.alloc c.order).1 }, c.addr) := by
      simp only [r, insertOn, if_neg hside]
      rw [hasks]
      rfl
    have hon : c.onBids = false := decide_eq_false hside
    rw [hr]
    refine ⟨h.addrs.append_singleton haddr, h.ids.append_singleton hid, hfresh, hcells, horders,
      ?_, ?_, h.early⟩
    · rw [List.filter_append, List.filter_cons_of_neg (by simp [hon]), List.filter_nil,
        List.append_nil]
      exact h.bids
    · rw [List.filter_append, List.filter_cons_of_pos (by simp [hon])]
      exact hasks'

/-- The cells of a side after a removal, when the removed cell is on it. -/
theorem filter_remove_id (h : b.Represents L) (hc : c ∈ L) (p : Cell → Bool) (hp : p c = true) :
    (remove Cell.id c.id L).filter p = remove Cell.addr c.addr (L.filter p) := by
  rw [filter_remove]
  exact (h.ids.filter p).remove_eq (h.addrs.filter p) (List.mem_filter.mpr ⟨hc, hp⟩)

/-- The cells of a side after a removal, when the removed cell is on the other one. -/
theorem filter_remove_id_other (h : b.Represents L) (hc : c ∈ L) (p : Cell → Bool)
    (hp : p c = false) : (remove Cell.id c.id L).filter p = L.filter p := by
  rw [h.ids.remove_eq h.addrs hc, filter_remove, remove_eq_self (h.lookup_other_side hc p hp)]

theorem filter_update_id (h : b.Represents L) (hc : c ∈ L) (p : Cell → Bool) (hp : p c = true)
    (qty : Quantity) (hset : ∀ x : Cell, p (x.setQty qty) = p x) :
    (update Cell.id c.id (Cell.setQty qty) L).filter p =
      update Cell.addr c.addr (Cell.setQty qty) (L.filter p) := by
  rw [filter_update p hset]
  exact (h.ids.filter p).update_eq (h.addrs.filter p) (List.mem_filter.mpr ⟨hc, hp⟩)

theorem filter_update_id_other (h : b.Represents L) (hc : c ∈ L) (p : Cell → Bool)
    (hp : p c = false) (qty : Quantity) (hset : ∀ x : Cell, p (x.setQty qty) = p x) :
    (update Cell.id c.id (Cell.setQty qty) L).filter p = L.filter p := by
  rw [h.ids.update_eq h.addrs hc, filter_update p hset,
    update_eq_self (h.lookup_other_side hc p hp)]

theorem erase (h : b.Represents L) (hc : c ∈ L) :
    ∃ b', b.eraseOn c.location = some b' ∧ b'.orders = b.orders ∧ b.SameFrame b' ∧
      OrderBook.Represents { b' with orders := b.orders.erase c.id } (remove Cell.id c.id L) := by
  have hderef := h.deref_of_mem hc
  have hfresh : ∀ x ∈ remove Cell.id c.id L, x.addr < b.pool.next :=
    fun x hx => h.fresh x (mem_remove.mp hx).1
  have hcells (a : NodeAddr) : (b.pool.free c.addr).deref a =
      (lookup Cell.addr a (remove Cell.id c.id L)).map Cell.order := by
    have hold := h.cells a
    rw [NodePool.deref] at hold
    rw [h.ids.remove_eq h.addrs hc, lookup_remove, NodePool.deref, NodePool.free,
      OrdMap.getElem?_erase, hold]
    split_ifs <;> rfl
  have horders (i : OrderId) : (b.orders.erase c.id)[i]? =
      (lookup Cell.id i (remove Cell.id c.id L)).map Cell.location := by
    rw [lookup_remove, OrdMap.getElem?_erase, h.orders]
    split_ifs <;> rfl
  by_cases hside : c.side = .buy
  · have hon : c.onBids = true := decide_eq_true hside
    obtain ⟨bids', hbids, hbids'⟩ := h.bids.erase (h.addrs.filter _)
      (List.mem_filter.mpr ⟨hc, hon⟩) b.pool hderef
    refine ⟨{ b with bids := bids', pool := b.pool.free c.addr }, ?_, rfl, ⟨rfl, rfl⟩,
      h.addrs.filter _, h.ids.filter _, hfresh, hcells, horders, ?_, ?_, h.early⟩
    · rw [eraseOn, if_pos (show c.location.side = .buy from hside)]
      simp only [Cell.location, hbids]
      rfl
    · rw [h.filter_remove_id hc _ hon]
      exact hbids'
    · rw [h.filter_remove_id_other hc _ (by simp [hon])]
      exact h.asks
  · have hon : c.onBids = false := decide_eq_false hside
    have hnot : (!c.onBids) = true := by simp [hon]
    obtain ⟨asks', hasks, hasks'⟩ := h.asks.erase (h.addrs.filter _)
      (List.mem_filter.mpr ⟨hc, hnot⟩) b.pool hderef
    refine ⟨{ b with asks := asks', pool := b.pool.free c.addr }, ?_, rfl, ⟨rfl, rfl⟩,
      h.addrs.filter _, h.ids.filter _, hfresh, hcells, horders, ?_, ?_, h.early⟩
    · rw [eraseOn, if_neg (show ¬c.location.side = .buy from hside)]
      simp only [Cell.location, hasks]
      rfl
    · rw [h.filter_remove_id_other hc _ hon]
      exact h.bids
    · rw [h.filter_remove_id hc _ hnot]
      exact hasks'

theorem setQty (h : b.Represents L) (hc : c ∈ L) (qty : Quantity) :
    ∃ b', OrderBook.subTotalOn { b with pool := b.pool.store c.addr ⟨c.id, qty⟩ } c.location
        (c.qty - qty) = some b' ∧ b.SameFrame b' ∧
      b'.Represents (update Cell.id c.id (Cell.setQty qty) L) := by
  have haddrs : Unique Cell.addr (update Cell.id c.id (Cell.setQty qty) L) :=
    h.addrs.update _ (Cell.setQty_addr qty)
  have hids : Unique Cell.id (update Cell.id c.id (Cell.setQty qty) L) :=
    h.ids.update _ (Cell.setQty_id qty)
  have hfresh : ∀ x ∈ update Cell.id c.id (Cell.setQty qty) L, x.addr < b.pool.next := by
    intro x hx
    obtain ⟨y, hy, rfl⟩ := List.mem_map.mp hx
    split_ifs <;> exact h.fresh y hy
  have hcells (a : NodeAddr) : (b.pool.store c.addr ⟨c.id, qty⟩).deref a =
      (lookup Cell.addr a (update Cell.id c.id (Cell.setQty qty) L)).map Cell.order := by
    have hold := h.cells a
    rw [NodePool.deref] at hold
    rw [h.ids.update_eq h.addrs hc, lookup_update (Cell.setQty_addr qty), NodePool.deref, NodePool.store,
      OrdMap.getElem?_insert, hold]
    split_ifs with ha
    · rw [← ha, h.addrs.lookup_of_mem hc]
      rfl
    · rfl
  have horders (i : OrderId) : b.orders[i]? =
      (lookup Cell.id i (update Cell.id c.id (Cell.setQty qty) L)).map Cell.location := by
    rw [lookup_update (Cell.setQty_id qty), h.orders]
    split_ifs with hi
    · rw [← hi, h.ids.lookup_of_mem hc]
      rfl
    · rfl
  by_cases hside : c.side = .buy
  · have hon : c.onBids = true := decide_eq_true hside
    obtain ⟨bids', hbids, hbids'⟩ := h.bids.setQty (h.addrs.filter _)
      (List.mem_filter.mpr ⟨hc, hon⟩) qty
    refine ⟨{ b with bids := bids', pool := b.pool.store c.addr ⟨c.id, qty⟩ }, ?_, ⟨rfl, rfl⟩,
      haddrs, hids, hfresh, hcells, horders, ?_, ?_, h.early⟩
    · rw [subTotalOn, if_pos (show c.location.side = .buy from hside)]
      simp only [Cell.location, hbids]
      rfl
    · rw [h.filter_update_id hc _ hon qty fun _ => rfl]
      exact hbids'
    · rw [h.filter_update_id_other hc _ (by simp [hon]) qty fun _ => rfl]
      exact h.asks
  · have hon : c.onBids = false := decide_eq_false hside
    have hnot : (!c.onBids) = true := by simp [hon]
    obtain ⟨asks', hasks, hasks'⟩ := h.asks.setQty (h.addrs.filter _)
      (List.mem_filter.mpr ⟨hc, hnot⟩) qty
    refine ⟨{ b with asks := asks', pool := b.pool.store c.addr ⟨c.id, qty⟩ }, ?_, ⟨rfl, rfl⟩,
      haddrs, hids, hfresh, hcells, horders, ?_, ?_, h.early⟩
    · rw [subTotalOn, if_neg (show ¬c.location.side = .buy from hside)]
      simp only [Cell.location, hasks]
      rfl
    · rw [h.filter_update_id_other hc _ hon qty fun _ => rfl]
      exact h.bids
    · rw [h.filter_update_id hc _ hnot qty fun _ => rfl]
      exact hasks'

/-- The cells after an execution against an id. -/
def filled (L : List Cell) (id : OrderId) (qty : Quantity) : List Cell :=
  match lookup Cell.id id L with
  | none => L
  | some c =>
    let remaining := c.qty - min qty c.qty
    if remaining = 0 then remove Cell.id id L else update Cell.id id (Cell.setQty remaining) L

theorem execute (h : b.Represents L) (id : OrderId) (qty : Quantity) :
    ∃ b', b.execute id qty = some (b', (lookup Cell.id id L).isSome) ∧ b.SameFrame b' ∧
      b'.Represents (filled L id qty) := by
  rw [OrderBook.execute, h.orders, filled]
  cases hid : lookup Cell.id id L with
  | none => exact ⟨b, rfl, ⟨rfl, rfl⟩, h⟩
  | some c =>
    obtain ⟨hc, rfl⟩ := of_lookup_eq_some hid
    have hderef : b.pool.deref c.location.it = some c.order := h.deref_of_mem hc
    let remaining := c.qty - min qty c.qty
    have hfill : c.qty - remaining = min qty c.qty := by grind
    obtain ⟨b₁, hset, hframe₁, hb₁⟩ := h.setQty hc remaining
    have hc₁ : c.setQty remaining ∈ update Cell.id c.id (Cell.setQty remaining) L :=
      List.mem_map.mpr ⟨c, hc, if_pos rfl⟩
    have hderef₁ : b₁.pool.deref c.addr = some ⟨c.id, remaining⟩ := hb₁.deref_of_mem hc₁
    simp only [Option.map_some, hderef, Option.bind_eq_bind, Option.bind_some]
    simp only [Cell.location, Cell.order] at hset ⊢
    rw [hfill] at hset
    simp only [show c.qty - min qty c.qty = remaining from rfl, hset, Option.bind_some, hderef₁]
    by_cases hzero : remaining = 0
    · obtain ⟨b₂, herase, horders₂, hframe₂, hb₂⟩ := hb₁.erase hc₁
      have hremove : remove Cell.id c.id (update Cell.id c.id (Cell.setQty remaining) L) =
          remove Cell.id c.id L := remove_update (Cell.setQty_id remaining)
      have herase : b₁.eraseOn ⟨c.side, c.price, c.addr⟩ = some b₂ := herase
      simp only [Cell.setQty_id, hremove, ← horders₂] at hb₂
      simp only [hzero, if_true, herase, Option.bind_some]
      exact ⟨_, rfl, ⟨hframe₂.symbol.trans hframe₁.symbol, hframe₂.next.trans hframe₁.next⟩, hb₂⟩
    · simp only [hzero, if_false]
      exact ⟨b₁, rfl, hframe₁, hb₁⟩

end Represents

end OrderBook

end Mdfh
