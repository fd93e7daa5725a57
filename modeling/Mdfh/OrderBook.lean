import Mdfh.Protocol
import Mdfh.Library.OrdMap

/-!
# The limit order book

A single-symbol book with price-time priority. Each side is an ordered map from price to
level, best price first; a level queues its orders in arrival order; a locator table maps
each order id to the side, price and list node of its order.

List iterators are addresses of nodes in a pool, so a locator can dangle in the model. An
operation returns `none` where the source would have undefined behaviour: dereferencing
the end of a map or a node that is not there.

## Main definitions

* `OrderBook` — the three linked structures and the node pool.
* `OrderBook.add`, `cancel`, `modify`, `execute`, `clear` — the mutations.
* `OrderBook.run` — a sequence of mutations.
-/

namespace Mdfh

open Std Library.OrdMap

structure RestingOrder where
  id : OrderId := 0
  quantity : Quantity := 0
  deriving DecidableEq, Repr

/-- A `std::list` iterator: the address of a list node. -/
abbrev NodeAddr := Nat

structure PriceLevel where
  price : Price := 0
  totalQuantity : Quantity := 0
  orders : List NodeAddr := []
  deriving DecidableEq, Repr

structure LevelView where
  price : Price := 0
  quantity : Quantity := 0
  orderCount : UInt32 := 0
  deriving DecidableEq, Repr

structure OrderLocation where
  side : Side
  price : Price
  it : NodeAddr
  deriving DecidableEq, Repr

/-- `std::greater<>` on prices. -/
abbrev greater (a b : Price) : Ordering := compare b a

/-- `std::less<>` on prices. -/
abbrev less (a b : Price) : Ordering := compare a b

instance : TransCmp greater := inferInstanceAs (TransCmp fun a b : Int64 => compare b a)
instance : LawfulEqCmp greater := inferInstanceAs (LawfulEqCmp fun a b : Int64 => compare b a)
instance : TransCmp less := inferInstanceAs (TransCmp fun a b : Int64 => compare a b)
instance : LawfulEqCmp less := inferInstanceAs (LawfulEqCmp fun a b : Int64 => compare a b)

abbrev LevelMap (cmp : Price → Price → Ordering) := ExtTreeMap Price PriceLevel cmp
abbrev BidMap := LevelMap greater
abbrev AskMap := LevelMap less

/-- The list nodes in use. Addresses are handed out in order and not used again. -/
structure NodePool where
  cells : ExtTreeMap NodeAddr RestingOrder compare := ∅
  next : NodeAddr := 0
  /-- Ghost state: how often `eraseOrder` returned early. -/
  earlyReturns : Nat := 0

namespace NodePool

def deref (pool : NodePool) (it : NodeAddr) : Option RestingOrder := pool.cells[it]?

def alloc (pool : NodePool) (o : RestingOrder) : NodePool × NodeAddr :=
  ({ pool with cells := pool.cells.insert pool.next o, next := pool.next + 1 }, pool.next)

def store (pool : NodePool) (it : NodeAddr) (o : RestingOrder) : NodePool :=
  { pool with cells := pool.cells.insert it o }

def free (pool : NodePool) (it : NodeAddr) : NodePool :=
  { pool with cells := pool.cells.erase it }

end NodePool

/-! ## Helpers on one side -/

section
variable {cmp : Price → Price → Ordering} [TransCmp cmp]

/-- Insert an order at the back of its price level, creating the level if necessary. -/
def insertOrder (m : LevelMap cmp) (pool : NodePool) (price : Price) (id : OrderId)
    (qty : Quantity) : LevelMap cmp × NodePool × NodeAddr :=
  let level := match m[price]? with
    | some level => level
    | none => { price }
  let (pool, it) := pool.alloc ⟨id, qty⟩
  let level := { level with
    totalQuantity := level.totalQuantity + qty
    orders := level.orders ++ [it] }
  (m.insert price level, pool, it)

/-- Remove one order from its level; erase the level if it becomes empty. Erasing a node
that is not in the level's list is undefined. -/
def eraseOrder (m : LevelMap cmp) (pool : NodePool) (price : Price) (it : NodeAddr) :
    Option (LevelMap cmp × NodePool) :=
  match m[price]? with
  | none => some (m, { pool with earlyReturns := pool.earlyReturns + 1 })
  | some level => do
    let o ← pool.deref it
    guard (it ∈ level.orders)
    let level := { level with
      totalQuantity := level.totalQuantity - o.quantity
      orders := level.orders.erase it }
    let m := if level.orders.isEmpty then m.erase price else m.insert price level
    return (m, pool.free it)

/-- `m.find(price)->second.total_quantity -= delta`. -/
def subTotal (m : LevelMap cmp) (price : Price) (delta : Quantity) : Option (LevelMap cmp) := do
  let level ← m[price]?
  return m.insert price { level with totalQuantity := level.totalQuantity - delta }

end

/-! ## The book -/

structure OrderBook where
  symbol : SymbolId := 0
  bids : BidMap := ∅
  asks : AskMap := ∅
  orders : ExtTreeMap OrderId OrderLocation compare := ∅
  pool : NodePool := {}

namespace OrderBook

/-- Insert on the side the source selects: `bids_` for `Buy`, `asks_` for anything else. -/
def insertOn (b : OrderBook) (side : Side) (price : Price) (id : OrderId) (qty : Quantity) :
    OrderBook × NodeAddr :=
  if side = .buy then
    let (bids, pool, it) := insertOrder b.bids b.pool price id qty
    ({ b with bids, pool }, it)
  else
    let (asks, pool, it) := insertOrder b.asks b.pool price id qty
    ({ b with asks, pool }, it)

def eraseOn (b : OrderBook) (loc : OrderLocation) : Option OrderBook :=
  if loc.side = .buy then do
    let (bids, pool) ← eraseOrder b.bids b.pool loc.price loc.it
    return { b with bids, pool }
  else do
    let (asks, pool) ← eraseOrder b.asks b.pool loc.price loc.it
    return { b with asks, pool }

def subTotalOn (b : OrderBook) (loc : OrderLocation) (delta : Quantity) : Option OrderBook :=
  if loc.side = .buy then do
    let bids ← subTotal b.bids loc.price delta
    return { b with bids }
  else do
    let asks ← subTotal b.asks loc.price delta
    return { b with asks }

def add (b : OrderBook) (id : OrderId) (side : Side) (price : Price) (qty : Quantity) :
    OrderBook × Bool :=
  if qty = 0 then (b, false)
  else if b.orders[id]?.isSome then (b, false)
  else
    let (b, it) := b.insertOn side price id qty
    ({ b with orders := b.orders.insert id ⟨side, price, it⟩ }, true)

def cancel (b : OrderBook) (id : OrderId) : Option (OrderBook × Bool) :=
  match b.orders[id]? with
  | none => some (b, false)
  | some loc => do
    let b ← b.eraseOn loc
    return ({ b with orders := b.orders.erase id }, true)

def modify (b : OrderBook) (id : OrderId) (newPrice : Price) (newQty : Quantity) :
    Option (OrderBook × Bool) :=
  if newQty = 0 then b.cancel id
  else match b.orders[id]? with
  | none => some (b, false)
  | some loc => do
    let o ← b.pool.deref loc.it
    let oldQty := o.quantity
    if newPrice = loc.price ∧ newQty ≤ oldQty then
      -- A size reduction at the same price keeps time priority.
      let delta := oldQty - newQty
      let b := { b with pool := b.pool.store loc.it { o with quantity := newQty } }
      let b ← b.subTotalOn loc delta
      return (b, true)
    else
      let b ← b.eraseOn loc
      let (b, it) := b.insertOn loc.side newPrice id newQty
      return ({ b with orders := b.orders.insert id ⟨loc.side, newPrice, it⟩ }, true)

def execute (b : OrderBook) (restingId : OrderId) (qty : Quantity) : Option (OrderBook × Bool) :=
  match b.orders[restingId]? with
  | none => some (b, false)
  | some loc => do
    let o ← b.pool.deref loc.it
    let fill := min qty o.quantity
    let b := { b with pool := b.pool.store loc.it { o with quantity := o.quantity - fill } }
    let b ← b.subTotalOn loc fill
    let o ← b.pool.deref loc.it
    if o.quantity = 0 then
      let b ← b.eraseOn loc
      return ({ b with orders := b.orders.erase restingId }, true)
    else return (b, true)

def clear (b : OrderBook) : OrderBook :=
  { b with
    bids := ∅
    asks := ∅
    orders := ∅
    -- The lists are destroyed with their levels, and their nodes with them.
    pool := { b.pool with cells := ∅ } }

/-! ## Queries -/

def orderCount (b : OrderBook) : Nat := b.orders.size

def bidLevels (b : OrderBook) : Nat := b.bids.size

def askLevels (b : OrderBook) : Nat := b.asks.size

def PriceLevel.view (lvl : PriceLevel) : LevelView :=
  ⟨lvl.price, lvl.totalQuantity, UInt32.ofNat lvl.orders.length⟩

def bestBid (b : OrderBook) : Option LevelView := (first? b.bids).map fun e => PriceLevel.view e.2

def bestAsk (b : OrderBook) : Option LevelView := (first? b.asks).map fun e => PriceLevel.view e.2

/-! ## Runs -/

inductive Op where
  | add (id : OrderId) (side : Side) (price : Price) (qty : Quantity)
  | cancel (id : OrderId)
  | modify (id : OrderId) (newPrice : Price) (newQty : Quantity)
  | execute (restingId : OrderId) (qty : Quantity)
  | clear
  deriving DecidableEq, Repr

/-- One call, with the value it returns (`clear` returns none; we count it as `true`). -/
def apply (b : OrderBook) : Op → Option (OrderBook × Bool)
  | .add id side price qty => some (b.add id side price qty)
  | .cancel id => b.cancel id
  | .modify id newPrice newQty => b.modify id newPrice newQty
  | .execute restingId qty => b.execute restingId qty
  | .clear => some (b.clear, true)

/-- A sequence of calls with the values they return. -/
def run (b : OrderBook) : List Op → Option (OrderBook × List Bool)
  | [] => some (b, [])
  | op :: ops => do
    let (b, ret) ← b.apply op
    let (b, rets) ← b.run ops
    return (b, ret :: rets)

end OrderBook

end Mdfh
