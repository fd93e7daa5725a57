import Mdfh.Delivery
import Mdfh.OrderBook

/-!
# The market simulator

A generator of protocol messages. It keeps a model of its own resting orders so that every
cancellation, modification and trade refers to a live order, and it chooses prices that do
not cross the opposite side.

Random numbers come from a generator of which only the range of its results is known. A
computation fails with a `Fault` where the source would throw or have undefined behaviour;
prices are checked at every arithmetic operation, intermediate products included.

## Main definitions

* `SimConfig`, `Rng`, `SymbolState`, `MarketSimulator`.
* `choosePrice`, `fillAdd`, `fillCancel`, `fillModify`, `fillTrade` — the messages.
* `MarketSimulator.next`, `MarketSimulator.emit` — one message, and the first ones.
-/

namespace Mdfh

open Std Library.OrdMap

structure SimConfig where
  numSymbols : UInt32 := 4
  numMessages : UInt64 := 1000000
  seed : UInt64 := 42
  startPrice : Price := 100 * kPriceScale
  symbolPriceStep : Price := 5 * kPriceScale
  tick : Price := kPriceScale / 100
  bandLevels : UInt32 := 10
  minQty : Quantity := 1
  maxQty : Quantity := 500
  tsStart : TimestampNs := 1000000000
  tsStepNs : TimestampNs := 1000
  wAdd : Int32 := 50
  wCancel : Int32 := 22
  wModify : Int32 := 18
  wTrade : Int32 := 10
  snapshotInterval : UInt64 := 0
  heartbeatInterval : UInt64 := 100000

structure GeneratedMessage where
  type : MsgType := .heartbeat
  seq : Sequence := 0
  ts : TimestampNs := 0
  add : AddOrder := {}
  cancel : CancelOrder := {}
  modify : ModifyOrder := {}
  trade : Trade := {}
  snap : BookSnapshot := {}

/-- The call of the sink. -/
def GeneratedMessage.dispatch (m : GeneratedMessage) : Message where
  seq := m.seq
  ts := m.ts
  body := match m.type with
    | .addOrder => .addOrder m.add
    | .cancelOrder => .cancelOrder m.cancel
    | .modifyOrder => .modifyOrder m.modify
    | .trade => .trade m.trade
    | .bookSnapshot => .bookSnapshot m.snap
    | .heartbeat => .heartbeat

/-! ## Faults, random numbers, prices -/

inductive Fault where
  /-- A computed price is not a 64-bit integer. -/
  | priceOverflow
  /-- A distribution was asked for an empty range. -/
  | emptyRange
  /-- An access to a container out of range. -/
  | outOfRange
  deriving DecidableEq

/-- A pseudo-random engine with the uniform distributions on top of it. -/
structure Rng where
  State : Type
  seed : UInt64 → State
  draw : (lo hi : Nat) → lo ≤ hi → State → State × { v : Nat // lo ≤ v ∧ v ≤ hi }

/-- `uniform_int_distribution(lo, hi)(rng_)`. -/
def Rng.uniform (rng : Rng) (lo hi : Nat) (g : rng.State) : Except Fault (Nat × rng.State) :=
  if h : lo ≤ hi then
    let (g, v) := rng.draw lo hi h g
    .ok (v, g)
  else .error .emptyRange

def checkedPrice (v : Int) : Except Fault Price :=
  if -2 ^ 63 ≤ v ∧ v < 2 ^ 63 then .ok (Int64.ofInt v) else .error .priceOverflow

def addPrice (a b : Price) : Except Fault Price := checkedPrice (a.toInt + b.toInt)

def subPrice (a b : Price) : Except Fault Price := checkedPrice (a.toInt - b.toInt)

def mulPrice (a b : Price) : Except Fault Price := checkedPrice (a.toInt * b.toInt)

/-- An access that is out of range where there is no element. -/
def access {α : Type} : Option α → Except Fault α
  | some a => .ok a
  | none => .error .outOfRange

theorem access_bind {α β : Type} {o : Option α} {a : α} (h : o = some a)
    (f : α → Except Fault β) : (access o >>= f) = f a := by
  subst h
  rfl

/-! ## Live orders of one symbol -/

structure LiveOrder where
  side : Side
  price : Price
  qty : Quantity
  deriving DecidableEq

/-- `std::map<Price, Quantity>`. -/
abbrev DepthMap := ExtTreeMap Price Quantity less

structure SymbolState where
  refMid : Price := 0
  orders : ExtTreeMap OrderId LiveOrder compare := ∅
  liveIds : List OrderId := []
  /-- The slot of each id in `liveIds`. -/
  index : ExtTreeMap OrderId Nat compare := ∅
  bidQty : DepthMap := ∅
  askQty : DepthMap := ∅

/-- `m[p] += q`. -/
def DepthMap.add (m : DepthMap) (p : Price) (q : Quantity) : DepthMap :=
  m.insert p (m[p]?.getD 0 + q)

def DepthMap.sub (m : DepthMap) (p : Price) (q : Quantity) : DepthMap :=
  match m[p]? with
  | none => m
  | some v => if v ≤ q then m.erase p else m.insert p (v - q)

namespace SymbolState

def addDepth (s : SymbolState) (side : Side) (p : Price) (q : Quantity) : SymbolState :=
  if side = .buy then { s with bidQty := s.bidQty.add p q } else { s with askQty := s.askQty.add p q }

def removeDepth (s : SymbolState) (side : Side) (p : Price) (q : Quantity) : SymbolState :=
  if side = .buy then { s with bidQty := s.bidQty.sub p q } else { s with askQty := s.askQty.sub p q }

def registerOrder (s : SymbolState) (id : OrderId) (side : Side) (p : Price) (q : Quantity) :
    SymbolState :=
  let s := { s with
    orders := s.orders.insertIfNew id ⟨side, p, q⟩
    index := s.index.insertIfNew id s.liveIds.length
    liveIds := s.liveIds ++ [id] }
  s.addDepth side p q

def unregisterOrder (s : SymbolState) (id : OrderId) : Except Fault SymbolState :=
  match s.orders[id]? with
  | none => return s
  | some o => do
    let s := s.removeDepth o.side o.price o.qty
    -- Swap-remove from the list of live ids; `index[id]` creates a missing entry.
    let index := s.index.insertIfNew id 0
    let slot ← access index[id]?
    let last ← access s.liveIds.getLast?
    let _ ← access s.liveIds[slot]?
    return { s with
      liveIds := (s.liveIds.set slot last).dropLast
      index := (index.insert last slot).erase id
      orders := s.orders.erase id }

end SymbolState

/-! ## Random choices -/

section
variable (rng : Rng) (cfg : SimConfig)

/-- Only called when there is a live order. -/
def randomLive (s : SymbolState) (g : rng.State) : Except Fault (OrderId × rng.State) := do
  let (slot, g) ← rng.uniform 0 (s.liveIds.length - 1) g
  let id ← access s.liveIds[slot]?
  return (id, g)

def randomQty (g : rng.State) : Except Fault (Quantity × rng.State) := do
  let (qty, g) ← rng.uniform cfg.minQty.toNat cfg.maxQty.toNat g
  return (UInt32.ofNat qty, g)

/-- One tick below the best ask, or below the reference price. -/
def bidCeil (s : SymbolState) : Except Fault Price :=
  match first? s.askQty with
  | none => subPrice s.refMid cfg.tick
  | some best => subPrice best.1 cfg.tick

/-- One tick above the best bid, or above the reference price. -/
def askFloor (s : SymbolState) : Except Fault Price :=
  match last? s.bidQty with
  | none => addPrice s.refMid cfg.tick
  | some best => addPrice best.1 cfg.tick

def choosePrice (s : SymbolState) (side : Side) (g : rng.State) :
    Except Fault (Price × rng.State) :=
  if side = .buy then do
    let ceil ← bidCeil cfg s
    let anchor ← (last? s.bidQty).elim (pure ceil) fun best =>
      (min · ceil) <$> addPrice best.1 cfg.tick
    let (off, g) ← rng.uniform 0 (cfg.bandLevels - 1).toNat g
    let depth ← mulPrice (Int64.ofNat off) cfg.tick
    let price ← subPrice anchor depth
    return (max price cfg.tick, g)
  else do
    let floor ← askFloor cfg s
    let anchor ← (first? s.askQty).elim (pure floor) fun best =>
      (max · floor) <$> subPrice best.1 cfg.tick
    let (off, g) ← rng.uniform 0 (cfg.bandLevels - 1).toNat g
    let depth ← mulPrice (Int64.ofNat off) cfg.tick
    let price ← addPrice anchor depth
    return (price, g)

/-! ## Filling a message -/

/-- A message being filled, with the parts of the simulator that filling it may change. -/
structure Draft where
  out : GeneratedMessage
  s : SymbolState
  nextOrderId : OrderId
  g : rng.State

variable {rng} (sym : SymbolId)

def fillAdd (d : Draft rng) : Except Fault (Draft rng) := do
  let (coin, g) ← rng.uniform 0 1 d.g
  let side : Side := if coin = 0 then .buy else .sell
  let (price, g) ← choosePrice rng cfg d.s side g
  let (qty, g) ← randomQty rng cfg g
  let id := d.nextOrderId
  return {
    out := { d.out with type := .addOrder, add := ⟨sym, id, side, price, qty⟩ }
    s := d.s.registerOrder id side price qty
    nextOrderId := id + 1
    g }

/-- The next three return `none`, with nothing changed, when there is no live order. -/
def fillCancel (d : Draft rng) : Except Fault (Option (Draft rng)) :=
  if d.s.liveIds.isEmpty then return none
  else do
    let (id, g) ← randomLive rng d.s d.g
    let s ← d.s.unregisterOrder id
    return some { d with
      out := { d.out with type := .cancelOrder, cancel := ⟨sym, id⟩ }
      s, g }

def fillModify (d : Draft rng) : Except Fault (Option (Draft rng)) :=
  if d.s.liveIds.isEmpty then return none
  else do
    let (id, g) ← randomLive rng d.s d.g
    let o ← access d.s.orders[id]?
    let s := d.s.removeDepth o.side o.price o.qty
    let (newPrice, g) ← choosePrice rng cfg s o.side g
    let (newQty, g) ← randomQty rng cfg g
    let s := { s with orders := s.orders.insert id { o with price := newPrice, qty := newQty } }
    return some { d with
      out := { d.out with type := .modifyOrder, modify := ⟨sym, id, newPrice, newQty⟩ }
      s := s.addDepth o.side newPrice newQty
      g }

def fillTrade (d : Draft rng) : Except Fault (Option (Draft rng)) :=
  if d.s.liveIds.isEmpty then return none
  else do
    let (id, g) ← randomLive rng d.s d.g
    let o ← access d.s.orders[id]?
    let (fill, g) ← rng.uniform 1 o.qty.toNat g
    let fill := UInt32.ofNat fill
    let out := { d.out with type := .trade, trade := ⟨sym, id, o.price, fill, opposite o.side⟩ }
    if fill ≥ o.qty then
      let s ← d.s.unregisterOrder id
      return some { d with out, s, g }
    else
      let s := d.s.removeDepth o.side o.price fill
      let s := { s with orders := s.orders.insert id { o with qty := o.qty - fill } }
      return some { d with out, s, g }

end

/-- The levels of a snapshot: at most five, the rest of the array zero. -/
def SnapshotLevels.ofDepth (levels : List (Price × Quantity)) : SnapshotLevels :=
  ⟨(levels.take kMaxSnapshotLevels).map (fun e => ⟨e.1, e.2⟩) ++
      List.replicate (kMaxSnapshotLevels - (levels.take kMaxSnapshotLevels).length) ({} : SnapshotLevel), by
    rw [List.length_append, List.length_map, List.length_replicate, List.length_take]
    omega⟩

def makeSnapshot (sym : SymbolId) (s : SymbolState) : BookSnapshot where
  symbol := sym
  numBidLevels := UInt8.ofNat (min s.bidQty.size kMaxSnapshotLevels)
  numAskLevels := UInt8.ofNat (min s.askQty.size kMaxSnapshotLevels)
  bids := .ofDepth s.bidQty.toList.reverse
  asks := .ofDepth s.askQty.toList

/-! ## The simulator -/

structure MarketSimulator (rng : Rng) where
  cfg : SimConfig
  g : rng.State
  symbols : List SymbolState
  produced : UInt64 := 0
  nextSeq : Sequence := 1
  nextOrderId : OrderId := 1
  ts : TimestampNs := 0

namespace MarketSimulator

variable {rng : Rng}

def new (rng : Rng) (cfg : SimConfig) : Except Fault (MarketSimulator rng) := do
  let symbols ← (List.range cfg.numSymbols.toNat).mapM fun i => do
    let refMid ← addPrice cfg.startPrice (← mulPrice (Int64.ofNat i) cfg.symbolPriceStep)
    return { refMid : SymbolState }
  return { cfg, g := rng.seed cfg.seed, symbols, ts := cfg.tsStart }

/-- The message the action mix selects, if it is possible. The sums of the weights wrap
where the source's are undefined. -/
def fillMix (cfg : SimConfig) (r : Int32) (sym : SymbolId) (d : Draft rng) :
    Except Fault (Option (Draft rng)) :=
  if r < cfg.wAdd then some <$> fillAdd cfg sym d
  else if r < cfg.wAdd + cfg.wCancel then fillCancel sym d
  else if r < cfg.wAdd + cfg.wCancel + cfg.wModify then fillModify cfg sym d
  else fillTrade sym d

/-- The body of the message number `idx`. -/
def fill (cfg : SimConfig) (idx : UInt64) (sym : SymbolId) (d : Draft rng) :
    Except Fault (Draft rng) :=
  if cfg.heartbeatInterval ≠ 0 ∧ idx % cfg.heartbeatInterval = 0 then
    return { d with out := { d.out with type := .heartbeat } }
  else if cfg.snapshotInterval ≠ 0 ∧ idx % cfg.snapshotInterval = 0 then
    return { d with out := { d.out with type := .bookSnapshot, snap := makeSnapshot sym d.s } }
  else do
    let (r, g) ← rng.uniform 0 99 d.g
    let d := { d with g }
    match ← fillMix cfg (Int32.ofNat r) sym d with
    | some d => return d
    -- Fall back when the book is empty.
    | none => fillAdd cfg sym d

/-- The next message, unless the configured number of messages has been produced. -/
def next (sim : MarketSimulator rng) :
    Except Fault (MarketSimulator rng × Option GeneratedMessage) :=
  if sim.produced ≥ sim.cfg.numMessages then return (sim, none)
  else do
    let (sym, g) ← rng.uniform 0 (sim.cfg.numSymbols - 1).toNat sim.g
    let s ← access sim.symbols[sym]?
    let d ← fill sim.cfg (sim.produced + 1) (UInt32.ofNat sym)
      { out := { seq := sim.nextSeq, ts := sim.ts }, s, nextOrderId := sim.nextOrderId, g }
    return ({ sim with
      g := d.g
      symbols := sim.symbols.set sym d.s
      produced := sim.produced + 1
      nextSeq := sim.nextSeq + 1
      nextOrderId := d.nextOrderId
      ts := sim.ts + sim.cfg.tsStepNs }, some d.out)

/-- The simulator after `n` calls of `next`, with the messages they produced. -/
def emit (rng : Rng) (cfg : SimConfig) :
    Nat → Except Fault (MarketSimulator rng × List GeneratedMessage)
  | 0 => do
    let sim ← new rng cfg
    return (sim, [])
  | n + 1 => do
    let (sim, ms) ← emit rng cfg n
    let (sim, out) ← sim.next
    return (sim, ms ++ out.toList)

end MarketSimulator

end Mdfh
