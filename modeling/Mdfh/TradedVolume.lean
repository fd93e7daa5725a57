import Mdfh.BookVolumes
import Mdfh.OrderHistory

/-!
# What the exchange reports as traded

An execution takes no more than what rests, whatever quantity it asks for. In the exchange's
own stream it always takes all of it, so the quantities of the trade messages of an order are
what its book has lost to executions.

## Main definitions

* `Message.traded` — the quantity that a message reports as traded.

## Main results

* `OrderBook.volumes_append` — what a longer run lets in and out.
* `MarketSimulator.filled_of_issued` — one message of the exchange.
* `MarketSimulator.traded_volume` — every run.
-/

namespace Mdfh

open Std Library Library.Keyed

/-- The quantity that a message reports as traded, for the orders `T` of a symbol. -/
def Message.traded (sym : SymbolId) (T : OrderId → Bool) (m : Message) : Nat :=
  match m.body with
  | .trade t => if t.symbol = sym ∧ T t.restingOrderId then t.quantity.toNat else 0
  | _ => 0

namespace Volumes

theorem empty_plus (v : Volumes) : ({} : Volumes).plus v = v := by
  simp [plus]

theorem plus_assoc (u v w : Volumes) : (u.plus v).plus w = u.plus (v.plus w) := by
  simp [plus, Nat.add_assoc]

end Volumes

namespace OrderBook

variable {S : OrderId → Side → Bool} {b b' : OrderBook} {R : Reference}

theorem volumes_append {ops : List Op} {rets : List Bool} (hrun : b.run ops = some (b', rets))
    (ops' : List Op) :
    b.volumes S (ops ++ ops') = (b.volumes S ops).plus (b'.volumes S ops') := by
  induction ops generalizing b rets with
  | nil =>
    obtain ⟨rfl, -⟩ := Prod.mk.inj (Option.some.inj hrun)
    exact (Volumes.empty_plus _).symm
  | cons op ops ih =>
    rw [OrderBook.run] at hrun
    obtain ⟨⟨b₁, ret⟩, hop, hrun⟩ := Option.bind_eq_some_iff.mp hrun
    obtain ⟨⟨b₂, rets'⟩, hops, hrun⟩ := Option.bind_eq_some_iff.mp hrun
    obtain ⟨rfl, -⟩ := Prod.mk.inj (Option.some.inj hrun)
    simp only [List.cons_append, volumes, hop]
    rw [ih hops, Volumes.plus_assoc]

/-- Only executions fill. -/
theorem moves_filled (S : OrderId → Side → Bool) (b : OrderBook) (op : Op) :
    (b.moves S op).filled =
      match op with
      | .execute id qty =>
        ((b.restingOrder id).map fun e => (e.setQty (min qty e.qty)).volume S).getD 0
      | _ => 0 := by
  cases op with
  | add id side price qty =>
    simp only [moves]
    split_ifs <;> rfl
  | cancel id =>
    simp only [moves]
    cases b.restingOrder id <;> rfl
  | modify id newPrice newQty =>
    simp only [moves]
    cases b.restingOrder id <;> rfl
  | execute id qty =>
    simp only [moves]
    cases b.restingOrder id <;> rfl
  | clear => rfl

theorem Refines.volumes_singleton (h : b.Refines R) (op : Op) :
    (b.volumes S [op]).filled = (b.moves S op).filled := by
  obtain ⟨b₁, hop, -⟩ := h.apply op
  simp only [volumes, hop, Volumes.filled_plus, Nat.add_zero]

end OrderBook

theorem opsOn_singleton (sym : SymbolId) (m : Message) :
    opsOn sym [m] = (m.body.op.bind fun r => if r.1 = sym then some r.2 else none).toList := by
  rw [opsOn, List.filterMap_cons]
  cases m.body.op.bind fun r => if r.1 = sym then some r.2 else none <;> rfl

namespace MarketSimulator

variable {rng : Rng} {cfg : SimConfig} {sim : MarketSimulator rng} {ms : List GeneratedMessage}

/-- A message that the exchange sends in a state in which its orders are those of the book. -/
theorem filled_of_issued {R : SymbolId → Reference} (h : sim.Inv cfg R) {m : GeneratedMessage}
    (hissued : sim.Issued m) {sym : SymbolId} (T : OrderId → Bool) {b : OrderBook}
    (hb : b.Refines (R sym)) :
    (b.volumes (fun id _ => T id) (opsOn sym [m.dispatch])).filled = m.dispatch.traded sym T := by
  obtain ⟨sym', s, hs, hissues, -⟩ := hissued
  rw [opsOn_singleton, Message.traded]
  generalize m.dispatch.body = body at hissues ⊢
  by_cases hsym : sym' = sym
  · subst hsym
    cases hissues with
    | add hside hqty => simp [Body.op, hb.volumes_singleton, OrderBook.moves_filled]
    | cancel ho => simp [Body.op, hb.volumes_singleton, OrderBook.moves_filled]
    | modify ho hqty => simp [Body.op, hb.volumes_singleton, OrderBook.moves_filled]
    | @trade id o qty ho hqty =>
      have hlive := (h.symbols sym' s hs).models.orders_eq id
      obtain ⟨e, he, rfl⟩ := Option.map_eq_some_iff.mp (hlive.symm.trans ho)
      obtain ⟨-, rfl⟩ := of_lookup_eq_some he
      -- The trade asks for no more than what rests.
      have hmin : min qty e.qty = qty := if_pos hqty.2
      simp [Body.op, hb.volumes_singleton, OrderBook.moves_filled, hb.restingOrder_eq, he, hmin,
        Entry.volume, Entry.setQty]
    | snapshot => rfl
    | heartbeat => rfl
  · cases hissues with
    | add | cancel | modify | trade => simp [Body.op, hsym, OrderBook.volumes]
    | snapshot => rfl
    | heartbeat => rfl

theorem filled_eq_traded (hcfg : cfg.Valid) {n : Nat} (hemit : emit rng cfg n = .ok (sim, ms))
    (sym : SymbolId) (T : OrderId → Bool) {k : Nat} (hk : k ≤ ms.length) :
    (OrderBook.volumes (fun id _ => T id) { symbol := sym }
        (opsOn sym ((ms.take k).map GeneratedMessage.dispatch))).filled =
      (((ms.take k).map GeneratedMessage.dispatch).map (Message.traded sym T)).sum := by
  induction k with
  | zero => rfl
  | succ k ih =>
    have hcontent := emit_numbered rng hcfg.admitted n
    rw [hemit] at hcontent
    obtain ⟨-, -, -, hall⟩ := hcontent
    obtain ⟨-, simk, hsimk, hissued⟩ := hall k ms[k] (List.getElem?_eq_getElem hk)
    obtain ⟨R, hsim, hleads, -⟩ := leads_of_emit hcfg hsimk
    obtain ⟨b, hrun, hb⟩ := (OrderBook.Refines.empty sym).run
      (opsOn sym ((ms.take k).map GeneratedMessage.dispatch))
    rw [← hleads.eq_run sym] at hb
    have hone := filled_of_issued hsim hissued T hb
    rw [← List.take_concat_get' ms k hk, List.map_append, opsOn_append,
      OrderBook.volumes_append hrun, Volumes.filled_plus, ih (Nat.le_of_succ_le hk),
      List.map_singleton, hone, List.map_append, List.sum_append]
    rfl

/-- In every run of the exchange, for every symbol and any set of its orders: what came into the
receiver's book is what rests there, what was taken out, and the quantities of the trade
messages. -/
theorem traded_volume (hcfg : cfg.Valid) {n : Nat} (hemit : emit rng cfg n = .ok (sim, ms))
    (sym : SymbolId) (T : OrderId → Bool) :
    let sent := ms.map GeneratedMessage.dispatch
    let v := OrderBook.volumes (fun id _ => T id) { symbol := sym } (opsOn sym sent)
    v.filled = (sent.map (Message.traded sym T)).sum ∧
      v.entered = ((FeedHandler.received ms).down.manager.book sym).val.volume (fun id _ => T id) +
        v.withdrawn + (sent.map (Message.traded sym T)).sum := by
  intro sent v
  have hfilled := filled_eq_traded hcfg hemit sym T le_rfl
  rw [List.take_length] at hfilled
  obtain ⟨R, -, hleads, -⟩ := leads_of_emit hcfg hemit
  have hbook := hleads.reconstructs.books sym
  have hmoves := (OrderBook.Refines.empty sym).run_moves (S := fun id _ => T id) (opsOn sym sent)
  rw [← hleads.eq_run sym, ← hbook.volume_eq] at hmoves
  refine ⟨hfilled, ?_⟩
  rw [← hfilled]
  exact (hmoves.trans (Nat.zero_add _)).symm

/-- Orders and trades only. -/
def tradingConfig : SimConfig :=
  { Loopback.shortConfig with
    numMessages := 6, wAdd := 40, wCancel := 0, wModify := 0, wTrade := 60
    heartbeatInterval := 0, snapshotInterval := 0 }

theorem tradingConfig_valid : tradingConfig.Valid :=
  { Loopback.shortConfig_valid with total := by decide }

theorem traded_volume_trading :
    ∃ sim ms, emit Loopback.congruential tradingConfig 6 = .ok (sim, ms) ∧
      let v := OrderBook.volumes (fun _ _ => true) { symbol := 0 }
        (opsOn 0 (ms.map GeneratedMessage.dispatch))
      v.filled = 92 ∧ v.entered =
        ((FeedHandler.received ms).down.manager.book 0).val.volume (fun _ _ => true) +
          v.withdrawn + 92 := by
  have htraded : (emit Loopback.congruential tradingConfig 6).toOption.map (fun r =>
      ((r.2.map GeneratedMessage.dispatch).map (Message.traded 0 fun _ => true)).sum) =
        some 92 := by decide +kernel
  obtain ⟨⟨sim, ms⟩, hsome, hsum⟩ := Option.map_eq_some_iff.mp htraded
  have hemit : emit Loopback.congruential tradingConfig 6 = .ok (sim, ms) := by
    cases h : emit Loopback.congruential tradingConfig 6 with
    | error f =>
      rw [h] at hsome
      cases hsome
    | ok r =>
      rw [h] at hsome
      exact congrArg Except.ok (Option.some.inj hsome)
  refine ⟨sim, ms, hemit, ?_⟩
  obtain ⟨hfilled, hentered⟩ := traded_volume tradingConfig_valid hemit 0 fun _ => true
  exact ⟨hfilled.trans hsum, hentered.trans (congrArg (_ + ·) hsum)⟩

end MarketSimulator

end Mdfh
