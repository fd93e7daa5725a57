import Mdfh.Library.KeyedEdit
import Mdfh.BookDepth

/-!
# Operations on different orders

On the flat list an operation changes or removes the order it names and may append one
order. It does not read any other order, so operations on different orders commute; only
the places of what they append are exchanged.

## Main definitions

* `Op.orderId`, `Op.appended` — the order an operation names, and the one it puts at the back.
* `ShowsSame` — books that differ at most in the order of their queues.

## Main results

* `Reference.exists_edit` — an operation as an edit of the flat list.
* `apply_comm` — two operations on different orders, in both orders.
-/

namespace Mdfh

open Std Library Library.Keyed Library.OrdMap

namespace OrderBook

/-! ## Operations as edits -/

def Op.orderId : Op → Option OrderId
  | .add id _ _ _ | .cancel id | .modify id _ _ | .execute id _ => some id
  | .clear => none

/-- What an operation puts at the back of a queue when it finds `found` under its id. -/
def Op.appended (found : Option Entry) : Op → Option Entry
  | .add id side price qty =>
    if qty ≠ 0 ∧ found = none then some ⟨id, side, price, qty⟩ else none
  | .modify id newPrice newQty => found.bind fun e =>
    if newQty = 0 ∨ (newPrice = e.price ∧ newQty ≤ e.qty) then none
    else some ⟨id, e.side, newPrice, newQty⟩
  | .cancel _ | .execute _ _ | .clear => none

end OrderBook

/-- Only a new order and a modification put an order at the back of a queue. -/
theorem OrderBook.Op.appended_cases {op : Op} {found : Option Entry} {id : OrderId} {t : Entry}
    (hid : op.orderId = some id) (happ : op.appended found = some t) :
    id = t.id ∧ (op = .add t.id t.side t.price t.qty ∧ t.qty ≠ 0 ∧ found = none ∨
      ∃ e, op = .modify t.id t.price t.qty ∧ found = some e ∧ e.side = t.side ∧
        t.qty ≠ 0 ∧ ¬(t.price = e.price ∧ t.qty ≤ e.qty)) := by
  cases op with
  | add id' side price qty =>
    obtain rfl := Option.some.inj hid
    simp only [Op.appended] at happ
    split_ifs at happ with hnew
    obtain rfl := Option.some.inj happ
    exact ⟨rfl, .inl ⟨rfl, hnew⟩⟩
  | modify id' newPrice newQty =>
    obtain rfl := Option.some.inj hid
    obtain ⟨e, he, happ⟩ := Option.bind_eq_some_iff.mp happ
    split_ifs at happ with hshrink
    obtain rfl := Option.some.inj happ
    obtain ⟨hzero, hshrink⟩ := not_or.mp hshrink
    exact ⟨rfl, .inr ⟨e, rfl, he, rfl, hzero, hshrink⟩⟩
  | cancel | execute | clear => simp [Op.appended] at happ

@[simp] theorem Entry.setQty_id (qty : Quantity) (e : Entry) : (e.setQty qty).id = e.id := rfl

namespace Reference

open OrderBook

/-- Whatever else is in the list, an operation does the same to what it finds under its id. -/
theorem exists_edit {op : Op} {id : OrderId} (hid : op.orderId = some id) (found : Option Entry) :
    ∃ (e : Edit Entry.id id) (ret : Bool), e.appended = op.appended found ∧
      ∀ R : Reference, lookup Entry.id id R = found → R.apply op = (e.apply R, ret) := by
  cases op with
  | add id' side price qty =>
    obtain rfl := Option.some.inj hid
    by_cases hnew : qty ≠ 0 ∧ found = none
    · refine ⟨Edit.skip.push ⟨id', side, price, qty⟩ rfl, true, ?_, fun R hR => ?_⟩
      · simp [Edit.push, Op.appended, hnew]
      · simp [Reference.apply, add, hR, hnew]
    · refine ⟨.skip, false, ?_, fun R hR => ?_⟩
      · simp [Edit.skip, Op.appended, hnew]
      · simp [Reference.apply, add, hR, hnew]
  | cancel id' =>
    obtain rfl := Option.some.inj hid
    cases found with
    | none => exact ⟨.skip, false, rfl, fun R hR => by simp [Reference.apply, cancel, hR]⟩
    | some x => exact ⟨.drop, true, rfl, fun R hR => by simp [Reference.apply, cancel, hR]⟩
  | modify id' newPrice newQty =>
    obtain rfl := Option.some.inj hid
    cases found with
    | none => exact ⟨.skip, false, rfl, fun R hR => by simp [Reference.apply, modify, hR]⟩
    | some x =>
      by_cases hzero : newQty = 0
      · refine ⟨.drop, true, ?_, fun R hR => ?_⟩
        · simp [Edit.drop, Op.appended, hzero]
        · simp [Reference.apply, modify, hR, hzero]
      · by_cases hshrink : newPrice = x.price ∧ newQty ≤ x.qty
        · refine ⟨.set (Entry.setQty newQty) (Entry.setQty_id newQty), true, ?_, fun R hR => ?_⟩
          · simp [Edit.set, Op.appended, hshrink]
          · simp only [Reference.apply, modify, hR, if_neg hzero, if_pos hshrink]
            rw [Edit.apply_set]
        · refine ⟨Edit.drop.push ⟨id', x.side, newPrice, newQty⟩ rfl, true, ?_, fun R hR => ?_⟩
          · simp [Edit.push, Op.appended, hzero, hshrink]
          · simp [Reference.apply, modify, hR, hzero, hshrink]
  | execute id' qty =>
    obtain rfl := Option.some.inj hid
    cases found with
    | none => exact ⟨.skip, false, rfl, fun R hR => by simp [Reference.apply, execute, hR]⟩
    | some x =>
      by_cases hzero : x.qty - min qty x.qty = 0
      · exact ⟨.drop, true, rfl, fun R hR => by simp [Reference.apply, execute, hR, hzero]⟩
      · refine ⟨.set _ (Entry.setQty_id (x.qty - min qty x.qty)), true, rfl, fun R hR => ?_⟩
        simp only [Reference.apply, execute, hR, if_neg hzero]
        rw [Edit.apply_set]
  | clear => simp [Op.orderId] at hid

/-- Two operations on different orders: the same answers, and the same list but for the
places of what they append. -/
theorem apply_apply {op op' : Op} {i j : OrderId} (hi : op.orderId = some i)
    (hj : op'.orderId = some j) (hij : i ≠ j) (R : Reference) :
    let x := (op.appended (lookup Entry.id i R)).toList
    let y := (op'.appended (lookup Entry.id j R)).toList
    ∃ base, (R.apply op).1.apply op' = (base ++ x ++ y, (R.apply op').2) ∧
      (R.apply op').1.apply op = (base ++ y ++ x, (R.apply op).2) := by
  obtain ⟨e, ret, happ, hop⟩ := exists_edit hi (lookup Entry.id i R)
  obtain ⟨e', ret', happ', hop'⟩ := exists_edit hj (lookup Entry.id j R)
  obtain ⟨base, hbase, hbase'⟩ := e.exists_common e' hij R
  refine ⟨base, ?_, ?_⟩
  · rw [hop R rfl, hop' R rfl, hop' (e.apply R) (e.lookup_other hij), hbase, happ, happ']
  · rw [hop R rfl, hop' R rfl, hop (e'.apply R) (e'.lookup_other hij.symm), hbase', happ, happ']

end Reference

/-! ## What books show -/

namespace OrderBook

section
variable {cmp : Price → Price → Ordering} [TransCmp cmp] [LawfulEqCmp cmp] {m m' : LevelMap cmp}

theorem map_view_toList (h : ∀ p : Price, (m[p]?).map PriceLevel.view = (m'[p]?).map PriceLevel.view) :
    m.toList.map (fun e => PriceLevel.view e.2) = m'.toList.map fun e => PriceLevel.view e.2 := by
  have hmap : m.map (fun _ lvl => PriceLevel.view lvl) = m'.map fun _ lvl => PriceLevel.view lvl := by
    refine ExtTreeMap.ext_getElem? ?_
    intro p
    rw [ExtTreeMap.getElem?_map, ExtTreeMap.getElem?_map]
    exact h p
  have hlist := congrArg (fun l => l.map Prod.snd) (congrArg ExtTreeMap.toList hmap)
  simpa [ExtTreeMap.toList_map, Function.comp_def] using hlist

end

/-- The same resting orders, and the same answers of all queries. -/
structure ShowsSame (b b' : OrderBook) : Prop where
  resting : b.restingOrders.Perm b'.restingOrders
  levels : ∀ side p, (b.levelAt side p).map PriceLevel.view = (b'.levelAt side p).map PriceLevel.view
  bestBid : b.bestBid = b'.bestBid
  bestAsk : b.bestAsk = b'.bestAsk
  bids : ∀ depth, b.topBids depth = b'.topBids depth
  asks : ∀ depth, b.topAsks depth = b'.topAsks depth

/-- The order with an id, read through its locator. -/
def restingOrder (b : OrderBook) (id : OrderId) : Option Entry := do
  let loc ← b.orders[id]?
  let o ← b.pool.deref loc.it
  return ⟨id, loc.side, loc.price, o.quantity⟩

/-- The order that an operation puts at the back of the queue of a price, if it does. -/
def appendsAt (b : OrderBook) (side : Side) (p : Price) (op : Op) : Option RestingOrder :=
  op.orderId.bind fun id => (op.appended (b.restingOrder id)).bind fun e =>
    if (e.side = .buy ↔ side = .buy) ∧ e.price = p then some ⟨e.id, e.qty⟩ else none

namespace Refines

variable {b b' : OrderBook} {R R' : Reference}

theorem restingOrder_eq (h : b.Refines R) (id : OrderId) :
    b.restingOrder id = lookup Entry.id id R := by
  obtain ⟨L, hL, -, rfl⟩ := h
  rw [restingOrder, hL.orders, lookup_entry]
  cases hid : lookup Cell.id id L with
  | none => rfl
  | some c =>
    obtain ⟨hc, rfl⟩ := of_lookup_eq_some hid
    have hderef : b.pool.deref c.location.it = some c.order := hL.deref_of_mem hc
    simp only [Option.map_some, Option.bind_eq_bind, Option.bind_some, hderef]
    rfl

/-- Lists with the same orders, in whatever order, are shown alike. -/
theorem showsSame (h : b.Refines R) (h' : b'.Refines R') (hperm : R.Perm R') : b.ShowsSame b' := by
  have hbids : b.bids.toList.map (fun e => PriceLevel.view e.2) =
      b'.bids.toList.map fun e => PriceLevel.view e.2 := by
    refine map_view_toList fun p => ?_
    rw [h.view_bids, h'.view_bids, Reference.viewAt_perm hperm]
  have hasks : b.asks.toList.map (fun e => PriceLevel.view e.2) =
      b'.asks.toList.map fun e => PriceLevel.view e.2 := by
    refine map_view_toList fun p => ?_
    rw [h.view_asks, h'.view_asks, Reference.viewAt_perm hperm]
  have htopBids (depth : Nat) : b.topBids depth = b'.topBids depth := by
    rw [topBids, topBids, topLevels_eq, topLevels_eq, List.map_take, List.map_take, hbids]
  have htopAsks (depth : Nat) : b.topAsks depth = b'.topAsks depth := by
    rw [topAsks, topAsks, topLevels_eq, topLevels_eq, List.map_take, List.map_take, hasks]
  refine ⟨?_, ?_, ?_, ?_, htopBids, htopAsks⟩
  · exact h.restingOrders_perm.trans (hperm.trans h'.restingOrders_perm.symm)
  · intro side p
    rw [h.view_levelAt, h'.view_levelAt, Reference.viewAt_perm hperm]
  · rw [h.answersDepth.bestBid, h'.answersDepth.bestBid, htopBids]
  · rw [h.answersDepth.bestAsk, h'.answersDepth.bestAsk, htopAsks]

end Refines

/-- The queues of two books but for the last orders of one. -/
structure QueuesAgree (b b' : OrderBook) (side : Side) (p : Price) (x y : Option RestingOrder) :
    Prop where
  same : x = none ∨ y = none → b.queueAt side p = b'.queueAt side p
  swapped : ∀ o o', x = some o → y = some o' → ∃ q,
    b.queueAt side p = q ++ [some o, some o'] ∧ b'.queueAt side p = q ++ [some o', some o]

theorem queuesAgree {b b' : OrderBook} {side : Side} {p : Price} {q : List (Option RestingOrder)}
    {x y : Option RestingOrder} (h : b.queueAt side p = q ++ x.toList.map some ++ y.toList.map some)
    (h' : b'.queueAt side p = q ++ y.toList.map some ++ x.toList.map some) :
    QueuesAgree b b' side p x y where
  same := by
    rintro (rfl | rfl)
    · simp [h, h']
    · simp [h, h']
  swapped := by
    rintro o o' rfl rfl
    exact ⟨q, by simp [h], by simp [h']⟩

namespace Refines

variable {b b' : OrderBook} {R : Reference}

theorem appendsAt_eq (h : b.Refines R) {op : Op} {id : OrderId} (hid : op.orderId = some id)
    (side : Side) (p : Price) : (b.appendsAt side p op).toList.map some =
      (Reference.restingAt side p (op.appended (lookup Entry.id id R)).toList).map
        fun e => some ⟨e.id, e.qty⟩ := by
  rw [appendsAt, hid, Option.bind_some, h.restingOrder_eq]
  cases op.appended (lookup Entry.id id R) with
  | none => rfl
  | some e =>
    by_cases hat : (e.side = .buy ↔ side = .buy) ∧ e.price = p
    · simp [Reference.restingAt, hat]
    · simp [Reference.restingAt, hat]

end Refines

/-- Two operations that name different orders, on a book that calls with arbitrary arguments
have reached: in either order each returns the same, and the books show the same. A queue
differs only where both operations append to it, and there only in its last two orders. -/
theorem apply_comm (symbol : SymbolId) (ops : List Op) {op op' : Op} {i j : OrderId}
    (hi : op.orderId = some i) (hj : op'.orderId = some j) (hij : i ≠ j) :
    ∃ b rets, OrderBook.run { symbol } ops = some (b, rets) ∧
      ∃ b₁ b₂ b₁₂ b₂₁ ret ret', b.apply op = some (b₁, ret) ∧ b₁.apply op' = some (b₁₂, ret') ∧
        b.apply op' = some (b₂, ret') ∧ b₂.apply op = some (b₂₁, ret) ∧ b₁₂.ShowsSame b₂₁ ∧
        ∀ side p, QueuesAgree b₁₂ b₂₁ side p (b.appendsAt side p op) (b.appendsAt side p op') := by
  obtain ⟨b, hrun, hR⟩ := (Refines.empty symbol).run ops
  refine ⟨b, _, hrun, ?_⟩
  generalize (Reference.run [] ops).1 = R at hR
  obtain ⟨b₁, hop, hR₁⟩ := hR.apply op
  obtain ⟨b₂, hop', hR₂⟩ := hR.apply op'
  obtain ⟨b₁₂, hop₁₂, hR₁₂⟩ := hR₁.apply op'
  obtain ⟨b₂₁, hop₂₁, hR₂₁⟩ := hR₂.apply op
  obtain ⟨base, hbase, hbase'⟩ := Reference.apply_apply hi hj hij R
  rw [hbase] at hop₁₂ hR₁₂
  rw [hbase'] at hop₂₁ hR₂₁
  refine ⟨b₁, b₂, b₁₂, b₂₁, _, _, hop, hop₁₂, hop', hop₂₁, ?_, fun side p => ?_⟩
  · refine hR₁₂.showsSame hR₂₁ ?_
    rw [List.append_assoc, List.append_assoc]
    exact List.perm_append_comm.append_left base
  · refine queuesAgree (q := (Reference.restingAt side p base).map fun e => some ⟨e.id, e.qty⟩) ?_ ?_
    · rw [hR₁₂.queueAt_eq, hR.appendsAt_eq hi, hR.appendsAt_eq hj]
      simp only [Reference.restingAt, List.filter_append, List.map_append]
    · rw [hR₂₁.queueAt_eq, hR.appendsAt_eq hi, hR.appendsAt_eq hj]
      simp only [Reference.restingAt, List.filter_append, List.map_append]

/-- A modification and an addition that both append to one queue. -/
theorem apply_comm_requeue :
    let op : Op := .modify 1 100 9
    let op' : Op := .add 2 .buy 100 3
    ∃ (b b₁ b₂ b₁₂ b₂₁ : OrderBook) (ret ret' : Bool) (q : List (Option RestingOrder)),
      b.apply op = some (b₁, ret) ∧ b₁.apply op' = some (b₁₂, ret') ∧
      b.apply op' = some (b₂, ret') ∧ b₂.apply op = some (b₂₁, ret) ∧ b₁₂.ShowsSame b₂₁ ∧
      b₁₂.queueAt .buy 100 = q ++ [some ⟨1, 9⟩, some ⟨2, 3⟩] ∧
      b₂₁.queueAt .buy 100 = q ++ [some ⟨2, 3⟩, some ⟨1, 9⟩] := by
  intro op op'
  obtain ⟨b, rets, hrun, b₁, b₂, b₁₂, b₂₁, ret, ret', hop, hop₁₂, hop', hop₂₁, hsame, hqueues⟩ :=
    apply_comm 7 [.add 1 .buy 100 5] (show op.orderId = some 1 from rfl)
      (show op'.orderId = some 2 from rfl) (by decide)
  have happends : ((OrderBook.run { symbol := 7 } [.add 1 .buy 100 5]).map fun r =>
      (r.1.appendsAt .buy 100 op, r.1.appendsAt .buy 100 op')) =
        some (some ⟨1, 9⟩, some ⟨2, 3⟩) := by decide +kernel
  rw [hrun] at happends
  obtain ⟨hx, hy⟩ := Prod.mk.inj (Option.some.inj happends)
  obtain ⟨q, hq, hq'⟩ := (hqueues .buy 100).swapped _ _ hx hy
  exact ⟨b, b₁, b₂, b₁₂, b₂₁, ret, ret', q, hop, hop₁₂, hop', hop₂₁, hsame, hq, hq'⟩

end OrderBook

end Mdfh
