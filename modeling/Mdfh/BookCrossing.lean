import Mdfh.BookEdits

/-!
# Which operations cross a book

A book is crossed when some bid is at or above some ask. An operation that appends no order
leaves no price that was not there, so only what is appended can cross an uncrossed book,
and it does so if it meets the best price of the other side.

## Main definitions

* `Entry.Crosses`, `Reference.Crossed` — orders of the two sides that meet.
* `OrderBook.Reaches` — a price of one side against the best price of the other.
* `OrderBook.Quotes` — the operations that bring an order to a price.

## Main results

* `Reference.crossed_apply` — what crosses an uncrossed list.
* `crossing_apply` — which operations cross an uncrossed book.
-/

namespace Mdfh

open Std Library Library.Keyed Library.OrdMap

/-- A bid at or above an ask, in either order. -/
def Entry.Crosses (e e' : Entry) : Prop :=
  (e.side = .buy ∧ e'.side ≠ .buy ∧ e'.price ≤ e.price) ∨
    (e.side ≠ .buy ∧ e'.side = .buy ∧ e.price ≤ e'.price)

theorem Entry.Crosses.symm {e e' : Entry} (h : e.Crosses e') : e'.Crosses e := by
  unfold Entry.Crosses at *
  grind

/-- Only the sides and the prices matter. -/
theorem Entry.Crosses.congr {e e' x x' : Entry} (h : e.Crosses e') (hside : x.side = e.side)
    (hprice : x.price = e.price) (hside' : x'.side = e'.side) (hprice' : x'.price = e'.price) :
    x.Crosses x' := by
  unfold Entry.Crosses at *
  grind

theorem Entry.Crosses.side_ne {e e' : Entry} (h : e.Crosses e') : e.side ≠ e'.side := by
  unfold Entry.Crosses at h
  grind

/-! ## Crossed lists -/

namespace Reference

open OrderBook

variable {R : Reference} {op : Op} {id : OrderId} {t : Entry}

def Crossed (R : Reference) : Prop := ∃ e ∈ R, ∃ e' ∈ R, e.Crosses e'

/-- An operation that appends takes what it found out of the list first. -/
theorem apply_of_appended (hid : op.orderId = some id)
    (happ : op.appended (lookup Entry.id id R) = some t) :
    R.apply op = (remove Entry.id id R ++ [t], true) ∧
      ∀ e, lookup Entry.id id R = some e → e.side = t.side := by
  obtain ⟨rfl, ⟨rfl, hzero, hnone⟩ | ⟨e, rfl, he, hside, hzero, hshrink⟩⟩ :=
    Op.appended_cases hid happ
  · refine ⟨?_, fun e he => absurd (hnone.symm.trans he) (by simp)⟩
    rw [remove_eq_self hnone]
    exact if_pos ⟨hzero, hnone⟩
  · refine ⟨?_, fun e' he' => ?_⟩
    · simp only [Reference.apply, modify, he, if_neg hzero, if_neg hshrink, hside]
    · rw [Option.some.inj (he'.symm.trans he), hside]

/-- An operation that does not append leaves no order at a place where there was none. -/
theorem mem_apply_of_none (hid : op.orderId = some id)
    (happ : op.appended (lookup Entry.id id R) = none) {e : Entry} (he : e ∈ (R.apply op).1) :
    ∃ x ∈ R, x.side = e.side ∧ x.price = e.price := by
  have hself (h : e ∈ R) : ∃ x ∈ R, x.side = e.side ∧ x.price = e.price := ⟨e, h, rfl, rfl⟩
  have hremove (h : e ∈ remove Entry.id id R) : ∃ x ∈ R, x.side = e.side ∧ x.price = e.price :=
    hself (mem_remove.mp h).1
  have hupdate {qty : Quantity} (h : e ∈ update Entry.id id (Entry.setQty qty) R) :
      ∃ x ∈ R, x.side = e.side ∧ x.price = e.price := by
    obtain ⟨x, hx, rfl⟩ := List.mem_map.mp h
    refine ⟨x, hx, ?_⟩
    split_ifs <;> exact ⟨rfl, rfl⟩
  cases op with
  | add id' side price qty =>
    obtain rfl := Option.some.inj hid
    simp only [Op.appended] at happ
    split_ifs at happ with hnew
    rw [Reference.apply, add, if_neg hnew] at he
    exact hself he
  | cancel id' =>
    obtain rfl := Option.some.inj hid
    simp only [Reference.apply, cancel] at he
    grind
  | modify id' newPrice newQty =>
    obtain rfl := Option.some.inj hid
    simp only [Reference.apply, modify] at he
    grind [Op.appended]
  | execute id' qty =>
    obtain rfl := Option.some.inj hid
    simp only [Reference.apply, execute] at he
    grind
  | clear => simp [Op.orderId] at hid

/-- An uncrossed list is crossed by exactly the orders that meet one of the list when they
are appended. -/
theorem crossed_apply (hunique : Unique Entry.id R) (hnot : ¬R.Crossed)
    (hid : op.orderId = some id) : (R.apply op).1.Crossed ↔
      ∃ t, op.appended (lookup Entry.id id R) = some t ∧ ∃ e ∈ R, t.Crosses e := by
  cases happ : op.appended (lookup Entry.id id R) with
  | none =>
    refine iff_of_false ?_ (by simp)
    rintro ⟨e, he, e', he', hcross⟩
    obtain ⟨x, hx, hside, hprice⟩ := mem_apply_of_none hid happ he
    obtain ⟨x', hx', hside', hprice'⟩ := mem_apply_of_none hid happ he'
    exact hnot ⟨x, hx, x', hx', hcross.congr hside hprice hside' hprice'⟩
  | some t =>
    obtain ⟨happly, hfound⟩ := apply_of_appended hid happ
    simp only [happly]
    constructor
    · rintro ⟨e, he, e', he', hcross⟩
      have hmem {x : Entry} (hx : x ∈ remove Entry.id id R ++ [t]) : x ∈ R ∨ x = t :=
        (List.mem_append.mp hx).imp (fun h => (mem_remove.mp h).1) List.mem_singleton.mp
      rcases hmem he with hold | rfl <;> rcases hmem he' with hold' | rfl
      · exact absurd ⟨e, hold, e', hold', hcross⟩ hnot
      · exact ⟨_, rfl, e, hold, hcross.symm⟩
      · exact ⟨_, rfl, e', hold', hcross⟩
      · exact absurd rfl hcross.side_ne
    · rintro ⟨t', ht', e, he, hcross⟩
      obtain rfl := Option.some.inj ht'
      -- The order taken out is on the side of the one appended, so `e` stays.
      have hstays : e ∈ remove Entry.id id R := by
        refine mem_remove.mpr ⟨he, ?_⟩
        rintro rfl
        exact hcross.side_ne (hfound e (hunique.lookup_of_mem he)).symm
      exact ⟨t, List.mem_append_right _ (List.mem_singleton_self t), e,
        List.mem_append_left _ hstays, hcross⟩

end Reference

/-! ## Crossed books -/

namespace OrderBook

/-- A price at or beyond the best price of the other side. -/
def Reaches (b : OrderBook) (side : Side) (price : Price) : Prop :=
  if side = .buy then ∃ v, b.bestAsk = some v ∧ v.price ≤ price
  else ∃ v, b.bestBid = some v ∧ price ≤ v.price

/-- An operation that returns `ret` brings an order to a price: a successful addition, or a
modification, not to zero, of an order that rests. -/
inductive Quotes (b : OrderBook) : Op → (ret : Bool) → Side → Price → Prop
  | add (id : OrderId) (side : Side) (price : Price) (qty : Quantity) :
      Quotes b (.add id side price qty) true side price
  | modify {id : OrderId} {e : Entry} (newPrice : Price) {newQty : Quantity} (ret : Bool) :
      newQty ≠ 0 → b.restingOrder id = some e →
        Quotes b (.modify id newPrice newQty) ret e.side newPrice

variable {b : OrderBook} {R : Reference}

namespace LocatorAgreement

/-- The best ask is at or below a price if some resting order of its side is. -/
theorem bestAsk_le_iff (h : b.LocatorAgreement) (p : Price) :
    (∃ v, b.bestAsk = some v ∧ v.price ≤ p) ↔ ∃ q, b.RestsAt .sell q ∧ q ≤ p := by
  rw [bestAsk]
  cases hask : first? b.asks with
  | none =>
    refine iff_of_false (by simp) ?_
    rintro ⟨q, hq, -⟩
    exact h.not_restsAt_sell hask q hq
  | some ask =>
    have hlowest := h.lowestAsk hask
    constructor
    · rintro ⟨v, hv, hle⟩
      obtain rfl := Option.some.inj hv
      exact ⟨_, hlowest.1, hle⟩
    · rintro ⟨q, hq, hle⟩
      exact ⟨_, rfl, Int64.le_trans (hlowest.2 q hq) hle⟩

/-- The best bid is at or above a price if some resting order of its side is. -/
theorem le_bestBid_iff (h : b.LocatorAgreement) (p : Price) :
    (∃ v, b.bestBid = some v ∧ p ≤ v.price) ↔ ∃ q, b.RestsAt .buy q ∧ p ≤ q := by
  rw [bestBid]
  cases hbid : first? b.bids with
  | none =>
    refine iff_of_false (by simp) ?_
    rintro ⟨q, hq, -⟩
    exact h.not_restsAt_buy hbid q hq
  | some bid =>
    have hhighest := h.highestBid hbid
    constructor
    · rintro ⟨v, hv, hle⟩
      obtain rfl := Option.some.inj hv
      exact ⟨_, hhighest.1, hle⟩
    · rintro ⟨q, hq, hle⟩
      exact ⟨_, rfl, Int64.le_trans hle (hhighest.2 q hq)⟩

theorem crossing_eq_true_iff (h : b.LocatorAgreement) :
    b.crossing = true ↔ ∃ p q, b.RestsAt .buy p ∧ b.RestsAt .sell q ∧ q ≤ p := by
  have hbest : b.crossing = true ↔
      ∃ v w, b.bestBid = some v ∧ b.bestAsk = some w ∧ w.price ≤ v.price := by
    rw [crossing, bestBid, bestAsk]
    cases first? b.bids <;> cases first? b.asks <;> simp [PriceLevel.view]
  rw [hbest]
  constructor
  · rintro ⟨v, w, hv, hw, hle⟩
    obtain ⟨q, hq, hqv⟩ := (h.bestAsk_le_iff v.price).mp ⟨w, hw, hle⟩
    obtain ⟨p, hp, hqp⟩ := (h.le_bestBid_iff q).mp ⟨v, hv, hqv⟩
    exact ⟨p, q, hp, hq, hqp⟩
  · rintro ⟨p, q, hp, hq, hle⟩
    obtain ⟨w, hw, hwp⟩ := (h.bestAsk_le_iff p).mpr ⟨q, hq, hle⟩
    obtain ⟨v, hv, hwv⟩ := (h.le_bestBid_iff w.price).mpr ⟨p, hp, hwp⟩
    exact ⟨v, w, hv, hw, hwv⟩

end LocatorAgreement

namespace Refines

theorem unique (h : b.Refines R) : Unique Entry.id R := by
  obtain ⟨L, hL, -, rfl⟩ := h
  have hids : ((L.map Cell.entry).map Entry.id).Nodup := by
    rw [List.map_map]
    exact hL.ids
  exact hids

theorem restsAt_iff (h : b.Refines R) {side : Side} {p : Price} :
    b.RestsAt side p ↔ ∃ e ∈ R, (e.side = .buy ↔ side = .buy) ∧ e.price = p := by
  obtain ⟨L, hL, -, rfl⟩ := h
  constructor
  · rintro ⟨id, loc, hloc, hside, rfl⟩
    rw [hL.orders] at hloc
    obtain ⟨c, hc, rfl⟩ := Option.map_eq_some_iff.mp hloc
    exact ⟨c.entry, List.mem_map_of_mem (of_lookup_eq_some hc).1, hside, rfl⟩
  · rintro ⟨e, he, hside, rfl⟩
    obtain ⟨c, hc, rfl⟩ := List.mem_map.mp he
    exact ⟨c.id, c.location, hL.located hc, hside, rfl⟩

theorem crossing_iff (h : b.Refines R) : b.crossing = true ↔ R.Crossed := by
  rw [h.locatorAgreement.crossing_eq_true_iff]
  constructor
  · rintro ⟨p, q, hp, hq, hle⟩
    obtain ⟨e, he, hside, rfl⟩ := h.restsAt_iff.mp hp
    obtain ⟨e', he', hside', rfl⟩ := h.restsAt_iff.mp hq
    refine ⟨e, he, e', he', .inl ⟨hside.mpr rfl, ?_, hle⟩⟩
    exact fun hbuy => nomatch hside'.mp hbuy
  · rintro ⟨e, he, e', he', hcross⟩
    rcases hcross with ⟨hbuy, hsell, hle⟩ | ⟨hsell, hbuy, hle⟩
    · exact ⟨_, _, h.restsAt_iff.mpr ⟨e, he, iff_of_true hbuy rfl, rfl⟩,
        h.restsAt_iff.mpr ⟨e', he', iff_of_false hsell (by decide), rfl⟩, hle⟩
    · exact ⟨_, _, h.restsAt_iff.mpr ⟨e', he', iff_of_true hbuy rfl, rfl⟩,
        h.restsAt_iff.mpr ⟨e, he, iff_of_false hsell (by decide), rfl⟩, hle⟩

/-- A price reaches the other side where an order at it would meet one of the list. -/
theorem reaches_iff (h : b.Refines R) (t : Entry) :
    b.Reaches t.side t.price ↔ ∃ e ∈ R, t.Crosses e := by
  unfold Reaches
  split_ifs with hbuy
  · rw [h.locatorAgreement.bestAsk_le_iff]
    constructor
    · rintro ⟨q, hq, hle⟩
      obtain ⟨e, he, hside, rfl⟩ := h.restsAt_iff.mp hq
      exact ⟨e, he, .inl ⟨hbuy, fun he => (nomatch hside.mp he), hle⟩⟩
    · rintro ⟨e, he, hcross⟩
      rcases hcross with ⟨-, hsell, hle⟩ | ⟨hsell, -⟩
      · exact ⟨_, h.restsAt_iff.mpr ⟨e, he, iff_of_false hsell (by decide), rfl⟩, hle⟩
      · exact absurd hbuy hsell
  · rw [h.locatorAgreement.le_bestBid_iff]
    constructor
    · rintro ⟨q, hq, hle⟩
      obtain ⟨e, he, hside, rfl⟩ := h.restsAt_iff.mp hq
      exact ⟨e, he, .inr ⟨hbuy, hside.mpr rfl, hle⟩⟩
    · rintro ⟨e, he, hcross⟩
      rcases hcross with ⟨hbuy', -⟩ | ⟨-, hside, hle⟩
      · exact absurd hbuy' hbuy
      · exact ⟨_, h.restsAt_iff.mpr ⟨e, he, iff_of_true hside rfl, rfl⟩, hle⟩

theorem quotes_of_appended (h : b.Refines R) {op : Op} {id : OrderId} {t : Entry}
    (hid : op.orderId = some id) (happ : op.appended (lookup Entry.id id R) = some t) :
    b.Quotes op (R.apply op).2 t.side t.price := by
  have hret : (R.apply op).2 = true := by rw [(Reference.apply_of_appended hid happ).1]
  obtain ⟨rfl, ⟨rfl, -, -⟩ | ⟨e, rfl, he, hside, hzero, -⟩⟩ := Op.appended_cases hid happ
  · rw [hret]
    exact .add t.id t.side t.price t.qty
  · rw [← hside]
    exact .modify (e := e) t.price _ hzero ((h.restingOrder_eq _).trans he)

/-- The order brought to a price is appended, or rested there before. -/
theorem exists_of_quotes (h : b.Refines R) {op : Op} {id : OrderId} (hid : op.orderId = some id)
    {side : Side} {price : Price} {ret : Bool} (hret : (R.apply op).2 = ret)
    (hquotes : b.Quotes op ret side price) : ∃ t : Entry, t.side = side ∧ t.price = price ∧
      (op.appended (lookup Entry.id id R) = some t ∨ t ∈ R) := by
  cases hquotes with
  | add id' side price qty =>
    obtain rfl := Option.some.inj hid
    simp only [Reference.apply, Reference.add] at hret
    split_ifs at hret with hnew
    exact ⟨⟨id', side, price, qty⟩, rfl, rfl, .inl (if_pos hnew)⟩
  | @modify id' e _ newQty _ hzero he =>
    obtain rfl := Option.some.inj hid
    rw [h.restingOrder_eq] at he
    by_cases hshrink : price = e.price ∧ newQty ≤ e.qty
    · exact ⟨e, rfl, hshrink.1.symm, .inr (of_lookup_eq_some he).1⟩
    · refine ⟨⟨id', e.side, price, newQty⟩, rfl, rfl, .inl ?_⟩
      rw [Op.appended, he, Option.bind_some, if_neg (not_or.mpr ⟨hzero, hshrink⟩)]

end Refines

/-- An operation on a book that is not crossed, in every state that calls with arbitrary
arguments reach: it crosses the book exactly if it brings an order to a price at or beyond
the best price of the other side. -/
theorem crossing_apply {symbol : SymbolId} {ops : List Op} {b : OrderBook} {rets : List Bool}
    (hrun : OrderBook.run { symbol } ops = some (b, rets)) (hnot : b.crossing = false) (op : Op) :
    ∃ b' ret, b.apply op = some (b', ret) ∧ (b'.crossing = true ↔
      ∃ side price, b.Quotes op ret side price ∧ b.Reaches side price) := by
  obtain ⟨b₀, hrun₀, hR⟩ := (Refines.empty symbol).run ops
  obtain ⟨rfl, -⟩ := Prod.mk.inj (Option.some.inj (hrun₀.symm.trans hrun))
  generalize (Reference.run [] ops).1 = R at hR
  obtain ⟨b', hop, hR'⟩ := hR.apply op
  refine ⟨b', _, hop, ?_⟩
  have huncrossed : ¬R.Crossed := by
    rw [← hR.crossing_iff, hnot]
    exact Bool.false_ne_true
  rw [hR'.crossing_iff]
  cases hid : op.orderId with
  | none =>
    obtain rfl : op = .clear := by
      cases op
      case clear => rfl
      all_goals exact nomatch hid
    refine iff_of_false (fun hcross => ?_) (fun hquotes => ?_)
    · obtain ⟨e, he, -⟩ := hcross
      exact nomatch he
    · obtain ⟨side, price, hquotes, -⟩ := hquotes
      exact nomatch hquotes
  | some id =>
    rw [Reference.crossed_apply hR.unique huncrossed hid]
    constructor
    · rintro ⟨t, happ, hmeets⟩
      exact ⟨t.side, t.price, hR.quotes_of_appended hid happ, (hR.reaches_iff t).mpr hmeets⟩
    · rintro ⟨side, price, hquotes, hreaches⟩
      obtain ⟨t, rfl, rfl, happ⟩ := hR.exists_of_quotes hid rfl hquotes
      have hmeets := (hR.reaches_iff t).mp hreaches
      rcases happ with happ | hrests
      · exact ⟨t, happ, hmeets⟩
      · exact absurd ⟨t, hrests, hmeets⟩ huncrossed

/-- The two orders of an uncrossed book, and the ask moved down to the bid. -/
theorem crossing_apply_locked :
    let op : Op := .modify 2 100 7
    ∃ b rets b' ret, OrderBook.run {} [.add 1 .buy 100 5, .add 2 .sell 105 7] = some (b, rets) ∧
      b.crossing = false ∧ b.apply op = some (b', ret) ∧ (b'.crossing = true ↔
        ∃ side price, b.Quotes op ret side price ∧ b.Reaches side price) ∧ b'.crossing = true := by
  intro op
  obtain ⟨b, hrun, hR⟩ :=
    (Refines.empty 0).run [.add 1 .buy 100 5, .add 2 .sell 105 7]
  have hcross : ((OrderBook.run {} [.add 1 .buy 100 5, .add 2 .sell 105 7]).map fun r =>
      (r.1.crossing, (r.1.apply op).map fun s => s.1.crossing)) = some (false, some true) := by
    decide +kernel
  rw [hrun] at hcross
  obtain ⟨hnot, hcrossed⟩ := Prod.mk.inj (Option.some.inj hcross)
  obtain ⟨b', ret, hop, hiff⟩ := crossing_apply hrun hnot op
  rw [hop] at hcrossed
  exact ⟨b, _, b', ret, hrun, hnot, hop, hiff, Option.some.inj hcrossed⟩

end OrderBook

end Mdfh
