import Mdfh.BookEdits

/-!
# A part of the orders

An operation reads and changes the order it names, so the orders of a part of the ids rest
exactly as if the operations on all others had not been called. Other orders can only move
an order forward in its queue.

## Main definitions

* `Op.concerns` — the operations that a part of the ids takes notice of.
* `OrderBook.ahead` — the orders in front of an order.
* `OrderBook.KeepsPlace` — calls that do not put an order at the back again.

## Main results

* `OrderBook.run_restrict` — a run and the part of it that concerns some orders.
* `OrderBook.run_ahead` — price-time priority.
-/

namespace Mdfh

open Std Library Library.Keyed

namespace OrderBook

/-- The operation names an order of the part, or it names none because it clears the book. -/
def Op.concerns (S : OrderId → Bool) (op : Op) : Bool := op.orderId.all S

theorem Op.eq_clear {op : Op} (h : op.orderId = none) : op = .clear := by
  cases op with
  | clear => rfl
  | _ => cases h

end OrderBook

theorem min_qty_le (x y : Quantity) : min x y ≤ y := by
  change (if x ≤ y then x else y) ≤ y
  split_ifs with hle
  · exact hle
  · exact UInt32.le_refl y

theorem sub_min_le (x y : Quantity) : y - min x y ≤ y := by
  refine UInt32.le_iff_toNat_le.mpr ?_
  rw [UInt32.toNat_sub_of_le _ _ (min_qty_le x y)]
  exact Nat.sub_le _ _

/-- What is in front of an element of a part of a list is in front of it in the list. -/
theorem takeWhile_ne_sublist {α : Type*} [DecidableEq α] {l l' : List α} {x : α}
    (h : l.Sublist l') (hx : x ∈ l) (behind : List α) (hnodup : l'.Nodup) :
    ((l ++ behind).takeWhile (· ≠ x)).Sublist (l'.takeWhile (· ≠ x)) := by
  induction h with
  | slnil => cases hx
  | @cons l l' y hsub ih =>
    have hne : y ≠ x := by
      rintro rfl
      exact (List.nodup_cons.mp hnodup).1 (hsub.subset hx)
    rw [List.takeWhile_cons_of_pos (by simpa using hne)]
    exact (ih hx (List.nodup_cons.mp hnodup).2).cons y
  | @cons_cons l l' y hsub ih =>
    by_cases hy : y = x
    · subst hy
      simp
    · have hx : x ∈ l := by simpa [Ne.symm hy] using hx
      rw [List.cons_append, List.takeWhile_cons_of_pos (by simpa using hy),
        List.takeWhile_cons_of_pos (by simpa using hy)]
      exact (ih hx (List.nodup_cons.mp hnodup).2).cons_cons y

namespace Reference

open OrderBook

variable {S : OrderId → Bool} {op : Op}

/-- An operation on the part does the same if the other orders are left out. -/
theorem apply_restrict (h : op.concerns S = true) (R : Reference) :
    (Reference.apply (restrict Entry.id S R) op) =
      (restrict Entry.id S (R.apply op).1, (R.apply op).2) := by
  cases hid : op.orderId with
  | none =>
    obtain rfl := Op.eq_clear hid
    rfl
  | some id =>
    have hS : S id = true := by simpa [Op.concerns, hid] using h
    obtain ⟨e, ret, -, hop⟩ := exists_edit hid (lookup Entry.id id R)
    rw [hop R rfl, hop _ (lookup_restrict hS), e.restrict_apply hS]

/-- The part does not see the other operations. -/
theorem restrict_apply_other (h : op.concerns S = false) (R : Reference) :
    restrict Entry.id S (R.apply op).1 = restrict Entry.id S R := by
  cases hid : op.orderId with
  | none =>
    rw [Op.concerns, hid] at h
    cases h
  | some id =>
    have hS : S id = false := by simpa [Op.concerns, hid] using h
    obtain ⟨e, ret, -, hop⟩ := exists_edit hid (lookup Entry.id id R)
    rw [hop R rfl, e.restrict_apply_other hS]

/-- The values that the operations of a run which concern the part have returned. -/
def answersTo (S : OrderId → Bool) (ops : List Op) (rets : List Bool) : List Bool :=
  ((ops.zip rets).filter (·.1.concerns S)).map Prod.snd

theorem run_restrict (S : OrderId → Bool) (ops : List Op) (R : Reference) :
    Reference.run (restrict Entry.id S R) (ops.filter (·.concerns S)) =
      (restrict Entry.id S (R.run ops).1, answersTo S ops (R.run ops).2) := by
  induction ops generalizing R with
  | nil => rfl
  | cons op ops ih =>
    have hrest := ih (R.apply op).1
    cases hop : op.concerns S with
    | true =>
      rw [List.filter_cons_of_pos hop]
      simp only [Reference.run, apply_restrict hop, hrest, answersTo, List.zip_cons_cons,
        List.filter_cons_of_pos (p := fun x : Op × Bool => x.1.concerns S)
          (a := (op, (R.apply op).2)) hop, List.map_cons]
    | false =>
      rw [restrict_apply_other hop] at hrest
      rw [List.filter_cons_of_neg (by simp [hop]), hrest]
      simp [Reference.run, answersTo, hop]

/-! ## Places -/

/-- What an operation leaves in front of what it appends: the list, possibly without the order
it names or with less of it. -/
def Keeps (R : Reference) (id : OrderId) (kept : Reference) : Prop :=
  kept = R ∨ kept = remove Entry.id id R ∨ ∃ qty, (∀ e ∈ lookup Entry.id id R, qty ≤ e.qty) ∧
    kept = update Entry.id id (Entry.setQty qty) R

theorem apply_keeps {id : OrderId} (hid : op.orderId = some id) (R : Reference) :
    ∃ kept, R.Keeps id kept ∧
      (R.apply op).1 = kept ++ (op.appended (lookup Entry.id id R)).toList := by
  cases op with
  | add id' side price qty =>
    obtain rfl := Option.some.inj hid
    refine ⟨R, .inl rfl, ?_⟩
    simp only [Reference.apply, add, Op.appended]
    split_ifs <;> simp
  | cancel id' =>
    obtain rfl := Option.some.inj hid
    cases hfound : lookup Entry.id id' R with
    | none => exact ⟨R, .inl rfl, by simp [Reference.apply, cancel, hfound, Op.appended]⟩
    | some e => exact ⟨_, .inr (.inl rfl), by simp [Reference.apply, cancel, hfound, Op.appended]⟩
  | modify id' newPrice newQty =>
    obtain rfl := Option.some.inj hid
    cases hfound : lookup Entry.id id' R with
    | none => exact ⟨R, .inl rfl, by simp [Reference.apply, modify, hfound, Op.appended]⟩
    | some e =>
      by_cases hzero : newQty = 0
      · refine ⟨_, .inr (.inl rfl), ?_⟩
        simp [Reference.apply, modify, hfound, Op.appended, hzero]
      by_cases hshrink : newPrice = e.price ∧ newQty ≤ e.qty
      · refine ⟨_, .inr (.inr ⟨newQty, ?_, rfl⟩), ?_⟩
        · rw [hfound]
          rintro _ ⟨⟩
          exact hshrink.2
        · simp [Reference.apply, modify, hfound, Op.appended, hzero, hshrink]
      · refine ⟨_, .inr (.inl rfl), ?_⟩
        simp [Reference.apply, modify, hfound, Op.appended, hzero, hshrink]
  | execute id' qty =>
    obtain rfl := Option.some.inj hid
    cases hfound : lookup Entry.id id' R with
    | none => exact ⟨R, .inl rfl, by simp [Reference.apply, execute, hfound, Op.appended]⟩
    | some e =>
      by_cases hzero : e.qty - min qty e.qty = 0
      · refine ⟨_, .inr (.inl rfl), ?_⟩
        simp [Reference.apply, execute, hfound, Op.appended, hzero]
      · refine ⟨_, .inr (.inr ⟨e.qty - min qty e.qty, ?_, rfl⟩), ?_⟩
        · rw [hfound]
          rintro _ ⟨⟩
          exact sub_min_le _ _
        · simp [Reference.apply, execute, hfound, Op.appended, hzero]
  | clear => cases hid

/-- Where each order rests, in arrival order. -/
def spots (R : Reference) : List (OrderId × Side × Price) := R.map fun e => (e.id, e.side, e.price)

/-- The ids at a price, in the order of the queue. -/
def idsAt (side : Side) (p : Price) (R : Reference) : List OrderId := (R.restingAt side p).map Entry.id

theorem idsAt_eq (side : Side) (p : Price) (R : Reference) :
    R.idsAt side p =
      ((spots R).filter fun x => (x.2.1 = .buy ↔ side = .buy) ∧ x.2.2 = p).map Prod.fst := by
  rw [idsAt, restingAt, spots, List.filter_map, List.map_map]
  rfl

theorem Keeps.spots_sublist {R kept : Reference} {id : OrderId} (h : R.Keeps id kept) :
    (spots kept).Sublist (spots R) := by
  rcases h with rfl | rfl | ⟨qty, -, rfl⟩
  · exact List.Sublist.refl _
  · exact List.filter_sublist.map _
  · have hsame : spots (update Entry.id id (Entry.setQty qty) R) = spots R := by
      rw [spots, spots, update, List.map_map]
      refine List.map_congr_left fun e _ => ?_
      simp only [Function.comp_apply]
      split_ifs <;> rfl
    rw [hsame]

theorem Keeps.lookup_eq {R kept : Reference} {id : OrderId} (h : R.Keeps id kept) {e' : Entry}
    (he' : lookup Entry.id id kept = some e') : ∃ e, lookup Entry.id id R = some e ∧
      e'.side = e.side ∧ e'.price = e.price ∧ e'.qty ≤ e.qty := by
  rcases h with rfl | rfl | ⟨qty, hqty, rfl⟩
  · exact ⟨e', he', rfl, rfl, UInt32.le_refl _⟩
  · rw [lookup_remove, if_pos rfl] at he'
    cases he'
  · rw [lookup_update (Entry.setQty_id qty), if_pos rfl] at he'
    obtain ⟨e, he, rfl⟩ := Option.map_eq_some_iff.mp he'
    exact ⟨e, he, rfl, rfl, hqty e he⟩

theorem Keeps.lookup_other {R kept : Reference} {id j : OrderId} (h : R.Keeps j kept)
    (hne : j ≠ id) : lookup Entry.id id kept = lookup Entry.id id R := by
  rcases h with rfl | rfl | ⟨qty, -, rfl⟩
  · rfl
  · rw [lookup_remove, if_neg hne]
  · rw [lookup_update (Entry.setQty_id qty), if_neg hne]

/-- The ids in front of an order of a queue. -/
def aheadOf (side : Side) (p : Price) (id : OrderId) (R : Reference) : List OrderId :=
  (R.idsAt side p).takeWhile (· ≠ id)

theorem mem_idsAt {R : Reference} {id : OrderId} {e : Entry} (h : lookup Entry.id id R = some e) :
    id ∈ R.idsAt e.side e.price := by
  obtain ⟨he, rfl⟩ := of_lookup_eq_some h
  exact List.mem_map_of_mem (List.mem_filter.mpr ⟨he, by simp⟩)

/-- An operation that does not put the order at the back leaves it where it is, with at most
the quantity it had, and puts nothing in front of it. -/
theorem apply_ahead {R : Reference} (hids : Unique Entry.id R) {id : OrderId}
    (hplace : op.orderId = some id → op.appended (lookup Entry.id id R) = none) {e' : Entry}
    (he' : lookup Entry.id id (R.apply op).1 = some e') :
    ∃ e, lookup Entry.id id R = some e ∧ e'.side = e.side ∧ e'.price = e.price ∧ e'.qty ≤ e.qty ∧
      ((R.apply op).1.aheadOf e.side e.price id).Sublist (R.aheadOf e.side e.price id) := by
  cases hid : op.orderId with
  | none =>
    obtain rfl := Op.eq_clear hid
    cases he'
  | some j =>
    obtain ⟨kept, hkept, happly⟩ := apply_keeps hid R
    -- What is appended, if anything, is another order.
    have hfresh : ∀ a ∈ op.appended (lookup Entry.id j R), a.id ≠ id := by
      intro a ha hid'
      obtain ⟨rfl, -⟩ := Op.appended_cases hid ha
      rw [hid'] at hid ha
      rw [hplace hid] at ha
      cases ha
    have hlookup : lookup Entry.id id kept = some e' := by
      rw [happly] at he'
      cases happ : op.appended (lookup Entry.id j R) with
      | none => simpa [happ] using he'
      | some a =>
        rw [happ, Option.toList_some, lookup_append_singleton, if_neg (hfresh a happ)] at he'
        simpa using he'
    obtain ⟨e, he, hside, hprice, hqty⟩ : ∃ e, lookup Entry.id id R = some e ∧
        e'.side = e.side ∧ e'.price = e.price ∧ e'.qty ≤ e.qty := by
      by_cases hj : j = id
      · subst hj
        exact hkept.lookup_eq hlookup
      · exact ⟨e', (hkept.lookup_other hj).symm.trans hlookup, rfl, rfl, UInt32.le_refl _⟩
    refine ⟨e, he, hside, hprice, hqty, ?_⟩
    have hsplit : (R.apply op).1.idsAt e.side e.price = kept.idsAt e.side e.price ++
        idsAt e.side e.price (op.appended (lookup Entry.id j R)).toList := by
      rw [happly, idsAt, restingAt, List.filter_append, List.map_append]
      rfl
    have hsub : (kept.idsAt e.side e.price).Sublist (R.idsAt e.side e.price) := by
      rw [idsAt_eq, idsAt_eq]
      exact (hkept.spots_sublist.filter _).map _
    have hmem : id ∈ kept.idsAt e.side e.price := by
      rw [← hside, ← hprice]
      exact mem_idsAt hlookup
    rw [aheadOf, aheadOf, hsplit]
    exact takeWhile_ne_sublist hsub hmem _ (hids.sublist (List.filter_sublist.map _))

end Reference

/-! ## Books -/

namespace OrderBook

namespace Refines

variable {b : OrderBook} {R : Reference}

theorem ids_unique (h : b.Refines R) : Unique Entry.id R := by
  obtain ⟨L, hL, -, rfl⟩ := h
  rw [Keyed.Unique, List.map_map]
  exact hL.ids

/-- The queue of a price, with the orders of a part only. -/
theorem queueAt_restrict (h : b.Refines R) (S : OrderId → Bool) (side : Side) (p : Price) :
    (b.queueAt side p).filter (fun o => o.any (S ·.id)) =
      (Reference.restingAt side p (restrict Entry.id S R)).map fun e => some ⟨e.id, e.qty⟩ := by
  rw [h.queueAt_eq, List.filter_map, Reference.restingAt, Reference.restingAt, restrict,
    List.filter_filter, List.filter_filter]
  refine congrArg _ (List.filter_congr ?_)
  intro e _
  exact Bool.and_comm _ _

end Refines

/-- A run and the part of it that names some of the orders, or clears the book: for any such
part the calls return the same, and its orders rest at the same places, with the same
quantities and in the same order. -/
theorem run_concerning (symbol : SymbolId) (ops : List Op) (S : OrderId → Bool) :
    ∃ b rets b', OrderBook.run { symbol } ops = some (b, rets) ∧
      OrderBook.run { symbol } (ops.filter (·.concerns S)) =
        some (b', Reference.answersTo S ops rets) ∧
      (∀ id, S id = true → b.restingOrder id = b'.restingOrder id) ∧
      ∀ side p, (b.queueAt side p).filter (fun o => o.any (S ·.id)) = b'.queueAt side p := by
  obtain ⟨b, hrun, hR⟩ := (Refines.empty symbol).run ops
  obtain ⟨b', hrun', hR'⟩ := (Refines.empty symbol).run (ops.filter (·.concerns S))
  have hpart := Reference.run_restrict S ops []
  rw [show restrict Entry.id S ([] : Reference) = [] from rfl] at hpart
  rw [hpart] at hrun' hR'
  refine ⟨b, _, b', hrun, hrun', ?_, ?_⟩
  · intro id hS
    rw [hR.restingOrder_eq, hR'.restingOrder_eq, lookup_restrict hS]
  · intro side p
    rw [hR.queueAt_restrict, hR'.queueAt_eq]

/-- The ids in front of an order in the queue of a price. -/
def ahead (b : OrderBook) (side : Side) (p : Price) (id : OrderId) : List OrderId :=
  ((b.queueAt side p).filterMap (Option.map (·.id))).takeWhile (· ≠ id)

theorem Refines.ahead_eq {b : OrderBook} {R : Reference} (h : b.Refines R) (side : Side)
    (p : Price) (id : OrderId) : b.ahead side p id = R.aheadOf side p id := by
  rw [ahead, h.queueAt_eq, List.filterMap_map, Reference.aheadOf, Reference.idsAt]
  congr 1
  exact List.filterMap_eq_map ▸ rfl

/-- No call of the run puts the order at the back of a queue. -/
def KeepsPlace (id : OrderId) (b : OrderBook) : List Op → Prop
  | [] => True
  | op :: ops => (op.orderId = some id → op.appended (b.restingOrder id) = none) ∧
    ∀ b' ret, b.apply op = some (b', ret) → KeepsPlace id b' ops

theorem Refines.run_ahead {b b' : OrderBook} {R : Reference} (h : b.Refines R) {id : OrderId}
    {ops : List Op} {rets : List Bool} (hplace : KeepsPlace id b ops)
    (hrun : b.run ops = some (b', rets)) {e' : Entry} (he' : b'.restingOrder id = some e') :
    ∃ e, b.restingOrder id = some e ∧ e'.side = e.side ∧ e'.price = e.price ∧ e'.qty ≤ e.qty ∧
      (b'.ahead e.side e.price id).Sublist (b.ahead e.side e.price id) := by
  induction ops generalizing b R rets with
  | nil =>
    obtain ⟨rfl, -⟩ := Prod.mk.inj (Option.some.inj hrun)
    exact ⟨e', he', rfl, rfl, UInt32.le_refl _, List.Sublist.refl _⟩
  | cons op ops ih =>
    obtain ⟨b₁, hop, hR₁⟩ := h.apply op
    obtain ⟨hop', hrest⟩ := hplace
    rw [OrderBook.run, hop] at hrun
    simp only [Option.bind_eq_bind, Option.bind_some] at hrun
    obtain ⟨⟨b₂, rets₂⟩, hops, hend⟩ := Option.bind_eq_some_iff.mp hrun
    obtain ⟨rfl, -⟩ := Prod.mk.inj (Option.some.inj hend)
    obtain ⟨e₁, he₁, hside, hprice, hqty, hsub⟩ := ih hR₁ (hrest b₁ _ hop) hops
    rw [hR₁.restingOrder_eq] at he₁
    rw [h.restingOrder_eq] at hop'
    obtain ⟨e, he, hside', hprice', hqty', hsub'⟩ := Reference.apply_ahead h.ids_unique hop' he₁
    refine ⟨e, h.restingOrder_eq id ▸ he, hside.trans hside', hprice.trans hprice',
      UInt32.le_trans hqty hqty', ?_⟩
    rw [← h.ahead_eq, ← hR₁.ahead_eq] at hsub'
    rw [hside', hprice'] at hsub
    exact hsub.trans hsub'

/-- Price-time priority: calls that neither reprice nor enlarge an order leave it at its
price with at most its quantity, and the orders in front of it are among those that were in
front of it before, in the same order. -/
theorem run_priority (symbol : SymbolId) (ops later : List Op) {b b' : OrderBook}
    {rets rets' : List Bool} (hrun : OrderBook.run { symbol } ops = some (b, rets))
    (hlater : b.run later = some (b', rets')) {id : OrderId} (hplace : KeepsPlace id b later)
    {e' : Entry} (he' : b'.restingOrder id = some e') :
    ∃ e, b.restingOrder id = some e ∧ e'.side = e.side ∧ e'.price = e.price ∧ e'.qty ≤ e.qty ∧
      (b'.ahead e.side e.price id).Sublist (b.ahead e.side e.price id) := by
  obtain ⟨b₀, hrun₀, hR⟩ := (Refines.empty symbol).run ops
  obtain ⟨rfl, -⟩ := Prod.mk.inj (Option.some.inj (hrun₀.symm.trans hrun))
  exact hR.run_ahead hplace hlater he'

/-- One of the two orders in front is filled, the other goes to the back; then the order is
filled in part. -/
theorem run_priority_filled :
    let ops : List Op := [.add 1 .buy 100 5, .add 2 .buy 100 3, .add 3 .buy 100 4]
    let later : List Op := [.execute 1 5, .modify 2 100 9, .execute 3 1]
    ∃ b b' rets rets', OrderBook.run { symbol := 7 } ops = some (b, rets) ∧
      b.run later = some (b', rets') ∧ b'.restingOrder 3 = some ⟨3, .buy, 100, 3⟩ ∧
      ∃ e, b.restingOrder 3 = some e ∧ Side.buy = e.side ∧ 100 = e.price ∧ 3 ≤ e.qty ∧
        (b'.ahead e.side e.price 3).Sublist (b.ahead e.side e.price 3) := by
  intro ops later
  obtain ⟨b, hrun, hR⟩ := (Refines.empty 7).run ops
  obtain ⟨b', hlater, -⟩ := hR.run later
  have hend : ((OrderBook.run { symbol := 7 } ops).bind fun r => (r.1.run later).bind fun r' =>
      r'.1.restingOrder 3) = some ⟨3, .buy, 100, 3⟩ := by decide +kernel
  simp only [hrun, hlater, Option.bind_some] at hend
  have hplace : KeepsPlace 3 b later :=
    ⟨fun h => absurd h (by decide), fun _ _ _ => ⟨fun h => absurd h (by decide), fun _ _ _ =>
      ⟨fun _ => rfl, fun _ _ _ => trivial⟩⟩⟩
  exact ⟨b, b', _, _, hrun, hlater, hend, run_priority 7 ops later hrun hlater hplace hend⟩

end OrderBook

end Mdfh
