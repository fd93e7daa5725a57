import Mdfh.BookProjection

/-!
# Quantities that enter and leave the book

What has entered the book is what still rests in it, what was withdrawn and what was filled,
for any part of the orders: one order, one side or all of them.

## Main definitions

* `OrderBook.volume` — the quantity that rests.
* `OrderBook.moves`, `OrderBook.volumes` — what a call, and a run, lets in and out.

## Main results

* `Refines.apply_moves` — one call.
* `OrderBook.run_volumes` — every run from an empty book.
-/

namespace Mdfh

open Std Library Library.Keyed

/-- Quantities that came into the book, were taken out of it, and were executed. -/
structure Volumes where
  entered : Nat := 0
  withdrawn : Nat := 0
  filled : Nat := 0
  deriving DecidableEq, Repr

namespace Volumes

def plus (v w : Volumes) : Volumes :=
  { entered := v.entered + w.entered
    withdrawn := v.withdrawn + w.withdrawn
    filled := v.filled + w.filled }

@[simp] theorem entered_plus (v w : Volumes) : (v.plus w).entered = v.entered + w.entered := rfl

@[simp] theorem withdrawn_plus (v w : Volumes) :
    (v.plus w).withdrawn = v.withdrawn + w.withdrawn := rfl

@[simp] theorem filled_plus (v w : Volumes) : (v.plus w).filled = v.filled + w.filled := rfl

end Volumes

/-- The quantity of an order, if it is in the part `S`. -/
def Entry.volume (S : OrderId → Side → Bool) (e : Entry) : Nat :=
  if S e.id e.side then e.qty.toNat else 0

namespace OrderBook

variable {S : OrderId → Side → Bool} {b b' : OrderBook} {R : Reference}

/-- What rests in the part `S` of the book. -/
def volume (S : OrderId → Side → Bool) (b : OrderBook) : Nat :=
  (b.restingOrders.map (Entry.volume S)).sum

/-- What a call does to the quantities in the part `S`. -/
def moves (S : OrderId → Side → Bool) (b : OrderBook) : Op → Volumes
  | .add id side price qty =>
    if (b.add id side price qty).2 ∧ S id side then { entered := qty.toNat } else {}
  | .cancel id =>
    match b.restingOrder id with
    | none => {}
    | some e => { withdrawn := e.volume S }
  | .modify id _ newQty =>
    match b.restingOrder id with
    | none => {}
    | some e =>
      { entered := (e.setQty newQty).volume S - e.volume S
        withdrawn := e.volume S - (e.setQty newQty).volume S }
  | .execute restingId qty =>
    match b.restingOrder restingId with
    | none => {}
    | some e => { filled := (e.setQty (min qty e.qty)).volume S }
  | .clear => { withdrawn := b.volume S }

/-- What a run does to them. -/
def volumes (S : OrderId → Side → Bool) (b : OrderBook) : List Op → Volumes
  | [] => {}
  | op :: ops =>
    match b.apply op with
    | none => {}
    | some (b', _) => (b.moves S op).plus (b'.volumes S ops)

end OrderBook

namespace Reference

variable {S : OrderId → Side → Bool} {R : Reference} {id : OrderId} {e : Entry}

def volume (S : OrderId → Side → Bool) (R : Reference) : Nat := (R.map (Entry.volume S)).sum

theorem volume_concat (e : Entry) : volume S (R ++ [e]) = R.volume S + e.volume S := by
  simp [volume]

theorem volume_remove (hids : Unique Entry.id R) (he : lookup Entry.id id R = some e) :
    R.volume S = e.volume S + volume S (remove Entry.id id R) := by
  obtain ⟨hmem, rfl⟩ := of_lookup_eq_some he
  exact hids.sum_remove hmem _

theorem volume_update (hids : Unique Entry.id R) (he : lookup Entry.id id R = some e)
    (qty : Quantity) :
    volume S (update Entry.id id (Entry.setQty qty) R) + e.volume S =
      R.volume S + (e.setQty qty).volume S := by
  obtain ⟨hmem, rfl⟩ := of_lookup_eq_some he
  exact hids.sum_update hmem (Entry.setQty_id qty) _

end Reference

/-- A fill takes as much from an order as it reports. -/
theorem Entry.volume_fill (S : OrderId → Side → Bool) (e : Entry) (qty : Quantity) :
    (e.setQty (e.qty - min qty e.qty)).volume S + (e.setQty (min qty e.qty)).volume S =
      e.volume S := by
  have hle := min_qty_le qty e.qty
  have hsub := UInt32.toNat_sub_of_le _ _ hle
  have hnat := UInt32.le_iff_toNat_le.mp hle
  by_cases hS : S e.id e.side = true
  · simp only [volume, setQty, hS, if_true]
    omega
  · simp [volume, setQty, hS]

namespace OrderBook.Refines

variable {S : OrderId → Side → Bool} {b b' : OrderBook} {R : Reference}

theorem volume_eq (h : b.Refines R) : b.volume S = R.volume S :=
  (h.restingOrders_perm.map _).sum_eq

/-- One call: what rests changes by what comes in and goes out. -/
theorem apply_moves (h : b.Refines R) (op : Op) :
    Reference.volume S (R.apply op).1 + (b.moves S op).withdrawn + (b.moves S op).filled =
      R.volume S + (b.moves S op).entered := by
  have hids := h.ids_unique
  cases op with
  | add id side price qty =>
    have hret := (h.add id side price qty).2
    simp only [moves, hret, Reference.apply, Reference.add]
    split_ifs with hnew hS hS
    · simp [Reference.volume_concat, Entry.volume, hS]
    · simp_all [Reference.volume_concat, Entry.volume]
    · simp_all
    · simp
  | cancel id =>
    simp only [moves, h.restingOrder_eq, Reference.apply, Reference.cancel]
    cases he : lookup Entry.id id R with
    | none => simp
    | some e =>
      have hremove := Reference.volume_remove (S := S) hids he
      simp only
      omega
  | modify id newPrice newQty =>
    simp only [moves, h.restingOrder_eq, Reference.apply, Reference.modify]
    cases he : lookup Entry.id id R with
    | none => simp
    | some e =>
      obtain ⟨-, hid⟩ := of_lookup_eq_some he
      have hremove := Reference.volume_remove (S := S) hids he
      have hupdate := Reference.volume_update (S := S) hids he newQty
      simp only [apply_ite Prod.fst]
      split_ifs with hzero hshrink
      · have hnone : (e.setQty newQty).volume S = 0 := by simp [Entry.volume, Entry.setQty, hzero]
        omega
      · omega
      · -- The order goes to the back, possibly at another price.
        have hback : Entry.volume S ⟨id, e.side, newPrice, newQty⟩ = (e.setQty newQty).volume S := by
          rw [← hid]
          rfl
        rw [Reference.volume_concat, hback]
        omega
  | execute id qty =>
    simp only [moves, h.restingOrder_eq, Reference.apply, Reference.execute]
    cases he : lookup Entry.id id R with
    | none => simp
    | some e =>
      have hfill := e.volume_fill S qty
      have hremove := Reference.volume_remove (S := S) hids he
      have hupdate := Reference.volume_update (S := S) hids he (e.qty - min qty e.qty)
      simp only [apply_ite Prod.fst]
      split_ifs with hgone
      · have hnone : (e.setQty (e.qty - min qty e.qty)).volume S = 0 := by
          simp [Entry.volume, Entry.setQty, hgone]
        omega
      · omega
  | clear =>
    simp [moves, Reference.apply, h.volume_eq, Reference.volume]

theorem run_moves (h : b.Refines R) (ops : List Op) :
    Reference.volume S (R.run ops).1 + (b.volumes S ops).withdrawn + (b.volumes S ops).filled =
      R.volume S + (b.volumes S ops).entered := by
  induction ops generalizing b R with
  | nil => simp [Reference.run, volumes]
  | cons op ops ih =>
    obtain ⟨b₁, hop, h₁⟩ := h.apply op
    have hfirst := h.apply_moves (S := S) op
    have hrest := ih h₁
    simp only [Reference.run, volumes, hop, Volumes.entered_plus, Volumes.withdrawn_plus,
      Volumes.filled_plus]
    omega

end OrderBook.Refines

namespace OrderBook

/-- Over any calls from an empty book and for any part of the orders, all quantity that entered
still rests, was withdrawn, or was filled. -/
theorem run_volumes (symbol : SymbolId) (ops : List Op) (S : OrderId → Side → Bool) :
    ∃ b rets, OrderBook.run { symbol } ops = some (b, rets) ∧
      let v := volumes S { symbol } ops
      v.entered = b.volume S + v.withdrawn + v.filled := by
  have hempty := Refines.empty symbol
  obtain ⟨b, hrun, hb⟩ := hempty.run ops
  refine ⟨b, _, hrun, ?_⟩
  have hmoves := hempty.run_moves (S := S) ops
  have hnone : Reference.volume S [] = 0 := rfl
  simp only [hb.volume_eq]
  omega

end OrderBook

end Mdfh
