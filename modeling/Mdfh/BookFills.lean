import Mdfh.BookRefinement

/-!
# Split fills

Executing two quantities against an order one after the other takes as much from it as
executing their sum, and exhausts it in the same cases. A book is determined by its cells,
so whole books agree, not only what is reported of them.

## Main results

* `filled_filled` — two executions are one of the sum.
* `run_fills` — every list of executions with a given sum.
-/

namespace Mdfh

open Std Library Library.Keyed

namespace OrderBook

/-! ## Books with the same cells -/

section
variable {b b' : OrderBook} {L : List Cell}

theorem SameFrame.trans {b'' : OrderBook} (h : b.SameFrame b') (h' : b'.SameFrame b'') :
    b.SameFrame b'' :=
  ⟨h'.symbol.trans h.symbol, h'.next.trans h.next⟩

/-- A map of levels is determined by its cells. -/
theorem levels_ext {cmp : Price → Price → Ordering} [TransCmp cmp] [LawfulEqCmp cmp]
    {m m' : LevelMap cmp} {Q : List Cell} (h : Levels m Q) (h' : Levels m' Q) : m = m' :=
  ExtTreeMap.ext_getElem? fun p => (h p).trans (h' p).symm

/-- So is the whole book, but for what no cell shows. -/
theorem Represents.ext (h : b.Represents L) (h' : b'.Represents L) (hframe : b.SameFrame b') :
    b = b' := by
  have horders : b.orders = b'.orders :=
    ExtTreeMap.ext_getElem? fun i => (h.orders i).trans (h'.orders i).symm
  have hcells : b.pool.cells = b'.pool.cells :=
    ExtTreeMap.ext_getElem? fun a => (h.cells a).trans (h'.cells a).symm
  have hpool : b.pool = b'.pool := by
    have hnext := hframe.next
    have hearly := h.early.trans h'.early.symm
    revert hcells hnext hearly
    rcases b.pool with ⟨cells, next, early⟩
    rcases b'.pool with ⟨cells', next', early'⟩
    dsimp only
    rintro rfl rfl rfl
    rfl
  have hbids := levels_ext h.bids h'.bids
  have hasks := levels_ext h.asks h'.asks
  have hsymbol := hframe.symbol
  cases b
  cases b'
  simp_all

end

/-! ## Two executions -/

namespace Represents

variable {b : OrderBook} {L : List Cell} {c : Cell} {id : OrderId} {q q₁ q₂ : Quantity}

theorem filled_of_none (h : lookup Cell.id id L = none) : filled L id q = L := by
  rw [filled, h]

/-- An execution of at least the quantity of the order removes it. -/
theorem filled_all (hids : Unique Cell.id L) (hc : c ∈ L) (hle : c.qty ≤ q) :
    filled L c.id q = remove Cell.id c.id L := by
  have hmin : min q c.qty = c.qty := by
    by_cases h : q ≤ c.qty
    · exact (if_pos h).trans (UInt32.le_antisymm h hle)
    · exact if_neg h
  simp [filled, hids.lookup_of_mem hc, hmin]

/-- An execution of less than that lowers it. -/
theorem filled_part (hids : Unique Cell.id L) (hc : c ∈ L) (hlt : q < c.qty) :
    filled L c.id q = update Cell.id c.id (Cell.setQty (c.qty - q)) L := by
  have hmin : min q c.qty = q := if_pos (UInt32.le_of_lt hlt)
  have hne : c.qty - q ≠ 0 := by grind
  simp [filled, hids.lookup_of_mem hc, hmin, hne]

/-- What the first execution leaves is met by the second. -/
theorem filled_filled (hids : Unique Cell.id L) (id : OrderId)
    (hsum : q.toNat = q₁.toNat + q₂.toNat) : filled (filled L id q₁) id q₂ = filled L id q := by
  cases hid : lookup Cell.id id L with
  | none => rw [filled_of_none hid, filled_of_none hid, filled_of_none hid]
  | some c =>
    obtain ⟨hc, rfl⟩ := of_lookup_eq_some hid
    by_cases hfirst : q₁ < c.qty
    · have hleft : (c.qty - q₁).toNat = c.qty.toNat - q₁.toNat :=
        UInt32.toNat_sub_of_le _ _ (UInt32.le_of_lt hfirst)
      have hlt := UInt32.lt_iff_toNat_lt.mp hfirst
      have hids' : Unique Cell.id (update Cell.id c.id (Cell.setQty (c.qty - q₁)) L) :=
        hids.update _ (Cell.setQty_id _)
      have hc' : c.setQty (c.qty - q₁) ∈ update Cell.id c.id (Cell.setQty (c.qty - q₁)) L :=
        List.mem_map.mpr ⟨c, hc, if_pos rfl⟩
      rw [filled_part hids hc hfirst]
      by_cases hsecond : q₂ < c.qty - q₁
      · have hlt' := UInt32.lt_iff_toNat_lt.mp hsecond
        have hboth : q < c.qty := UInt32.lt_iff_toNat_lt.mpr (by omega)
        have hrest : c.qty - q₁ - q₂ = c.qty - q := by
          rw [← UInt32.toNat_inj, UInt32.toNat_sub_of_le _ _ (UInt32.le_of_lt hsecond), hleft,
            UInt32.toNat_sub_of_le _ _ (UInt32.le_of_lt hboth)]
          omega
        rw [filled_part hids hc hboth, ← hrest]
        exact (filled_part hids' hc' hsecond).trans (update_update (Cell.setQty_id _))
      · have hle := UInt32.le_iff_toNat_le.mp (UInt32.not_lt.mp hsecond)
        have hboth : c.qty ≤ q := UInt32.le_iff_toNat_le.mpr (by omega)
        rw [filled_all hids hc hboth]
        exact (filled_all hids' hc' (UInt32.not_lt.mp hsecond)).trans
          (remove_update (Cell.setQty_id _))
    · have hle := UInt32.le_iff_toNat_le.mp (UInt32.not_lt.mp hfirst)
      have hboth : c.qty ≤ q := UInt32.le_iff_toNat_le.mpr (by omega)
      have hgone : lookup Cell.id c.id (remove Cell.id c.id L) = none := by
        rw [lookup_remove, if_pos rfl]
      rw [filled_all hids hc (UInt32.not_lt.mp hfirst), filled_all hids hc hboth,
        filled_of_none hgone]

/-- An execution of nothing changes nothing. -/
theorem filled_zero (hids : Unique Cell.id L) (hpos : ∀ c ∈ L, c.qty ≠ 0) (id : OrderId) :
    filled L id 0 = L := by
  cases hid : lookup Cell.id id L with
  | none => exact filled_of_none hid
  | some c =>
    obtain ⟨hc, rfl⟩ := of_lookup_eq_some hid
    have hlt : 0 < c.qty := by
      have := hpos c hc
      grind
    rw [filled_part hids hc hlt, UInt32.sub_zero]
    refine (List.map_congr_left fun x hx => ?_).trans (List.map_id L)
    split_ifs with hx'
    · rw [hids.eq_of_mem hx hc hx']
      rfl
    · rfl

theorem pos_filled (hpos : ∀ c ∈ L, c.qty ≠ 0) (id : OrderId) (q : Quantity) :
    ∀ c ∈ filled L id q, c.qty ≠ 0 := by
  rw [filled]
  split
  · exact hpos
  · simp only
    split_ifs with hzero
    · exact pos_remove hpos id
    · exact pos_update hpos id hzero

/-! ## Lists of executions -/

/-- A list of executions does to the cells what one execution of its sum does. -/
theorem run_executes (h : b.Represents L) (hpos : ∀ c ∈ L, c.qty ≠ 0) (id : OrderId)
    (qs : List Quantity) (hsum : (qs.map (·.toNat)).sum = q.toNat) :
    ∃ b' rets, b.run (qs.map (.execute id)) = some (b', rets) ∧ b.SameFrame b' ∧
      b'.Represents (filled L id q) := by
  induction qs generalizing b L q with
  | nil =>
    obtain rfl : q = 0 := UInt32.toNat_inj.mp hsum.symm
    refine ⟨b, [], rfl, ⟨rfl, rfl⟩, ?_⟩
    rwa [filled_zero h.ids hpos]
  | cons q₁ qs ih =>
    rw [List.map_cons, List.sum_cons] at hsum
    have hrest : (qs.map (·.toNat)).sum = (q - q₁).toNat := by
      have hle : q₁ ≤ q := UInt32.le_iff_toNat_le.mpr (by omega)
      rw [UInt32.toNat_sub_of_le _ _ hle]
      omega
    obtain ⟨b₁, hexecute, hframe₁, hb₁⟩ := h.execute id q₁
    obtain ⟨b₂, rets, hrun, hframe₂, hb₂⟩ := ih hb₁ (pos_filled hpos id q₁) hrest
    rw [filled_filled h.ids id (q := q) (by omega)] at hb₂
    refine ⟨b₂, (lookup Cell.id id L).isSome :: rets, ?_, hframe₁.trans hframe₂, hb₂⟩
    rw [List.map_cons, OrderBook.run, OrderBook.apply, hexecute]
    simp only [Option.bind_eq_bind, Option.bind_some, hrun]
    rfl

end Represents

/-- In every state that calls with arbitrary arguments reach from an empty book, for every id
and every quantity: executing any quantities with that sum, one after the other, leaves the
same book as executing their sum. -/
theorem run_fills (symbol : SymbolId) (ops : List Op) (id : OrderId) (q : Quantity) :
    ∃ b rets b' ret, OrderBook.run { symbol } ops = some (b, rets) ∧
      b.execute id q = some (b', ret) ∧
      ∀ qs : List Quantity, (qs.map UInt32.toNat).sum = q.toNat →
        ∃ rets', b.run (qs.map (.execute id)) = some (b', rets') := by
  obtain ⟨b, hrun, L, hL, hpos, -⟩ := (Refines.empty symbol).run ops
  obtain ⟨b', hexecute, hframe, hb'⟩ := hL.execute id q
  refine ⟨b, _, b', _, hrun, hexecute, fun qs hsum => ?_⟩
  obtain ⟨b'', rets', hrun', hframe', hb''⟩ := hL.run_executes hpos id qs hsum
  have hsame : b''.SameFrame b' :=
    ⟨hframe.symbol.trans hframe'.symbol.symm, hframe.next.trans hframe'.next.symm⟩
  rw [hb''.ext hb' hsame] at hrun'
  exact ⟨rets', hrun'⟩

end OrderBook

end Mdfh
