import Mdfh.Simulator
import Mdfh.Library.Outcome
import Mdfh.Library.Slots

/-!
# The registry of live orders

The table of one symbol's orders together with the list of their ids and the index of that
list, apart from prices and depths. Also what the random choices deliver.

## Main definitions

* `SymbolState.Registered` — the list, its index and the table agree.
* `SimConfig.Admitted` — the configurations whose distributions have a range.

## Main results

* `Registered.registerOrder`, `Registered.unregisterOrder_eq` — the two updates.
* `Registered.randomLive_ensures` — a random pick is a live order.
* `MarketSimulator.new_symbols` — the first state.
-/

namespace Mdfh

open Std Library Library.OrdMap

/-- The only fault that a run of the simulator may end in. -/
def Overflows (f : Fault) : Prop := f = .priceOverflow

/-- The number of bands is missing: for zero the upper end of the offsets wraps. -/
structure SimConfig.Admitted (cfg : SimConfig) : Prop where
  symbols : 1 ≤ cfg.numSymbols
  qty_pos : 1 ≤ cfg.minQty
  qty_le : cfg.minQty ≤ cfg.maxQty

/-! ## Draws and arithmetic -/

section
variable {rng : Rng} {cfg : SimConfig} {excused : Fault → Prop}

theorem uniform_ensures {lo hi : Nat} (h : lo ≤ hi) (g : rng.State) :
    Ensures excused (rng.uniform lo hi g) fun r => lo ≤ r.1 ∧ r.1 ≤ hi := by
  rw [Rng.uniform, dif_pos h]
  exact (rng.draw lo hi h g).2.property

theorem checkedPrice_ensures (v : Int) :
    Ensures Overflows (checkedPrice v) fun p => p.toInt = v := by
  unfold checkedPrice
  split_ifs with h
  · exact Int64.toInt_ofInt_of_le h.1 h.2
  · exact rfl

theorem addPrice_ensures (a b : Price) :
    Ensures Overflows (addPrice a b) fun p => p.toInt = a.toInt + b.toInt := checkedPrice_ensures _

theorem subPrice_ensures (a b : Price) :
    Ensures Overflows (subPrice a b) fun p => p.toInt = a.toInt - b.toInt := checkedPrice_ensures _

theorem mulPrice_ensures (a b : Price) :
    Ensures Overflows (mulPrice a b) fun p => p.toInt = a.toInt * b.toInt := checkedPrice_ensures _

theorem access_ensures {α : Type} {o : Option α} {a : α} (h : o = some a) :
    Ensures excused (access o) (· = a) := by
  subst h
  exact rfl

theorem randomQty_ensures (hcfg : cfg.Admitted) (g : rng.State) :
    Ensures Overflows (randomQty rng cfg g) fun r =>
      0 < r.1.toNat ∧ r.1.toNat ≤ cfg.maxQty.toNat := by
  have hpos := UInt32.le_iff_toNat_le.mp hcfg.qty_pos
  have hle := UInt32.le_iff_toNat_le.mp hcfg.qty_le
  refine (uniform_ensures hle g).bind ?_
  rintro ⟨q, g'⟩ hq
  have hvalue : (UInt32.ofNat q).toNat = q :=
    UInt32.toNat_ofNat_of_lt' (hq.2.trans_lt cfg.maxQty.toNat_lt)
  refine ⟨?_, ?_⟩
  · rw [hvalue]
    exact Nat.lt_of_lt_of_le Nat.one_pos (hpos.trans hq.1)
  · rw [hvalue]
    exact hq.2

/-- Whatever the depths are, a price is chosen or leaves the range. -/
theorem choosePrice_overflows (s : SymbolState) (side : Side) (g : rng.State) :
    Ensures Overflows (choosePrice rng cfg s side g) fun _ => True := by
  have hceil : Ensures Overflows (bidCeil cfg s) fun _ => True := by
    unfold bidCeil
    cases first? s.askQty with
    | none => exact (subPrice_ensures _ _).mono fun _ _ => trivial
    | some best => exact (subPrice_ensures _ _).mono fun _ _ => trivial
  have hfloor : Ensures Overflows (askFloor cfg s) fun _ => True := by
    unfold askFloor
    cases last? s.bidQty with
    | none => exact (addPrice_ensures _ _).mono fun _ _ => trivial
    | some best => exact (addPrice_ensures _ _).mono fun _ _ => trivial
  by_cases hside : side = .buy
  · rw [choosePrice, if_pos hside]
    refine hceil.bind fun ceil _ => ?_
    have hanchor : Ensures Overflows ((last? s.bidQty).elim (pure ceil) fun best =>
        (min · ceil) <$> addPrice best.1 cfg.tick) fun _ => True := by
      cases last? s.bidQty with
      | none => trivial
      | some best => exact Ensures.map ((addPrice_ensures _ _).mono fun _ _ => trivial)
    refine hanchor.bind fun anchor _ => ?_
    refine (uniform_ensures (Nat.zero_le _) g).bind fun ⟨off, g'⟩ _ => ?_
    refine (mulPrice_ensures _ _).bind fun depth _ => ?_
    exact (subPrice_ensures _ _).bind fun _ _ => trivial
  · rw [choosePrice, if_neg hside]
    refine hfloor.bind fun floor _ => ?_
    have hanchor : Ensures Overflows ((first? s.askQty).elim (pure floor) fun best =>
        (max · floor) <$> subPrice best.1 cfg.tick) fun _ => True := by
      cases first? s.askQty with
      | none => trivial
      | some best => exact Ensures.map ((subPrice_ensures _ _).mono fun _ _ => trivial)
    refine hanchor.bind fun anchor _ => ?_
    refine (uniform_ensures (Nat.zero_le _) g).bind fun ⟨off, g'⟩ _ => ?_
    refine (mulPrice_ensures _ _).bind fun depth _ => ?_
    exact (addPrice_ensures _ _).bind fun _ _ => trivial

end

/-! ## The list of live ids and its index -/

namespace SymbolState

variable {s : SymbolState} {id : OrderId} {o : LiveOrder} (side : Side) (p : Price) (q : Quantity)

@[simp] theorem addDepth_orders : (s.addDepth side p q).orders = s.orders := by
  unfold addDepth
  split_ifs <;> rfl

@[simp] theorem addDepth_liveIds : (s.addDepth side p q).liveIds = s.liveIds := by
  unfold addDepth
  split_ifs <;> rfl

@[simp] theorem addDepth_index : (s.addDepth side p q).index = s.index := by
  unfold addDepth
  split_ifs <;> rfl

@[simp] theorem removeDepth_orders : (s.removeDepth side p q).orders = s.orders := by
  unfold removeDepth
  split_ifs <;> rfl

@[simp] theorem removeDepth_liveIds : (s.removeDepth side p q).liveIds = s.liveIds := by
  unfold removeDepth
  split_ifs <;> rfl

@[simp] theorem removeDepth_index : (s.removeDepth side p q).index = s.index := by
  unfold removeDepth
  split_ifs <;> rfl

@[simp] theorem registerOrder_orders :
    (s.registerOrder id side p q).orders = s.orders.insertIfNew id ⟨side, p, q⟩ := by
  simp [registerOrder]

@[simp] theorem registerOrder_liveIds :
    (s.registerOrder id side p q).liveIds = s.liveIds ++ [id] := by
  simp [registerOrder]

@[simp] theorem registerOrder_index :
    (s.registerOrder id side p q).index = s.index.insertIfNew id s.liveIds.length := by
  simp [registerOrder]

/-- The live ids are the keys of the table, and the index knows their slots. -/
structure Registered (s : SymbolState) : Prop where
  index : Indexes s.index s.liveIds
  live : ∀ id, id ∈ s.liveIds ↔ ∃ o, s.orders[id]? = some o

namespace Registered

variable {side p q}

theorem empty (refMid : Price) : Registered { refMid } where
  index k i := by simp
  live id := by simp

theorem registerOrder (h : s.Registered) (hfresh : s.orders[id]? = none) :
    (s.registerOrder id side p q).Registered where
  index := by
    have hnew : id ∉ s.liveIds := by simp [h.live, hfresh]
    simpa using h.index.push hnew
  live id' := by
    rw [registerOrder_liveIds, registerOrder_orders, getElem?_insertIfNew, List.mem_append,
      List.mem_singleton]
    by_cases hid : id = id'
    · subst hid
      simp [hfresh]
    · simp [hid, Ne.symm hid, h.live id']

/-- The last id moves into the slot of the removed one, possibly itself. -/
theorem unregisterOrder_eq (h : s.Registered) (ho : s.orders[id]? = some o) :
    ∃ index liveIds, s.unregisterOrder id = .ok { s.removeDepth o.side o.price o.qty with
        index, liveIds, orders := s.orders.erase id } ∧
      Indexes index liveIds ∧ ∀ id', id' ∈ liveIds ↔ id' ∈ s.liveIds ∧ id' ≠ id := by
  obtain ⟨slot, hid⟩ := List.mem_iff_getElem?.mp ((h.live id).mpr ⟨o, ho⟩)
  have hslot := (h.index id slot).mpr hid
  obtain ⟨last, hlast⟩ : ∃ last, s.liveIds.getLast? = some last := by
    rw [← Option.isSome_iff_exists, List.getLast?_isSome]
    exact List.ne_nil_of_mem (List.mem_of_getElem? hid)
  have hindex : s.index.insertIfNew id 0 = s.index := by
    refine ExtTreeMap.ext_getElem? ?_
    intro k
    rw [getElem?_insertIfNew, hslot]
    simp
  have hkeep := h.index.swapRemove hid hlast
  refine ⟨_, _, ?_, hkeep, ?_⟩
  · simp only [SymbolState.unregisterOrder, ho, removeDepth_index, removeDepth_liveIds,
      removeDepth_orders, hindex]
    rw [access_bind hslot, access_bind hlast, access_bind hid]
    rfl
  · intro id'
    have hmem := h.index.mem_iff (k := id')
    rw [hkeep.mem_iff, getElem?_erase, getElem?_insert]
    grind

/-- A random live id is the key of an order, and there is always one. -/
theorem randomLive_ensures {rng : Rng} {excused : Fault → Prop} (h : s.Registered)
    (hne : s.liveIds ≠ []) (g : rng.State) :
    Ensures excused (randomLive rng s g) fun r => ∃ o, s.orders[r.1]? = some o := by
  refine (uniform_ensures (Nat.zero_le _) g).bind ?_
  rintro ⟨slot, g'⟩ hslot
  have hpos := List.length_pos_iff.mpr hne
  have hlt : slot < s.liveIds.length := by
    have := hslot.2
    simp only at this
    omega
  refine (access_ensures (List.getElem?_eq_getElem hlt)).bind fun id hid => ?_
  exact (h.live id).mp (hid ▸ List.getElem_mem hlt)

end Registered

end SymbolState

/-! ## The symbols of a simulator -/

theorem lt_numSymbols {cfg : SimConfig} (hcfg : cfg.Admitted) {i : Nat}
    (hi : i ≤ (cfg.numSymbols - 1).toNat) : i < cfg.numSymbols.toNat := by
  rw [UInt32.toNat_sub_of_le _ _ hcfg.symbols] at hi
  exact Nat.lt_of_le_pred (UInt32.le_iff_toNat_le.mp hcfg.symbols) hi

/-- In the beginning the symbols differ in their reference prices only. -/
theorem MarketSimulator.new_symbols (rng : Rng) (cfg : SimConfig) :
    Ensures Overflows (new rng cfg) fun sim => ∃ symbols,
      sim = { cfg, g := rng.seed cfg.seed, symbols, ts := cfg.tsStart } ∧
      symbols.length = cfg.numSymbols.toNat ∧
      ∀ s ∈ symbols, ∃ (i : Nat) (refMid : Price), s = { refMid } ∧
        refMid.toInt = cfg.startPrice.toInt + i * cfg.symbolPriceStep.toInt := by
  have hsymbol : ∀ i ∈ List.range cfg.numSymbols.toNat, Ensures Overflows (do
        let refMid ← addPrice cfg.startPrice (← mulPrice (Int64.ofNat i) cfg.symbolPriceStep)
        return { refMid : SymbolState })
      fun s => ∃ (i : Nat) (refMid : Price), s = { refMid } ∧
        refMid.toInt = cfg.startPrice.toInt + i * cfg.symbolPriceStep.toInt := by
    intro i hi
    refine (mulPrice_ensures _ _).bind ?_
    intro off hoff
    refine (addPrice_ensures _ _).bind fun refMid hmid => ⟨i, refMid, rfl, ?_⟩
    have hlt := (List.mem_range.mp hi).trans (UInt32.toNat_lt cfg.numSymbols)
    rw [Int64.toInt_ofNat_of_lt (by omega)] at hoff
    rw [hmid, hoff]
  refine (Ensures.mapM hsymbol).bind fun symbols ⟨hlen, hall⟩ => ⟨symbols, rfl, ?_, hall⟩
  exact hlen.trans List.length_range

end Mdfh
