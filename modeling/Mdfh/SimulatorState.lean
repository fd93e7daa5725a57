import Mdfh.SimulatorRegistry
import Mdfh.BookRefinement

/-!
# The simulator's live orders as a flat list

One symbol of the simulator against the same flat list of orders that the book refines. The
depth at a price is the sum over the list, and the list of live ids with its index is a
list with slots. The order of the flat list plays no role for the simulator.

## Main definitions

* `depth`, `DepthMap.Shows` — aggregate quantities and the map that shows them.
* `SymbolState.Models` — the abstraction relation.

## Main results

* `Models.registerOrder`, `Models.unregisterOrder`, `Models.partialFill`,
  `Models.reprice` — the updates.
-/

namespace Mdfh

open Std Library Library.Keyed Library.OrdMap

/-! ## Depth -/

def Entry.onBids (e : Entry) : Bool := e.side = .buy

/-- What an entry adds to the depth of one side at a price. -/
def weight (bids : Bool) (p : Price) (e : Entry) : Nat :=
  if e.onBids = bids ∧ e.price = p then e.qty.toNat else 0

def depth (bids : Bool) (R : Reference) (p : Price) : Nat := (R.map (weight bids p)).sum

section
variable {R : Reference} {e : Entry} {bids : Bool} {p : Price}

theorem depth_append : depth bids (R ++ [e]) p = depth bids R p + weight bids p e := by
  simp [depth]

theorem depth_remove (h : Unique Entry.id R) (he : e ∈ R) :
    depth bids (remove Entry.id e.id R) p = depth bids R p - weight bids p e := by
  have hsum := h.sum_remove he (weight bids p)
  rw [depth, depth]
  omega

theorem weight_le_depth (he : e ∈ R) : weight bids p e ≤ depth bids R p :=
  List.single_le_sum (fun _ _ => Nat.zero_le _) _ (List.mem_map_of_mem he)

/-- Two parts of an entry weigh as much as the whole. -/
theorem weight_setQty_add {q : Quantity} (hq : q ≤ e.qty) :
    weight bids p (e.setQty (e.qty - q)) + weight bids p (e.setQty q) = weight bids p e := by
  have hset (q : Quantity) : weight bids p (e.setQty q) =
      if e.onBids = bids ∧ e.price = p then q.toNat else 0 := rfl
  have hle := UInt32.le_iff_toNat_le.mp hq
  rw [hset, hset, weight, UInt32.toNat_sub_of_le _ _ hq]
  split_ifs <;> omega

/-- The depth is bounded by the number of entries times the largest quantity. -/
theorem depth_le {n : Nat} (h : ∀ e ∈ R, e.qty.toNat ≤ n) : depth bids R p ≤ R.length * n := by
  have hle : ∀ w ∈ R.map (weight bids p), w ≤ n := by
    intro w hw
    obtain ⟨e, he, rfl⟩ := List.mem_map.mp hw
    rw [weight]
    split_ifs
    · exact h e he
    · exact Nat.zero_le _
  simpa [depth] using List.sum_le_card_nsmul _ n hle

theorem depth_pos_iff (h : ∀ e ∈ R, 0 < e.qty.toNat) :
    0 < depth bids R p ↔ ∃ e ∈ R, e.onBids = bids ∧ e.price = p := by
  constructor
  · intro hpos
    by_contra hnone
    have hzero : depth bids R p = 0 := by
      refine List.sum_eq_zero ?_
      intro w hw
      obtain ⟨e, he, rfl⟩ := List.mem_map.mp hw
      exact if_neg fun hmatch => hnone ⟨e, he, hmatch⟩
    omega
  · rintro ⟨e, he, hmatch⟩
    have hle : weight bids p e ≤ depth bids R p := weight_le_depth he
    rw [weight, if_pos hmatch] at hle
    exact (h e he).trans_le hle

end

/-! ## Maps that show a depth -/

namespace DepthMap

/-- The map has exactly the prices with a positive quantity, and no sum wraps. -/
def Shows (m : DepthMap) (f : Price → Nat) : Prop :=
  ∀ p, f p < 2 ^ 32 ∧ m[p]? = if f p = 0 then none else some (UInt32.ofNat (f p))

variable {m : DepthMap} {f : Price → Nat} {p : Price} {q : Quantity}

theorem shows_empty : Shows ∅ fun _ => 0 := fun _ => ⟨Nat.two_pow_pos 32, ExtTreeMap.getElem?_empty⟩

theorem Shows.add (h : m.Shows f) (hq : 0 < q.toNat) (hroom : f p + q.toNat < 2 ^ 32) :
    (m.add p q).Shows fun p' => f p' + if p = p' then q.toNat else 0 := by
  intro p'
  obtain ⟨hlt, hget⟩ := h p'
  rw [DepthMap.add, getElem?_insert]
  by_cases hp : p = p'
  · subst hp
    have hvalue : m[p]?.getD 0 + q = UInt32.ofNat (f p + q.toNat) := by
      rw [UInt32.ofNat_add, UInt32.ofNat_toNat, hget]
      split_ifs with hzero
      · simp [hzero]
      · rfl
    have hne : f p + q.toNat ≠ 0 := by omega
    simp only [if_true, if_neg hne, hvalue]
    exact ⟨hroom, trivial⟩
  · simpa [hp] using ⟨hlt, hget⟩

theorem Shows.sub (h : m.Shows f) (hq : 0 < q.toNat) (hle : q.toNat ≤ f p) :
    (m.sub p q).Shows fun p' => f p' - if p = p' then q.toNat else 0 := by
  obtain ⟨hlt, hget⟩ := h p
  have hmod : (UInt32.ofNat (f p)).toNat = f p := UInt32.toNat_ofNat_of_lt' hlt
  rw [if_neg (by omega)] at hget
  have hcmp : UInt32.ofNat (f p) ≤ q ↔ f p ≤ q.toNat := by rw [UInt32.le_iff_toNat_le, hmod]
  intro p'
  obtain ⟨hlt', hget'⟩ := h p'
  simp only [DepthMap.sub, hget, hcmp]
  by_cases hp : p = p'
  · subst hp
    refine ⟨by omega, ?_⟩
    by_cases hall : f p ≤ q.toNat
    · have hzero : f p - q.toNat = 0 := by omega
      simp [hall, hzero]
    · have hne : f p - q.toNat ≠ 0 := by omega
      have hvalue : UInt32.ofNat (f p) - q = UInt32.ofNat (f p - q.toNat) := by
        rw [UInt32.ofNat_sub hle, UInt32.ofNat_toNat]
      simp [hall, hne, hvalue]
  · refine ⟨by omega, ?_⟩
    split_ifs <;> simp_all [getElem?_erase, getElem?_insert]

theorem Shows.pos_of_getElem? (h : m.Shows f) (hp : m[p]? = some q) : 0 < f p := by
  rw [(h p).2] at hp
  split_ifs at hp with hzero
  exact Nat.pos_of_ne_zero hzero

theorem Shows.exists_getElem? (h : m.Shows f) (hp : 0 < f p) : ∃ q, m[p]? = some q :=
  ⟨_, (h p).2.trans (if_neg hp.ne')⟩

theorem Shows.first? (h : m.Shows f) {best : Price × Quantity} (hbest : first? m = some best) :
    0 < f best.1 ∧ ∀ p, 0 < f p → best.1 ≤ p := by
  obtain ⟨hget, hleast⟩ := first?_eq_some hbest
  refine ⟨h.pos_of_getElem? hget, fun p hp => ?_⟩
  obtain ⟨q, hq⟩ := h.exists_getElem? hp
  rcases hleast p q hq with rfl | hlt
  · exact Int64.le_refl _
  · exact Int64.le_of_lt (Std.compare_eq_lt.mp hlt)

theorem Shows.last? (h : m.Shows f) {best : Price × Quantity} (hbest : last? m = some best) :
    0 < f best.1 ∧ ∀ p, 0 < f p → p ≤ best.1 := by
  obtain ⟨hget, hgreatest⟩ := last?_eq_some hbest
  refine ⟨h.pos_of_getElem? hget, fun p hp => ?_⟩
  obtain ⟨q, hq⟩ := h.exists_getElem? hp
  rcases hgreatest p q hq with rfl | hlt
  · exact Int64.le_refl _
  · exact Int64.le_of_lt (Std.compare_eq_lt.mp hlt)

theorem Shows.eq_zero_of_first? (h : m.Shows f) (hnone : Library.OrdMap.first? m = none) (p : Price) :
    f p = 0 := by
  have hget := (h p).2
  rw [first?_eq_none p hnone] at hget
  by_contra hne
  simp [hne] at hget

theorem Shows.eq_zero_of_last? (h : m.Shows f) (hnone : Library.OrdMap.last? m = none) (p : Price) :
    f p = 0 := by
  have hget := (h p).2
  rw [last?_eq_none p hnone] at hget
  by_contra hne
  simp [hne] at hget

end DepthMap

/-! ## The abstraction relation -/

def Entry.live (e : Entry) : LiveOrder := ⟨e.side, e.price, e.qty⟩

namespace SymbolState

/-- The two maps show the depth `f`, given by side and price. -/
structure Depths (s : SymbolState) (f : Bool → Price → Nat) : Prop where
  bids : s.bidQty.Shows (f true)
  asks : s.askQty.Shows (f false)

/-- The state holds exactly the orders of a flat list. -/
structure Models (s : SymbolState) (R : Reference) : Prop where
  unique : Unique Entry.id R
  orders : ∀ id o, s.orders[id]? = some o ↔ ∃ e ∈ R, e.id = id ∧ e.live = o
  index : Indexes s.index s.liveIds
  live : ∀ id, id ∈ s.liveIds ↔ ∃ e ∈ R, e.id = id
  depths : s.Depths fun bids => depth bids R

variable {s : SymbolState} {f : Bool → Price → Nat} {R R' : Reference} {e : Entry}

/-- Adding depth changes the two maps and nothing else. -/
theorem Depths.addDepth (h : s.Depths f) (e : Entry) (hq : 0 < e.qty.toNat)
    (hroom : f e.onBids e.price + e.qty.toNat < 2 ^ 32) :
    ∃ bidQty askQty, s.addDepth e.side e.price e.qty = { s with bidQty, askQty } ∧
      Depths { s with bidQty, askQty } fun bids p => f bids p + weight bids p e := by
  by_cases hside : e.side = .buy
  · have hon : e.onBids = true := decide_eq_true hside
    rw [hon] at hroom
    refine ⟨_, _, if_pos hside, ?_, ?_⟩
    · simpa [weight, hon] using h.bids.add hq hroom
    · simpa [weight, hon] using h.asks
  · have hon : e.onBids = false := decide_eq_false hside
    rw [hon] at hroom
    refine ⟨_, _, if_neg hside, ?_, ?_⟩
    · simpa [weight, hon] using h.bids
    · simpa [weight, hon] using h.asks.add hq hroom

theorem Depths.removeDepth (h : s.Depths f) (e : Entry) (hq : 0 < e.qty.toNat)
    (hle : e.qty.toNat ≤ f e.onBids e.price) :
    ∃ bidQty askQty, s.removeDepth e.side e.price e.qty = { s with bidQty, askQty } ∧
      Depths { s with bidQty, askQty } fun bids p => f bids p - weight bids p e := by
  by_cases hside : e.side = .buy
  · have hon : e.onBids = true := decide_eq_true hside
    rw [hon] at hle
    refine ⟨_, _, if_pos hside, ?_, ?_⟩
    · simpa [weight, hon] using h.bids.sub hq hle
    · simpa [weight, hon] using h.asks
  · have hon : e.onBids = false := decide_eq_false hside
    rw [hon] at hle
    refine ⟨_, _, if_neg hside, ?_, ?_⟩
    · simpa [weight, hon] using h.bids
    · simpa [weight, hon] using h.asks.sub hq hle

namespace Models

theorem empty (refMid : Price) : Models { refMid } [] where
  unique := List.nodup_nil
  orders id o := by simp
  index k i := by simp
  live id := by simp
  depths := ⟨DepthMap.shows_empty, DepthMap.shows_empty⟩

theorem registered (h : s.Models R) : s.Registered where
  index := h.index
  live id := by
    rw [h.live]
    constructor
    · rintro ⟨e, he, rfl⟩
      exact ⟨e.live, (h.orders e.id e.live).mpr ⟨e, he, rfl, rfl⟩⟩
    · rintro ⟨o, ho⟩
      obtain ⟨e, he, hid, -⟩ := (h.orders id o).mp ho
      exact ⟨e, he, hid⟩

/-- The order of the list plays no role. -/
theorem perm (h : s.Models R) (hperm : R.Perm R') : s.Models R' where
  unique := (hperm.map Entry.id).nodup_iff.mp h.unique
  orders id o := by
    rw [h.orders]
    exact exists_congr fun e => and_congr_left fun _ => hperm.mem_iff
  index := h.index
  live id := by
    rw [h.live]
    exact exists_congr fun e => and_congr_left fun _ => hperm.mem_iff
  depths := by
    have hdepth : (fun bids => depth bids R) = fun bids => depth bids R' := by
      funext bids p
      exact (hperm.map (weight bids p)).sum_eq
    exact hdepth ▸ h.depths

theorem registerOrder (h : s.Models R) (e : Entry) (hfresh : ∀ e' ∈ R, e'.id ≠ e.id)
    (hq : 0 < e.qty.toNat) (hroom : depth e.onBids R e.price + e.qty.toNat < 2 ^ 32) :
    (s.registerOrder e.id e.side e.price e.qty).Models (R ++ [e]) ∧
      (s.registerOrder e.id e.side e.price e.qty).refMid = s.refMid := by
  have hnone : s.orders[e.id]? = none := by
    rw [← Option.not_isSome_iff_eq_none, Option.isSome_iff_exists]
    rintro ⟨o, ho⟩
    obtain ⟨e', he', hid, -⟩ := (h.orders e.id o).mp ho
    exact hfresh e' he' hid
  have hdepths : Depths { s with
      orders := s.orders.insertIfNew e.id e.live
      index := s.index.insertIfNew e.id s.liveIds.length
      liveIds := s.liveIds ++ [e.id] } fun bids => depth bids R := ⟨h.depths.bids, h.depths.asks⟩
  obtain ⟨bidQty, askQty, heq, hdepths⟩ := hdepths.addDepth e hq hroom
  rw [show s.registerOrder e.id e.side e.price e.qty = _ from heq]
  refine ⟨⟨?_, ?_, ?_, ?_, ?_⟩, rfl⟩
  · exact h.unique.append_singleton (lookup_eq_none_iff.mpr hfresh)
  · intro id o
    rw [getElem?_insertIfNew, hnone]
    by_cases hid : e.id = id
    · subst hid
      have hold : ¬∃ e' ∈ R, e'.id = e.id ∧ e'.live = o :=
        fun ⟨e', he', hid, _⟩ => hfresh e' he' hid
      grind
    · have hiff := h.orders id o
      grind
  · have hregistered : (s.registerOrder e.id e.side e.price e.qty).Registered :=
      h.registered.registerOrder hnone
    simpa using hregistered.index
  · intro id
    have hiff := h.live id
    grind
  · refine ⟨?_, ?_⟩
    · simpa only [← depth_append] using hdepths.bids
    · simpa only [← depth_append] using hdepths.asks

theorem orders_of_mem (h : s.Models R) (he : e ∈ R) : s.orders[e.id]? = some e.live :=
  (h.orders e.id e.live).mpr ⟨e, he, rfl, rfl⟩

theorem qty_le_depth (he : e ∈ R) : e.qty.toNat ≤ depth e.onBids R e.price := by
  have hle : weight e.onBids e.price e ≤ depth e.onBids R e.price := weight_le_depth he
  rwa [weight, if_pos ⟨rfl, rfl⟩] at hle

/-- The maps after an order's whole quantity is taken off. -/
theorem removeDepth (h : s.Models R) (he : e ∈ R) (hq : 0 < e.qty.toNat) :
    ∃ bidQty askQty, s.removeDepth e.side e.price e.qty = { s with bidQty, askQty } ∧
      Depths { s with bidQty, askQty } fun bids => depth bids (remove Entry.id e.id R) := by
  obtain ⟨bidQty, askQty, heq, hdepths⟩ := h.depths.removeDepth e hq (qty_le_depth he)
  refine ⟨bidQty, askQty, heq, ?_⟩
  simpa only [← depth_remove h.unique he] using hdepths

theorem unregisterOrder (h : s.Models R) (he : e ∈ R) (hq : 0 < e.qty.toNat) :
    ∃ s', s.unregisterOrder e.id = .ok s' ∧ s'.Models (remove Entry.id e.id R) ∧
      s'.refMid = s.refMid := by
  obtain ⟨index, liveIds, heq, hindex, hlive⟩ :=
    h.registered.unregisterOrder_eq (h.orders_of_mem he)
  obtain ⟨bidQty, askQty, hremoved, hdepths⟩ := h.removeDepth he hq
  rw [show s.removeDepth e.live.side e.live.price e.live.qty = _ from hremoved] at heq
  refine ⟨_, heq, ⟨h.unique.remove _, ?_, hindex, ?_, ⟨hdepths.bids, hdepths.asks⟩⟩, rfl⟩
  · intro id o
    have hiff := h.orders id o
    rw [getElem?_erase]
    simp only [mem_remove]
    grind
  · intro id
    have hold := h.live id
    rw [hlive]
    simp only [mem_remove]
    grind

/-- One order is replaced by another of the same id, in the table and in the maps. -/
theorem replace (h : s.Models R) (he : e ∈ R) (e' : Entry) (hid : e'.id = e.id)
    {bidQty askQty : DepthMap} (hdepths : Depths { s with bidQty, askQty } fun bids =>
      depth bids (remove Entry.id e.id R ++ [e'])) :
    Models { s with bidQty, askQty, orders := s.orders.insert e.id e'.live }
      (remove Entry.id e.id R ++ [e']) where
  unique := by
    refine (h.unique.remove e.id).append_singleton ?_
    rw [hid, lookup_remove, if_pos rfl]
  orders id o := by
    have hiff := h.orders id o
    rw [getElem?_insert]
    simp only [List.mem_append, mem_remove, List.mem_singleton]
    grind
  index := h.index
  live id := by
    rw [h.live id]
    simp only [List.mem_append, mem_remove, List.mem_singleton]
    grind
  depths := ⟨hdepths.bids, hdepths.asks⟩

theorem partialFill (h : s.Models R) (he : e ∈ R) {q : Quantity} (hq : 0 < q.toNat)
    (hlt : q < e.qty) :
    ∃ bidQty askQty, s.removeDepth e.side e.price q = { s with bidQty, askQty } ∧
      Models { s with bidQty, askQty, orders := s.orders.insert e.id ⟨e.side, e.price, e.qty - q⟩ }
        (remove Entry.id e.id R ++ [e.setQty (e.qty - q)]) := by
  have hle : q ≤ e.qty := UInt32.le_of_lt hlt
  have hdepth : q.toNat ≤ depth e.onBids R e.price :=
    (UInt32.le_iff_toNat_le.mp hle).trans (qty_le_depth he)
  obtain ⟨bidQty, askQty, heq, hdepths⟩ := h.depths.removeDepth (e.setQty q) hq hdepth
  refine ⟨bidQty, askQty, heq, h.replace he (e.setQty (e.qty - q)) rfl ?_⟩
  have hsame (bids : Bool) (p : Price) : depth bids R p - weight bids p (e.setQty q) =
      depth bids (remove Entry.id e.id R ++ [e.setQty (e.qty - q)]) p := by
    have hparts : _ = weight bids p e := weight_setQty_add hle
    have hmem : weight bids p e ≤ depth bids R p := weight_le_depth he
    rw [depth_append, depth_remove h.unique he]
    omega
  simpa only [hsame] using hdepths

/-- The second half of a modification: the order is back at its new price. -/
theorem reprice (h : s.Models R) (he : e ∈ R) {bidQty askQty : DepthMap}
    (hdepths : Depths { s with bidQty, askQty } fun bids => depth bids (remove Entry.id e.id R))
    {p : Price} {q : Quantity} (hq : 0 < q.toNat)
    (hroom : depth e.onBids (remove Entry.id e.id R) p + q.toNat < 2 ^ 32) :
    let s' : SymbolState := { s with bidQty, askQty, orders := s.orders.insert e.id ⟨e.side, p, q⟩ }
    (s'.addDepth e.side p q).Models (remove Entry.id e.id R ++ [⟨e.id, e.side, p, q⟩]) ∧
      (s'.addDepth e.side p q).refMid = s.refMid := by
  intro s'
  have hdepths' : s'.Depths fun bids => depth bids (remove Entry.id e.id R) :=
    ⟨hdepths.bids, hdepths.asks⟩
  obtain ⟨bidQty', askQty', heq, hadded⟩ := hdepths'.addDepth ⟨e.id, e.side, p, q⟩ hq hroom
  rw [show s'.addDepth e.side p q = _ from heq]
  have hnew : Depths { s with bidQty := bidQty', askQty := askQty' } fun bids =>
      depth bids (remove Entry.id e.id R ++ [⟨e.id, e.side, p, q⟩]) := by
    simp only [← depth_append] at hadded
    exact ⟨hadded.bids, hadded.asks⟩
  exact ⟨h.replace he ⟨e.id, e.side, p, q⟩ rfl hnew, rfl⟩

end Models

end SymbolState

end Mdfh
