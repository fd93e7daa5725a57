import Mdfh.BookQueries

/-!
# Depth queries and resting orders

What a side shows is determined by the orders that rest on it: at each price the sum of
their quantities and their number, best price first. Two books whose levels show the same
answer every depth query alike.

## Main definitions

* `OrderBook.restingOrders` — the orders of a book, read through its locators.
* `Reference.restingAt`, `Reference.viewAt` — the orders at a price, and what they show.
* `ListsBest` — what a depth query has to list.

## Main results

* `Refines.view_levelAt`, `Refines.queueAt_eq` — a level against the flat list.
* `apply_symbol` — a book keeps its symbol.
* `run_depth` — all depth queries in every reachable state.
-/

namespace Mdfh

open Std Library Library.Keyed Library.OrdMap

/-! ## Orders at a price -/

namespace Reference

/-- The orders at a price on the side of the book that `side` selects, in list order. -/
def restingAt (side : Side) (p : Price) (R : Reference) : List Entry :=
  R.filter fun e => (e.side = .buy ↔ side = .buy) ∧ e.price = p

/-- What the orders at a price show: the sum of the quantities and their number, both
modulo 2^32. -/
def viewAt (side : Side) (p : Price) (R : Reference) : Option LevelView :=
  if R.restingAt side p = [] then none
  else some ⟨p, UInt32.ofNat ((R.restingAt side p).map (·.qty.toNat)).sum,
    UInt32.ofNat (R.restingAt side p).length⟩

variable {R R' : Reference} {side : Side} {p : Price} {v : LevelView}

theorem viewAt_perm (h : R.Perm R') : R.viewAt side p = R'.viewAt side p := by
  have hperm : (R.restingAt side p).Perm (R'.restingAt side p) := h.filter _
  have hnil : R.restingAt side p = [] ↔ R'.restingAt side p = [] := by
    rw [← List.length_eq_zero_iff, hperm.length_eq, List.length_eq_zero_iff]
  simp only [viewAt, hnil, (hperm.map _).sum_eq, hperm.length_eq]

theorem viewAt_eq_some (h : R.viewAt side p = some v) :
    v.price = p ∧ R.restingAt side p ≠ [] ∧
      v.quantity.toNat = ((R.restingAt side p).map (·.qty.toNat)).sum % 2 ^ 32 ∧
      v.orderCount.toNat = (R.restingAt side p).length % 2 ^ 32 := by
  unfold viewAt at h
  split_ifs at h with hnil
  obtain rfl := Option.some.inj h
  exact ⟨rfl, hnil, UInt32.toNat_ofNat', UInt32.toNat_ofNat'⟩

theorem exists_viewAt {e : Entry} (he : e ∈ R) (hside : e.side = .buy ↔ side = .buy) :
    ∃ v, R.viewAt side e.price = some v := by
  have hmem : e ∈ R.restingAt side e.price :=
    List.mem_filter.mpr ⟨he, decide_eq_true ⟨hside, rfl⟩⟩
  exact ⟨_, if_neg (List.ne_nil_of_mem hmem)⟩

end Reference

/-! ## Resting orders -/

namespace OrderBook

/-- The orders of a book, read through its locators. -/
def restingOrders (b : OrderBook) : List Entry :=
  b.orders.toList.filterMap fun e =>
    (b.pool.deref e.2.it).map fun o => ⟨e.1, e.2.side, e.2.price, o.quantity⟩

/-- The queue of a price with the orders in its nodes, front first. -/
def queueAt (b : OrderBook) (side : Side) (p : Price) : List (Option RestingOrder) :=
  ((b.levelAt side p).map fun lvl => lvl.orders.map b.pool.deref).getD []

namespace Refines

variable {b : OrderBook} {R : Reference}

theorem restingOrders_perm (h : b.Refines R) : b.restingOrders.Perm R := by
  obtain ⟨L, hL, -, rfl⟩ := h
  have htable : b.orders.toList.Perm (L.map fun c => (c.id, c.location)) := by
    refine (List.perm_ext_iff_of_nodup (nodup_toList _) ?_).mpr ?_
    · refine List.Nodup.of_map Prod.fst ?_
      rw [List.map_map]
      exact hL.ids
    · rintro ⟨id, loc⟩
      rw [ExtTreeMap.mem_toList_iff_getElem?_eq_some, hL.orders, Option.map_eq_some_iff]
      simp only [hL.ids.lookup_eq_some_iff, List.mem_map, Prod.mk.injEq, and_assoc]
  refine (htable.filterMap _).trans ?_
  rw [List.filterMap_map, ← List.filterMap_eq_map]
  refine .of_eq (List.filterMap_congr ?_)
  intro c hc
  have hderef : b.pool.deref c.location.it = some c.order := hL.deref_of_mem hc
  rw [Function.comp_apply, hderef]
  rfl

theorem restingAt_map (side : Side) (p : Price) (L : List Cell) :
    Reference.restingAt side p (L.map Cell.entry) =
      (queue p (L.filter (Represents.onSide side))).map Cell.entry := by
  rw [Reference.restingAt, List.filter_map, queue, List.filter_filter]
  refine congrArg _ (List.filter_congr ?_)
  intro c _
  rw [Function.comp_apply, Represents.onSide, ← Bool.decide_and]
  exact decide_eq_decide.mpr and_comm

/-- A level shows what the orders at its price show. -/
theorem view_levelAt (h : b.Refines R) (side : Side) (p : Price) :
    (b.levelAt side p).map PriceLevel.view = R.viewAt side p := by
  obtain ⟨L, hL, -, rfl⟩ := h
  rw [hL.levelAt_eq, Reference.viewAt, restingAt_map, levelOf]
  by_cases hq : queue p (L.filter (Represents.onSide side)) = []
  · simp [hq]
  · simp [hq, PriceLevel.view, total, Cell.entry, Function.comp_def]

/-- A queue is the orders at its price, oldest first. -/
theorem queueAt_eq (h : b.Refines R) (side : Side) (p : Price) :
    b.queueAt side p = (R.restingAt side p).map fun e => some ⟨e.id, e.qty⟩ := by
  obtain ⟨L, hL, -, rfl⟩ := h
  rw [queueAt, hL.levelAt_eq, restingAt_map, levelOf]
  split_ifs with hq
  · simp [hq]
  · simp only [Option.map_some, Option.getD_some, List.map_map]
    refine List.map_congr_left ?_
    intro c hc
    exact hL.deref_of_mem (List.mem_filter.mp (List.mem_filter.mp hc).1).1

end Refines

/-! ## The symbol -/

section
variable {b b' : OrderBook}

theorem insertOn_symbol (b : OrderBook) (side : Side) (price : Price) (id : OrderId)
    (qty : Quantity) : (b.insertOn side price id qty).1.symbol = b.symbol := by
  unfold insertOn
  split <;> rfl

theorem eraseOn_symbol {loc : OrderLocation} (h : b.eraseOn loc = some b') :
    b'.symbol = b.symbol := by
  unfold eraseOn at h
  split_ifs at h
  all_goals
    obtain ⟨_, _, h⟩ := Option.bind_eq_some_iff.mp h
    obtain rfl := Option.some.inj h
    rfl

theorem subTotalOn_symbol {loc : OrderLocation} {delta : Quantity}
    (h : b.subTotalOn loc delta = some b') : b'.symbol = b.symbol := by
  unfold subTotalOn at h
  split_ifs at h
  all_goals
    obtain ⟨_, _, h⟩ := Option.bind_eq_some_iff.mp h
    obtain rfl := Option.some.inj h
    rfl

theorem cancel_symbol {id : OrderId} {ret : Bool} (h : b.cancel id = some (b', ret)) :
    b'.symbol = b.symbol := by
  unfold cancel at h
  cases hid : b.orders[id]? with
  | none => grind
  | some loc =>
    simp only [hid] at h
    obtain ⟨b₁, herase, h⟩ := Option.bind_eq_some_iff.mp h
    obtain ⟨rfl, -⟩ := Prod.mk.inj (Option.some.inj h)
    have hsymbol := eraseOn_symbol herase
    exact hsymbol

/-- No call changes the symbol. -/
theorem apply_symbol {op : Op} {ret : Bool} (h : b.apply op = some (b', ret)) :
    b'.symbol = b.symbol := by
  cases op with
  | add id side price qty => grind [apply, add, insertOn_symbol]
  | cancel id => exact cancel_symbol h
  | modify id newPrice newQty =>
    rw [apply, modify] at h
    split_ifs at h
    · exact cancel_symbol h
    cases hid : b.orders[id]? with
    | none => grind
    | some loc =>
      simp only [hid] at h
      obtain ⟨o, -, h⟩ := Option.bind_eq_some_iff.mp h
      split_ifs at h
      · obtain ⟨b₁, hsub, h⟩ := Option.bind_eq_some_iff.mp h
        obtain ⟨rfl, -⟩ := Prod.mk.inj (Option.some.inj h)
        have hsymbol := subTotalOn_symbol hsub
        exact hsymbol
      · obtain ⟨b₁, herase, h⟩ := Option.bind_eq_some_iff.mp h
        obtain ⟨rfl, -⟩ := Prod.mk.inj (Option.some.inj h)
        exact (insertOn_symbol ..).trans (eraseOn_symbol herase)
  | execute restingId qty =>
    rw [apply, execute] at h
    cases hid : b.orders[restingId]? with
    | none => grind
    | some loc =>
      simp only [hid] at h
      obtain ⟨o, -, h⟩ := Option.bind_eq_some_iff.mp h
      obtain ⟨b₁, hsub, h⟩ := Option.bind_eq_some_iff.mp h
      obtain ⟨o', -, h⟩ := Option.bind_eq_some_iff.mp h
      have hsymbol := subTotalOn_symbol hsub
      split_ifs at h
      · obtain ⟨b₂, herase, h⟩ := Option.bind_eq_some_iff.mp h
        obtain ⟨rfl, -⟩ := Prod.mk.inj (Option.some.inj h)
        have herased := eraseOn_symbol herase
        exact herased.trans hsymbol
      · obtain ⟨rfl, -⟩ := Prod.mk.inj (Option.some.inj h)
        exact hsymbol
  | clear => grind [apply, clear]

end

/-! ## Depth queries -/

/-- What a depth query has to list of the orders `R`: of the side that `side` selects, which
has `levels` levels, the `depth` best prices at which an order rests, best first, each with
the sum of the quantities and the number of its orders. -/
structure ListsBest (R : List Entry) (side : Side) (better : Price → Price → Prop)
    (levels depth : Nat) (views : List LevelView) : Prop where
  length : views.length = min depth levels
  bestFirst : views.Pairwise fun v w => better v.price w.price
  totals : ∀ v ∈ views, Reference.restingAt side v.price R ≠ [] ∧
    v.quantity.toNat = ((Reference.restingAt side v.price R).map (·.qty.toNat)).sum % 2 ^ 32 ∧
    v.orderCount.toNat = (Reference.restingAt side v.price R).length % 2 ^ 32
  best : ∀ e ∈ R, (e.side = .buy ↔ side = .buy) → (∃ v ∈ views, v.price = e.price) ∨
    (views.length = depth ∧ ∀ v ∈ views, better v.price e.price)

section
variable {cmp : Price → Price → Ordering} [TransCmp cmp] [LawfulEqCmp cmp] {m : LevelMap cmp}
  {R : Reference} {side : Side}

/-- A map whose levels show what rests at their prices answers with the best of them. -/
theorem listsBest_topLevels (hview : ∀ p, (m[p]?).map PriceLevel.view = R.viewAt side p)
    {better : Price → Price → Prop} (hbetter : ∀ {p p'}, cmp p p' = .lt → better p p')
    (depth : Nat) : ListsBest R side better m.size depth (topLevels m depth) := by
  have hshown : ∀ e ∈ m.toList, R.viewAt side e.1 = some (PriceLevel.view e.2) := by
    intro e he
    rw [← hview, ExtTreeMap.mem_toList_iff_getElem?_eq_some.mp he, Option.map_some]
  have hprice : ∀ e ∈ m.toList, (PriceLevel.view e.2).price = e.1 :=
    fun e he => (Reference.viewAt_eq_some (hshown e he)).1
  have hsorted : m.toList.Pairwise fun e e' =>
      better (PriceLevel.view e.2).price (PriceLevel.view e'.2).price := by
    refine m.ordered_keys_toList.imp_of_mem ?_
    intro e e' he he' hlt
    rw [hprice e he, hprice e' he']
    exact hbetter hlt
  rw [topLevels_eq]
  refine ⟨?_, ?_, ?_, ?_⟩
  · rw [List.length_map, List.length_take, ExtTreeMap.length_toList]
  · exact List.pairwise_map.mpr (hsorted.sublist (List.take_sublist _ _))
  · intro v hv
    obtain ⟨e, he, rfl⟩ := List.mem_map.mp hv
    have he := List.mem_of_mem_take he
    rw [hprice e he]
    exact (Reference.viewAt_eq_some (hshown e he)).2
  · intro e he hside
    obtain ⟨v, hv⟩ := Reference.exists_viewAt he hside
    rw [← hview] at hv
    obtain ⟨lvl, hlvl, rfl⟩ := Option.map_eq_some_iff.mp hv
    have hmem : (e.price, lvl) ∈ m.toList := ExtTreeMap.mem_toList_iff_getElem?_eq_some.mpr hlvl
    rw [← List.take_append_drop depth m.toList] at hsorted hmem
    have hshow : (PriceLevel.view lvl).price = e.price :=
      hprice _ (ExtTreeMap.mem_toList_iff_getElem?_eq_some.mpr hlvl)
    rcases List.mem_append.mp hmem with htake | hdrop
    · exact .inl ⟨_, List.mem_map_of_mem htake, hshow⟩
    · -- The level comes after the cut, so the list is full and all of it is better.
      refine .inr ⟨?_, ?_⟩
      · have hpos := List.length_pos_of_mem hdrop
        rw [List.length_drop] at hpos
        rw [List.length_map, List.length_take]
        omega
      · intro v hv
        obtain ⟨e', he', rfl⟩ := List.mem_map.mp hv
        exact hshow ▸ (List.pairwise_append.mp hsorted).2.2 e' he' _ hdrop

omit [LawfulEqCmp cmp] in
theorem topLevels_prefix (m : LevelMap cmp) {depth depth' : Nat} (h : depth ≤ depth') :
    topLevels m depth <+: topLevels m depth' := by
  rw [topLevels_eq, topLevels_eq]
  exact (List.take_prefix_take_left h).map _

omit [LawfulEqCmp cmp] in
theorem head?_topLevels (m : LevelMap cmp) :
    (topLevels m 1).head? = (first? m).map fun e => PriceLevel.view e.2 := by
  rw [topLevels_eq, first?]
  cases m.toList <;> rfl

end

/-- The declared number of levels of a snapshot is that of the views it was built from. -/
theorem toNat_ofNat_length {views : List LevelView} (h : views.length ≤ kMaxSnapshotLevels) :
    (UInt8.ofNat views.length).toNat = views.length := by
  rw [UInt8.toNat_ofNat']
  exact Nat.mod_eq_of_lt (h.trans_lt (by decide))

/-- The depth queries list the resting orders of `b` and agree with each other. -/
structure AnswersDepth (b : OrderBook) : Prop where
  bids : ∀ depth, ListsBest b.restingOrders .buy (· > ·) b.bidLevels depth (b.topBids depth)
  asks : ∀ depth, ListsBest b.restingOrders .sell (· < ·) b.askLevels depth (b.topAsks depth)
  bidsPrefix : ∀ depth depth', depth ≤ depth' → b.topBids depth <+: b.topBids depth'
  asksPrefix : ∀ depth depth', depth ≤ depth' → b.topAsks depth <+: b.topAsks depth'
  bestBid : b.bestBid = (b.topBids 1).head?
  bestAsk : b.bestAsk = (b.topAsks 1).head?
  snapshotBids : b.snapshot.numBidLevels.toNat = (b.topBids 5).length ∧
    b.snapshot.bids.val = (b.topBids 5).map (fun v => ⟨v.price, v.quantity⟩) ++
      List.replicate (5 - (b.topBids 5).length) ⟨0, 0⟩
  snapshotAsks : b.snapshot.numAskLevels.toNat = (b.topAsks 5).length ∧
    b.snapshot.asks.val = (b.topAsks 5).map (fun v => ⟨v.price, v.quantity⟩) ++
      List.replicate (5 - (b.topAsks 5).length) ⟨0, 0⟩

namespace Refines

variable {b : OrderBook} {R : Reference}

theorem view_bids (h : b.Refines R) (p : Price) :
    (b.bids[p]?).map PriceLevel.view = R.viewAt .buy p := by
  rw [← h.view_levelAt, levelAt, if_pos rfl]

theorem view_asks (h : b.Refines R) (p : Price) :
    (b.asks[p]?).map PriceLevel.view = R.viewAt .sell p := by
  rw [← h.view_levelAt, levelAt, if_neg (by decide)]

theorem answersDepth (h : b.Refines R) : b.AnswersDepth where
  bids := by
    refine listsBest_topLevels (R := b.restingOrders) ?_ fun hlt => Std.compare_eq_lt.mp hlt
    intro p
    rw [h.view_bids]
    exact (Reference.viewAt_perm h.restingOrders_perm).symm
  asks := by
    refine listsBest_topLevels (R := b.restingOrders) ?_ fun hlt => Std.compare_eq_lt.mp hlt
    intro p
    rw [h.view_asks]
    exact (Reference.viewAt_perm h.restingOrders_perm).symm
  bidsPrefix _ _ := topLevels_prefix b.bids
  asksPrefix _ _ := topLevels_prefix b.asks
  bestBid := (head?_topLevels b.bids).symm
  bestAsk := (head?_topLevels b.asks).symm
  snapshotBids := ⟨toNat_ofNat_length (length_topLevels_le _ _), rfl⟩
  snapshotAsks := ⟨toNat_ofNat_length (length_topLevels_le _ _), rfl⟩

end Refines

/-- In every state that calls with arbitrary arguments reach from an empty book, for every
depth, the queries list the best prices of the resting orders and agree with each other. -/
theorem run_depth (symbol : SymbolId) (ops : List Op) :
    ∃ b rets, OrderBook.run { symbol } ops = some (b, rets) ∧ b.AnswersDepth := by
  obtain ⟨b, hrun, hR⟩ := (Refines.empty symbol).run ops
  exact ⟨b, _, hrun, hR.answersDepth⟩

end OrderBook

end Mdfh
