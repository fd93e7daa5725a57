import Mdfh.SimulatorRun
import Mdfh.BookDepth

/-!
# The simulator's snapshots are those of the reconstructed book

The simulator keeps the depth of each side in a map of quantities, ascending on both sides,
and walks the bids backwards; the book keeps a descending map of queues. Both show the sums
of the same flat list of orders, so the same levels come out.

## Main definitions

* `BookBuilder.rebuild` — the books that a list of messages builds.

## Main results

* `Models.makeSnapshot_eq` — the two aggregations of one list.
* `MarketSimulator.emit_snapshots` — every emitted snapshot.
-/

namespace Mdfh

open Std Library Library.Keyed Library.OrdMap

/-! ## One list, two aggregations -/

theorem depth_eq_sum {R : Reference} {bids : Bool} {side : Side} (h : side = .buy ↔ bids = true)
    (p : Price) : depth bids R p = ((R.restingAt side p).map (·.qty.toNat)).sum := by
  induction R with
  | nil => rfl
  | cons e R ih =>
    have hmatch : (e.onBids = bids ∧ e.price = p) ↔
        ((e.side = .buy ↔ side = .buy) ∧ e.price = p) := by
      rw [h, Entry.onBids]
      cases bids <;> simp
    rw [depth, Reference.restingAt] at ih ⊢
    rw [List.map_cons, List.sum_cons, ih, weight, List.filter_cons]
    simp only [hmatch, decide_eq_true_eq]
    split_ifs
    · rfl
    · exact Nat.zero_add _

namespace OrderBook

/-- The totals of the levels of one side are the depth of the list. -/
theorem Refines.total_levelAt {b : OrderBook} {R : Reference} (h : b.Refines R) {bids : Bool}
    {side : Side} (hside : side = .buy ↔ bids = true) (p : Price) :
    (b.levelAt side p).map (·.totalQuantity) =
      if depth bids R p = 0 then none else some (UInt32.ofNat (depth bids R p)) := by
  have hview := congrArg (Option.map LevelView.quantity) (h.view_levelAt side p)
  have hpos : ∀ e ∈ R, 0 < e.qty.toNat := by
    obtain ⟨L, -, hpos, rfl⟩ := h
    intro e he
    obtain ⟨c, hc, rfl⟩ := List.mem_map.mp he
    exact Nat.pos_of_ne_zero fun hzero => hpos c hc (UInt32.toNat_inj.mp hzero)
  have hzero : depth bids R p = 0 ↔ R.restingAt side p = [] := by
    rw [depth_eq_sum hside, List.sum_eq_zero_iff]
    constructor
    · intro hall
      refine List.eq_nil_iff_forall_not_mem.mpr ?_
      intro e he
      have hqty := hall _ (List.mem_map_of_mem he)
      exact (hpos e (List.mem_filter.mp he).1).ne' hqty
    · intro hnil
      simp [hnil]
  rw [Option.map_map] at hview
  rw [show (b.levelAt side p).map (·.totalQuantity) = _ from hview, Reference.viewAt]
  simp only [hzero, ← depth_eq_sum hside]
  split_ifs <;> rfl

end OrderBook

namespace SymbolState.Models

variable {s : SymbolState} {R : Reference} {b : OrderBook}

theorem bidQty_toList (h : s.Models R) (hb : b.Refines R) :
    s.bidQty.toList.reverse = b.bids.toList.map fun e => (e.1, e.2.totalQuantity) := by
  have hsame (p : Price) : s.bidQty[p]? = (b.bids.map fun _ lvl => lvl.totalQuantity)[p]? := by
    have htotal := hb.total_levelAt (show Side.buy = .buy ↔ true = true by decide) p
    rw [OrderBook.levelAt, if_pos rfl] at htotal
    rw [ExtTreeMap.getElem?_map, htotal]
    exact (h.depths.bids p).2
  rw [← toList_flip hsame, ExtTreeMap.toList_map]

theorem askQty_toList (h : s.Models R) (hb : b.Refines R) :
    s.askQty.toList = b.asks.toList.map fun e => (e.1, e.2.totalQuantity) := by
  have hsame : s.askQty = b.asks.map fun _ lvl => lvl.totalQuantity := by
    refine ExtTreeMap.ext_getElem? ?_
    intro p
    have htotal := hb.total_levelAt (show Side.sell = .buy ↔ false = true by decide) p
    rw [OrderBook.levelAt, if_neg (by decide)] at htotal
    rw [ExtTreeMap.getElem?_map, htotal]
    exact (h.depths.asks p).2
  rw [hsame, ExtTreeMap.toList_map]

/-- Both arrays of a snapshot: the first five levels, then zeros. -/
theorem ofDepth_eq {cmp : Price → Price → Ordering} [TransCmp cmp] {m : LevelMap cmp}
    {levels : List (Price × Quantity)}
    (hlevels : levels = m.toList.map fun e => (e.1, e.2.totalQuantity))
    (hprice : ∀ e ∈ m.toList, e.2.price = e.1) :
    SnapshotLevels.ofDepth levels = OrderBook.snapshotLevels
      (OrderBook.topLevels m kMaxSnapshotLevels) (OrderBook.length_topLevels_le _ _) := by
  have hviews : (levels.take kMaxSnapshotLevels).map (fun e => (⟨e.1, e.2⟩ : SnapshotLevel)) =
      (OrderBook.topLevels m kMaxSnapshotLevels).map fun v => ⟨v.price, v.quantity⟩ := by
    rw [OrderBook.topLevels_eq, hlevels, ← List.map_take, List.map_map, List.map_map]
    refine List.map_congr_left ?_
    intro e he
    exact congrArg (SnapshotLevel.mk · _) (hprice e (List.mem_of_mem_take he)).symm
  have hlength := congrArg List.length hviews
  rw [List.length_map, List.length_map] at hlength
  refine Subtype.ext ?_
  simp only [SnapshotLevels.ofDepth, OrderBook.snapshotLevels, hviews, hlength]

/-- The simulator's snapshot of a symbol is the book's. -/
theorem makeSnapshot_eq (h : s.Models R) (hb : b.Refines R) :
    makeSnapshot b.symbol s = b.snapshot := by
  have hagree := hb.locatorAgreement
  have hbids := h.bidQty_toList hb
  have hasks := h.askQty_toList hb
  have hbidSize : s.bidQty.size = b.bids.size := by
    simpa [ExtTreeMap.length_toList] using congrArg List.length hbids
  have haskSize : s.askQty.size = b.asks.size := by
    simpa [ExtTreeMap.length_toList] using congrArg List.length hasks
  have hcount {cmp : Price → Price → Ordering} [TransCmp cmp] (m : LevelMap cmp) :
      (OrderBook.topLevels m kMaxSnapshotLevels).length = min m.size kMaxSnapshotLevels := by
    rw [OrderBook.topLevels_eq, List.length_map, List.length_take, ExtTreeMap.length_toList]
    exact Nat.min_comm _ _
  simp only [makeSnapshot, OrderBook.snapshot, OrderBook.topBids, OrderBook.topAsks, hbidSize,
    haskSize, ← hcount]
  congr 1
  · refine ofDepth_eq hbids fun e he => ?_
    exact (hagree.levels _ _ _ (OrderBook.levelAt_of_mem_bids he)).2.1
  · refine ofDepth_eq hasks fun e he => ?_
    exact (hagree.levels _ _ _ (OrderBook.levelAt_of_mem_asks he)).2.1

end SymbolState.Models

/-! ## Emitted snapshots -/

/-- The builder after the messages, handed over without a wire in between. -/
def BookBuilder.rebuild (ms : List GeneratedMessage) : BookBuilder :=
  ms.foldl (fun b m => builderHandler.onMessage m.dispatch.header m.dispatch.body b) {}

theorem BookBuilder.rebuild_concat (ms : List GeneratedMessage) (m : GeneratedMessage) :
    rebuild (ms ++ [m]) =
      builderHandler.onMessage m.dispatch.header m.dispatch.body (rebuild ms) := by
  rw [rebuild, List.foldl_append]
  rfl

namespace BookManager

/-- Every book carries the symbol it is filed under. -/
def Labelled (m : BookManager) : Prop := ∀ symbol, (m.book symbol).val.symbol = symbol

theorem labelled_empty : Labelled {} := by
  intro symbol
  have hempty : book {} symbol = Book.empty symbol := ExtTreeMap.getD_empty
  rw [hempty]
  rfl

theorem Labelled.touch {m : BookManager} (h : m.Labelled) (body : Body) :
    (m.touch body).1.Labelled := by
  unfold BookManager.touch
  cases body.op with
  | none => exact h
  | some e =>
    obtain ⟨symbol, op⟩ := e
    intro symbol'
    rw [book_setBook]
    split_ifs with hsymbol
    · subst hsymbol
      exact (OrderBook.apply_symbol (Book.apply_val _ op)).trans (h symbol)
    · exact h symbol'

end BookManager

namespace MarketSimulator

variable {rng : Rng} {cfg : SimConfig} {sim : MarketSimulator rng}

section
variable (sym : SymbolId) (d : Draft rng)

/-- The four fills of the action mix are not snapshots. -/
theorem fillAdd_type : Ensures (fun _ => True) (fillAdd cfg sym d)
    fun d' => d'.out.type ≠ .bookSnapshot := by
  refine (Ensures.any _).bind fun ⟨_, _⟩ _ => ?_
  refine (Ensures.any _).bind fun ⟨_, _⟩ _ => ?_
  refine (Ensures.any _).bind fun ⟨_, _⟩ _ => ?_
  exact fun h => MsgType.noConfusion h

theorem fillCancel_type : Ensures (fun _ => True) (fillCancel sym d)
    fun r => ∀ d', r = some d' → d'.out.type ≠ .bookSnapshot := by
  unfold fillCancel
  split_ifs
  · exact Ensures.pure_none
  refine (Ensures.any _).bind fun ⟨_, _⟩ _ => ?_
  refine (Ensures.any _).bind fun _ _ => ?_
  rintro _ ⟨⟩
  exact fun h => MsgType.noConfusion h

theorem fillModify_type : Ensures (fun _ => True) (fillModify cfg sym d)
    fun r => ∀ d', r = some d' → d'.out.type ≠ .bookSnapshot := by
  unfold fillModify
  split_ifs
  · exact Ensures.pure_none
  refine (Ensures.any _).bind fun ⟨_, _⟩ _ => ?_
  refine (Ensures.any _).bind fun _ _ => ?_
  refine (Ensures.any _).bind fun ⟨_, _⟩ _ => ?_
  refine (Ensures.any _).bind fun ⟨_, _⟩ _ => ?_
  rintro _ ⟨⟩
  exact fun h => MsgType.noConfusion h

theorem fillTrade_type : Ensures (fun _ => True) (fillTrade sym d)
    fun r => ∀ d', r = some d' → d'.out.type ≠ .bookSnapshot := by
  unfold fillTrade
  split_ifs
  · exact Ensures.pure_none
  refine (Ensures.any _).bind fun ⟨_, _⟩ _ => ?_
  refine (Ensures.any _).bind fun _ _ => ?_
  refine (Ensures.any _).bind fun ⟨_, _⟩ _ => ?_
  dsimp only
  split_ifs
  · refine (Ensures.any _).bind fun _ _ => ?_
    rintro _ ⟨⟩
    exact fun h => MsgType.noConfusion h
  · rintro _ ⟨⟩
    exact fun h => MsgType.noConfusion h

theorem fillMix_type (r : Int32) : Ensures (fun _ => True) (fillMix cfg r sym d)
    fun r => ∀ d', r = some d' → d'.out.type ≠ .bookSnapshot := by
  unfold fillMix
  split_ifs
  · refine Ensures.map ((fillAdd_type sym d).mono fun d' hd' => ?_)
    rintro _ ⟨⟩
    exact hd'
  · exact fillCancel_type sym d
  · exact fillModify_type sym d
  · exact fillTrade_type sym d

/-- A snapshot is taken of the symbol it names, as the symbol is. -/
theorem fill_snapshot (idx : UInt64) : Ensures (fun _ => True) (fill cfg idx sym d)
    fun d' => d'.out.type = .bookSnapshot → d'.out.snap = makeSnapshot sym d.s := by
  unfold fill
  split_ifs
  · exact fun h => MsgType.noConfusion h
  · exact fun _ => rfl
  refine (Ensures.any _).bind fun ⟨r, g⟩ _ => ?_
  refine (fillMix_type sym _ _).bind ?_
  intro done hdone
  cases done with
  | some d' => exact fun h => absurd h (hdone d' rfl)
  | none => exact (fillAdd_type sym _).mono fun d' hd' h => absurd h hd'

end

theorem access_some {α : Type} (o : Option α) :
    Ensures (fun _ => True) (access o) fun a => o = some a := by
  cases o with
  | none => trivial
  | some a => exact rfl

/-- A snapshot that `next` emits is of a symbol's state before the call. -/
theorem next_snapshot (sim : MarketSimulator rng) :
    Ensures (fun _ => True) sim.next fun r => ∀ m, r.2 = some m → m.type = .bookSnapshot →
      ∃ (sym : SymbolId) (s : SymbolState),
        sim.symbols[sym.toNat]? = some s ∧ m.snap = makeSnapshot sym s := by
  unfold next
  split_ifs
  · refine Ensures.pure.mpr fun m hm => ?_
    exact nomatch hm
  refine (uniform_ensures (Nat.zero_le _) sim.g).bind ?_
  rintro ⟨i, g⟩ hi
  have hsym : (UInt32.ofNat i).toNat = i :=
    UInt32.toNat_ofNat_of_lt' (hi.2.trans_lt (UInt32.toNat_lt _))
  refine (access_some _).bind fun s hs => ?_
  refine (fill_snapshot _ _ _).bind fun d hd => ?_
  rintro _ ⟨⟩ htype
  exact ⟨UInt32.ofNat i, s, (congrArg (sim.symbols[·]?) hsym).trans hs, hd htype⟩

/-- What holds of a simulator and of the messages it has emitted: the books that these
messages build have the simulator's orders, and every snapshot among them is that of the
book that the messages before it build. -/
structure Emitted (cfg : SimConfig) (sim : MarketSimulator rng) (ms : List GeneratedMessage) :
    Prop where
  orders : ∃ R, sim.Inv cfg R ∧ (BookBuilder.rebuild ms).manager.Holds R
  labelled : (BookBuilder.rebuild ms).manager.Labelled
  length : ms.length = sim.produced.toNat
  snapshots : ∀ before m after, ms = before ++ m :: after → m.type = .bookSnapshot →
    m.snap = ((BookBuilder.rebuild before).manager.book m.snap.symbol).val.snapshot

theorem Emitted.concat {ms : List GeneratedMessage} (h : Emitted cfg sim ms)
    {sim' : MarketSimulator rng} {m : GeneratedMessage} {R : SymbolId → Reference}
    {sym : SymbolId} {R' : Reference}
    (hholds : (BookBuilder.rebuild ms).manager.Holds R) (hemits : Emits sym (R sym) m R')
    (hsim' : sim'.Inv cfg (Function.update R sym R'))
    (hproduced : sim'.produced.toNat = sim.produced.toNat + 1)
    (hsnap : m.type = .bookSnapshot →
      m.snap = ((BookBuilder.rebuild ms).manager.book m.snap.symbol).val.snapshot) :
    Emitted cfg sim' (ms ++ [m]) where
  orders := by
    rw [BookBuilder.rebuild_concat]
    exact ⟨_, hsim', (BookBuilder.onMessage_of_emits _ hholds hemits).1⟩
  labelled := by
    rw [BookBuilder.rebuild_concat, BookBuilder.onMessage_eq]
    exact h.labelled.touch _
  length := by
    rw [List.length_append, h.length, hproduced]
    rfl
  snapshots := by
    intro before m' after hsplit
    cases List.eq_nil_or_concat after with
    | inl hnil =>
      subst hnil
      obtain ⟨rfl, hm⟩ := List.append_inj' hsplit rfl
      obtain rfl : m = m' := List.head_eq_of_cons_eq hm
      exact hsnap
    | inr hconcat =>
      obtain ⟨after', last, rfl⟩ := hconcat
      rw [List.concat_eq_append, ← List.cons_append, ← List.append_assoc] at hsplit
      exact h.snapshots before m' after' (List.append_inj' hsplit rfl).1

theorem emit_ensures (rng : Rng) (hcfg : cfg.Valid) (n : Nat) :
    Ensures Overflows (emit rng cfg n) fun r => Emitted cfg r.1 r.2 ∧
      r.1.produced.toNat = min n cfg.numMessages.toNat := by
  induction n with
  | zero =>
    refine (new_ensures rng hcfg).bind ?_
    rintro sim ⟨hsim, hproduced⟩
    have hzero : sim.produced.toNat = 0 := congrArg UInt64.toNat hproduced
    refine ⟨⟨⟨_, hsim, BookManager.holds_empty⟩, BookManager.labelled_empty, hzero.symm, ?_⟩,
      hzero.trans (Nat.zero_min _).symm⟩
    intro before m after hsplit
    exact absurd hsplit.symm (List.append_ne_nil_of_right_ne_nil _ (List.cons_ne_nil _ _))
  | succ n ih =>
    refine ih.bind ?_
    rintro ⟨sim, ms⟩ ⟨h, hproduced⟩
    obtain ⟨R, hsim, hholds⟩ := h.orders
    refine ((next_ensures hcfg hsim).and (next_snapshot sim)).bind ?_
    rintro ⟨sim', out⟩ ⟨hnext, hsnap⟩
    rcases hnext with ⟨hsame, hdone⟩ | ⟨m, sym, R', hout, -, hemits, hsim', hproduced'⟩
    · obtain ⟨rfl, rfl⟩ := Prod.mk.inj hsame
      refine ⟨by simpa using h, ?_⟩
      rw [hdone]
      exact (Nat.min_eq_right (by omega)).symm
    · obtain rfl : out = some m := hout
      have hle : sim'.produced.toNat ≤ cfg.numMessages.toNat := hsim'.produced_le
      simp only at hproduced hproduced'
      refine ⟨h.concat hholds hemits hsim' hproduced' ?_, by simp only; omega⟩
      intro htype
      obtain ⟨sym, s, hs, hmake⟩ := hsnap m rfl htype
      have hbook := h.labelled sym
      rw [hmake, show (makeSnapshot sym s).symbol = sym from rfl,
        ← (hsim.symbols sym s hs).models.makeSnapshot_eq (hholds sym), hbook]

/-- However many messages are asked for, whatever the weights (their sums wrap, see `fillMix`),
the intervals and the numbers drawn: unless a computed price leaves the 64-bit range, the
messages come, and each snapshot among them is, field for field, that of the book of its symbol
that the builder reconstructs from the messages before it. -/
theorem emit_snapshots (rng : Rng) (hcfg : cfg.Valid) (n : Nat)
    (hprices : emit rng cfg n ≠ .error .priceOverflow) :
    ∃ sim ms, emit rng cfg n = .ok (sim, ms) ∧ ms.length = min n cfg.numMessages.toNat ∧
      ∀ before m after, ms = before ++ m :: after → m.type = .bookSnapshot →
        m.snap = ((BookBuilder.rebuild before).manager.book m.snap.symbol).val.snapshot := by
  obtain ⟨⟨sim, ms⟩, hemit, h, hproduced⟩ :=
    (emit_ensures rng hcfg n).exists_ok fun e he => he ▸ hprices
  exact ⟨sim, ms, hemit, h.length.trans hproduced, h.snapshots⟩

/-- Two of the twelve messages are snapshots. -/
theorem emit_snapshots_short :
    ∃ sim ms, emit Loopback.congruential Loopback.shortConfig 13 = .ok (sim, ms) ∧
      ms.length = 12 ∧ ∀ before m after, ms = before ++ m :: after → m.type = .bookSnapshot →
        m.snap = ((BookBuilder.rebuild before).manager.book m.snap.symbol).val.snapshot :=
  emit_snapshots Loopback.congruential Loopback.shortConfig_valid 13 Loopback.emit_short

end MarketSimulator

end Mdfh
